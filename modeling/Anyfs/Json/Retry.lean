import Anyfs.Json.Writer

/-!
# The callers of the JSON writer

`callStringOut` and `JsonOutWorker` call an operation again with a larger buffer when it returns a
negative number whose absolute value is above the size of the buffer. Smaller ones are error codes.
-/

namespace Anyfs

open List Option CString

/-- How a loop ends: with a text, with the error `rc=`, or after too many rounds. -/
inductive OutResult
  | text (s : Bytes)
  | rc (n : ℤ)
  | keepsRequesting
  deriving DecidableEq

/-- The results of the calls, and what comes of them. -/
structure OutRun where
  rets : List ℤ
  result : OutResult
  deriving DecidableEq

/-- What fresh memory holds. -/
structure Heap where
  alloc : ℕ → Bytes
  length_alloc : ∀ n, (alloc n).length = n

/-- The vector of `JsonOutWorker` is filled with zeros. -/
def Heap.zeros : Heap := ⟨fun n => replicate n 0, fun _ => length_replicate⟩

/-- The calls of an operation: the buffer and the return value, or nothing for undefined behaviour.
-/
abbrev OutOp := ℕ → Bytes → Option (Bytes × ℤ)

/-- The loop of both callers, over the rounds that remain. Sizes are passed on as `size_t`. -/
def retryLoop (t : Abi) (heap : Heap) (read : Bytes → ℕ → Option Bytes) :
    ℕ → OutOp → ℕ → Option OutRun
  | 0, _, _ => some ⟨[], .keepsRequesting⟩
  | rounds + 1, op, cap => do
    let (buf, n) ← op 0 (heap.alloc (cap % 2 ^ t.sizeBits))
    if 0 ≤ n then
      let s ← read buf n.toNat
      return ⟨[n], .text s⟩
    else
      let need := (-n).toNat
      if need ≤ cap then return ⟨[n], .rc n⟩
      else
        let r ← retryLoop t heap read rounds (fun i => op (i + 1)) (max (need + 256) (cap * 2))
        return { r with rets := n :: r.rets }

/-- `UTF8ToString`: the bytes it decodes, up to a zero byte. -/
def utf8ToString (buf : Bytes) (n : ℕ) : Option Bytes :=
  if n ≤ buf.length then some (cstr (buf.take n)) else none

/-- The constructor of `std::string` from a pointer and a size. -/
def stdString (buf : Bytes) (n : ℕ) : Option Bytes :=
  if n ≤ buf.length then some (buf.take n) else none

def callStringOut (heap : Heap) (op : OutOp) (initialCap : ℕ) : Option OutRun :=
  retryLoop .wasm32 heap utf8ToString 6 op initialCap

/-- `JsonOutWorker::Execute`. -/
def jsonOutWorker (op : OutOp) : Option OutRun :=
  retryLoop .native64 .zeros stdString 6 op 8192

/-- A document as an operation on a buffer. -/
def jsonOp (t : Abi) (calls : List WriterCall) : OutOp := fun _ buf =>
  let r := writeDocument t calls buf
  if r.1.outside = [] then r.2.map fun n => (r.1.buf, n) else none

/-! ### Documents -/

variable {t : Abi} {heap : Heap} {read : Bytes → ℕ → Option Bytes} {calls : List WriterCall}

theorem jsonOp_of_lt {buf : Bytes} (i : ℕ) (hlen : (document calls).length < 2 ^ 31)
    (hfit : (document calls).length < buf.length) :
    jsonOp t calls i buf =
      some (document calls ++ 0 :: buf.drop ((document calls).length + 1),
        ((document calls).length : ℤ)) := by
  rw [jsonOp, writeDocument_of_lt hlen hfit]
  rfl

theorem jsonOp_of_ge {buf : Bytes} (i : ℕ) (hlen : (document calls).length < 2 ^ 31 - 1)
    (hfit : buf.length ≤ (document calls).length) :
    ∃ buf', jsonOp t calls i buf = some (buf', -((document calls).length + 1 : ℤ)) := by
  have hbits := t.le_sizeBits
  have hint := intOfSize_of_lt (n := (document calls).length + 1) (by omega)
  obtain ⟨hout, hret⟩ := writeDocument_of_ge (t := t) (by omega) hfit
  rw [if_neg (by omega), hint] at hret
  refine ⟨(writeDocument t calls buf).1.buf, ?_⟩
  unfold jsonOp
  dsimp only
  rw [if_pos hout, hret, map_some, Int.natCast_add, Int.natCast_one]

/-- A result that is not negative is the length of the document, which the buffer then holds. -/
theorem jsonOp_spec (i : ℕ) (buf : Bytes) (hlen : (document calls).length < 2 ^ 31 - 1) :
    ∃ buf' n, jsonOp t calls i buf = some (buf', n) ∧
      (0 ≤ n ↔ (document calls).length < buf.length) ∧
      (0 ≤ n → buf'.take n.toNat = document calls) := by
  by_cases hfit : (document calls).length < buf.length
  · refine ⟨_, _, jsonOp_of_lt i (by omega) hfit, iff_of_true (Int.natCast_nonneg _) hfit, fun _ =>
      ?_⟩
    rw [Int.toNat_natCast, take_left]
  · obtain ⟨buf', hop⟩ := jsonOp_of_ge (t := t) i hlen (Nat.le_of_not_lt hfit)
    exact ⟨buf', _, hop, iff_of_false (by omega) hfit, fun hpos => absurd hpos (by omega)⟩

variable {cap rounds : ℕ}

theorem retryLoop_fits (hlen : (document calls).length < 2 ^ 31)
    (hread : ∀ rest, read (document calls ++ rest) (document calls).length = some (document calls))
    (hfit : (document calls).length < cap) (hcap : cap < 2 ^ 32) :
    retryLoop t heap read (rounds + 1) (jsonOp t calls) cap =
      some ⟨[((document calls).length : ℤ)], .text (document calls)⟩ := by
  have hmod : cap % 2 ^ t.sizeBits = cap := Nat.mod_eq_of_lt (hcap.trans_le t.le_sizeBits)
  rw [retryLoop, hmod, jsonOp_of_lt 0 hlen (by rw [heap.length_alloc]; exact hfit),
    bind_eq_bind, bind_some]
  dsimp only
  rw [if_pos (Int.natCast_nonneg _), Int.toNat_natCast, hread]
  rfl

theorem retryLoop_document (hlen : (document calls).length < 2 ^ 31 - 1)
    (hread : ∀ rest, read (document calls ++ rest) (document calls).length = some (document calls))
    (hcap : cap ≤ 2 ^ 30) :
    ∃ r, retryLoop t heap read (rounds + 2) (jsonOp t calls) cap = some r ∧
      r.rets.length ≤ 2 ∧ r.result = .text (document calls) := by
  by_cases hfit : (document calls).length < cap
  · exact ⟨_, retryLoop_fits (by omega) hread hfit (by omega), by simp, rfl⟩
  · have hmod : cap % 2 ^ t.sizeBits = cap :=
      Nat.mod_eq_of_lt (lt_of_le_of_lt hcap ((by decide : 2 ^ 30 < 2 ^ 32).trans_le t.le_sizeBits))
    have hge : (heap.alloc cap).length ≤ (document calls).length := by
      rw [heap.length_alloc]
      omega
    obtain ⟨buf', hop⟩ := jsonOp_of_ge (t := t) 0 hlen hge
    have hneed : (-(-((document calls).length + 1 : ℤ))).toNat = (document calls).length + 1 := by
      omega
    -- the second buffer has room for the document and is far from wrapping
    have hnext : retryLoop t heap read (rounds + 1) (jsonOp t calls)
        (max ((document calls).length + 1 + 256) (cap * 2)) =
          some ⟨[((document calls).length : ℤ)], .text (document calls)⟩ :=
      retryLoop_fits (by omega) hread (by omega) (by omega)
    refine ⟨⟨[-((document calls).length + 1 : ℤ), (document calls).length],
      .text (document calls)⟩, ?_, le_rfl, rfl⟩
    rw [retryLoop, hmod, hop, bind_eq_bind, bind_some]
    dsimp only
    rw [if_neg (by omega), hneed, if_neg (by omega)]
    change (retryLoop t heap read (rounds + 1) (jsonOp t calls) _).bind _ = _
    rw [hnext]
    rfl

/-! ### Error codes -/

theorem retryLoop_cases {op : OutOp} {r : OutRun}
    (h : retryLoop t heap read (rounds + 1) op cap = some r) :
    ∃ n, (0 ≤ n ∧ ∃ s, r = ⟨[n], .text s⟩) ∨ (n < 0 ∧ (-n).toNat ≤ cap ∧ r = ⟨[n], .rc n⟩) ∨
      (n < 0 ∧ cap < (-n).toNat ∧ ∃ op' cap' r', cap ≤ cap' ∧
        retryLoop t heap read rounds op' cap' = some r' ∧ r = ⟨n :: r'.rets, r'.result⟩) := by
  rw [retryLoop, bind_eq_bind, bind_eq_some_iff] at h
  obtain ⟨⟨buf, n⟩, -, h⟩ := h
  dsimp only at h
  refine ⟨n, ?_⟩
  split_ifs at h with hpos hneed
  · obtain ⟨s, -, hr⟩ := bind_eq_some_iff.mp h
    exact .inl ⟨hpos, s, (some.inj hr).symm⟩
  · exact .inr (.inl ⟨Int.not_le.mp hpos, hneed, (some.inj h).symm⟩)
  · obtain ⟨r', hr', hr⟩ := bind_eq_some_iff.mp h
    exact .inr (.inr ⟨Int.not_le.mp hpos, Nat.lt_of_not_le hneed, _, _, r', by omega, hr',
      (some.inj hr).symm⟩)

theorem retryLoop_errno {op : OutOp} {r : OutRun} (hcap : 4096 ≤ cap)
    (h : retryLoop t heap read rounds op cap = some r) {pre post : List ℤ} {e : ℤ}
    (hrets : r.rets = pre ++ e :: post) (he : -4095 ≤ e ∧ e ≤ -1) :
    post = [] ∧ r.result = .rc e := by
  induction rounds generalizing op cap r pre with
  | zero =>
    cases h
    exact absurd hrets (by simp)
  | succ rounds ih =>
    obtain ⟨n, ⟨hn, s, rfl⟩ | ⟨-, -, rfl⟩ | ⟨-, hneed, op', cap', r', hcap', hr', rfl⟩⟩ :=
      retryLoop_cases h
    · have hmem : e ∈ pre ++ e :: post := mem_append_right _ mem_cons_self
      rw [← hrets, mem_singleton] at hmem
      omega
    · cases pre with
      | nil =>
        obtain ⟨rfl, hpost⟩ := cons.inj hrets
        exact ⟨hpost.symm, rfl⟩
      | cons x pre => exact absurd hrets (by simp)
    · cases pre with
      | nil =>
        -- a request is larger than the buffer, and no error code is
        obtain ⟨rfl, -⟩ := cons.inj hrets
        omega
      | cons x pre => exact ih (r := r') (hcap.trans hcap') hr' (cons.inj hrets).2

/-! ### The protocol -/

/-- The call writes no zero. -/
def WriterCall.NulFree : WriterCall → Prop
  | .putc c => c ≠ 0
  | .puts s | .escapeStr s => 0 ∉ s
  | .int _ | .uint _ => True
  | .kvStr k v _ => 0 ∉ k ∧ 0 ∉ v
  | .kvInt k _ _ | .kvUint k _ _ => 0 ∉ k

theorem zero_notMem_jsonByte {c : UInt8} (h : c ≠ 0) : 0 ∉ jsonByte c := by
  revert h
  exact UInt8.forall_of_lt (P := fun c => c ≠ 0 → 0 ∉ jsonByte c) (by decide +kernel) c

theorem zero_notMem_jsonString {s : Bytes} (h : 0 ∉ s) : 0 ∉ jsonString s := by
  have hbody : 0 ∉ s.flatMap jsonByte := by
    rw [mem_flatMap]
    rintro ⟨c, hc, hmem⟩
    exact zero_notMem_jsonByte (fun h0 => h (h0 ▸ hc)) hmem
  simp [jsonString, hbody]

theorem zero_notMem_decimal (n : ℕ) : 0 ∉ decimal n := fun h =>
  absurd (isDigit_of_mem_decimal h) (by decide)

theorem zero_notMem_decimalInt (n : ℤ) : 0 ∉ decimalInt n := by
  have hdigits := zero_notMem_decimal n.natAbs
  rw [decimalInt]
  split_ifs <;> simp [hdigits]

theorem zero_notMem_jsonMember {k v : Bytes} (hk : 0 ∉ k) (hv : 0 ∉ v) (comma : Bool) :
    0 ∉ jsonMember k v comma := by
  have hkey := zero_notMem_jsonString hk
  cases comma <;> simp [jsonMember, hkey, hv]

theorem WriterCall.NulFree.text {c : WriterCall} (h : c.NulFree) : 0 ∉ c.text := by
  cases c with
  | putc c => exact fun hmem => h (mem_singleton.mp hmem).symm
  | puts s => exact h
  | escapeStr s => exact zero_notMem_jsonString h
  | int v => exact zero_notMem_decimalInt _
  | uint v => exact zero_notMem_decimal _
  | kvStr k v comma => exact zero_notMem_jsonMember h.1 (zero_notMem_jsonString h.2) comma
  | kvInt k v comma => exact zero_notMem_jsonMember h (zero_notMem_decimalInt _) comma
  | kvUint k v comma => exact zero_notMem_jsonMember h (zero_notMem_decimal _) comma

theorem zero_notMem_document (h : ∀ c ∈ calls, c.NulFree) : 0 ∉ document calls := by
  rw [document, mem_flatMap]
  rintro ⟨c, hc, hmem⟩
  exact (h c hc).text hmem

theorem stdString_append (doc rest : Bytes) : stdString (doc ++ rest) doc.length = some doc := by
  rw [stdString, if_pos (by simp), take_left]

theorem utf8ToString_append {doc : Bytes} (h : 0 ∉ doc) (rest : Bytes) :
    utf8ToString (doc ++ rest) doc.length = some doc := by
  rw [utf8ToString, if_pos (by simp), take_left, cstr_eq_self_iff.mpr h]

/-- `jw_finish` keeps its promise for documents below `2 ^ 31 - 1` bytes, and for one of `2 ^ 31 -
1` bytes that fits, and for no others. Both callers return a document below `2 ^ 31 - 1` bytes after
at most two calls, and for any operation an error code ends their loops. -/
theorem jwFinish_protocol (calls : List WriterCall) :
    (∀ (t : Abi) (buf : Bytes), FinishOk t calls buf ↔
      (document calls).length < 2 ^ 31 - 1 ∨
        (document calls).length = 2 ^ 31 - 1 ∧ (document calls).length < buf.length) ∧
    (∀ (heap : Heap) (initialCap : ℕ), (∀ c ∈ calls, c.NulFree) →
      (document calls).length < 2 ^ 31 - 1 → initialCap ≤ 2 ^ 30 →
        ∃ r, callStringOut heap (jsonOp .wasm32 calls) initialCap = some r ∧ r.rets.length ≤ 2 ∧
          r.result = .text (document calls)) ∧
    ((document calls).length < 2 ^ 31 - 1 →
      ∃ r, jsonOutWorker (jsonOp .native64 calls) = some r ∧ r.rets.length ≤ 2 ∧
        r.result = .text (document calls)) ∧
    ∀ (heap : Heap) (op : OutOp) (initialCap : ℕ) (r : OutRun) (pre post : List ℤ) (e : ℤ),
      4096 ≤ initialCap → callStringOut heap op initialCap = some r ∨ jsonOutWorker op = some r →
        r.rets = pre ++ e :: post → -4095 ≤ e ∧ e ≤ -1 → post = [] ∧ r.result = .rc e := by
  refine ⟨fun t buf => finishOk_iff, ?_, ?_, ?_⟩
  · intro heap initialCap hcalls hlen hcap
    exact retryLoop_document hlen (utf8ToString_append (zero_notMem_document hcalls)) hcap
  · intro hlen
    exact retryLoop_document hlen (stdString_append _) (by decide)
  · intro heap op initialCap r pre post e hcap hrun hrets he
    rcases hrun with hrun | hrun
    · exact retryLoop_errno hcap hrun hrets he
    · exact retryLoop_errno (by decide) hrun hrets he

/-- A document of one member is returned by both callers, and the error -22 of an operation is
passed on. -/
theorem jwFinish_protocol_member :
    let calls := [WriterCall.kvStr (ascii "fs") (ascii "ext4") false]
    (∃ r, callStringOut .zeros (jsonOp .wasm32 calls) 4096 = some r ∧ r.rets.length ≤ 2 ∧
      r.result = .text (document calls)) ∧
    (∃ r, jsonOutWorker (jsonOp .native64 calls) = some r ∧ r.rets.length ≤ 2 ∧
      r.result = .text (document calls)) ∧
    ∃ r, callStringOut .zeros (fun _ buf => some (buf, -22)) 4096 = some r ∧
      r.result = .rc (-22) := by
  intro calls
  obtain ⟨-, hwasm, hnative, herrno⟩ := jwFinish_protocol calls
  have hnul : ∀ c ∈ calls, c.NulFree := by
    simp only [calls, mem_singleton, forall_eq, WriterCall.NulFree]
    decide
  have hrun : callStringOut .zeros (fun _ buf => some (buf, -22)) 4096 =
      some ⟨[-22], .rc (-22)⟩ := rfl
  exact ⟨hwasm .zeros 4096 hnul (by decide) (by decide), hnative (by decide), _, hrun,
    (herrno .zeros _ 4096 _ [] [] (-22) le_rfl (.inl hrun) rfl (by decide)).2⟩

/-- For a document of `2 ^ 31` bytes and a buffer of none, `jw_finish` returns `2 ^ 31 - 1`. -/
theorem jwFinish_wraps :
    (writeDocument .native64 [.puts (replicate (2 ^ 31) 97)] []).2 = some (2 ^ 31 - 1) ∧
      ¬ FinishOk .native64 [.puts (replicate (2 ^ 31) 97)] [] := by
  have hlen : (document [.puts (replicate (2 ^ 31) 97)]).length = 2 ^ 31 := by
    simp only [document, flatMap_cons, flatMap_nil, append_nil, WriterCall.text, length_replicate]
  generalize [WriterCall.puts (replicate (2 ^ 31) 97)] = calls at hlen
  constructor
  · rw [(writeDocument_of_ge (by rw [hlen]; decide) (by simp)).2, hlen]
    decide
  · rw [finishOk_iff, hlen]
    decide

end Anyfs
