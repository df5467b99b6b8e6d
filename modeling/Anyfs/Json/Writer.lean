import Anyfs.Lib.Fields

/-!
# The JSON writer

`jsonw.h` writes a document into a buffer of a fixed size and goes on counting when it is full. A
sequence of calls is one `jw_puts` of the complete document (`WriterCall.run_eq`, `jwPuts_init`).

The count is a `size_t` and the result an `int`, which wraps from `2 ^ 31 - 1` bytes on
(`finishOk_iff`).
-/

namespace Anyfs

open List CString

/-- The sizes of the C types. -/
inductive Abi
  | wasm32
  | native64
  deriving DecidableEq

/-- The width of `size_t`. -/
def Abi.sizeBits : Abi → ℕ
  | .wasm32 => 32
  | .native64 => 64

/-- `JsonW`, with a record of the writes that are not inside the buffer. -/
structure JsonW where
  buf : Bytes
  cap : ℕ
  len : ℕ
  overflow : Bool
  outside : List ℕ
  deriving DecidableEq

/-- `w->buf[i] = c`. -/
def JsonW.store (w : JsonW) (i : ℕ) (c : UInt8) : JsonW :=
  if i < w.buf.length then { w with buf := w.buf.set i c }
  else { w with outside := i :: w.outside }

def jwInit (buf : Bytes) (cap : ℕ) : JsonW := ⟨buf, cap, 0, false, []⟩

section Calls

variable (t : Abi) (w : JsonW)

def jwPutc (c : UInt8) : JsonW :=
  let len := (w.len + 1) % 2 ^ t.sizeBits
  if len < w.cap then { w.store w.len c with len := len }
  else { w with overflow := true, len := len }

def jwPuts (s : Bytes) : JsonW := s.foldl (jwPutc t) w

/-- One round of the loop of `jw_escape_str`. -/
def jwEscapeChar (c : UInt8) : JsonW :=
  if c = 34 ∨ c = 92 then jwPutc t (jwPutc t w 92) c
  else if c = 10 then jwPutc t (jwPutc t w 92) 110
  else if c = 13 then jwPutc t (jwPutc t w 92) 114
  else if c = 9 then jwPutc t (jwPutc t w 92) 116
  else if c < 0x20 then jwPuts t w (snprintf 8 ([92, 117] ++ Hex.digits 4 c.toNat))
  else jwPutc t w c

def jwEscapeStr (s : Bytes) : JsonW :=
  jwPutc t (s.foldl (jwEscapeChar t) (jwPutc t w 34)) 34

def jwInt (v : Int64) : JsonW := jwPuts t w (snprintf 32 (decimalInt v.toInt))

def jwUint (v : UInt64) : JsonW := jwPuts t w (snprintf 32 (decimal v.toNat))

/-- A key, what puts its value, and the comma: the three `jw_kv_` functions. -/
def jwKv (value : JsonW → JsonW) (w : JsonW) (k : Bytes) (trailingComma : Bool) : JsonW :=
  let w := value (jwPutc t (jwEscapeStr t w k) 58)
  if trailingComma then jwPutc t w 44 else w

def jwKvStr (k v : Bytes) (trailingComma : Bool) : JsonW :=
  jwKv t (fun w => jwEscapeStr t w v) w k trailingComma

def jwKvInt (k : Bytes) (v : Int64) (trailingComma : Bool) : JsonW :=
  jwKv t (fun w => jwInt t w v) w k trailingComma

def jwKvUint (k : Bytes) (v : UInt64) (trailingComma : Bool) : JsonW :=
  jwKv t (fun w => jwUint t w v) w k trailingComma

/-- The conversion of a `size_t` to `int`. -/
def intOfSize (n : ℕ) : ℤ := Int.bmod n (2 ^ 32)

/-- `jw_finish`. Without a result it negates `INT_MIN`, which is undefined. -/
def jwFinish : JsonW × Option ℤ :=
  let need := (w.len + 1) % 2 ^ t.sizeBits
  if w.overflow ∨ w.cap < need then
    (w, if intOfSize need = -2 ^ 31 then none else some (-intOfSize need))
  else (w.store w.len 0, some (intOfSize w.len))

/-- The calls of the writer. -/
inductive WriterCall
  | putc (c : UInt8)
  | puts (s : Bytes)
  | escapeStr (s : Bytes)
  | int (v : Int64)
  | uint (v : UInt64)
  | kvStr (k v : Bytes) (trailingComma : Bool)
  | kvInt (k : Bytes) (v : Int64) (trailingComma : Bool)
  | kvUint (k : Bytes) (v : UInt64) (trailingComma : Bool)
  deriving DecidableEq

def WriterCall.run : WriterCall → JsonW
  | .putc c => jwPutc t w c
  | .puts s => jwPuts t w s
  | .escapeStr s => jwEscapeStr t w s
  | .int v => jwInt t w v
  | .uint v => jwUint t w v
  | .kvStr k v comma => jwKvStr t w k v comma
  | .kvInt k v comma => jwKvInt t w k v comma
  | .kvUint k v comma => jwKvUint t w k v comma

/-- A writer on a buffer, its calls, and `jw_finish`. -/
def writeDocument (calls : List WriterCall) (buf : Bytes) : JsonW × Option ℤ :=
  jwFinish t (calls.foldl (WriterCall.run t) (jwInit buf buf.length))

end Calls

/-! ### The complete document -/

def jsonByte (c : UInt8) : Bytes :=
  if c = 34 ∨ c = 92 then [92, c]
  else if c = 10 then [92, 110]
  else if c = 13 then [92, 114]
  else if c = 9 then [92, 116]
  else if c < 0x20 then [92, 117] ++ Hex.digits 4 c.toNat
  else [c]

def jsonString (s : Bytes) : Bytes := [34] ++ s.flatMap jsonByte ++ [34]

def jsonMember (k v : Bytes) (comma : Bool) : Bytes :=
  jsonString k ++ [58] ++ v ++ if comma then [44] else []

def WriterCall.text : WriterCall → Bytes
  | .putc c => [c]
  | .puts s => s
  | .escapeStr s => jsonString s
  | .int v => decimalInt v.toInt
  | .uint v => decimal v.toNat
  | .kvStr k v comma => jsonMember k (jsonString v) comma
  | .kvInt k v comma => jsonMember k (decimalInt v.toInt) comma
  | .kvUint k v comma => jsonMember k (decimal v.toNat) comma

def document (calls : List WriterCall) : Bytes := calls.flatMap WriterCall.text

section Texts

variable {t : Abi} {w : JsonW}

theorem jwPuts_append (t : Abi) (w : JsonW) (a b : Bytes) :
    jwPuts t w (a ++ b) = jwPuts t (jwPuts t w a) b :=
  foldl_append

theorem jwPutc_eq (t : Abi) (w : JsonW) (c : UInt8) : jwPutc t w c = jwPuts t w [c] := rfl

theorem jwEscapeChar_eq (c : UInt8) : jwEscapeChar t w c = jwPuts t w (jsonByte c) := by
  rw [jwEscapeChar, jsonByte]
  have hfit : snprintf 8 ([92, 117] ++ Hex.digits 4 c.toNat) = [92, 117] ++ Hex.digits 4 c.toNat :=
    (snprintf_eq_self_iff (.inl (by decide))).mpr (by simp)
  rw [hfit]
  split_ifs <;> rfl

theorem jwEscapeStr_eq (s : Bytes) : jwEscapeStr t w s = jwPuts t w (jsonString s) := by
  have hloop : ∀ w : JsonW, s.foldl (jwEscapeChar t) w = jwPuts t w (s.flatMap jsonByte) := by
    induction s with
    | nil => exact fun w => rfl
    | cons c s ih =>
      intro w
      rw [foldl_cons, jwEscapeChar_eq, ih, flatMap_cons, jwPuts_append]
  rw [jwEscapeStr, hloop, jsonString, jwPuts_append, jwPuts_append]
  rfl

theorem length_decimal_lt {n : ℕ} (h : n ≤ 2 ^ 64) : (decimal n).length < 31 :=
  (length_decimal_le (m := 20) (by decide) (by omega)).trans_lt (by decide)

theorem jwInt_eq (v : Int64) : jwInt t w v = jwPuts t w (decimalInt v.toInt) := by
  have habs : v.toInt.natAbs ≤ 2 ^ 64 := by
    have hlo := v.le_toInt
    have hhi := v.toInt_lt
    omega
  have hlen : (decimalInt v.toInt).length < 32 := by
    have hdigits := length_decimal_lt habs
    rw [decimalInt]
    split_ifs
    · rw [length_cons]
      omega
    · omega
  rw [jwInt, (snprintf_eq_self_iff (.inl (by decide))).mpr hlen]

theorem jwUint_eq (v : UInt64) : jwUint t w v = jwPuts t w (decimal v.toNat) := by
  have hlen : (decimal v.toNat).length < 32 :=
    (length_decimal_lt v.toNat_lt.le).trans (by decide)
  rw [jwUint, (snprintf_eq_self_iff (.inl (by decide))).mpr hlen]

theorem jwKv_eq {value : JsonW → JsonW} {v : Bytes} (h : ∀ w, value w = jwPuts t w v) (k : Bytes)
    (comma : Bool) : jwKv t value w k comma = jwPuts t w (jsonMember k v comma) := by
  rw [jwKv, jwEscapeStr_eq, h, jsonMember, jwPuts_append, jwPuts_append, jwPuts_append]
  cases comma <;> rfl

theorem WriterCall.run_eq (c : WriterCall) : c.run t w = jwPuts t w c.text := by
  cases c with
  | putc c => rfl
  | puts s => rfl
  | escapeStr s => exact jwEscapeStr_eq s
  | int v => exact jwInt_eq v
  | uint v => exact jwUint_eq v
  | kvStr k v comma => exact jwKv_eq (fun w => jwEscapeStr_eq v) k comma
  | kvInt k v comma => exact jwKv_eq (fun w => jwInt_eq v) k comma
  | kvUint k v comma => exact jwKv_eq (fun w => jwUint_eq v) k comma

theorem foldl_run_eq (t : Abi) (w : JsonW) (calls : List WriterCall) :
    calls.foldl (WriterCall.run t) w = jwPuts t w (document calls) := by
  induction calls generalizing w with
  | nil => rfl
  | cons c calls ih => rw [foldl_cons, c.run_eq, ih, ← jwPuts_append]; rfl

end Texts

/-! ### The buffer -/

section Buffer

variable {t : Abi} {buf : Bytes}

theorem Abi.le_sizeBits (t : Abi) : 2 ^ 32 ≤ 2 ^ t.sizeBits :=
  Nat.pow_le_pow_right (by decide) (by cases t <;> decide)

theorem set_append_drop (c : UInt8) {d : Bytes} (h : d.length < buf.length) :
    (d ++ buf.drop d.length).set d.length c = d ++ c :: buf.drop (d.length + 1) := by
  rw [set_append_right _ _ le_rfl, Nat.sub_self, drop_eq_getElem_cons h, set_cons_zero]

theorem jwPuts_init (d : Bytes) (hd : d.length < 2 ^ t.sizeBits) :
    jwPuts t (jwInit buf buf.length) d =
      { buf := d.take (buf.length - 1) ++ buf.drop (min d.length (buf.length - 1))
        cap := buf.length
        len := d.length
        overflow := decide (d ≠ [] ∧ buf.length ≤ d.length)
        outside := [] } := by
  -- the text grows at its end, as the loop does
  induction d using List.reverseRecOn with
  | nil => simp [jwPuts, jwInit]
  | append_singleton d c ih =>
    rw [length_append, length_singleton] at hd
    have hlen : (d.length + 1) % 2 ^ t.sizeBits = d.length + 1 := Nat.mod_eq_of_lt hd
    rw [jwPuts_append, ih (by omega), ← jwPutc_eq, jwPutc]
    simp only [hlen, length_append, length_singleton]
    by_cases hroom : d.length + 1 < buf.length
    · have htake : d.take (buf.length - 1) = d := take_of_length_le (by omega)
      have htake' : (d ++ [c]).take (buf.length - 1) = d ++ [c] :=
        take_of_length_le (by rw [length_append, length_singleton]; omega)
      have hset := set_append_drop c (show d.length < buf.length by omega)
      rw [if_pos hroom, htake, htake', Nat.min_eq_left (by omega), Nat.min_eq_left (by omega),
        JsonW.store, if_pos (by simp only [length_append, length_drop]; omega)]
      simp only [hset, append_assoc, singleton_append]
      congr 1
      rw [decide_eq_false (by omega), decide_eq_false (by omega)]
    · have htake : (d ++ [c]).take (buf.length - 1) = d.take (buf.length - 1) :=
        take_append_of_le_length (by omega)
      rw [if_neg hroom, htake, Nat.min_eq_right (by omega), Nat.min_eq_right (by omega)]
      congr 1
      exact (decide_eq_true ⟨by simp, by omega⟩).symm

end Buffer

/-! ### The result -/

/-- What `jw_finish` promises: the length of a document that fits with its zero byte, and otherwise
the room it needs; and no write was outside the buffer. -/
def FinishOk (t : Abi) (calls : List WriterCall) (buf : Bytes) : Prop :=
  let doc := document calls
  let r := writeDocument t calls buf
  ∃ n, r.2 = some n ∧ r.1.outside = [] ∧ (0 ≤ n ↔ doc.length < buf.length) ∧
    (doc.length < buf.length → n = doc.length ∧ r.1.buf.take (doc.length + 1) = doc ++ [0]) ∧
    (buf.length ≤ doc.length → n = -(doc.length + 1))

theorem intOfSize_of_lt {n : ℕ} (h : n < 2 ^ 31) : intOfSize n = n :=
  Int.bmod_eq_of_le (by omega) (by omega)

theorem intOfSize_bounds (n : ℕ) : -2 ^ 31 ≤ intOfSize n ∧ intOfSize n < 2 ^ 31 := by
  have hlo := Int.le_bmod (x := n) (m := 2 ^ 32) (by decide)
  have hhi := Int.bmod_lt (x := n) (m := 2 ^ 32) (by decide)
  unfold intOfSize
  omega

variable {t : Abi} {calls : List WriterCall} {buf : Bytes}

theorem writeDocument_of_lt (hlen : (document calls).length < 2 ^ 31)
    (hfit : (document calls).length < buf.length) :
    writeDocument t calls buf =
      (⟨document calls ++ 0 :: buf.drop ((document calls).length + 1), buf.length,
        (document calls).length, false, []⟩, some ((document calls).length : ℤ)) := by
  have hbits := t.le_sizeBits
  rw [writeDocument, foldl_run_eq, jwPuts_init _ (by omega), jwFinish]
  generalize document calls = d at hlen hfit
  have hover : decide (d ≠ [] ∧ buf.length ≤ d.length) = false := decide_eq_false (by omega)
  have htake : d.take (buf.length - 1) = d := take_of_length_le (by omega)
  simp only [hover, htake, Nat.min_eq_left (show d.length ≤ buf.length - 1 by omega),
    Nat.mod_eq_of_lt (show d.length + 1 < 2 ^ t.sizeBits by omega)]
  rw [if_neg (by simp only [Bool.false_eq_true, false_or]; omega), intOfSize_of_lt hlen,
    JsonW.store, if_pos (by simp only [length_append, length_drop]; omega)]
  simp only [set_append_drop 0 hfit]

theorem writeDocument_of_ge (hlen : (document calls).length < 2 ^ t.sizeBits - 1)
    (hfit : buf.length ≤ (document calls).length) :
    (writeDocument t calls buf).1.outside = [] ∧
      (writeDocument t calls buf).2 =
        if intOfSize ((document calls).length + 1) = -2 ^ 31 then none
        else some (-intOfSize ((document calls).length + 1)) := by
  rw [writeDocument, foldl_run_eq, jwPuts_init _ (by omega), jwFinish]
  generalize document calls = d at hlen hfit
  simp only [Nat.mod_eq_of_lt (show d.length + 1 < 2 ^ t.sizeBits by omega)]
  rw [if_pos (.inr (by omega))]
  refine ⟨?_, ?_⟩ <;> dsimp only

theorem writeDocument_bounds {n : ℤ} (h : (writeDocument t calls buf).2 = some n) :
    -2 ^ 31 ≤ n ∧ n < 2 ^ 31 := by
  rw [writeDocument, jwFinish] at h
  generalize calls.foldl (WriterCall.run t) (jwInit buf buf.length) = w at h
  have hneed := intOfSize_bounds ((w.len + 1) % 2 ^ t.sizeBits)
  have hlen := intOfSize_bounds w.len
  split_ifs at h with hover hmin
  · have heq := Option.some.inj h
    omega
  · have heq := Option.some.inj h
    omega

theorem finishOk_iff :
    FinishOk t calls buf ↔ (document calls).length < 2 ^ 31 - 1 ∨
      (document calls).length = 2 ^ 31 - 1 ∧ (document calls).length < buf.length := by
  have hbits := t.le_sizeBits
  constructor
  · rintro ⟨n, hn, -, -, hfits, hneeds⟩
    have hbounds := writeDocument_bounds hn
    by_cases hfit : (document calls).length < buf.length
    · obtain ⟨hlen, -⟩ := hfits hfit
      omega
    · have hlen := hneeds (Nat.le_of_not_lt hfit)
      -- at `2 ^ 31 - 1` bytes the number to negate is `INT_MIN`
      have hne : (document calls).length ≠ 2 ^ 31 - 1 := by
        intro heq
        obtain ⟨-, hret⟩ := writeDocument_of_ge (t := t) (by omega) (Nat.le_of_not_lt hfit)
        rw [heq, if_pos (by decide), hn] at hret
        cases hret
      omega
  · intro h
    by_cases hfit : (document calls).length < buf.length
    · refine ⟨(document calls).length, ?_⟩
      rw [writeDocument_of_lt (by omega) hfit]
      refine ⟨rfl, rfl, iff_of_true (Int.natCast_nonneg _) hfit, fun _ => ⟨rfl, ?_⟩, fun h => ?_⟩
      · simp [take_append]
      · omega
    · have hge := Nat.le_of_not_lt hfit
      have hint := intOfSize_of_lt (n := (document calls).length + 1) (by omega)
      obtain ⟨hout, hret⟩ := writeDocument_of_ge (t := t) (by omega) hge
      rw [if_neg (by omega), hint] at hret
      refine ⟨_, hret, hout, ?_, fun h => absurd h hfit, fun _ => by push_cast; rfl⟩
      omega

end Anyfs
