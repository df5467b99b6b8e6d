import Anyfs.Name.Buffer
import Anyfs.Name.Display

/-!
# Writing to a console of Windows

`write_console` holds the beginning of a UTF-8 sequence at the end until the next write, which
`anyfs_u8_complete_prefix` finds from the end of the buffer. The number of bytes handed over is an
`int`.
-/

namespace Anyfs

open List

open List CString Utf8

/-- The length that a lead byte announces. -/
def seqNeed (c : UInt8) : ℕ :=
  if 0xF0 ≤ c ∧ c ≤ 0xF4 then 4 else if 0xE0 ≤ c ∧ c < 0xF0 then 3
  else if 0xC2 ≤ c ∧ c < 0xE0 then 2 else 1

def anyfsU8CompletePrefix (s : Bytes) : ℕ :=
  let cont := ((s.reverse.take 3).takeWhile isCont).length
  match s.reverse.drop cont with
  | [] => s.length
  | c :: _ => if 1 < seqNeed c ∧ cont + 1 < seqNeed c then s.length - cont - 1 else s.length

/-- What `MultiByteToWideChar` converts: -1 stands for a string with its terminating zero. What it
does with other negative counts is not documented, and is a parameter. -/
def multiByteInput (negative : Bytes → ℤ → Bytes) (buf : Bytes) (cb : ℤ) : Bytes :=
  if cb = -1 then cstr buf ++ [0] else if cb < 0 then negative buf cb else buf.take cb.toNat

/-- `g_held` of a stream, and the pieces given to the console. -/
structure ConsoleStream where
  held : Bytes
  emitted : List Bytes

section Write

variable (negative : Bytes → ℤ → Bytes)

/-- `write_console`, with memory for its buffers. -/
def ConsoleStream.write (st : ConsoleStream) (s : Bytes) : ConsoleStream :=
  let buf := st.held ++ s
  let done := anyfsU8CompletePrefix buf
  ⟨buf.drop done, if done = 0 then st.emitted
    else st.emitted ++ [multiByteInput negative buf (intOfLength done)]⟩

def ConsoleStream.run (writes : List Bytes) : ConsoleStream :=
  writes.foldl (write negative) ⟨[], []⟩

end Write

/-! ### Sequences -/

/-- A lead byte and some of its continuation. -/
structure Leads (a : UInt8) (conts : Bytes) : Prop where
  lead : isCont a = false
  length_lt : conts.length < seqNeed a
  conts : ∀ b ∈ conts, isCont b = true

theorem seqNeed_le (c : UInt8) : seqNeed c ≤ 4 := by
  rw [seqNeed]
  split_ifs <;> decide

theorem completePrefix_leads (front : Bytes) {a : UInt8} {conts : Bytes} (h : Leads a conts) :
    anyfsU8CompletePrefix (front ++ a :: conts) =
      if conts.length + 1 < seqNeed a then front.length else (front ++ a :: conts).length := by
  have hle : conts.length ≤ 3 := Nat.le_of_lt_succ (h.length_lt.trans_le (seqNeed_le a))
  have hrev : (front ++ a :: conts).reverse = conts.reverse ++ a :: front.reverse := by simp
  have hstop : (take (3 - conts.length) (a :: front.reverse)).takeWhile isCont = [] := by
    cases 3 - conts.length <;> simp [h.lead]
  have hcont : ((conts.reverse ++ a :: front.reverse).take 3).takeWhile isCont = conts.reverse := by
    rw [take_append, length_reverse, take_of_length_le (by simpa using hle),
      takeWhile_append_of_pos (by simpa using h.conts), hstop, append_nil]
  rw [anyfsU8CompletePrefix, hrev, hcont, drop_left]
  simp only [length_reverse, length_append, length_cons]
  split_ifs <;> omega

theorem length_drop_completePrefix (s : Bytes) : (s.drop (anyfsU8CompletePrefix s)).length ≤ 3 := by
  rw [length_drop, anyfsU8CompletePrefix]
  split
  · omega
  · next c _ _ =>
    have := seqNeed_le c
    split_ifs <;> omega

theorem leads_of_isSeq {seq : Bytes} (h : IsSeq seq) :
    ∃ a conts, seq = a :: conts ∧ Leads a conts ∧ conts.length + 1 = seqNeed a := by
  have hlead {a : UInt8} (ha : a.toNat < 0x80 ∨ 0xBF < a.toNat) : isCont a = false := by
    rw [← Bool.not_eq_true, isCont_iff, IsTail]
    omega
  have hneed (a : UInt8) : seqNeed a = if 0xF0 ≤ a.toNat ∧ a.toNat ≤ 0xF4 then 4
      else if 0xE0 ≤ a.toNat ∧ a.toNat < 0xF0 then 3
      else if 0xC2 ≤ a.toNat ∧ a.toNat < 0xE0 then 2 else 1 := by
    simp [seqNeed, UInt8.le_iff_toNat_le, UInt8.lt_iff_toNat_lt]
  cases h with
  | @one a ha =>
    have : seqNeed a = 1 := by grind
    exact ⟨a, [], rfl, ⟨hlead (by omega), by simp [this], forall_mem_nil _⟩, this.symm⟩
  | @two a b ha hb =>
    have : seqNeed a = 2 := by grind
    exact ⟨a, [b], rfl, ⟨hlead (by omega), by simp [this], by simpa [isCont_iff] using hb⟩,
      this.symm⟩
  | @three a b c ha hb hc =>
    have : seqNeed a = 3 := by grind
    exact ⟨a, [b, c], rfl, ⟨hlead (by omega), by simp [this], by simp [isCont_iff, *]⟩, this.symm⟩
  | @four a b c d ha hb hc hd =>
    have : seqNeed a = 4 := by grind
    exact ⟨a, [b, c, d], rfl, ⟨hlead (by omega), by simp [this], by simp [isCont_iff, *]⟩,
      this.symm⟩

theorem exists_cut {cs : List Char} {buf rest : Bytes} (h : encode cs = buf ++ rest) :
    ∃ front tail, buf = front ++ tail ∧ Valid front ∧
      (tail = [] ∨ ∃ a conts, tail = a :: conts ∧ Leads a conts ∧
        conts.length + 1 < seqNeed a) := by
  induction cs generalizing buf with
  | nil =>
    obtain ⟨rfl, -⟩ := append_eq_nil_iff.mp h.symm
    exact ⟨[], [], rfl, .nil, .inl rfl⟩
  | cons c cs ih =>
    have hseq := isSeq_encodeChar c
    rcases append_eq_append_iff.mp h with ⟨t, rfl, hrest⟩ | ⟨t, hchar, hrest⟩
    · obtain ⟨front, tail, rfl, hfront, htail⟩ := ih hrest
      exact ⟨_ ++ front, tail, (append_assoc _ _ _).symm, hseq.append_valid hfront, htail⟩
    · obtain ⟨a, conts, heq, hleads, hneed⟩ := leads_of_isSeq hseq
      cases buf with
      | nil => exact ⟨[], [], rfl, .nil, .inl rfl⟩
      | cons b conts' =>
        cases t with
        | nil =>
          rw [append_nil] at hchar
          exact ⟨b :: conts', [], by simp, hchar ▸ ⟨[c], by simp⟩, .inl rfl⟩
        | cons x t =>
          obtain ⟨rfl, hconts⟩ : a = b ∧ conts = conts' ++ x :: t := by
            simpa using heq.symm.trans hchar
          have hlen := congrArg length hconts
          rw [length_append, length_cons] at hlen
          refine ⟨[], _, rfl, .nil, .inr ⟨a, conts', rfl, ⟨hleads.lead, by omega, fun b hb => ?_⟩,
            by omega⟩⟩
          exact hleads.conts b (hconts ▸ mem_append_left _ hb)

theorem valid_completePrefix {buf : Bytes} (rest : Bytes) (h : Valid (buf ++ rest)) :
    Valid (buf.take (anyfsU8CompletePrefix buf)) := by
  obtain ⟨cs, hcs⟩ := h
  obtain ⟨front, tail, rfl, hfront, htail⟩ := exists_cut hcs.symm
  rcases htail with rfl | ⟨a, conts, rfl, hleads, hlt⟩
  · have hall : anyfsU8CompletePrefix front = front.length := by
      obtain ⟨cs, rfl⟩ := hfront
      rcases cs.eq_nil_or_concat' with rfl | ⟨cs, c, rfl⟩
      · rfl
      · obtain ⟨a, conts, heq, hleads, hneed⟩ := leads_of_isSeq (isSeq_encodeChar c)
        have hsplit : encode (cs ++ [c]) = encode cs ++ a :: conts := by simp [encode, heq]
        rw [hsplit, completePrefix_leads _ hleads, if_neg (by omega)]
    rw [append_nil, hall, take_length]
    exact hfront
  · rw [completePrefix_leads _ hleads, if_pos hlt, take_left]
    exact hfront

/-! ### Writes -/

theorem valid_append {s t : Bytes} (hs : Valid s) (ht : Valid t) : Valid (s ++ t) := by
  obtain ⟨cs, rfl⟩ := hs
  obtain ⟨ds, rfl⟩ := ht
  exact ⟨cs ++ ds, by simp [encode]⟩

theorem valid_of_valid_append {s t : Bytes} (hs : Valid s) (h : Valid (s ++ t)) : Valid t := by
  obtain ⟨cs, rfl⟩ := hs
  induction cs with
  | nil => exact h
  | cons c cs ih => exact ih (valid_of_append (isSeq_encodeChar c) (by simpa using h))

theorem valid_flatten {pieces : List Bytes} (h : ∀ piece ∈ pieces, Valid piece) :
    Valid pieces.flatten := by
  induction pieces with
  | nil => exact .nil
  | cons piece pieces ih =>
    obtain ⟨hpiece, hpieces⟩ := forall_mem_cons.mp h
    exact valid_append hpiece (ih hpieces)

/-- What holds after the bytes `written`. -/
structure ConsoleStream.Inv (written : Bytes) (st : ConsoleStream) : Prop where
  bytes : st.emitted.flatten ++ st.held = written
  held : st.held.length ≤ 3
  valid : ∀ rest, Valid (written ++ rest) → ∀ piece ∈ st.emitted, Valid piece

variable {negative : Bytes → ℤ → Bytes}

theorem ConsoleStream.Inv.write {written : Bytes} {st : ConsoleStream} (h : st.Inv written)
    {s : Bytes} (hs : anyfsU8CompletePrefix (st.held ++ s) < 2 ^ 31) :
    (st.write negative s).Inv (written ++ s) := by
  have hint : intOfLength (anyfsU8CompletePrefix (st.held ++ s)) =
      anyfsU8CompletePrefix (st.held ++ s) := (intOfLength_eq_iff _).mpr hs
  have hpiece : multiByteInput negative (st.held ++ s)
        (intOfLength (anyfsU8CompletePrefix (st.held ++ s))) =
      (st.held ++ s).take (anyfsU8CompletePrefix (st.held ++ s)) := by
    rw [multiByteInput, hint, if_neg (by omega), if_neg (by omega), Int.toNat_natCast]
  refine ⟨?_, length_drop_completePrefix _, fun rest hvalid piece hmem => ?_⟩
  · rw [← h.bytes, ConsoleStream.write]
    dsimp only
    split_ifs with hzero
    · simp [hzero]
    · simp [hpiece]
  · have hold := h.valid (s ++ rest) (by rwa [← append_assoc])
    rw [ConsoleStream.write] at hmem
    dsimp only at hmem
    split_ifs at hmem with hzero
    · exact hold piece hmem
    · rcases mem_append.mp hmem with hmem | hmem
      · exact hold piece hmem
      · rw [mem_singleton.mp hmem, hpiece]
        rw [← h.bytes, append_assoc, append_assoc] at hvalid
        refine valid_completePrefix rest ?_
        rw [append_assoc]
        exact valid_of_valid_append (valid_flatten hold) hvalid

theorem ConsoleStream.Inv.writes {st : ConsoleStream} {written : Bytes} (h : st.Inv written)
    {writes : List Bytes} (hs : ∀ k (hk : k < writes.length), anyfsU8CompletePrefix
      (((writes.take k).foldl (ConsoleStream.write negative) st).held ++ writes[k]) < 2 ^ 31) :
    (writes.foldl (ConsoleStream.write negative) st).Inv (written ++ writes.flatten) := by
  induction writes generalizing st written with
  | nil => simpa using h
  | cons s writes ih =>
    have hrest := ih (h.write (hs 0 (Nat.succ_pos _))) fun k hk => hs (k + 1) (Nat.succ_lt_succ hk)
    rwa [append_assoc] at hrest

/-- After any writes that leave at most 2³¹ - 1 bytes to hand over each time, the pieces handed
over and the held bytes are what was written, at most three bytes are held, and if the text is
valid, as far as it has come, every piece is. -/
theorem writeConsole_pieces (negative : Bytes → ℤ → Bytes) (writes : List Bytes)
    (hs : ∀ k (hk : k < writes.length), anyfsU8CompletePrefix
      ((ConsoleStream.run negative (writes.take k)).held ++ writes[k]) < 2 ^ 31) :
    let st := ConsoleStream.run negative writes
    st.emitted.flatten ++ st.held = writes.flatten ∧ st.held.length ≤ 3 ∧
      ∀ rest, Valid (writes.flatten ++ rest) → ∀ piece ∈ st.emitted, Valid piece := by
  have hnew : ConsoleStream.Inv [] ⟨[], []⟩ := ⟨rfl, Nat.zero_le _, fun _ _ => forall_mem_nil _⟩
  have h := hnew.writes hs
  exact ⟨h.bytes, h.held, h.valid⟩

theorem writeConsole_pieces_split :
    let st := ConsoleStream.run (fun _ _ => []) [[0xE4, 0xB8], [0xAD]]
    st.emitted = [[0xE4, 0xB8, 0xAD]] ∧ st.held.length ≤ 3 :=
  ⟨by decide +kernel, (writeConsole_pieces _ _ (by decide)).2.1⟩

/-- Of a write of 2³² + 1 bytes one comes to the console, and nothing is held, whatever a negative
count does. -/
theorem ConsoleStream.run_long (negative : Bytes → ℤ → Bytes) :
    let st := ConsoleStream.run negative [replicate (2 ^ 32 + 1) 97]
    st.emitted.flatten ++ st.held = [97] := by
  generalize hn : 2 ^ 32 = n
  have hdone : anyfsU8CompletePrefix (replicate (n + 1) 97) = n + 1 := by
    have hleads : Leads 97 [] := ⟨by decide, by decide, forall_mem_nil _⟩
    rw [replicate_succ', completePrefix_leads _ hleads, if_neg (by decide)]
    simp
  have hint : intOfLength (n + 1) = 1 := by
    subst hn
    unfold intOfLength
    rw [Int.bmod_def]
    simp
  have hfirst : (replicate (n + 1) (97 : UInt8)).take 1 = [97] := rfl
  simp [ConsoleStream.run, ConsoleStream.write, hdone, hint, multiByteInput, hfirst]

theorem writeConsole_long :
    let st := ConsoleStream.run (fun _ _ => []) [replicate (2 ^ 32 + 1) 97]
    st.emitted.flatten ++ st.held = [97] :=
  ConsoleStream.run_long _

end Anyfs
