import Anyfs.Lib.Output
import Anyfs.Name.Escape

/-!
# Escaping into a buffer

`anyfs_name_escape` and `anyfs_name_unescape` followed down to the bytes they write: the loops write
the chunks of the complete text (`escapeLoopInto_eq`, `unescapeLoopInto_eq`), and everything else is
a property of writing chunks.
-/

namespace Anyfs

open List

/-! ### The functions -/

/-- A result with the stores that were made. -/
structure BufRet where
  rc : ℤ
  writes : Writes
  deriving DecidableEq

/-- `(int)o`. -/
@[irreducible]
def intOfLength (o : ℕ) : ℤ := Int.bmod o (2 ^ 32)

theorem intOfLength_eq_iff (n : ℕ) : intOfLength n = n ↔ n < 2 ^ 31 := by
  have hfits : ∀ k : ℕ, k < 2 ^ 31 → Int.bmod k (2 ^ 32) = k := fun k hk =>
    Int.bmod_eq_of_le (by omega) (by omega)
  have hlt : ∀ k : ℕ, Int.bmod k (2 ^ 32) = k → k < 2 ^ 31 := by
    intro k hk
    have := Int.bmod_lt (x := (k : ℤ)) (show 0 < 2 ^ 32 by decide)
    omega
  unfold intOfLength
  exact ⟨hlt n, hfits n⟩

/-- The end of both functions: the terminating zero and the length as an `int`, or the empty string
and -1. -/
def BufRet.finish : Writes × Option ℕ → BufRet
  | (ws, some o) => ⟨intOfLength o, ws ++ [(o, 0)]⟩
  | (ws, none) => ⟨-1, ws ++ [(0, 0)]⟩

/-- The loop of `anyfs_name_escape` that escapes single bytes. -/
def escapeBytesInto (cap o : ℕ) : Bytes → Writes × Option ℕ
  | [] => ([], some o)
  | b :: bs =>
    if cap ≤ o + 3 then ([], none)
    else
      let r := escapeBytesInto cap (o + 3) bs
      (Writes.put o (escapeByte b) ++ r.1, r.2)

/-- The loop of `anyfs_name_escape`, with a bound for the number of rounds. -/
def escapeLoopInto (cap : ℕ) : ℕ → ℕ → Bytes → Writes × Option ℕ
  | 0, o, _ => ([], some o)
  | _ + 1, o, [] => ([], some o)
  | fuel + 1, o, b :: t =>
    let s := b :: t
    let n := utf8Seq s
    if n ≠ 0 ∧ ¬ (n = 3 ∧ isEscapeChar s) then
      if cap ≤ o + n then ([], none)
      else
        let r := escapeLoopInto cap fuel (o + n) (s.drop n)
        (Writes.put o (s.take n) ++ r.1, r.2)
    else
      let n := if n ≠ 0 then n else 1
      match escapeBytesInto cap o (s.take n) with
      | (ws, none) => (ws, none)
      | (ws, some o') =>
        let r := escapeLoopInto cap fuel o' (s.drop n)
        (ws ++ r.1, r.2)

/-- `anyfs_name_escape` with the bytes it writes. -/
def anyfsNameEscapeInto (s : Bytes) (cap : ℕ) : BufRet :=
  if cap = 0 then ⟨-1, []⟩ else .finish (escapeLoopInto cap s.length 0 s)

/-- The loop of `anyfs_name_unescape`. -/
def unescapeLoopInto (cap : ℕ) : ℕ → Bytes → Writes × Option ℕ
  | o, [] => ([], some o)
  | o, a :: b :: c :: t =>
    if cap ≤ o + 1 then ([], none)
    else if isEscapeChar [a, b, c] then
      let r := unescapeLoopInto cap (o + 1) t
      ((o, unescapeByte b c) :: r.1, r.2)
    else
      let r := unescapeLoopInto cap (o + 1) (b :: c :: t)
      ((o, a) :: r.1, r.2)
  | o, a :: t =>
    if cap ≤ o + 1 then ([], none)
    else
      let r := unescapeLoopInto cap (o + 1) t
      ((o, a) :: r.1, r.2)

/-- `anyfs_name_unescape` with the bytes it writes. -/
def anyfsNameUnescapeInto (s : Bytes) (cap : ℕ) : BufRet :=
  if cap = 0 then ⟨-1, []⟩ else .finish (unescapeLoopInto cap 0 s)

/-! ### The loops as chunks -/

def escapeChunks : ℕ → Bytes → List Bytes
  | 0, _ => []
  | _ + 1, [] => []
  | fuel + 1, b :: t =>
    let s := b :: t
    let n := utf8Seq s
    if n ≠ 0 ∧ ¬ (n = 3 ∧ isEscapeChar s) then s.take n :: escapeChunks fuel (s.drop n)
    else
      let n := if n ≠ 0 then n else 1
      (s.take n).map escapeByte ++ escapeChunks fuel (s.drop n)

theorem flatten_escapeChunks (fuel : ℕ) (s : Bytes) :
    (escapeChunks fuel s).flatten = escapeText fuel s := by
  induction fuel generalizing s with
  | zero => rfl
  | succ fuel ih =>
    cases s with
    | nil => rfl
    | cons b t =>
      rw [escapeChunks, escapeText]
      dsimp only
      split_ifs
      · rw [flatten_cons, ih]
      · rw [flatten_append, ih, flatMap_def]
      · rw [flatten_append, ih, flatMap_def]

theorem escapeBytesInto_eq (cap o : ℕ) (bs : Bytes) :
    escapeBytesInto cap o bs = emit cap o (bs.map escapeByte) := by
  induction bs generalizing o with
  | nil => rfl
  | cons b bs ih =>
    rw [escapeBytesInto, map_cons, emit, ih]
    rfl

theorem escapeLoopInto_eq (cap fuel o : ℕ) (s : Bytes) :
    escapeLoopInto cap fuel o s = emit cap o (escapeChunks fuel s) := by
  induction fuel generalizing o s with
  | zero => rfl
  | succ fuel ih =>
    cases s with
    | nil => rfl
    | cons b t =>
      have hlen : ((b :: t).take (utf8Seq (b :: t))).length = utf8Seq (b :: t) := by
        rw [length_take, Nat.min_eq_left (utf8Seq_le_length b t)]
      rw [escapeLoopInto, escapeChunks]
      dsimp only
      by_cases hcopy : utf8Seq (b :: t) ≠ 0 ∧
        ¬ (utf8Seq (b :: t) = 3 ∧ isEscapeChar (b :: t) = true)
      · rw [if_pos hcopy, if_pos hcopy, emit, hlen, ih]
      · rw [if_neg hcopy, if_neg hcopy, emit_append, escapeBytesInto_eq]
        generalize (if utf8Seq (b :: t) ≠ 0 then utf8Seq (b :: t) else 1) = n
        rcases emit cap o (((b :: t).take n).map escapeByte) with ⟨ws, _ | o'⟩
        · rfl
        · dsimp only
          rw [ih]

theorem unescapeLoopInto_eq (cap o : ℕ) (s : Bytes) :
    unescapeLoopInto cap o s = emit cap o ((unescaped s).map fun b => [b]) := by
  induction s using unescaped.induct generalizing o with
  | case1 => rfl
  | case2 a b c t hesc ih =>
    rw [unescapeLoopInto, unescaped, if_pos hesc, if_pos hesc, ih]
    rfl
  | case3 a b c t hesc ih =>
    rw [unescapeLoopInto, unescaped, if_neg hesc, if_neg hesc, ih]
    rfl
  | case4 a t hshort ih =>
    rw [unescapeLoopInto.eq_3 _ _ _ _ hshort, unescaped.eq_3 _ _ hshort, ih]
    rfl

theorem flatten_singletons (bs : Bytes) : (bs.map fun b => [b]).flatten = bs := by
  induction bs with
  | nil => rfl
  | cons b bs ih => rw [map_cons, flatten_cons, ih, singleton_append]

/-! ### Whole names or none -/

/-- What a buffer should get for a text: the whole text with its terminating zero if it fits, and
otherwise the empty string; and no byte behind the buffer. -/
structure WholeOrNothing (cap : ℕ) (text : Bytes) (r : BufRet) : Prop where
  length_iff : r.rc = text.length ↔ text.length < cap
  whole : text.length < cap →
    ∀ m, ByteStore.slice (r.writes.apply m) 0 (text ++ [0]).length = text ++ [0]
  nothing : ¬ text.length < cap → r.rc = -1 ∧ ∀ m, r.writes.apply m 0 = 0
  inside : ∀ w ∈ r.writes, w.1 < cap

variable {cap : ℕ} {cs : List Bytes}

theorem finish_emit_of_lt (h : cs.flatten.length < cap) :
    BufRet.finish (emit cap 0 cs) =
      ⟨intOfLength cs.flatten.length, Writes.put 0 (cs.flatten ++ [0])⟩ := by
  rw [emit_of_lt (by omega), BufRet.finish, Writes.put_append]
  simp [Writes.put]

theorem finish_emit_of_le (hcap : 0 < cap) (h : cap ≤ cs.flatten.length) :
    BufRet.finish (emit cap 0 cs) = ⟨-1, (emit cap 0 cs).1 ++ [(0, 0)]⟩ := by
  have hnone := emit_of_le hcap (by omega : cap ≤ 0 + cs.flatten.length)
  rcases heq : emit cap 0 cs with ⟨ws, _ | o⟩
  · rfl
  · rw [heq] at hnone
    cases hnone

theorem inside_finish_emit (hcap : 0 < cap) (cs : List Bytes) :
    ∀ w ∈ (BufRet.finish (emit cap 0 cs)).writes, w.1 < cap := by
  intro w hw
  rcases Nat.lt_or_ge cs.flatten.length cap with hlt | hge
  · rw [finish_emit_of_lt hlt] at hw
    have := Writes.lt_of_mem_put hw
    rw [length_append, length_singleton] at this
    omega
  · rw [finish_emit_of_le hcap hge] at hw
    rcases mem_append.mp hw with hw | hw
    · exact lt_of_mem_emit hw
    · rw [mem_singleton.mp hw]
      exact hcap

theorem wholeOrNothing_finish_emit (hcap : 0 < cap) (cs : List Bytes) :
    WholeOrNothing cap cs.flatten (BufRet.finish (emit cap 0 cs)) ↔
      ¬ (2 ^ 31 ≤ cs.flatten.length ∧ cs.flatten.length < cap) := by
  have hinside := inside_finish_emit hcap cs
  rcases Nat.lt_or_ge cs.flatten.length cap with hlt | hge
  · rw [finish_emit_of_lt hlt] at hinside ⊢
    constructor
    · rintro h ⟨hbig, -⟩
      have := (intOfLength_eq_iff _).mp (h.length_iff.mpr hlt)
      omega
    · intro hsmall
      refine ⟨iff_of_true ((intOfLength_eq_iff _).mpr (by omega)) hlt, fun _ m => ?_,
        fun h => absurd hlt h, hinside⟩
      rw [Writes.apply_put, ByteStore.slice_overwrite]
  · rw [finish_emit_of_le hcap hge] at hinside ⊢
    refine iff_of_true ⟨?_, fun h => absurd h (by omega), fun _ => ⟨rfl, fun m => ?_⟩, hinside⟩
      fun h => by omega
    · exact iff_of_false (by dsimp only; omega) (by omega)
    · rw [Writes.apply_append]
      rfl

theorem finish_emit_eq_ofOut (hcap : 0 < cap) (cs : List Bytes) {ret : NameRet}
    (hret : ret = .ofOut (if cs.flatten.length < cap then some cs.flatten else none)) :
    (BufRet.finish (emit cap 0 cs)).rc = ret.rc ∧
      ∀ m, ByteStore.slice ((BufRet.finish (emit cap 0 cs)).writes.apply m) 0
        (ret.out ++ [0]).length = ret.out ++ [0] := by
  rcases Nat.lt_or_ge cs.flatten.length cap with hlt | hge
  · rw [if_pos hlt] at hret
    rw [finish_emit_of_lt hlt, hret]
    refine ⟨?_, fun m => ?_⟩
    · unfold intOfLength
      rfl
    · rw [Writes.apply_put]
      exact ByteStore.slice_overwrite _ _ _
  · rw [if_neg (by omega)] at hret
    rw [finish_emit_of_le hcap hge, hret]
    refine ⟨rfl, fun m => ?_⟩
    rw [Writes.apply_append]
    exact ByteStore.slice_overwrite _ 0 [0]

theorem anyfsNameEscapeInto_refines (s : Bytes) (hcap : 0 < cap) :
    (anyfsNameEscapeInto s cap).rc = (anyfsNameEscape s cap).rc ∧
      ∀ m, ByteStore.slice ((anyfsNameEscapeInto s cap).writes.apply m) 0
        ((anyfsNameEscape s cap).out ++ [0]).length = (anyfsNameEscape s cap).out ++ [0] := by
  rw [anyfsNameEscapeInto, if_neg hcap.ne', escapeLoopInto_eq]
  refine finish_emit_eq_ofOut hcap _ ?_
  rw [flatten_escapeChunks]
  exact anyfsNameEscape_eq s cap

theorem anyfsNameUnescapeInto_refines (s : Bytes) (hcap : 0 < cap) :
    (anyfsNameUnescapeInto s cap).rc = (anyfsNameUnescape s cap).rc ∧
      ∀ m, ByteStore.slice ((anyfsNameUnescapeInto s cap).writes.apply m) 0
        ((anyfsNameUnescape s cap).out ++ [0]).length = (anyfsNameUnescape s cap).out ++ [0] := by
  rw [anyfsNameUnescapeInto, if_neg hcap.ne', unescapeLoopInto_eq]
  refine finish_emit_eq_ofOut hcap _ ?_
  rw [flatten_singletons]
  exact anyfsNameUnescape_eq s cap

/-- For every name and every buffer with room for a byte at least, `anyfs_name_escape` and
`anyfs_name_unescape` write the whole text or nothing, exactly when the text has fewer than 2³¹
bytes or does not fit. -/
theorem anyfsName_wholeOrNothing (s : Bytes) (hcap : 1 ≤ cap) :
    (WholeOrNothing cap (escaped s) (anyfsNameEscapeInto s cap) ↔
      ¬ (2 ^ 31 ≤ (escaped s).length ∧ (escaped s).length < cap)) ∧
    (WholeOrNothing cap (unescaped s) (anyfsNameUnescapeInto s cap) ↔
      ¬ (2 ^ 31 ≤ (unescaped s).length ∧ (unescaped s).length < cap)) := by
  have hne : cap ≠ 0 := by omega
  rw [anyfsNameEscapeInto, if_neg hne, anyfsNameUnescapeInto, if_neg hne]
  constructor
  · have h := wholeOrNothing_finish_emit hcap (escapeChunks s.length s)
    rwa [flatten_escapeChunks, ← escapeLoopInto_eq, ← escaped] at h
  · have h := wholeOrNothing_finish_emit hcap ((unescaped s).map fun b => [b])
    rwa [flatten_singletons, ← unescapeLoopInto_eq] at h

/-- A byte that is not UTF-8 in the smallest buffer for its escape, and in one that is too small. -/
theorem anyfsName_wholeOrNothing_byte :
    1 ≤ 4 ∧ 1 ≤ 3 ∧ (escaped [0xFF]).length = 3 ∧
      ((WholeOrNothing 4 (escaped [0xFF]) (anyfsNameEscapeInto [0xFF] 4) ↔
        ¬ (2 ^ 31 ≤ (escaped [0xFF]).length ∧ (escaped [0xFF]).length < 4)) ∧
      (WholeOrNothing 4 (unescaped [0xFF]) (anyfsNameUnescapeInto [0xFF] 4) ↔
        ¬ (2 ^ 31 ≤ (unescaped [0xFF]).length ∧ (unescaped [0xFF]).length < 4))) ∧
      (anyfsNameEscapeInto [0xFF] 3).rc = -1 :=
  ⟨by decide, by decide, by decide, anyfsName_wholeOrNothing [0xFF] (by decide), by decide +kernel⟩

theorem escaped_replicate (n : ℕ) : escaped (replicate n 97) = replicate n 97 := by
  have henc : ∀ k, Utf8.encode (replicate k 'a') = replicate k 97 := by
    intro k
    induction k with
    | zero => rfl
    | succ k ih =>
      rw [replicate_succ, Utf8.encode_cons, ih]
      rfl
  rw [escaped, ← henc]
  refine escapeText_encode le_rfl fun c hc => ?_
  rw [eq_of_mem_replicate hc, IsEscapeRange]
  decide

/-- A text of 2³¹ characters fits, but its length is returned as a negative number. -/
theorem anyfsNameEscapeInto_negative :
    (escaped (replicate (2 ^ 31) 97)).length < 2 ^ 31 + 1 ∧
      (anyfsNameEscapeInto (replicate (2 ^ 31) 97) (2 ^ 31 + 1)).rc = -2 ^ 31 := by
  have hrun : ∀ n, (anyfsNameEscapeInto (replicate n 97) (n + 1)).rc = intOfLength n := by
    intro n
    have hlen : ∀ s : Bytes, s = replicate n 97 → (escapeChunks s.length s).flatten.length = n := by
      rintro s rfl
      rw [flatten_escapeChunks, ← escaped, escaped_replicate, length_replicate]
    rw [anyfsNameEscapeInto, if_neg (Nat.succ_ne_zero n), escapeLoopInto_eq,
      finish_emit_of_lt (by rw [hlen _ rfl]; exact Nat.lt_succ_self n), hlen _ rfl]
  refine ⟨?_, ?_⟩
  · rw [escaped_replicate, length_replicate]
    exact Nat.lt_succ_self _
  · rw [hrun]
    unfold intOfLength
    decide +kernel

end Anyfs
