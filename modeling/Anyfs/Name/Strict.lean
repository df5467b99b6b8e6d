import Anyfs.Name.Display

/-!
# The reads of the two scanners

`valid_utf8` of `anyfs_legacy.c` and `utf8_seq` of `anyfs_name.c` look for the same sequences
(`validUtf8Round_eq`).
-/

namespace Anyfs

open List Option

/-- The bytes from `k` on are tested as continuation bytes; `none` is a read behind the end of
memory. -/
def readConts (m : Bytes) : ℕ → ℕ → Option Bool
  | 0, _ => some true
  | n + 1, k => m[k]?.bind fun b => if isCont b then readConts m n (k + 1) else some false

/-- The second byte is tested against a range, and then `n` continuation bytes are. -/
def readRange (m : Bytes) (lo hi n : ℕ) : Option Bool :=
  m[1]?.bind fun b => if lo ≤ b.toNat ∧ b.toNat ≤ hi then readConts m n 2 else some false

/-- `utf8_seq` on memory. -/
def readUtf8Seq (m : Bytes) : Option ℕ :=
  m[0]?.bind fun a =>
    let c := a.toNat
    let seq (n : ℕ) (found : Bool) : ℕ := if found then n else 0
    if c < 0x80 then some 1
    else if 0xC2 ≤ c ∧ c ≤ 0xDF then (readConts m 1 1).map (seq 2)
    else if 0xE0 ≤ c ∧ c ≤ 0xEF then
      let lo := if c = 0xE0 then 0xA0 else 0x80
      let hi := if c = 0xED then 0x9F else 0xBF
      (readRange m lo hi 1).map (seq 3)
    else if 0xF0 ≤ c ∧ c ≤ 0xF4 then
      let lo := if c = 0xF0 then 0x90 else 0x80
      let hi := if c = 0xF4 then 0x8F else 0xBF
      (readRange m lo hi 2).map (seq 4)
    else some 0

/-- A round of `valid_utf8` on memory. -/
def readValidUtf8 (m : Bytes) : Option ℕ :=
  m[0]?.bind fun a =>
    let c := a.toNat
    let n :=
      if c < 0x80 then 1
      else if 0xC2 ≤ c ∧ c ≤ 0xDF then 2
      else if 0xE0 ≤ c ∧ c ≤ 0xEF then 3
      else if 0xF0 ≤ c ∧ c ≤ 0xF4 then 4
      else 0
    let lo := if c = 0xE0 then 0xA0 else if c = 0xF0 then 0x90 else 0x80
    let hi := if c = 0xED then 0x9F else if c = 0xF4 then 0x8F else 0xBF
    let conts := (readConts m (n - 1) 1).map fun found => if found then n else 0
    if n = 0 then some 0
    else if 3 ≤ n then m[1]?.bind fun b => if b.toNat < lo ∨ hi < b.toNat then some 0 else conts
    else conts

/-- The loop over a string in memory. The first argument bounds the number of rounds. -/
def scanUtf8 (round : Bytes → Option ℕ) : ℕ → Bytes → Option Bool
  | 0, _ => none
  | fuel + 1, m => do
    let a ← m[0]?
    if a = 0 then
      return true
    let n ← round m
    if n = 0 then
      return false
    scanUtf8 round fuel (m.drop n)

variable {s : Bytes}

theorem getElem?_terminated {k : ℕ} (hk : k ≤ s.length) : (s ++ [0])[k]? = some (s.getD k 0) := by
  rcases Nat.lt_or_eq_of_le hk with hlt | rfl
  · rw [List.getElem?_append_left hlt, List.getElem?_eq_getElem hlt, getD_eq_getElem _ _ hlt]
  · simp

theorem readConts_terminated (n : ℕ) {k : ℕ} (hk : k ≤ s.length) :
    readConts (s ++ [0]) n k = some ((List.range n).all fun i => isCont (s.getD (k + i) 0)) := by
  induction n generalizing k with
  | zero => rfl
  | succ n ih =>
    rw [readConts, getElem?_terminated hk, Option.bind_some, range_succ_eq_map, all_cons,
      List.all_map, Nat.add_zero]
    cases hcont : isCont (s.getD k 0) with
    | false => rfl
    | true =>
      rw [if_pos rfl, ih (lt_length_of_isCont hcont), Bool.true_and]
      simp only [Function.comp_def, Nat.succ_eq_add_one, Nat.add_assoc, Nat.add_comm 1]

theorem readRange_terminated {a : UInt8} {t : Bytes} {lo hi : ℕ} (hlo : 0 < lo) (n : ℕ) :
    readRange (a :: t ++ [0]) lo hi n = some (decide (lo ≤ (t.getD 0 0).toNat ∧
      (t.getD 0 0).toNat ≤ hi) && (range n).all fun i => isCont (t.getD (1 + i) 0)) := by
  rw [readRange, getElem?_terminated (Nat.succ_pos _), bind_some, getD_cons_succ]
  by_cases hb : lo ≤ (t.getD 0 0).toNat ∧ (t.getD 0 0).toNat ≤ hi
  · -- a byte in the range is not the terminator
    have ht : 0 < t.length := by
      by_contra hnil
      rw [getD_eq_default _ _ (Nat.le_of_not_lt hnil)] at hb
      exact absurd hb.1 (Nat.not_le_of_lt hlo)
    have hshift : ∀ i, (a :: t).getD (2 + i) 0 = t.getD (1 + i) 0 := by
      intro i
      rw [Nat.add_right_comm 1 1 i, getD_cons_succ]
    rw [if_pos hb, readConts_terminated n (Nat.succ_le_succ ht), decide_eq_true hb, Bool.true_and]
    simp only [hshift]
  · rw [if_neg hb, decide_eq_false hb, Bool.false_and]

theorem readUtf8Seq_terminated (a : UInt8) (t : Bytes) :
    readUtf8Seq (a :: t ++ [0]) = some (utf8Seq (a :: t)) := by
  rw [readUtf8Seq, getElem?_terminated (Nat.zero_le _), bind_some]
  simp only [utf8Seq, getD_cons_zero, getD_cons_succ]
  by_cases h1 : a.toNat < 0x80
  · rw [if_pos h1, if_pos h1]
  rw [if_neg h1, if_neg h1]
  by_cases h2 : 0xC2 ≤ a.toNat ∧ a.toNat ≤ 0xDF
  · rw [if_pos h2, if_pos h2, readConts_terminated 1 (Nat.succ_pos _)]
    simp [range_succ]
  rw [if_neg h2, if_neg h2]
  by_cases h3 : 0xE0 ≤ a.toNat ∧ a.toNat ≤ 0xEF
  · rw [if_pos h3, if_pos h3, readRange_terminated (by split_ifs <;> decide)]
    simp [range_succ, and_assoc]
  rw [if_neg h3, if_neg h3]
  by_cases h4 : 0xF0 ≤ a.toNat ∧ a.toNat ≤ 0xF4
  · rw [if_pos h4, if_pos h4, readRange_terminated (by split_ifs <;> decide)]
    simp [range_succ, and_assoc]
  · rw [if_neg h4, if_neg h4]

theorem readValidUtf8_terminated (a : UInt8) (t : Bytes) :
    readValidUtf8 (a :: t ++ [0]) = some (validUtf8Round a t) := by
  rw [readValidUtf8, getElem?_terminated (Nat.zero_le _), bind_some, validUtf8Round]
  simp only [getD_cons_zero]
  generalize (if a.toNat < 0x80 then 1 else _ : ℕ) = n
  generalize (if a.toNat = 0xE0 then 0xA0 else _ : ℕ) = lo
  generalize (if a.toNat = 0xED then 0x9F else _ : ℕ) = hi
  by_cases hn : n = 0
  · rw [if_pos hn, if_pos hn]
  rw [if_neg hn, if_neg hn, readConts_terminated _ (Nat.succ_pos _),
    getElem?_terminated (Nat.succ_pos _), bind_some, map_some]
  simp only [getD_cons_succ, Nat.add_comm 1]
  by_cases h3 : 3 ≤ n
  · by_cases hb : (t.getD 0 0).toNat < lo ∨ hi < (t.getD 0 0).toNat
    · rw [if_pos h3, if_pos hb, if_pos ⟨h3, hb⟩]
    · rw [if_pos h3, if_neg hb, if_neg (not_and_of_not_right _ hb)]
  · rw [if_neg h3, if_neg (not_and_of_not_left _ h3)]

theorem scanUtf8_terminated {round : Bytes → Option ℕ}
    (hround : ∀ a t, round (a :: t ++ [0]) = some (utf8Seq (a :: t))) {fuel : ℕ}
    (hfuel : s.length ≤ fuel) (hs : 0 ∉ s) :
    scanUtf8 round (fuel + 1) (s ++ [0]) = some (validUtf8Loop fuel s) := by
  induction fuel generalizing s with
  | zero =>
    rw [length_eq_zero_iff.mp (Nat.le_zero.mp hfuel)]
    rfl
  | succ fuel ih =>
    cases s with
    | nil => rfl
    | cons a t =>
      have ha : a ≠ 0 := fun h => hs (h ▸ mem_cons_self)
      have hle := utf8Seq_le_length a t
      rw [scanUtf8, getElem?_terminated (Nat.zero_le _), hround, validUtf8Loop, validUtf8Round_eq]
      simp only [getD_cons_zero, bind_eq_bind, bind_some, if_neg ha]
      by_cases hzero : utf8Seq (a :: t) = 0
      · rw [if_pos hzero, if_pos hzero]
        rfl
      · rw [if_neg hzero, if_neg hzero, drop_append_of_le_length hle]
        refine ih ?_ fun hmem => hs (mem_of_mem_drop hmem)
        rw [length_drop, length_cons]
        rw [length_cons] at hfuel
        omega

/-- **One definition of UTF-8.** On a string in memory that ends with its terminator, the loop of
`valid_utf8` and a loop that steps with `utf8_seq` read no byte behind the terminator and give the
same answer. -/
theorem validUtf8_eq_utf8Seq (s : Bytes) (hs : 0 ∉ s) :
    scanUtf8 readValidUtf8 (s.length + 1) (s ++ [0]) = some (validUtf8 s) ∧
      scanUtf8 readUtf8Seq (s.length + 1) (s ++ [0]) = some (validUtf8 s) := by
  refine ⟨scanUtf8_terminated (fun a t => ?_) le_rfl hs,
    scanUtf8_terminated readUtf8Seq_terminated le_rfl hs⟩
  rw [readValidUtf8_terminated, validUtf8Round_eq]

theorem validUtf8_eq_utf8Seq_truncated :
    scanUtf8 readValidUtf8 3 [0xE2, 0x82, 0] = some false ∧
      scanUtf8 readUtf8Seq 3 [0xE2, 0x82, 0] = some false :=
  validUtf8_eq_utf8Seq [0xE2, 0x82] (by decide)

end Anyfs
