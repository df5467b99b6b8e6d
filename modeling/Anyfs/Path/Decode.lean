import Anyfs.Path.Grammar

/-!
# Percent-decoding in place

`anyfs_path_pct_decode` reads with one cursor and writes the decoded text with another, which is
never ahead (`pctDecodeLoop_spec`). The bytes that were decoded before a bad escape is met stay
written, though the header promises that the buffer is left as it is then
(`UpToBad.overwrite_eq_self_iff`).
-/

namespace Anyfs

open List Option CString ByteStore

/-! ### The loop -/

/-- The loop of `anyfs_path_pct_decode`, with its cursors `r` and `w`, or `none` when the fuel runs
out. -/
def pctDecodeLoop : ℕ → (ℕ → UInt8) → ℕ → ℕ → Option (ℤ × (ℕ → UInt8))
  | 0, _, _, _ => none
  | fuel + 1, m, r, w =>
    if m r = 0 then some (0, overwrite m w [0])
    else if m r = 37 then
      if m (r + 1) = 0 ∨ m (r + 2) = 0 then some (-1, m)
      else
        match hexNyb (m (r + 1)), hexNyb (m (r + 2)) with
        | some hi, some lo =>
          pctDecodeLoop fuel (overwrite m w [UInt8.ofNat (hi * 16 + lo)]) (r + 3) (w + 1)
        | _, _ => some (-1, m)
    else pctDecodeLoop fuel (overwrite m w [m r]) (r + 1) (w + 1)

/-- `anyfs_path_pct_decode` on the string at address `s`; address zero is `NULL`. -/
def anyfsPathPctDecode (fuel : ℕ) (m : ℕ → UInt8) (s : ℕ) : Option (ℤ × (ℕ → UInt8)) :=
  if s = 0 then some (0, m) else pctDecodeLoop fuel m s s

/-! ### Strings and escapes -/

/-- A C string in memory. -/
structure StringAt (m : ℕ → UInt8) (s : ℕ) (text : Bytes) : Prop where
  holds : slice m s text.length = text
  ends : m (s + text.length) = 0
  nonzero : 0 ∉ text

/-- Two digits follow every percent sign. -/
def WellEscaped (text : Bytes) : Prop :=
  ∀ u v, text = u ++ 37 :: v →
    ∃ a b t, v = a :: b :: t ∧ (hexNyb a).isSome = true ∧ (hexNyb b).isSome = true

def BadEscape (text : Bytes) : Prop :=
  ∃ v, text = 37 :: v ∧ ∀ a b t, v = a :: b :: t → hexNyb a = none ∨ hexNyb b = none

def UpToBad (text u d : Bytes) : Prop :=
  ∃ rest, text = u ++ rest ∧ Decodes u d ∧ BadEscape rest

theorem Decodes.length_le {q d : Bytes} (h : Decodes q d) : d.length ≤ q.length := by
  induction h with
  | nil => exact Nat.le_refl 0
  | plain _ _ ih => exact Nat.succ_le_succ ih
  | escape _ _ _ ih =>
    simp only [length_cons]
    omega

theorem Decodes.append {q q' d d' : Bytes} (h : Decodes q d) (h' : Decodes q' d') :
    Decodes (q ++ q') (d ++ d') := by
  induction h with
  | nil => exact h'
  | plain hc _ ih => exact .plain hc ih
  | escape ha hb _ ih => exact .escape ha hb ih

theorem ne_percent_of_hexNyb {c : UInt8} {n : ℕ} (h : hexNyb c = some n) : c ≠ 37 := by
  rintro rfl
  cases (show hexNyb 37 = none by decide).symm.trans h

theorem wellEscaped_iff {text : Bytes} : WellEscaped text ↔ ∃ d, Decodes text d := by
  constructor
  · intro h
    induction hn : text.length using Nat.strong_induction_on generalizing text with
    | _ n ih =>
      match text with
      | [] => exact ⟨[], .nil⟩
      | c :: rest =>
        by_cases hc : c = 37
        · subst hc
          obtain ⟨a, b, t, rfl, ha, hb⟩ := h [] rest rfl
          obtain ⟨hi, hi'⟩ := isSome_iff_exists.mp ha
          obtain ⟨lo, hlo⟩ := isSome_iff_exists.mp hb
          have ht : WellEscaped t := fun u v hu => h (37 :: a :: b :: u) v (by rw [hu]; rfl)
          simp only [length_cons] at hn
          obtain ⟨d, hd⟩ := ih t.length (by omega) ht rfl
          exact ⟨_, .escape hi' hlo hd⟩
        · have ht : WellEscaped rest := fun u v hu => h (c :: u) v (by rw [hu]; rfl)
          obtain ⟨d, hd⟩ := ih rest.length (by rw [← hn]; exact Nat.lt_succ_self _) ht rfl
          exact ⟨_, .plain hc hd⟩
  · rintro ⟨d, hd⟩
    induction hd with
    | nil => exact fun u v h => absurd h.symm (by simp)
    | plain hc _ ih =>
      intro u v h
      cases u with
      | nil => exact absurd (cons.inj h).1 hc
      | cons x u => exact ih u v (cons.inj h).2
    | escape ha hb _ ih =>
      intro u v h
      -- the percent sign is the one of this escape, one of its digits, or a later one
      match u with
      | [] =>
        obtain ⟨-, rfl⟩ := cons.inj h
        exact ⟨_, _, _, rfl, by rw [ha]; rfl, by rw [hb]; rfl⟩
      | [x] =>
        exact absurd (cons.inj (cons.inj h).2).1 (ne_percent_of_hexNyb ha)
      | [x, y] =>
        exact absurd (cons.inj (cons.inj (cons.inj h).2).2).1 (ne_percent_of_hexNyb hb)
      | x :: y :: z :: u =>
        exact ih u v (cons.inj (cons.inj (cons.inj h).2).2).2

theorem not_decodes_of_upToBad {text u d e : Bytes} (h : UpToBad text u d) : ¬ Decodes text e := by
  obtain ⟨rest, rfl, -, v, rfl, hbad⟩ := h
  intro he
  obtain ⟨a, b, t, rfl, ha, hb⟩ := wellEscaped_iff.mpr ⟨e, he⟩ u v rfl
  rcases hbad a b t rfl with h | h
  · rw [h] at ha; exact absurd ha (by decide)
  · rw [h] at hb; exact absurd hb (by decide)

/-! ### Reading and writing one string -/

variable {m : ℕ → UInt8} {s : ℕ} {text u d rest : Bytes}

theorem StringAt.drop (h : StringAt m s (u ++ rest)) : StringAt m (s + u.length) rest := by
  refine ⟨?_, ?_, fun h0 => h.nonzero (mem_append_right u h0)⟩
  · refine ext_getElem (length_slice _ _ _) fun i hi hi' => ?_
    have hget : (slice m s (u ++ rest).length)[u.length + i]? = some rest[i] := by
      rw [h.holds, List.getElem?_append_right (Nat.le_add_right _ _), Nat.add_sub_cancel_left,
        List.getElem?_eq_getElem hi']
    rw [getElem?_slice _ _ (by rw [length_append]; omega)] at hget
    have := some.inj hget
    simp only [slice, getElem_map, getElem_range]
    rwa [Nat.add_assoc]
  · have hend := h.ends
    rwa [length_append, ← Nat.add_assoc] at hend

theorem StringAt.head {c : UInt8} (h : StringAt m s (c :: rest)) : m s = c ∧ c ≠ 0 := by
  refine ⟨?_, fun h0 => h.nonzero (h0 ▸ mem_cons_self)⟩
  have hget := congrArg List.head? h.holds
  simpa [slice, range_succ_eq_map] using hget

theorem StringAt.tail {c : UInt8} (h : StringAt m s (c :: rest)) : StringAt m (s + 1) rest :=
  StringAt.drop (u := [c]) h

theorem StringAt.overwrite (h : StringAt m (s + u.length) rest) (hle : d.length ≤ u.length) :
    StringAt (overwrite m s d) (s + u.length) rest := by
  have hfar : ∀ i, ByteStore.overwrite m s d (s + u.length + i) = m (s + u.length + i) :=
    fun i => overwrite_of_notMem m (.inr (by omega))
  refine ⟨?_, by rw [hfar, h.ends], h.nonzero⟩
  rw [← h.holds, length_slice]
  exact map_congr_left fun i _ => hfar i

/-! ### One turn of the loop -/

variable {fuel r w : ℕ}

theorem escape_cases (text : Bytes) :
    text = [] ∨ (∃ c t, text = c :: t ∧ c ≠ 37) ∨
      (∃ a b hi lo t, text = 37 :: a :: b :: t ∧ hexNyb a = some hi ∧ hexNyb b = some lo) ∨
      BadEscape text := by
  match text with
  | [] => exact .inl rfl
  | c :: t =>
    by_cases hc : c = 37
    · subst hc
      by_cases hbad : BadEscape (37 :: t)
      · exact .inr (.inr (.inr hbad))
      · refine .inr (.inr (.inl ?_))
        by_contra hno
        refine hbad ⟨t, rfl, ?_⟩
        rintro a b t rfl
        by_contra hdigits
        obtain ⟨ha, hb⟩ := not_or.mp hdigits
        obtain ⟨hi, hhi⟩ := ne_none_iff_exists'.mp ha
        obtain ⟨lo, hlo⟩ := ne_none_iff_exists'.mp hb
        exact hno ⟨a, b, hi, lo, t, rfl, hhi, hlo⟩
    · exact .inr (.inl ⟨c, t, rfl, hc⟩)

theorem pctDecodeLoop_end (h : StringAt m r []) :
    pctDecodeLoop (fuel + 1) m r w = some (0, overwrite m w [0]) := by
  rw [pctDecodeLoop, if_pos (show m r = 0 from h.ends)]

theorem pctDecodeLoop_plain {c : UInt8} (h : StringAt m r (c :: rest)) (hc : c ≠ 37) :
    pctDecodeLoop (fuel + 1) m r w =
      pctDecodeLoop fuel (overwrite m w [c]) (r + 1) (w + 1) := by
  obtain ⟨hread, hne⟩ := h.head
  rw [pctDecodeLoop, hread, if_neg hne, if_neg hc]

theorem pctDecodeLoop_escape {a b : UInt8} {hi lo : ℕ} (h : StringAt m r (37 :: a :: b :: rest))
    (ha : hexNyb a = some hi) (hb : hexNyb b = some lo) :
    pctDecodeLoop (fuel + 1) m r w =
      pctDecodeLoop fuel (overwrite m w [UInt8.ofNat (hi * 16 + lo)]) (r + 3) (w + 1) := by
  obtain ⟨hread, hne⟩ := h.head
  obtain ⟨hread₁, hne₁⟩ := h.tail.head
  obtain ⟨hread₂, hne₂⟩ := h.tail.tail.head
  rw [Nat.add_assoc] at hread₂
  rw [pctDecodeLoop, hread, if_neg hne, if_pos rfl, hread₁, hread₂,
    if_neg (not_or.mpr ⟨hne₁, hne₂⟩), ha, hb]

theorem pctDecodeLoop_bad (h : StringAt m r rest) (hbad : BadEscape rest) :
    pctDecodeLoop (fuel + 1) m r w = some (-1, m) := by
  obtain ⟨v, rfl, hdigits⟩ := hbad
  obtain ⟨hread, hne⟩ := h.head
  rw [pctDecodeLoop, hread, if_neg hne, if_pos rfl]
  match v, h.tail with
  | [], hone => exact if_pos (.inl hone.ends)
  | [a], hone => exact if_pos (.inr hone.ends)
  | a :: b :: t, hone =>
    obtain ⟨hread₁, -⟩ := hone.head
    obtain ⟨hread₂, -⟩ := hone.tail.head
    rw [Nat.add_assoc] at hread₂
    rw [hread₁, hread₂]
    split_ifs
    · rfl
    · rcases hdigits a b t rfl with hnone | hnone
      · rw [hnone]
      · rw [hnone]
        cases hexNyb a <;> rfl

/-! ### The whole loop -/

/-- The decoded text and its terminating zero are written, or what stands before the first bad
escape is. -/
def PctResult (m : ℕ → UInt8) (s : ℕ) (text : Bytes) (result : Option (ℤ × (ℕ → UInt8))) : Prop :=
  (∃ d, Decodes text d ∧ result = some (0, overwrite m s (d ++ [0]))) ∨
    ∃ u d, UpToBad text u d ∧ result = some (-1, overwrite m s d)

theorem pctDecodeLoop_spec (hs : StringAt m s (u ++ rest)) (hu : Decodes u d)
    (hfuel : rest.length < fuel) :
    PctResult m s (u ++ rest)
      (pctDecodeLoop fuel (overwrite m s d) (s + u.length) (s + d.length)) := by
  induction fuel generalizing u d rest with
  | zero => exact absurd hfuel (Nat.not_lt_zero _)
  | succ fuel ih =>
    -- the writing cursor is behind the reading one, so the rest of the string is intact
    have hrest : StringAt (overwrite m s d) (s + u.length) rest := hs.drop.overwrite hu.length_le
    have hturn : ∀ {q t : Bytes} {x : UInt8}, rest = q ++ t → q ≠ [] → Decodes q [x] →
        PctResult m s (u ++ rest)
          (pctDecodeLoop fuel (overwrite (overwrite m s d) (s + d.length) [x])
            (s + u.length + q.length) (s + d.length + 1)) := by
      rintro q t x rfl hne hq
      have hlt : t.length < fuel := by
        have := length_pos_iff.mpr hne
        rw [length_append] at hfuel
        omega
      have hrun := ih (by rwa [append_assoc]) (hu.append hq) hlt
      rwa [append_assoc, length_append, length_append, ← overwrite_append,
        ← Nat.add_assoc, ← Nat.add_assoc] at hrun
    obtain rfl | ⟨c, t, rfl, hc⟩ | ⟨a, b, hi, lo, t, rfl, ha, hb⟩ | hbad := escape_cases rest
    · refine .inl ⟨d, by rwa [append_nil], ?_⟩
      rw [pctDecodeLoop_end hrest, overwrite_append]
    · rw [pctDecodeLoop_plain hrest hc]
      exact hturn (q := [c]) rfl (cons_ne_nil _ _) (.plain hc .nil)
    · rw [pctDecodeLoop_escape hrest ha hb]
      exact hturn (q := [37, a, b]) rfl (cons_ne_nil _ _) (.escape ha hb .nil)
    · exact .inr ⟨u, d, ⟨rest, rfl, hu, hbad⟩, pctDecodeLoop_bad hrest hbad⟩

theorem anyfsPathPctDecode_spec (hs : StringAt m s text) (h0 : s ≠ 0)
    (hfuel : text.length < fuel) : PctResult m s text (anyfsPathPctDecode fuel m s) := by
  rw [anyfsPathPctDecode, if_neg h0]
  have hrun := pctDecodeLoop_spec (u := []) (d := []) hs .nil hfuel
  rwa [overwrite_nil] at hrun

theorem anyfsPathPctDecode_of_pctDecode (hs : StringAt m s text) (h0 : s ≠ 0)
    (hfuel : text.length < fuel) (hd : pctDecode text = some d) :
    anyfsPathPctDecode fuel m s = some (0, overwrite m s (d ++ [0])) := by
  have hdec : Decodes text d := decodes_iff.mpr hd
  rcases anyfsPathPctDecode_spec hs h0 hfuel with ⟨e, he, hrun⟩ | ⟨u, e, hbad, -⟩
  · obtain rfl : e = d := some.inj ((decodes_iff.mp he).symm.trans hd)
    exact hrun
  · exact absurd hdec (not_decodes_of_upToBad hbad)

theorem anyfsPathPctDecode_of_pctDecode_none (hs : StringAt m s text) (h0 : s ≠ 0)
    (hfuel : text.length < fuel) (hd : pctDecode text = none) :
    ∃ m', anyfsPathPctDecode fuel m s = some (-1, m') := by
  rcases anyfsPathPctDecode_spec hs h0 hfuel with ⟨e, he, -⟩ | ⟨u, e, -, hrun⟩
  · exact absurd (hd.symm.trans (decodes_iff.mp he)) nofun
  · exact ⟨_, hrun⟩

/-! ### All or nothing -/

/-- A decoder in place that changes nothing when it refuses. -/
structure AllOrNothing (m : ℕ → UInt8) (s : ℕ) (text : Bytes) (rc : ℤ) (m' : ℕ → UInt8) :
    Prop where
  accepts : rc = 0 ↔ WellEscaped text
  decoded : rc = 0 → ∃ d, Decodes text d ∧ slice m' s (d ++ [0]).length = d ++ [0]
  untouched : rc = -1 → m' = m

theorem Decodes.not_badEscape (h : Decodes u d) (hne : u ≠ []) : ¬ BadEscape (u ++ rest) := by
  rintro ⟨v, heq, hbad⟩
  cases h with
  | nil => exact hne rfl
  | plain hc => exact hc (cons.inj heq).1
  | escape ha hb =>
    rcases hbad _ _ _ (cons.inj heq).2.symm with h | h
    · exact absurd (ha.symm.trans h) nofun
    · exact absurd (hb.symm.trans h) nofun

theorem UpToBad.unique {u' d' : Bytes} (h : UpToBad text u d) (h' : UpToBad text u' d') :
    d = d' := by
  obtain ⟨rest, rfl, hu, hbad⟩ := h
  obtain ⟨rest', heq, hu', hbad'⟩ := h'
  induction hu generalizing u' d' with
  | nil =>
    rw [nil_append] at heq
    rw [heq] at hbad
    cases hu' with
    | nil => rfl
    | plain hc hq => exact absurd hbad ((Decodes.plain hc hq).not_badEscape nofun)
    | escape ha hb hq => exact absurd hbad ((Decodes.escape ha hb hq).not_badEscape nofun)
  | plain hc hq ih =>
    cases hu' with
    | nil =>
      rw [nil_append] at heq
      rw [← heq] at hbad'
      exact absurd hbad' ((Decodes.plain hc hq).not_badEscape nofun)
    | plain hc' hq' =>
      obtain ⟨rfl, hrest⟩ := cons.inj heq
      rw [ih hrest hq']
    | escape => exact absurd (cons.inj heq).1 hc
  | escape ha hb hq ih =>
    cases hu' with
    | nil =>
      rw [nil_append] at heq
      rw [← heq] at hbad'
      exact absurd hbad' ((Decodes.escape ha hb hq).not_badEscape nofun)
    | plain hc' => exact absurd (cons.inj heq).1.symm hc'
    | escape ha' hb' hq' =>
      simp only [cons_append, cons.injEq, true_and] at heq
      obtain ⟨rfl, rfl, heq⟩ := heq
      obtain rfl := some.inj (ha.symm.trans ha')
      obtain rfl := some.inj (hb.symm.trans hb')
      rw [ih heq hq']

theorem UpToBad.overwrite_eq_self_iff (h : UpToBad text u d) (hs : StringAt m s text) :
    overwrite m s d = m ↔ d <+: text := by
  obtain ⟨rest, rfl, hu, -⟩ := h
  have hle : d.length ≤ (u ++ rest).length := by
    rw [length_append]
    exact hu.length_le.trans (Nat.le_add_right _ _)
  rw [ByteStore.overwrite_eq_self_iff, ← take_slice m s hle, hs.holds, prefix_iff_eq_take]
  exact eq_comm

/-- Percent-decoding is all or nothing exactly when what stands before the first bad escape, if
there is one, decodes to the beginning of the string itself. -/
theorem anyfsPathPctDecode_allOrNothing (hs : StringAt m s text) (h0 : s ≠ 0)
    (hfuel : text.length < fuel) :
    ∃ rc m', anyfsPathPctDecode fuel m s = some (rc, m') ∧ (rc = 0 ∨ rc = -1) ∧
      (AllOrNothing m s text rc m' ↔ ∀ u d, UpToBad text u d → d <+: text) := by
  rcases anyfsPathPctDecode_spec hs h0 hfuel with ⟨d, hd, hrun⟩ | ⟨u, d, hbad, hrun⟩
  · refine ⟨_, _, hrun, .inl rfl, iff_of_true ⟨?_, ?_, ?_⟩ ?_⟩
    · exact iff_of_true rfl (wellEscaped_iff.mpr ⟨d, hd⟩)
    · exact fun _ => ⟨d, hd, slice_overwrite _ _ _⟩
    · exact fun h => absurd h (by decide)
    · exact fun u e he => absurd hd (not_decodes_of_upToBad he)
  · refine ⟨_, _, hrun, .inr rfl, ?_⟩
    have hill : ¬ WellEscaped text := fun h =>
      let ⟨e, he⟩ := wellEscaped_iff.mp h
      not_decodes_of_upToBad hbad he
    constructor
    · intro h u' d' hbad'
      obtain rfl := hbad.unique hbad'
      exact (hbad.overwrite_eq_self_iff hs).mp (h.untouched rfl)
    · intro h
      refine ⟨iff_of_false (by decide) hill, fun h => absurd h (by decide), fun _ => ?_⟩
      exact (hbad.overwrite_eq_self_iff hs).mpr (h u d hbad)

def twoEscapes : ℕ → UInt8 := overwrite (fun _ => 0) 1 (ascii "%41%")

theorem stringAt_twoEscapes : StringAt twoEscapes 1 (ascii "%41%") where
  holds := slice_overwrite _ _ (ascii "%41%")
  ends := by decide
  nonzero := by decide

/-- The second escape of `%41%` is bad, but the first one has been decoded over it. -/
theorem anyfsPathPctDecode_partly :
    StringAt twoEscapes 1 (ascii "%41%") ∧
      ∃ m', anyfsPathPctDecode 5 twoEscapes 1 = some (-1, m') ∧
        slice m' 1 5 = ascii "A41%" ++ [0] ∧
        ¬ AllOrNothing twoEscapes 1 (ascii "%41%") (-1) m' := by
  refine ⟨stringAt_twoEscapes, overwrite twoEscapes 1 [65], rfl, by decide, fun h => ?_⟩
  exact absurd (congrFun (h.untouched rfl) 1) (by decide)

/-- The string `%41%` in particular is not decoded all or nothing. -/
theorem anyfsPathPctDecode_twoEscapes :
    StringAt twoEscapes 1 (ascii "%41%") ∧
    ∃ rc m', anyfsPathPctDecode 5 twoEscapes 1 = some (rc, m') ∧ (rc = 0 ∨ rc = -1) ∧
      (AllOrNothing twoEscapes 1 (ascii "%41%") rc m' ↔
        ∀ u d, UpToBad (ascii "%41%") u d → d <+: ascii "%41%") :=
  ⟨stringAt_twoEscapes, anyfsPathPctDecode_allOrNothing stringAt_twoEscapes (by decide) (by decide)⟩

end Anyfs
