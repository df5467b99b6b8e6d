import Mathlib.Data.List.DropRight
import Mathlib.Order.Lattice

/-!
# Insertion sort in an array

An array is a list with `set`; `sortTo key n a` sorts the first `n` elements in place, which gives a
sorted permutation of them and leaves the rest alone (`exists_sortTo`).
-/

namespace InPlaceSort

open List

variable {α β : Type*} [LinearOrder β] (key : α → β)

/-- Move elements greater than `tmp` from the left of the gap at `j` into it, and return the new
gap. -/
def shift (tmp : α) : ℕ → List α → List α × ℕ
  | 0, a => (a, 0)
  | j + 1, a =>
    match a[j]? with
    | some x => if key tmp < key x then shift tmp j (a.set (j + 1) x) else (a, j + 1)
    | none => (a, j + 1)

/-- One round of the outer loop: put element `i` in its place among those before it. -/
def insertAt (i : ℕ) (a : List α) : List α :=
  match a[i]? with
  | some tmp => (shift key tmp i a).1.set (shift key tmp i a).2 tmp
  | none => a

def sortTo : ℕ → List α → List α
  | 0, a | 1, a => a
  | n + 2, a => insertAt key (n + 1) (sortTo (n + 1) a)

def insertEnd (tmp : α) (l : List α) : List α :=
  l.rdropWhile (key tmp < key ·) ++ tmp :: l.rtakeWhile (key tmp < key ·)

variable {key}

theorem set_shift (tmp c : α) (l r : List α) :
    (shift key tmp l.length (l ++ c :: r)).1.set (shift key tmp l.length (l ++ c :: r)).2 tmp =
      insertEnd key tmp l ++ r := by
  -- from the right: the last element of `l` moves into the gap, or the gap is in the right place
  induction l using List.reverseRecOn generalizing c r with
  | nil => simp [shift, insertEnd]
  | append_singleton l x ih =>
    have hget : (l ++ [x] ++ c :: r)[l.length]? = some x := by simp
    rw [length_append, length_singleton, shift, hget]
    dsimp only
    split_ifs with hlt
    · have hset : (l ++ [x] ++ c :: r).set (l.length + 1) x = l ++ x :: x :: r := by simp
      rw [hset, ih, insertEnd, insertEnd, rdropWhile_concat_pos _ _ _ (by simpa using hlt),
        rtakeWhile_concat_pos _ _ _ (by simpa using hlt)]
      simp
    · rw [insertEnd, rdropWhile_concat_neg _ _ _ (by simpa using hlt),
        rtakeWhile_concat_neg _ _ _ (by simpa using hlt)]
      simp

theorem insertAt_length (x : α) (l r : List α) :
    insertAt key l.length (l ++ x :: r) = insertEnd key x l ++ r := by
  have hget : (l ++ x :: r)[l.length]? = some x := by simp
  rw [insertAt, hget]
  exact set_shift x x l r

theorem insertEnd_perm (tmp : α) (l : List α) : (insertEnd key tmp l).Perm (l ++ [tmp]) := by
  rw [insertEnd]
  refine perm_middle.trans ?_
  rw [rdropWhile_append_rtakeWhile]
  exact (perm_append_singleton tmp l).symm

theorem insertEnd_sorted (tmp : α) {l : List α} (h : l.Pairwise (key · ≤ key ·)) :
    (insertEnd key tmp l).Pairwise (key · ≤ key ·) := by
  have hsplit := rdropWhile_append_rtakeWhile (p := (key tmp < key ·)) (l := l)
  rw [← hsplit, pairwise_append] at h
  obtain ⟨hleft, hright, hcross⟩ := h
  have hle : ∀ x ∈ l.rdropWhile (key tmp < key ·), key x ≤ key tmp := by
    intro x hx
    have hne := ne_nil_of_mem hx
    have hlast : key ((l.rdropWhile (key tmp < key ·)).getLast hne) ≤ key tmp := by
      simpa using rdropWhile_last_not _ _ hne
    rw [← dropLast_concat_getLast hne, pairwise_append] at hleft
    rw [← dropLast_concat_getLast hne] at hx
    rcases mem_append.mp hx with hx | hx
    · exact le_trans (hleft.2.2 x hx _ (mem_singleton_self _)) hlast
    · rwa [mem_singleton.mp hx]
  have hlt : ∀ y ∈ l.rtakeWhile (key tmp < key ·), key tmp < key y := fun y hy => by
    simpa using mem_rtakeWhile_imp hy
  rw [insertEnd, pairwise_append]
  refine ⟨hleft, pairwise_cons.mpr ⟨fun y hy => le_of_lt (hlt y hy), hright⟩, ?_⟩
  intro x hx y hy
  rcases mem_cons.mp hy with rfl | hy
  · exact hle x hx
  · exact hcross x hx y hy

theorem exists_sortTo (key : α → β) {n : ℕ} {a : List α} (h : n ≤ a.length) :
    ∃ s : List α, s.Perm (a.take n) ∧ s.Pairwise (key · ≤ key ·) ∧
      sortTo key n a = s ++ a.drop n := by
  match n with
  | 0 => exact ⟨[], by simp, .nil, by simp [sortTo]⟩
  | 1 =>
    refine ⟨a.take 1, .refl _, ?_, by rw [sortTo, take_append_drop]⟩
    cases a with
    | nil => exact .nil
    | cons x a => exact pairwise_singleton _ _
  | n + 2 =>
    obtain ⟨s, hperm, hsorted, heq⟩ := exists_sortTo key (n := n + 1) (a := a) (by omega)
    have hlen : s.length = n + 1 := by rw [hperm.length_eq, length_take]; omega
    have hdrop : a.drop (n + 1) = a[n + 1] :: a.drop (n + 2) := drop_eq_getElem_cons (by omega)
    refine ⟨insertEnd key a[n + 1] s, ?_, insertEnd_sorted _ hsorted, ?_⟩
    · refine (insertEnd_perm _ _).trans ?_
      rw [take_succ_eq_append_getElem (by omega)]
      exact hperm.append_right _
    · have hinsert : insertAt key s.length (s ++ a[n + 1] :: a.drop (n + 2)) =
          insertEnd key a[n + 1] s ++ a.drop (n + 2) := insertAt_length _ s _
      rw [hlen] at hinsert
      rw [sortTo, heq, hdrop, hinsert]

end InPlaceSort
