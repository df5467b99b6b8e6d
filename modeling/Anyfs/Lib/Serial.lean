import Mathlib.Algebra.GroupWithZero.Nat
import Mathlib.Algebra.Order.BigOperators.Group.List

/-!
# One after the other

Entries are served in the order in which they came: an entry waits, is served, and is done. `Serial`
says that whoever no longer waits has only done entries before it; so at most one entry is being
served.
-/

variable {α : Type*}

def Serial (Waiting Done : α → Prop) (l : List α) : Prop :=
  ∀ ⦃i j : ℕ⦄ ⦃a b : α⦄, i < j → l[i]? = some a → l[j]? = some b → Done a ∨ Waiting b

def DoneBefore (Done : α → Prop) (l : List α) (i : ℕ) : Prop :=
  ∀ j < i, ∃ a, l[j]? = some a ∧ Done a

namespace Serial

variable {Waiting Done : α → Prop} {l : List α} {i j : ℕ} {a b x : α}

theorem nil : Serial Waiting Done ([] : List α) := by
  intro i j a b _ hi
  simp at hi

theorem doneBefore (h : Serial Waiting Done l) (hi : l[i]? = some a) (ha : ¬ Waiting a) :
    DoneBefore Done l i := by
  intro j hj
  obtain ⟨hlen, -⟩ := List.getElem?_eq_some_iff.mp hi
  have hget : l[j]? = some l[j] := List.getElem?_eq_getElem (by omega)
  exact ⟨l[j], hget, (h hj hget hi).resolve_right ha⟩

theorem waiting_of_lt (h : Serial Waiting Done l) (hi : l[i]? = some a) (ha : ¬ Done a)
    (hij : i < j) (hj : l[j]? = some b) : Waiting b :=
  (h hij hi hj).resolve_left ha

theorem append (h : Serial Waiting Done l) (hx : Waiting x) : Serial Waiting Done (l ++ [x]) := by
  intro i j a b hij hi hj
  obtain ⟨hlen, -⟩ := List.getElem?_eq_some_iff.mp hj
  rw [List.length_append, List.length_singleton] at hlen
  rw [List.getElem?_append_left (by omega)] at hi
  by_cases hjl : j < l.length
  · rw [List.getElem?_append_left hjl] at hj
    exact h hij hi hj
  · obtain rfl : j = l.length := by omega
    rw [List.getElem?_concat_length] at hj
    cases hj
    exact .inr hx

theorem set (h : Serial Waiting Done l) (hi : l[i]? = some a) (ha : ¬ Waiting a)
    (hx : Done a → Done x) : Serial Waiting Done (l.set i x) := by
  intro j k b c hjk hj hk
  rw [List.getElem?_set] at hj hk
  by_cases hij : i = j
  · subst hij
    rw [if_neg (by omega)] at hk
    rw [if_pos rfl] at hj
    split_ifs at hj
    cases hj
    exact (h hjk hi hk).imp_left hx
  · rw [if_neg hij] at hj
    by_cases hik : i = k
    · subst hik
      exact .inl ((h hjk hj hi).resolve_right ha)
    · rw [if_neg hik] at hk
      exact h hjk hj hk

theorem turn (h : Serial Waiting Done l) (hi : l[i]? = some a) (ha : ¬ Done a)
    (hbefore : DoneBefore Done l i) : Serial Waiting Done (l.set i x) := by
  intro j k b c hjk hj hk
  rw [List.getElem?_set] at hj hk
  by_cases hij : i = j
  · subst hij
    rw [if_neg (by omega)] at hk
    exact .inr (h.waiting_of_lt hi ha hjk hk)
  · rw [if_neg hij] at hj
    by_cases hik : i = k
    · subst hik
      obtain ⟨b', hb', hdone⟩ := hbefore j hjk
      obtain rfl := Option.some.inj (hj.symm.trans hb')
      exact .inl hdone
    · rw [if_neg hik] at hk
      exact h hjk hj hk

end Serial
