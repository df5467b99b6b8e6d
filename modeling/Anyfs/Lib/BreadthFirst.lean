import Mathlib.Data.List.Nodup

/-!
# Breadth-first order

`Below children q out` says that `out` is everything below the nodes of `q`, level by level. A queue
computes this order without knowing the levels (`Queued`): take a node from the front, put out its
children and append those of them that pass a test, if the others have no children (`Below.queued`).
-/

namespace BreadthFirst

open List

variable {α : Type*} {children : α → List α}

/-- What lies below a list, level by level. -/
inductive Below (children : α → List α) : List α → List α → Prop
  | nil : Below children [] []
  | next {q out : List α} : q ≠ [] → Below children (q.flatMap children) out →
      Below children q (q.flatMap children ++ out)

/-- What a queue puts out to which those children are appended that pass the test. -/
inductive Queued (children : α → List α) (test : α → Bool) : List α → List α → Prop
  | nil : Queued children test [] []
  | cons {a : α} {q out : List α} : Queued children test (q ++ (children a).filter test) out →
      Queued children test (a :: q) (children a ++ out)

/-- What lies below a node. -/
inductive Under (children : α → List α) : α → α → Prop
  | child {a b : α} : b ∈ children a → Under children a b
  | step {a b c : α} : b ∈ children a → Under children b c → Under children a c

theorem Under.concat {a b c : α} (h : Under children a b) (hc : c ∈ children b) :
    Under children a c := by
  induction h with
  | child hab => exact .step hab (.child hc)
  | step hab _ ih => exact .step hab (ih hc)

theorem exists_below (μ : α → ℕ) (hμ : ∀ a, ∀ b ∈ children a, μ b < μ a) (q : List α) :
    ∃ out, Below children q out := by
  obtain ⟨n, hn⟩ : ∃ n, ∀ a ∈ q, μ a < n := by
    induction q with
    | nil => exact ⟨0, by simp⟩
    | cons a q ih =>
      obtain ⟨n, hn⟩ := ih
      refine ⟨max n (μ a + 1), forall_mem_cons.mpr ⟨by omega, fun b hb => ?_⟩⟩
      exact Nat.lt_of_lt_of_le (hn b hb) (Nat.le_max_left _ _)
  induction n generalizing q with
  | zero =>
    obtain rfl : q = [] :=
      eq_nil_iff_forall_not_mem.mpr fun a ha => Nat.not_lt_zero _ (hn a ha)
    exact ⟨[], .nil⟩
  | succ n ih =>
    by_cases hne : q = []
    · subst hne
      exact ⟨[], .nil⟩
    · have hnext : ∀ b ∈ q.flatMap children, μ b < n := by
        intro b hb
        obtain ⟨a, ha, hab⟩ := mem_flatMap.mp hb
        exact Nat.lt_of_lt_of_le (hμ a b hab) (Nat.le_of_lt_succ (hn a ha))
      obtain ⟨out, hout⟩ := ih _ hnext
      exact ⟨_, .next hne hout⟩

theorem Below.mem_iff {q out : List α} (h : Below children q out) {b : α} :
    b ∈ out ↔ ∃ a ∈ q, Under children a b := by
  induction h with
  | nil => simp
  | @next q out hne _ ih =>
    rw [mem_append, mem_flatMap, ih]
    constructor
    · rintro (⟨a, ha, hab⟩ | ⟨c, hc, hcb⟩)
      · exact ⟨a, ha, .child hab⟩
      · obtain ⟨a, ha, hac⟩ := mem_flatMap.mp hc
        exact ⟨a, ha, .step hac hcb⟩
    · rintro ⟨a, ha, hab⟩
      cases hab with
      | child hab => exact .inl ⟨a, ha, hab⟩
      | step hac hcb => exact .inr ⟨_, mem_flatMap.mpr ⟨a, ha, hac⟩, hcb⟩

section Key

variable {β : Type*}

theorem Under.rank_lt (key : α → β) (rank : β → ℕ)
    (hrank : ∀ a, ∀ b ∈ children a, rank (key b) = rank (key a) + 1) {a b : α}
    (h : Under children a b) : rank (key a) < rank (key b) := by
  induction h with
  | child hab =>
    rw [hrank _ _ hab]
    exact Nat.lt_succ_self _
  | step hab _ ih =>
    rw [hrank _ _ hab] at ih
    exact Nat.lt_of_succ_lt ih

theorem Below.nodup_map (key : α → β) (parent : β → β) (rank : β → ℕ)
    (hparent : ∀ a, ∀ b ∈ children a, parent (key b) = key a)
    (hrank : ∀ a, ∀ b ∈ children a, rank (key b) = rank (key a) + 1)
    (hchildren : ∀ a, ((children a).map key).Nodup) {q out : List α} (h : Below children q out)
    {n : ℕ} (hlevel : ∀ a ∈ q, rank (key a) = n) (hq : (q.map key).Nodup) :
    (out.map key).Nodup := by
  induction h generalizing n with
  | nil => exact nodup_nil
  | @next q out hne hbelow ih =>
    have hlevel' : ∀ b ∈ q.flatMap children, rank (key b) = n + 1 := by
      intro b hb
      obtain ⟨a, ha, hab⟩ := mem_flatMap.mp hb
      rw [hrank a b hab, hlevel a ha]
    have hnext : ((q.flatMap children).map key).Nodup := by
      rw [map_flatMap, nodup_flatMap]
      refine ⟨fun a _ => hchildren a, ?_⟩
      refine (pairwise_map.mp hq).imp fun {a a'} hne k hk hk' => hne ?_
      obtain ⟨b, hb, rfl⟩ := mem_map.mp hk
      obtain ⟨b', hb', hkey⟩ := mem_map.mp hk'
      rw [← hparent a b hb, ← hparent a' b' hb', hkey]
    rw [map_append, nodup_append']
    refine ⟨hnext, ih hlevel' hnext, fun k hk hk' => ?_⟩
    -- what comes later is further down
    obtain ⟨b, hb, rfl⟩ := mem_map.mp hk
    obtain ⟨d, hd, hkey⟩ := mem_map.mp hk'
    obtain ⟨c, hc, hcd⟩ := hbelow.mem_iff.mp hd
    have hlt := hcd.rank_lt key rank hrank
    rw [hkey, hlevel' b hb, hlevel' c hc] at hlt
    exact absurd hlt (Nat.lt_irrefl _)

end Key

theorem Queued.append {test : α → Bool} (htest : ∀ a, test a = false → children a = []) (q : List α)
    {r out : List α} (h : Queued children test (r ++ (q.flatMap children).filter test) out) :
    Queued children test (q.filter test ++ r) (q.flatMap children ++ out) := by
  induction q generalizing r with
  | nil => simpa using h
  | cons a q ih =>
    rw [flatMap_cons, append_assoc]
    cases ha : test a with
    | false =>
      rw [filter_cons_of_neg (by simp [ha]), htest a ha, nil_append]
      rw [flatMap_cons, htest a ha, nil_append] at h
      exact ih h
    | true =>
      rw [filter_cons_of_pos ha, cons_append]
      refine .cons ?_
      -- the rest of the queue is what it was, with the children of `a` behind it
      rw [append_assoc]
      refine ih ?_
      rwa [append_assoc, ← filter_append, ← flatMap_cons]

theorem Below.queued {test : α → Bool} {q out : List α} (h : Below children q out)
    (htest : ∀ a, test a = false → children a = []) : Queued children test (q.filter test) out := by
  induction h with
  | nil => exact .nil
  | @next q out hne _ ih =>
    have happend : Queued children test (q.filter test ++ []) (q.flatMap children ++ out) :=
      Queued.append htest q (by simpa using ih)
    rwa [append_nil] at happend

end BreadthFirst
