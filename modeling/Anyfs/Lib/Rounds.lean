import Mathlib.Tactic.Common

/-!
# Loops and their rounds

A loop is a function that makes one round: it gives the state for the next round, or what the loop
ends with. It ends when a measure goes down (`Ends.of_measure`), and does not when there is always
another round (`not_ends_of_forever`).
-/

namespace Rounds

variable {α ε : Type*} {step : α → Except ε α} {s s' : α} {n : ℕ}

/-- The state after `n` rounds, or what the loop ended with before. -/
def run (step : α → Except ε α) : ℕ → α → Except ε α
  | 0, s => .ok s
  | n + 1, s =>
    match step s with
    | .error e => .error e
    | .ok s' => run step n s'

def Ends (step : α → Except ε α) (s : α) : Prop := ∃ n e, run step n s = .error e

theorem run_succ_of_ok (h : step s = .ok s') (n : ℕ) : run step (n + 1) s = run step n s' := by
  rw [run, h]

theorem run_succ_of_error {e : ε} (h : step s = .error e) (n : ℕ) :
    run step (n + 1) s = .error e := by
  rw [run, h]

theorem run_one : run step 1 s = .ok s' ↔ step s = .ok s' := by
  rw [run]
  cases step s with
  | error e => exact Iff.rfl
  | ok t => exact Iff.rfl

theorem run_add (h : run step n s = .ok s') (k : ℕ) : run step (n + k) s = run step k s' := by
  induction n generalizing s with
  | zero =>
    obtain rfl := Except.ok.inj h
    rw [Nat.zero_add]
  | succ n ih =>
    cases hstep : step s with
    | error e => rw [run_succ_of_error hstep] at h; cases h
    | ok t =>
      rw [run_succ_of_ok hstep] at h
      rw [Nat.succ_add, run_succ_of_ok hstep, ih h]

theorem run_error_mono {e : ε} (h : run step n s = .error e) (k : ℕ) :
    run step (n + k) s = .error e := by
  induction n generalizing s with
  | zero => cases h
  | succ n ih =>
    cases hstep : step s with
    | error e' =>
      rw [run_succ_of_error hstep] at h
      rw [Nat.succ_add, run_succ_of_error hstep, h]
    | ok t =>
      rw [run_succ_of_ok hstep] at h
      rw [Nat.succ_add, run_succ_of_ok hstep, ih h]

theorem run_invariant {P : α → Prop} (hs : P s)
    (hstep : ∀ k t t', run step k s = .ok t → P t → step t = .ok t' → P t')
    (h : run step n s = .ok s') : P s' := by
  induction n generalizing s' with
  | zero =>
    obtain rfl := Except.ok.inj h
    exact hs
  | succ n ih =>
    cases hrun : run step n s with
    | error e =>
      have := run_error_mono hrun 1
      rw [this] at h
      cases h
    | ok t =>
      rw [run_add hrun 1] at h
      exact hstep n t s' hrun (ih hrun) (run_one.mp h)

theorem exists_of_run_error {e : ε} (h : run step n s = .error e) :
    ∃ k t, run step k s = .ok t ∧ step t = .error e := by
  induction n generalizing s with
  | zero => cases h
  | succ n ih =>
    cases hstep : step s with
    | error e' =>
      rw [run_succ_of_error hstep] at h
      exact ⟨0, s, rfl, hstep.trans h⟩
    | ok s' =>
      rw [run_succ_of_ok hstep] at h
      obtain ⟨k, t, hk, ht⟩ := ih h
      exact ⟨k + 1, t, (run_succ_of_ok hstep k).trans hk, ht⟩

theorem Ends.of_measure (μ : α → ℕ)
    (hstep : ∀ k t t', run step k s = .ok t → step t = .ok t' → μ t' < μ t) : Ends step s := by
  induction hμ : μ s using Nat.strongRecOn generalizing s with
  | ind m ih =>
    cases hs : step s with
    | error e => exact ⟨1, e, run_succ_of_error hs 0⟩
    | ok s' =>
      have hlt : μ s' < m := hμ ▸ hstep 0 s s' rfl hs
      have hrest : ∀ k t t', run step k s' = .ok t → step t = .ok t' → μ t' < μ t :=
        fun k t t' hk ht => hstep (k + 1) t t' (by rw [run_succ_of_ok hs, hk]) ht
      obtain ⟨n, e, hn⟩ := ih (μ s') hlt hrest rfl
      exact ⟨n + 1, e, by rw [run_succ_of_ok hs, hn]⟩

theorem not_ends_of_forever {P : α → Prop} (hP : ∀ t, P t → ∃ t', step t = .ok t' ∧ P t')
    (h : run step n s = .ok s') (hs' : P s') : ¬ Ends step s := by
  have hforever : ∀ k t, P t → ∃ t', run step k t = .ok t' := by
    intro k
    induction k with
    | zero => exact fun t _ => ⟨t, rfl⟩
    | succ k ih =>
      intro t ht
      obtain ⟨t', hstep, ht'⟩ := hP t ht
      rw [run_succ_of_ok hstep]
      exact ih t' ht'
  rintro ⟨m, e, hm⟩
  obtain ⟨t, ht⟩ := hforever m s' hs'
  have hgo := run_add h m
  rw [Nat.add_comm, run_error_mono hm n, ht] at hgo
  cases hgo

end Rounds
