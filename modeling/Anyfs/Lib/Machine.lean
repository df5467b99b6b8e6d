import Mathlib.Tactic.Common

/-!
# Machines that take steps

A label says which step is taken and what its surroundings answer. `Machine.Reach` are the states of
the runs whose steps all meet a condition. An invariant is proved for one step (`Reach.invariant`),
and a machine whose steps are steps of another one, seen through a function, inherits what is known
about the other one's runs (`Reach.simulation`).
-/

/-- A machine with states `σ` and labels `ι`. -/
structure Machine (σ ι : Type*) where
  Step : σ → ι → σ → Prop

namespace Machine

variable {σ ι τ κ : Type*} {m : Machine σ ι} {m' : Machine τ κ}

/-- The machine of a step function; `none` says that a step cannot be taken. -/
def ofFun (f : σ → ι → Option σ) : Machine σ ι := ⟨fun s l s' => f s l = some s'⟩

/-- The machine with a record: each step notes something about the states before and after it. -/
def record {η : Type*} (m : Machine σ ι) (note : σ → σ → η → η) : Machine (σ × η) ι :=
  ⟨fun s l s' => m.Step s.1 l s'.1 ∧ s'.2 = note s.1 s'.1 s.2⟩

/-- The states reached from `init` by steps that meet `guard`. -/
inductive Reach (m : Machine σ ι) (guard : σ → ι → Prop) (init : σ) : σ → Prop
  | refl : m.Reach guard init init
  | step {s s' : σ} {l : ι} : m.Reach guard init s → guard s l → m.Step s l s' →
      m.Reach guard init s'

def run (f : σ → ι → Option σ) (guard : σ → ι → Prop) [∀ s l, Decidable (guard s l)] :
    List ι → σ → Option σ
  | [], s => some s
  | l :: ls, s => if guard s l then (f s l).bind (run f guard ls) else none

variable {guard : σ → ι → Prop} {init s : σ}

theorem Reach.invariant {P : σ → Prop} (hinit : P init)
    (hstep : ∀ s l s', P s → guard s l → m.Step s l s' → P s')
    (h : m.Reach guard init s) : P s := by
  induction h with
  | refl => exact hinit
  | step _ hguard hs ih => exact hstep _ _ _ ih hguard hs

theorem Reach.trans {s' : σ} (h : m.Reach guard init s) (h' : m.Reach guard s s') :
    m.Reach guard init s' := by
  induction h' with
  | refl => exact h
  | step _ hguard hs ih => exact .step ih hguard hs

theorem Reach.simulation {guard' : τ → κ → Prop} (f : σ → τ)
    (hstep : ∀ s l s', m.Reach guard init s → guard s l → m.Step s l s' →
      f s' = f s ∨ ∃ l', guard' (f s) l' ∧ m'.Step (f s) l' (f s'))
    (h : m.Reach guard init s) : m'.Reach guard' (f init) (f s) := by
  induction h with
  | refl => exact .refl
  | step hreach hguard hs ih =>
    rcases hstep _ _ _ hreach hguard hs with heq | ⟨l', hguard', hs'⟩
    · exact heq ▸ ih
    · exact .step ih hguard' hs'

theorem Reach.mono {guard' : σ → ι → Prop} (hguard : ∀ s l, guard s l → guard' s l)
    (h : m.Reach guard init s) : m.Reach guard' init s := by
  induction h with
  | refl => exact .refl
  | step _ hl hs ih => exact .step ih (hguard _ _ hl) hs

/-- The machine can get to a state with `P` by steps that meet `guard`. -/
def Can (m : Machine σ ι) (guard : σ → ι → Prop) (P : σ → Prop) (s : σ) : Prop :=
  ∃ s', m.Reach guard s s' ∧ P s'

namespace Can

variable {P Q : σ → Prop}

theorem now (h : P s) : m.Can guard P s := ⟨s, .refl, h⟩

theorem bind (h : m.Can guard P s)
    (hnext : ∀ s', m.Reach guard s s' → P s' → m.Can guard Q s') : m.Can guard Q s := by
  obtain ⟨s₁, hs₁, hP⟩ := h
  obtain ⟨s₂, hs₂, hQ⟩ := hnext s₁ hs₁ hP
  exact ⟨s₂, hs₁.trans hs₂, hQ⟩

theorem step {s' : σ} {l : ι} (hguard : guard s l) (hs : m.Step s l s') (h : m.Can guard P s') :
    m.Can guard P s :=
  bind (P := fun t => t = s') ⟨s', .step .refl hguard hs, rfl⟩ fun _ _ heq => heq ▸ h

theorem mono {guard' : σ → ι → Prop} (hguard : ∀ s l, guard s l → guard' s l)
    (h : m.Can guard P s) : m.Can guard' P s := by
  obtain ⟨s', hs', hP⟩ := h
  exact ⟨s', hs'.mono hguard, hP⟩

end Can

section Record

variable {η : Type*} {note : σ → σ → η → η}

theorem Reach.of_record {guard' : σ × η → ι → Prop} {r : σ × η} {e : η}
    (hguard : ∀ r l, guard' r l → guard r.1 l) (h : (m.record note).Reach guard' (init, e) r) :
    m.Reach guard init r.1 := by
  refine h.simulation Prod.fst fun r l r' _ hl hs => .inr ⟨l, hguard r l hl, ?_⟩
  exact And.left hs

theorem Reach.exists_record (h : m.Reach guard init s) (e : η) :
    ∃ e', (m.record note).Reach (fun s l => guard s.1 l) (init, e) (s, e') := by
  induction h with
  | refl => exact ⟨e, .refl⟩
  | @step s₁ s₂ _ _ hguard hs ih =>
    obtain ⟨e', he'⟩ := ih
    exact ⟨note s₁ s₂ e', .step he' hguard ⟨hs, rfl⟩⟩

end Record

section Run

variable {f : σ → ι → Option σ} [∀ s l, Decidable (guard s l)] {ls : List ι}

theorem Reach.of_run (h : run f guard ls init = some s) : (ofFun f).Reach guard init s := by
  have hgen : ∀ (ls : List ι) (s₁ : σ), (ofFun f).Reach guard init s₁ →
      run f guard ls s₁ = some s → (ofFun f).Reach guard init s := by
    intro ls
    induction ls with
    | nil =>
      intro s₁ hs₁ hrun
      cases hrun
      exact hs₁
    | cons l ls ih =>
      intro s₁ hs₁ hrun
      obtain ⟨hguard, hrun⟩ := Option.ite_none_right_eq_some.mp hrun
      obtain ⟨s₂, hs₂, hrun⟩ := Option.bind_eq_some_iff.mp hrun
      exact ih s₂ (.step hs₁ hguard hs₂) hrun
  exact hgen ls init .refl h

theorem exists_of_run {P : σ → Prop} [DecidablePred P]
    (h : (run f guard ls init).any (fun s => decide (P s)) = true) :
    ∃ s, run f guard ls init = some s ∧ P s := by
  cases hrun : run f guard ls init with
  | none => simp [hrun] at h
  | some s => exact ⟨s, rfl, by simpa [hrun] using h⟩

end Run

end Machine
