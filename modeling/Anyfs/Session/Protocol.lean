import Anyfs.Lib.Machine
import Anyfs.Session.Types

/-!
# The life of one mount

A single target: its state, how often the kernel has it mounted, and what each thread is doing to
it. MOUNTING works as a lock for the thread that mounts. Leaving works without it: unmount first,
set the target to NEW later.
-/

namespace Anyfs

open Function Option

/-- What a thread is doing to a target: nothing, attempting to mount it, holding a mount it has not
published, having unmounted it without having set it to NEW. -/
inductive Role where
  | out
  | trying
  | won
  | leaving
  deriving DecidableEq

def Role.Attempts (r : Role) : Prop := r = .trying ∨ r = .won

instance : DecidablePred Role.Attempts := fun r =>
  inferInstanceAs (Decidable (r = .trying ∨ r = .won))

/-- A target: its state, the number of kernel mounts on its mount point, and the threads. -/
structure TargetView where
  state : AnyfsPartState
  depth : ℕ
  role : ℕ → Role

open TargetView

/-- The events at one target. -/
inductive TargetAct where
  | start
  | mountOk
  | giveUp (st : AnyfsPartState)
  | publish
  | umountOk
  | leave
  deriving DecidableEq

/-- What an event does to a target. -/
def TargetView.next (v : TargetView) (a : ℕ) : TargetAct → Option TargetView
  | .start =>
    if v.role a = .out ∧ v.state ≠ .mounting ∧ v.state ≠ .mounted then
      some ⟨.mounting, v.depth, update v.role a .trying⟩
    else none
  | .mountOk =>
    if v.role a = .trying then some ⟨v.state, v.depth + 1, update v.role a .won⟩
    else none
  | .giveUp st =>
    if v.role a = .trying ∧ (st = .new ∨ st = .failed) then
      some ⟨st, v.depth, update v.role a .out⟩
    else none
  | .publish =>
    if v.role a = .won then some ⟨.mounted, v.depth, update v.role a .out⟩ else none
  | .umountOk =>
    if v.role a = .out ∧ 0 < v.depth then
      some ⟨v.state, v.depth - 1, update v.role a .leaving⟩
    else none
  | .leave =>
    if v.role a = .leaving then some ⟨.new, v.depth, update v.role a .out⟩ else none

def targetMachine : Machine TargetView (ℕ × TargetAct) := .ofFun fun v l => v.next l.1 l.2

def TargetView.idle : TargetView := ⟨.new, 0, fun _ => .out⟩

/-- A leave does not set a target to NEW while it is MOUNTING. -/
def LeaveSettled (v : TargetView) (l : ℕ × TargetAct) : Prop :=
  l.2 = .leave → v.state ≠ .mounting

/-! ### Phases -/

/-- What all threads have to do with a target. -/
inductive Phase where
  /-- Not mounted; `failed` says whether the last attempt counts against it. -/
  | down (failed : Bool)
  /-- Thread `a` attempts to mount it. -/
  | trying (a : ℕ)
  /-- Thread `a` has mounted it. -/
  | won (a : ℕ)
  /-- Thread `c` has unmounted it before thread `a` could publish the mount. -/
  | wonLeft (a c : ℕ) (hne : a ≠ c)
  /-- Mounted. -/
  | up
  /-- Thread `c` has unmounted it. -/
  | leaving (c : ℕ)

open Phase

/-- The target in a phase. -/
def Phase.view : Phase → TargetView
  | .down failed => ⟨if failed then .failed else .new, 0, fun _ => .out⟩
  | .trying a => ⟨.mounting, 0, update (fun _ => .out) a .trying⟩
  | .won a => ⟨.mounting, 1, update (fun _ => .out) a .won⟩
  | .wonLeft a c _ =>
    ⟨.mounting, 0, update (update (fun _ => .out) a .won) c .leaving⟩
  | .up => ⟨.mounted, 1, fun _ => .out⟩
  | .leaving c => ⟨.mounted, 0, update (fun _ => .out) c .leaving⟩

section Roles

variable {a b c : ℕ} {r r' : Role}

theorem eq_of_update_out (h : update (fun _ => Role.out) a r b = r')
    (hr : r' ≠ .out) : b = a ∧ r = r' := by
  by_cases hb : b = a
  · subst hb
    exact ⟨rfl, by simpa using h⟩
  · rw [update_of_ne hb] at h
    exact absurd h.symm hr

theorem update_update_out : update (update (fun _ => Role.out) a r) a .out = fun _ => .out := by
  rw [update_idem, update_eq_self_iff]

theorem eq_of_update_update_out (h : update (update (fun _ => Role.out) a .won) c .leaving b = r')
    (hr : r' ≠ .out) : (b = a ∧ r' = .won) ∨ (b = c ∧ r' = .leaving) := by
  by_cases hb : b = c
  · subst hb
    exact .inr ⟨rfl, by simpa using h.symm⟩
  · rw [update_of_ne hb] at h
    obtain ⟨hba, hwon⟩ := eq_of_update_out h hr
    exact .inl ⟨hba, hwon.symm⟩

end Roles

section Next

variable {v v' : TargetView} {x : ℕ} {act : TargetAct}

theorem TargetView.next_cases (h : v.next x act = some v') :
    (v.role x = .out ∧ v.state ≠ .mounting ∧ v.state ≠ .mounted ∧
      v' = ⟨.mounting, v.depth, update v.role x .trying⟩) ∨
    (v.role x = .trying ∧ v' = ⟨v.state, v.depth + 1, update v.role x .won⟩) ∨
    (v.role x = .trying ∧ ∃ failed : Bool,
      v' = ⟨if failed then .failed else .new, v.depth, update v.role x .out⟩) ∨
    (v.role x = .won ∧ v' = ⟨.mounted, v.depth, update v.role x .out⟩) ∨
    (act = .umountOk ∧ v.role x = .out ∧ 0 < v.depth ∧
      v' = ⟨v.state, v.depth - 1, update v.role x .leaving⟩) ∨
    (act = .leave ∧ v.role x = .leaving ∧
      v' = ⟨.new, v.depth, update v.role x .out⟩) := by
  cases act with
  | start =>
    simp only [next, ite_none_right_eq_some, some.injEq] at h
    exact .inl ⟨h.1.1, h.1.2.1, h.1.2.2, h.2.symm⟩
  | mountOk =>
    simp only [next, ite_none_right_eq_some, some.injEq] at h
    exact .inr (.inl ⟨h.1, h.2.symm⟩)
  | giveUp st =>
    simp only [next, ite_none_right_eq_some, some.injEq] at h
    obtain ⟨⟨hrole, rfl | rfl⟩, rfl⟩ := h
    · exact .inr (.inr (.inl ⟨hrole, false, rfl⟩))
    · exact .inr (.inr (.inl ⟨hrole, true, rfl⟩))
  | publish =>
    simp only [next, ite_none_right_eq_some, some.injEq] at h
    exact .inr (.inr (.inr (.inl ⟨h.1, h.2.symm⟩)))
  | umountOk =>
    simp only [next, ite_none_right_eq_some, some.injEq] at h
    exact .inr (.inr (.inr (.inr (.inl ⟨rfl, h.1.1, h.1.2, h.2.symm⟩))))
  | leave =>
    simp only [next, ite_none_right_eq_some, some.injEq] at h
    exact .inr (.inr (.inr (.inr (.inr ⟨rfl, h.1, h.2.symm⟩))))

theorem Phase.next_down {failed : Bool} (h : (down failed).view.next x act = some v) :
    v = (trying x).view := by
  rcases next_cases h with ⟨-, -, -, rfl⟩ | ⟨hr, -⟩ | ⟨hr, -⟩ | ⟨hr, -⟩ |
    ⟨-, -, hdepth, -⟩ | ⟨-, hr, -⟩
  · rfl
  · cases hr
  · cases hr
  · cases hr
  · exact absurd hdepth (lt_irrefl 0)
  · cases hr

theorem Phase.next_up (h : up.view.next x act = some v) : v = (leaving x).view := by
  rcases next_cases h with ⟨-, -, hst, -⟩ | ⟨hr, -⟩ | ⟨hr, -⟩ | ⟨hr, -⟩ |
    ⟨-, -, -, rfl⟩ | ⟨-, hr, -⟩
  · exact absurd rfl hst
  · cases hr
  · cases hr
  · cases hr
  · rfl
  · cases hr

theorem Phase.next_trying {a : ℕ} (h : (trying a).view.next x act = some v) :
    v = (won a).view ∨ ∃ failed, v = (down failed).view := by
  rcases next_cases h with ⟨-, hst, -⟩ | ⟨hr, rfl⟩ | ⟨hr, failed, rfl⟩ | ⟨hr, -⟩ |
    ⟨-, -, hdepth, -⟩ | ⟨-, hr, -⟩
  · exact absurd rfl hst
  · obtain ⟨rfl, -⟩ := eq_of_update_out hr (by decide)
    exact .inl (by simp only [view, update_idem])
  · obtain ⟨rfl, -⟩ := eq_of_update_out hr (by decide)
    exact .inr ⟨failed, by simp only [view, update_update_out]⟩
  · cases (eq_of_update_out hr (by decide)).2
  · exact absurd hdepth (lt_irrefl 0)
  · cases (eq_of_update_out hr (by decide)).2

theorem Phase.next_won {a : ℕ} (h : (won a).view.next x act = some v) :
    v = up.view ∨ ∃ hne, v = (wonLeft a x hne).view := by
  rcases next_cases h with ⟨-, hst, -⟩ | ⟨hr, -⟩ | ⟨hr, -⟩ | ⟨hr, rfl⟩ |
    ⟨rfl, hr, -, rfl⟩ | ⟨-, hr, -⟩
  · exact absurd rfl hst
  · cases (eq_of_update_out hr (by decide)).2
  · cases (eq_of_update_out hr (by decide)).2
  · obtain ⟨rfl, -⟩ := eq_of_update_out hr (by decide)
    exact .inl (by simp only [view, update_update_out])
  · have hne : a ≠ x := by
      rintro rfl
      simp [view] at hr
    exact .inr ⟨hne, rfl⟩
  · cases (eq_of_update_out hr (by decide)).2

theorem Phase.next_wonLeft {a c : ℕ} {hne : a ≠ c}
    (hguard : LeaveSettled (wonLeft a c hne).view (x, act))
    (h : (wonLeft a c hne).view.next x act = some v) : v = (leaving c).view := by
  rcases next_cases h with ⟨-, hst, -⟩ | ⟨hr, -⟩ | ⟨hr, -⟩ | ⟨hr, rfl⟩ |
    ⟨-, -, hdepth, -⟩ | ⟨rfl, -⟩
  · exact absurd rfl hst
  · rcases eq_of_update_update_out hr (by decide) with ⟨-, h⟩ | ⟨-, h⟩ <;> cases h
  · rcases eq_of_update_update_out hr (by decide) with ⟨-, h⟩ | ⟨-, h⟩ <;> cases h
  · rcases eq_of_update_update_out hr (by decide) with ⟨rfl, -⟩ | ⟨-, h⟩
    · simp only [view]
      rw [update_comm hne.symm, update_update_out]
    · cases h
  · exact absurd hdepth (lt_irrefl 0)
  · -- the guard: the leaving thread has to wait until the mount is published
    exact absurd rfl (hguard rfl)

theorem Phase.next_leaving {c : ℕ} (h : (leaving c).view.next x act = some v) :
    v = (down false).view := by
  rcases next_cases h with ⟨-, -, hst, -⟩ | ⟨hr, -⟩ | ⟨hr, -⟩ | ⟨hr, -⟩ |
    ⟨-, -, hdepth, -⟩ | ⟨-, hr, rfl⟩
  · exact absurd rfl hst
  · cases (eq_of_update_out hr (by decide)).2
  · cases (eq_of_update_out hr (by decide)).2
  · cases (eq_of_update_out hr (by decide)).2
  · exact absurd hdepth (lt_irrefl 0)
  · obtain ⟨rfl, -⟩ := eq_of_update_out hr (by decide)
    simp only [view, update_update_out, Bool.false_eq_true, if_false]

end Next

theorem reach_leaveSettled {v : TargetView}
    (h : targetMachine.Reach LeaveSettled .idle v) : ∃ p : Phase, v = p.view := by
  refine h.invariant (P := fun v => ∃ p : Phase, v = p.view) ⟨.down false, rfl⟩ ?_
  rintro _ ⟨x, act⟩ v' ⟨p, rfl⟩ hguard hs
  cases p with
  | down failed => exact ⟨_, next_down hs⟩
  | trying a =>
    rcases next_trying hs with hv | ⟨failed, hv⟩
    · exact ⟨_, hv⟩
    · exact ⟨_, hv⟩
  | won a =>
    rcases next_won hs with hv | ⟨hne, hv⟩
    · exact ⟨_, hv⟩
    · exact ⟨_, hv⟩
  | wonLeft a c hne => exact ⟨_, next_wonLeft hguard hs⟩
  | up => exact ⟨_, next_up hs⟩
  | leaving c => exact ⟨_, next_leaving hs⟩

/-! ### What the phases say -/

namespace Phase

theorem mounted_iff (p : Phase) (h : ∀ a, p.view.role a = .out) :
    p.view.state = .mounted ↔ 0 < p.view.depth := by
  cases p with
  | down failed => cases failed <;> simp [view]
  | trying a => simp [view]
  | won a => simpa [view] using h a
  | wonLeft a c hne => simp [view]
  | up => simp [view]
  | leaving c => simpa [view] using h c

theorem attempts_unique (p : Phase) {a : ℕ} (h : (p.view.role a).Attempts) :
    p.view.state = .mounting ∧ ∀ b, (p.view.role b).Attempts → b = a := by
  have hne : ∀ {r : Role}, r.Attempts → r ≠ .out := by
    rintro _ (rfl | rfl) <;> decide
  cases p with
  | down failed => exact absurd rfl (hne h)
  | trying x =>
    have hx : ∀ b, ((trying x).view.role b).Attempts → b = x := fun b hb =>
      (eq_of_update_out rfl (hne hb)).1
    exact ⟨rfl, fun b hb => (hx b hb).trans (hx a h).symm⟩
  | won x =>
    have hx : ∀ b, ((won x).view.role b).Attempts → b = x := fun b hb =>
      (eq_of_update_out rfl (hne hb)).1
    exact ⟨rfl, fun b hb => (hx b hb).trans (hx a h).symm⟩
  | wonLeft x c hxc =>
    have hx : ∀ b, ((wonLeft x c hxc).view.role b).Attempts → b = x := by
      intro b hb
      rcases eq_of_update_update_out rfl (hne hb) with ⟨hbx, -⟩ | ⟨-, hleaving⟩
      · exact hbx
      · -- the thread that has left does not attempt anything
        exact absurd (hleaving ▸ hb : Role.leaving.Attempts) (by decide)
    exact ⟨rfl, fun b hb => (hx b hb).trans (hx a h).symm⟩
  | up => exact absurd rfl (hne h)
  | leaving c =>
    obtain ⟨-, hleaving⟩ := eq_of_update_out rfl (hne h)
    exact absurd (hleaving ▸ h : Role.leaving.Attempts) (by decide)

end Phase

end Anyfs
