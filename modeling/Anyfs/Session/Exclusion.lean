import Anyfs.Session.Threads

/-!
# What a target sees of the threads

Seen from one target, every step of a session with its threads is a step of `targetMachine` or no
step at all (`view_step`). If no leave sets a target to NEW while it is MOUNTING, a session without
calls in progress has the state MOUNTED exactly where the kernel has a mount, and at most one thread
at a time attempts to mount a target.
-/

namespace Anyfs

open Function Option

variable {d : Disk}

/-! ### What a thread holds -/

/-- What a thread has begun: the target it is about to set to NEW; the target it has set to
MOUNTING; whether it has mounted that one. -/
structure Hold (d : Disk) where
  leaving : Option (TopTarget d)
  attempt : Option (TopTarget d)
  won : Bool

/-- What a thread has under way. -/
def Pc.hold : Pc d → Hold d
  | .idle => ⟨none, none, false⟩
  | .begin _ _ => ⟨none, none, false⟩
  | .relWhole i => ⟨none, some (.slot i), false⟩
  | .relPart _ => ⟨none, some .whole, false⟩
  | .leaveCheck _ k => ⟨none, k.map fun _ => .whole, false⟩
  | .umountWhole k => ⟨none, k.map .slot, false⟩
  | .leftWhole k => ⟨some .whole, k.map .slot, false⟩
  | .umountPart _ k => ⟨none, k.map fun _ => .whole, false⟩
  | .leftPart i k => ⟨some (.slot i), k.map fun _ => .whole, false⟩
  | .mount t _ => ⟨none, some t, false⟩
  | .busy t _ => ⟨none, some t, false⟩
  | .publish t rc => ⟨none, some t, rc = 0⟩
  | .container i => ⟨none, some (.slot i), false⟩

/-- What a thread's step does to what it holds. -/
inductive Move (st : Target → AnyfsPartState) : Hold d → Effect d → Hold d → Prop
  | skip (h : Hold d) : Move st h .skip h
  | start (t : TopTarget d) (h : st t.target ≠ .mounting) (h' : st t.target ≠ .mounted) :
      Move st ⟨none, none, false⟩ (.set t .mounting) ⟨none, some t, false⟩
  | mountOk (t : TopTarget d) :
      Move st ⟨none, some t, false⟩ (.mount t) ⟨none, some t, true⟩
  | giveUp (t : TopTarget d) {st' : AnyfsPartState} (h : st' = .new ∨ st' = .failed) :
      Move st ⟨none, some t, false⟩ (.set t st') ⟨none, none, false⟩
  | publish (t : TopTarget d) :
      Move st ⟨none, some t, true⟩ (.set t .mounted) ⟨none, none, false⟩
  | umountOk (t : TopTarget d) {o : Option (TopTarget d)} (h : o ≠ some t) :
      Move st ⟨none, o, false⟩ (.umount t) ⟨some t, o, false⟩
  | leave (t : TopTarget d) {o : Option (TopTarget d)} (h : o ≠ some t) :
      Move st ⟨some t, o, false⟩ (.set t .new) ⟨none, o, false⟩

section Steps

variable {st : Target → AnyfsPartState} {pc pc' pc'' : Pc d} {act : Act} {e : Effect d}
  {t : TopTarget d}

theorem Pc.hold_afterWhole (k : Option (TopSlot d)) :
    (Pc.afterWhole k).hold = ⟨none, k.map .slot, false⟩ := by
  cases k <;> rfl

theorem Pc.hold_afterPart (k : Option ℕ) :
    (Pc.afterPart k : Pc d).hold = ⟨none, k.map fun _ => .whole, false⟩ := by
  cases k <;> rfl

theorem Pc.hold_afterBegin (t : TopTarget d) (replace : Bool) :
    (Pc.afterBegin t replace).hold = ⟨none, some t, false⟩ := by
  cases t with
  | whole =>
    rw [afterBegin]
    split_ifs <;> rfl
  | slot i =>
    rw [afterBegin]
    split_ifs <;> rfl

theorem Move.of_skip (h : some (Effect.skip, pc') = some (e, pc'')) (hhold : pc'.hold = pc.hold) :
    Move st pc.hold e pc''.hold := by
  cases h
  exact hhold ▸ .skip _

theorem publishedState_zero (t : TopTarget d) : publishedState t 0 = .mounted := by
  cases t <;> rfl

theorem publishedState_of_ne {rc : ℤ} (t : TopTarget d) (h : rc ≠ 0) :
    publishedState t rc = .new ∨ publishedState t rc = .failed := by
  cases t with
  | whole => exact .inl (if_neg h)
  | slot i =>
    rw [publishedState, if_neg h]
    split_ifs
    · exact .inl rfl
    · exact .inr rfl

theorem Move.of_publish (t : TopTarget d) (rc : ℤ) :
    Move st (Pc.publish t rc).hold (.set t (publishedState t rc)) (Pc.idle : Pc d).hold := by
  by_cases hrc : rc = 0
  · subst hrc
    rw [publishedState_zero]
    exact .publish t
  · have hhold : (Pc.publish t rc).hold = ⟨none, some t, false⟩ := by simp [Pc.hold, hrc]
    rw [hhold]
    exact .giveUp t (publishedState_of_ne t hrc)

theorem Pc.step_move (h : pc.step st act = some (e, pc')) : Move st pc.hold e pc'.hold := by
  unfold Pc.step at h
  split at h
  · -- `anyfs_session_enter`
    refine .of_skip h ?_
    split_ifs
    · rfl
    · rfl
    · split <;> rfl
  · -- `anyfs_session_leave`
    refine .of_skip h ?_
    split_ifs <;> rfl
  · -- a target is looked at, and taken if nobody has it
    rename_i t replace
    split_ifs at h with hmounting hdone
    · exact .of_skip h rfl
    · cases h
      rw [Pc.hold_afterBegin]
      exact .start t hmounting fun h => hdone (.inl h)
  · refine .of_skip h ?_
    split_ifs <;> rfl
  · refine .of_skip h ?_
    split_ifs <;> rfl
  · refine .of_skip h ?_
    split
    · exact Pc.hold_afterPart _
    · split_ifs
      · exact Pc.hold_afterPart _
      · rfl
  · rename_i k r
    split_ifs at h
    · cases h
      exact .umountOk .whole (by cases k <;> simp)
    · exact .of_skip h (Pc.hold_afterWhole k)
  · rename_i k
    cases h
    rw [Pc.hold_afterWhole]
    exact .leave .whole (by cases k <;> simp)
  · rename_i i k r
    split_ifs at h
    · cases h
      exact .umountOk (.slot i) (by cases k <;> simp)
    · exact .of_skip h (Pc.hold_afterPart k)
  · rename_i i k
    cases h
    rw [Pc.hold_afterPart]
    exact .leave (.slot i) (by cases k <;> simp)
  · -- a mount attempt with its result
    rename_i t waited r
    split_ifs at h with hr hbusy
    · cases h
      exact .mountOk t
    · exact .of_skip h rfl
    · refine .of_skip h ?_
      simp [Pc.hold, hr]
  · refine .of_skip h ?_
    split_ifs
    · rfl
    · rfl
  · rename_i t rc
    cases h
    exact .of_publish t rc
  · rename_i i
    cases h
    exact .giveUp (.slot i) (.inr rfl)
  · cases h

end Steps

/-! ### The session from one target -/

def Hold.role (h : Hold d) (u : TopTarget d) : Role :=
  if h.leaving = some u then .leaving
  else if h.attempt = some u then if h.won then .won else .trying
  else .out

/-- The session as seen at one target. -/
@[simps] def Sys.view (s : Sys d) (u : TopTarget d) : TargetView :=
  ⟨s.state u.target, s.mounts u.name, fun a => (s.pc a).hold.role u⟩

def Effect.target : Effect d → Option (TopTarget d)
  | .skip => none
  | .set t _ => some t
  | .mount t => some t
  | .umount t => some t

attribute [local simp] TargetView.next Hold.role

section View

variable {s s' : Sys d} {a : ℕ} {act : Act} {pc' : Pc d} {e : Effect d} {u : TopTarget d}

theorem Effect.pc_exec (e : Effect d) : (e.exec s).pc = s.pc := by
  cases e <;> rfl

theorem Effect.state_exec (h : e.target ≠ some u) :
    (e.exec s).state u.target = s.state u.target := by
  cases e with
  | set t st =>
    exact update_of_ne (fun ht => h (congrArg some (TopTarget.target_inj ht.symm))) _ _
  | skip => rfl
  | mount t => rfl
  | umount t => rfl

theorem Effect.mounts_exec (h : e.target ≠ some u) :
    (e.exec s).mounts u.name = s.mounts u.name := by
  have hname : ∀ t, e.target = some t → u.name ≠ t.name := by
    intro t ht hu
    exact h (ht.trans (congrArg some (TopTarget.name_inj hu.symm)))
  cases e with
  | skip => rfl
  | set t st => rfl
  | mount t => exact update_of_ne (hname t rfl) _ _
  | umount t => exact update_of_ne (hname t rfl) _ _

theorem Sys.view_exec (s : Sys d) (e : Effect d) (a : ℕ) (pc' : Pc d) (u : TopTarget d) :
    ((e.exec s).goto a pc').view u =
      ⟨(e.exec s).state u.target, (e.exec s).mounts u.name,
        update (s.view u).role a (pc'.hold.role u)⟩ := by
  have hrole : (fun b => (((e.exec s).goto a pc').pc b).hold.role u) =
      update (s.view u).role a (pc'.hold.role u) := by
    funext b
    by_cases hb : b = a
    · subst hb
      simp [Sys.goto]
    · simp [Sys.goto, Sys.view, e.pc_exec, hb]
  rw [Sys.view, hrole]
  rfl

theorem Sys.view_of_unmoved (hne : e.target ≠ some u)
    (hrole : pc'.hold.role u = (s.pc a).hold.role u) :
    ((e.exec s).goto a pc').view u = s.view u := by
  have hself : update (s.view u).role a ((s.pc a).hold.role u) = (s.view u).role :=
    update_eq_self a _
  rw [Sys.view_exec, e.state_exec hne, e.mounts_exec hne, hrole, hself]
  rfl

theorem sessionStep_cases (h : sessionStep s (a, act) = some s') :
    ∃ e pc', (s.pc a).step s.state act = some (e, pc') ∧ e.Enabled s ∧
      s' = (e.exec s).goto a pc' := by
  obtain ⟨⟨e, pc'⟩, hstep, h⟩ := bind_eq_some_iff.mp h
  obtain ⟨henabled, h⟩ := ite_none_right_eq_some.mp h
  exact ⟨e, pc', hstep, henabled, (some.inj h).symm⟩

attribute [local simp] Effect.exec

theorem view_step (h : sessionStep s (a, act) = some s') (u : TopTarget d) :
    s'.view u = s.view u ∨ ∃ act', (s.view u).next a act' = some (s'.view u) ∧
      (act' = .leave → (s.pc a).hold.leaving = some u) := by
  obtain ⟨e, pc', hstep, henabled, rfl⟩ := sessionStep_cases h
  have hmove := Pc.step_move hstep
  generalize hhold : (s.pc a).hold = hold at hmove
  generalize hhold' : pc'.hold = hold' at hmove
  by_cases htarget : e.target = some u
  swap
  · -- a change of another target: the role to this one stays the same
    refine .inl (Sys.view_of_unmoved htarget ?_)
    rw [hhold, hhold']
    cases hmove <;> simp_all [Effect.target]
  rw [Sys.view_exec, hhold']
  refine .inr ?_
  cases hmove with
  | skip => cases htarget
  | start t hmounting hmounted =>
    cases htarget
    refine ⟨.start, ?_, by simp⟩
    simp [hhold, hmounting, hmounted]
  | mountOk t =>
    cases htarget
    refine ⟨.mountOk, ?_, by simp⟩
    simp [hhold]
  | @giveUp t st' hst =>
    cases htarget
    refine ⟨.giveUp st', ?_, by simp⟩
    simp [hhold, hst]
  | publish t =>
    obtain rfl := some.inj htarget
    refine ⟨.publish, ?_, by simp⟩
    simp [hhold]
  | @umountOk t o ho =>
    obtain rfl := some.inj htarget
    have hdepth : 0 < s.mounts t.name := henabled
    refine ⟨.umountOk, ?_, by simp⟩
    simp [hhold, hdepth, ho]
  | @leave t o ho =>
    cases htarget
    refine ⟨.leave, ?_, fun _ => rfl⟩
    simp [hhold, ho]

end View

/-! ### Runs -/

/-- No leave sets a target to NEW while it is MOUNTING. -/
def LeavesSettled (s : Sys d) (l : ℕ × Act) : Prop :=
  ∀ t ∈ (s.pc l.1).hold.leaving, s.state t.target ≠ .mounting

instance (s : Sys d) (l : ℕ × Act) : Decidable (LeavesSettled s l) :=
  inferInstanceAs (Decidable (∀ t ∈ (s.pc l.1).hold.leaving, s.state t.target ≠ .mounting))

section Runs

variable {s : Sys d}

theorem Sys.view_opened (u : TopTarget d) : (Sys.opened d).view u = .idle := rfl

theorem exists_phase_of_leavesSettled (h : (sessionMachine d).Reach LeavesSettled (.opened d) s)
    (u : TopTarget d) : ∃ p : Phase, s.view u = p.view := by
  refine reach_leaveSettled (Sys.view_opened u ▸ h.simulation (fun s => s.view u) ?_)
  rintro s ⟨a, act⟩ s' - hguard hs
  rcases view_step hs u with heq | ⟨act', hnext, hleave⟩
  · exact .inl heq
  · exact .inr ⟨(a, act'), fun hact => hguard u (hleave hact), hnext⟩

theorem Pc.attempts_role {pc : Pc d} {t : TopTarget d} (h : pc.hold.attempt = some t) :
    (pc.hold.role t).Attempts := by
  have hne : pc.hold.leaving ≠ some t := by
    intro hleaving
    cases pc with
    | leftWhole k =>
      cases hleaving
      cases k <;> cases h
    | leftPart i k =>
      cases hleaving
      cases k <;> cases h
    | _ => cases hleaving
  rw [Hold.role, if_neg hne, if_pos h]
  split_ifs
  · exact .inr rfl
  · exact .inl rfl

theorem pc_of_run {guard : Sys d → ℕ × Act → Prop} [∀ s l, Decidable (guard s l)]
    {ls : List (ℕ × Act)} {s' : Sys d} {b : ℕ} (hls : ∀ l ∈ ls, l.1 ≠ b)
    (h : Machine.run sessionStep guard ls s = some s') : s'.pc b = s.pc b := by
  induction ls generalizing s with
  | nil =>
    cases h
    rfl
  | cons l ls ih =>
    obtain ⟨-, h⟩ := ite_none_right_eq_some.mp h
    obtain ⟨s₁, hs₁, h⟩ := bind_eq_some_iff.mp h
    obtain ⟨e, pc', -, -, rfl⟩ := sessionStep_cases hs₁
    have hb : b ≠ l.1 := (hls l List.mem_cons_self).symm
    rw [ih (fun l hl => hls l (List.mem_cons_of_mem _ hl)) h]
    exact (update_of_ne hb _ _).trans (congrFun e.pc_exec b)

theorem quiet_of_run {guard : Sys d → ℕ × Act → Prop} [∀ s l, Decidable (guard s l)]
    {ls : List (ℕ × Act)} {n : ℕ} (hls : ∀ l ∈ ls, l.1 < n)
    (h : Machine.run sessionStep guard ls (.opened d) = some s)
    (hidle : ∀ a < n, s.pc a = .idle) : s.Quiet := by
  intro a
  by_cases ha : a < n
  · exact hidle a ha
  · exact pc_of_run (fun l hl => ((hls l hl).trans_le (not_lt.mp ha)).ne) h

end Runs

/-- If no leave sets a target to NEW while it is MOUNTING, a session without calls in progress
has the state MOUNTED exactly for the targets that the kernel has mounted. -/
theorem mounted_iff_of_leavesSettled {s : Sys d}
    (h : (sessionMachine d).Reach LeavesSettled (.opened d) s) (hquiet : s.Quiet)
    (t : TopTarget d) : s.state t.target = .mounted ↔ 0 < s.mounts t.name := by
  obtain ⟨p, hp⟩ := exists_phase_of_leavesSettled h t
  have hout : ∀ a, p.view.role a = .out := by
    intro a
    rw [← hp, Sys.view_role, hquiet a]
    rfl
  have hiff := p.mounted_iff hout
  rwa [← hp] at hiff

/-- A thread enters the whole disk, another one leaves it, a third one enters it again. -/
theorem mounted_iff_after_enter_leave_enter :
    ∃ s : Sys Disk.single, (sessionMachine Disk.single).Reach LeavesSettled (.opened _) s ∧
      s.Quiet ∧ s.state .whole = .mounted ∧
      (s.state .whole = .mounted ↔ 0 < s.mounts (TopTarget.name (d := Disk.single) .whole)) := by
  have htrace : (Machine.run sessionStep LeavesSettled
      [(0, .enter 0 false), (0, .go), (0, .rc 0), (0, .go), (1, .leave 0), (1, .rc 0), (1, .go),
        (2, .enter 0 true), (2, .go), (2, .go), (2, .go), (2, .rc 0), (2, .go)]
      (.opened Disk.single)).any
      (fun s => decide (s.state .whole = .mounted ∧ ∀ a : ℕ, a < 3 → s.pc a = .idle)) = true := by
    rfl
  obtain ⟨s, hrun, hmounted, hidle⟩ := Machine.exists_of_run htrace
  have hreach := Machine.Reach.of_run hrun
  have hquiet := quiet_of_run (by decide) hrun hidle
  exact ⟨s, hreach, hquiet, hmounted, mounted_iff_of_leavesSettled hreach hquiet .whole⟩

/-- A thread that leaves the whole disk between the mount and the end of another thread's call takes
the mount away. The other thread then publishes MOUNTED. -/
theorem whole_mounted_without_mount :
    ∃ s : Sys Disk.single, (sessionMachine Disk.single).Reach (fun _ _ => True) (.opened _) s ∧
      s.Quiet ∧ s.state .whole = .mounted ∧
      ¬ 0 < s.mounts (TopTarget.name (d := Disk.single) .whole) := by
  have htrace : (Machine.run sessionStep (fun _ _ => True)
      [(0, .enter 0 false), (0, .go), (0, .rc 0), (1, .leave 0), (1, .rc 0), (1, .go), (0, .go)]
      (.opened Disk.single)).any
      (fun s => decide ((s.state .whole = .mounted ∧
        ¬ 0 < s.mounts (TopTarget.name (d := Disk.single) .whole)) ∧
        ∀ a : ℕ, a < 2 → s.pc a = .idle)) = true := by
    rfl
  obtain ⟨s, hrun, hs, hidle⟩ := Machine.exists_of_run htrace
  exact ⟨s, Machine.Reach.of_run hrun, quiet_of_run (by decide) hrun hidle, hs⟩

/-- If no leave sets a target to NEW while it is MOUNTING, at most one thread at a time is between
setting a target to MOUNTING and publishing the result, and the target is MOUNTING then. -/
theorem attempts_exclusive_of_leavesSettled {s : Sys d}
    (h : (sessionMachine d).Reach LeavesSettled (.opened d) s) {t : TopTarget d} {a : ℕ}
    (ha : (s.pc a).hold.attempt = some t) :
    s.state t.target = .mounting ∧ ∀ b, (s.pc b).hold.attempt = some t → b = a := by
  obtain ⟨p, hp⟩ := exists_phase_of_leavesSettled h t
  have hattempts : ∀ b, (s.pc b).hold.attempt = some t → (p.view.role b).Attempts := by
    intro b hb
    rw [← hp]
    exact Pc.attempts_role hb
  obtain ⟨hstate, hunique⟩ := p.attempts_unique (hattempts a ha)
  rw [← hp] at hstate
  exact ⟨hstate, fun b hb => hunique b (hattempts b hb)⟩

/-- A thread has mounted the whole disk and not published it; another one waits to enter it. -/
theorem attempts_exclusive_while_waiting :
    ∃ s : Sys Disk.single, (sessionMachine Disk.single).Reach LeavesSettled (.opened _) s ∧
      (s.pc 0).hold.attempt = some .whole ∧
      (s.state .whole = .mounting ∧ ∀ b, (s.pc b).hold.attempt = some .whole → b = 0) := by
  have htrace : (Machine.run sessionStep LeavesSettled
      [(0, .enter 0 false), (0, .go), (1, .enter 0 false), (0, .rc 0)] (.opened Disk.single)).any
      (fun s => decide ((s.pc 0).hold.attempt = some .whole)) = true := by
    rfl
  obtain ⟨s, hrun, hattempt⟩ := Machine.exists_of_run htrace
  have hreach := Machine.Reach.of_run hrun
  exact ⟨s, hreach, hattempt, attempts_exclusive_of_leavesSettled hreach hattempt⟩

/-- A leave that takes away a mount before it is published gives up the lock: a third thread starts
an attempt of its own. -/
theorem whole_attempted_twice :
    ∃ s : Sys Disk.single, (sessionMachine Disk.single).Reach (fun _ _ => True) (.opened _) s ∧
      (s.pc 0).hold.attempt = some .whole ∧ (s.pc 2).hold.attempt = some .whole := by
  have htrace : (Machine.run sessionStep (fun _ _ => True)
      [(0, .enter 0 false), (0, .go), (0, .rc 0), (1, .leave 0), (1, .rc 0), (1, .go),
        (2, .enter 0 false), (2, .go)] (.opened Disk.single)).any
      (fun s => decide ((s.pc 0).hold.attempt = some .whole ∧
        (s.pc 2).hold.attempt = some .whole)) = true := by
    rfl
  obtain ⟨s, hrun, hs⟩ := Machine.exists_of_run htrace
  exact ⟨s, Machine.Reach.of_run hrun, hs⟩

end Anyfs
