import Anyfs.Lib.Machine
import Mathlib.Data.List.Basic

/-!
# Shutting down the QEMU thread

Other threads hand work to the QEMU thread as bottom halves and wait for a semaphore. A caller reads
the state of the thread and schedules its bottom half in two steps. A stop in between ends the loop
first, and the caller waits for ever, as does a coroutine that is suspended when the loop ends
(`QtSys.Settled`).
-/

namespace Anyfs

open Option

/-- `qt_state`. -/
inductive QtState where
  | idle | running | failed | stopped
  deriving DecidableEq

/-- `qt_call` and `qt_call_co`. -/
inductive QtKind where
  | fn | coFn
  deriving DecidableEq

/-- Where a call of `run_on_thread` stands. `accepted` is after it saw `QT_RUNNING`; a suspended
coroutine remembers the poll it was suspended in. -/
inductive QtCall where
  | notCalled
  | refused
  | accepted
  | scheduled
  | suspended (poll : ℕ)
  | done
  deriving DecidableEq

/-- `run_on_thread` accepted the call and it has not been completed. -/
def QtCall.Unfinished : QtCall → Prop
  | .accepted | .scheduled | .suspended _ => True
  | .notCalled | .refused | .done => False

instance : DecidablePred QtCall.Unfinished
  | .accepted => isTrue trivial
  | .scheduled => isTrue trivial
  | .suspended _ => isTrue trivial
  | .notCalled => isFalse id
  | .refused => isFalse id
  | .done => isFalse id

/-- Where `qemu_thread_stop` stands. -/
inductive QtStop where
  | notCalled
  | entered
  | waiting
  | returned
  deriving DecidableEq

/-- A bottom half: `qt_call_bh` of a call, or `qt_stop_bh`. -/
inductive QtBh where
  | call (i : ℕ)
  | stop
  deriving DecidableEq

/-- Where the loop of `qemu_thread_fn` stands: before it reads `g_stop_requested`, in `aio_poll`
with or without bottom halves left to run, or behind the loop. -/
inductive QtLoop where
  | check
  | poll
  | dispatch (slice : List QtBh)
  | left
  deriving DecidableEq

/-- The QEMU thread with its callers. -/
structure QtSys where
  state : QtState
  stopRequested : Bool
  scheduled : List QtBh
  loop : QtLoop
  polls : ℕ
  call : ℕ → QtCall
  stop : QtStop

open QtSys

/-- The thread as `qemu_thread_start` leaves it. -/
def QtSys.started : QtSys := ⟨.running, false, [], .check, 0, fun _ => .notCalled, .notCalled⟩

/-- A step of a caller, of the stop, or of the QEMU thread. A coroutine that runs may suspend again.
-/
inductive QtAct where
  | call (i : ℕ)
  | schedule (i : ℕ)
  | stop
  | scheduleStop
  | stopped
  | check
  | poll
  | bh (b : QtBh) (suspends : Bool)
  | resume (i : ℕ) (suspends : Bool)
  | pollEnd
  deriving DecidableEq

section Step

variable (kind : ℕ → QtKind)

def QtSys.setCall (s : QtSys) (i : ℕ) (c : QtCall) : QtSys :=
  { s with call := Function.update s.call i c }

/-- `qt_call_co` runs: it ends and posts the semaphore, or suspends. -/
def QtSys.runCo (s : QtSys) (i : ℕ) (suspends : Bool) : QtSys :=
  s.setCall i (if suspends then .suspended s.polls else .done)

/-- `qt_call_bh` and `qt_stop_bh`. -/
def QtSys.runBh (s : QtSys) (suspends : Bool) : QtBh → QtSys
  | .stop => { s with stopRequested := true }
  | .call i =>
    match kind i with
    | .coFn => s.runCo i suspends
    | .fn => s.setCall i .done

/-- The steps of `qt_call`, `qt_stop` and the loop. -/
def qtStep (s : QtSys) : QtAct → Option QtSys
  | .call i =>
    if s.call i = .notCalled then
      some (s.setCall i (if s.state = .running then .accepted else .refused))
    else none
  | .schedule i =>
    if s.call i = .accepted then
      some { s.setCall i .scheduled with scheduled := s.scheduled ++ [.call i] }
    else none
  | .stop =>
    if s.stop = .notCalled then
      match s.state with
      | .running => some { s with state := .stopped, stop := .entered }
      | .idle => some { s with state := .stopped, stop := .returned }
      | _ => some { s with stop := .returned }
    else none
  | .scheduleStop =>
    if s.stop = .entered then
      some { s with scheduled := s.scheduled ++ [.stop], stop := .waiting }
    else none
  | .stopped =>
    if s.stop = .waiting ∧ s.loop = .left then some { s with stop := .returned } else none
  | .check =>
    if s.loop = .check then some { s with loop := if s.stopRequested then .left else .poll }
    else none
  | .poll =>
    if s.loop = .poll then
      some { s with loop := .dispatch s.scheduled, scheduled := [], polls := s.polls + 1 }
    else none
  | .bh b suspends =>
    match s.loop with
    | .dispatch slice =>
      if b ∈ slice then some { s.runBh kind suspends b with loop := .dispatch (slice.erase b) }
      else none
    | _ => none
  | .resume i suspends =>
    match s.loop, s.call i with
    | .dispatch _, .suspended poll => if poll < s.polls then some (s.runCo i suspends) else none
    | _, _ => none
  | .pollEnd => if s.loop = .dispatch [] then some { s with loop := .check } else none

def qtMachine : Machine QtSys QtAct := .ofFun (qtStep kind)

end Step

/-- The loop was left with a call under way. -/
def QtSys.Stranded (s : QtSys) : Prop := s.loop = .left ∧ ∃ i, (s.call i).Unfinished

def QtSys.Settled (kind : ℕ → QtKind) (s : QtSys) : Prop :=
  ∀ i, (s.call i).Unfinished → kind i = .fn ∧ s.call i = .scheduled

/-- `qemu_thread_stop` is called in settled states only. -/
def StopsSettled (kind : ℕ → QtKind) (s : QtSys) (l : QtAct) : Prop := l = .stop → s.Settled kind

def QtSys.slice (s : QtSys) : List QtBh :=
  match s.loop with
  | .dispatch slice => slice
  | _ => []

section Simp

variable (s : QtSys) (i j : ℕ) (c : QtCall)

@[simp, grind =] theorem QtSys.call_setCall :
    (s.setCall i c).call j = if j = i then c else s.call j := Function.update_apply ..
@[simp, grind =] theorem QtSys.scheduled_setCall : (s.setCall i c).scheduled = s.scheduled := rfl
@[simp, grind =] theorem QtSys.loop_setCall : (s.setCall i c).loop = s.loop := rfl
@[simp, grind =] theorem QtSys.slice_setCall : (s.setCall i c).slice = s.slice := rfl
@[simp, grind =] theorem QtSys.stop_setCall : (s.setCall i c).stop = s.stop := rfl
@[simp, grind =] theorem QtSys.stopRequested_setCall :
    (s.setCall i c).stopRequested = s.stopRequested := rfl

end Simp

/-! ### What a step can do -/

/-- A step of the thread or of a caller. -/
inductive QtMove (kind : ℕ → QtKind) (s : QtSys) : QtAct → QtSys → Prop
  | accept (i : ℕ) : s.call i = .notCalled → s.state = .running →
      QtMove kind s (.call i) (s.setCall i .accepted)
  | refuse (i : ℕ) : s.call i = .notCalled → s.state ≠ .running →
      QtMove kind s (.call i) (s.setCall i .refused)
  | schedule (i : ℕ) : s.call i = .accepted →
      QtMove kind s (.schedule i)
        { s.setCall i .scheduled with scheduled := s.scheduled ++ [.call i] }
  | stop : s.stop = .notCalled → s.state = .running →
      QtMove kind s .stop { s with state := .stopped, stop := .entered }
  | stopUnstarted (state : QtState) : s.stop = .notCalled → s.state ≠ .running →
      QtMove kind s .stop { s with state := state, stop := .returned }
  | scheduleStop : s.stop = .entered →
      QtMove kind s .scheduleStop { s with scheduled := s.scheduled ++ [.stop], stop := .waiting }
  | stopped : s.stop = .waiting → QtMove kind s .stopped { s with stop := .returned }
  | leave : s.loop = .check → s.stopRequested = true →
      QtMove kind s .check { s with loop := .left }
  | enterPoll : s.loop = .check → s.stopRequested = false →
      QtMove kind s .check { s with loop := .poll }
  | poll : s.loop = .poll → QtMove kind s .poll
      { s with loop := .dispatch s.scheduled, scheduled := [], polls := s.polls + 1 }
  | stopBh (slice : List QtBh) (suspends : Bool) : s.loop = .dispatch slice → .stop ∈ slice →
      QtMove kind s (.bh .stop suspends)
        { s with stopRequested := true, loop := .dispatch (slice.erase .stop) }
  | callBh (slice : List QtBh) (i : ℕ) (c : QtCall) (suspends : Bool) :
      s.loop = .dispatch slice → .call i ∈ slice →
      c = .done ∨ kind i = .coFn ∧ (∃ n, c = .suspended n) →
      QtMove kind s (.bh (.call i) suspends)
        { s.setCall i c with loop := .dispatch (slice.erase (.call i)) }
  | resume (slice : List QtBh) (i n : ℕ) (c : QtCall) (suspends : Bool) :
      s.loop = .dispatch slice → s.call i = .suspended n → c = .done ∨ (∃ n, c = .suspended n) →
      QtMove kind s (.resume i suspends) (s.setCall i c)
  | pollEnd : s.loop = .dispatch [] → QtMove kind s .pollEnd { s with loop := .check }

section Move

variable {kind : ℕ → QtKind} {s s' : QtSys} {l : QtAct}

theorem qtStep_move (h : qtStep kind s l = some s') : QtMove kind s l s' := by
  cases l with
  | call i =>
    obtain ⟨hi, ⟨⟩⟩ := ite_none_right_eq_some.mp h
    by_cases hst : s.state = .running
    · rw [if_pos hst]
      exact .accept i hi hst
    · rw [if_neg hst]
      exact .refuse i hi hst
  | schedule i =>
    obtain ⟨hi, ⟨⟩⟩ := ite_none_right_eq_some.mp h
    exact .schedule i hi
  | stop =>
    obtain ⟨hstop, h⟩ := ite_none_right_eq_some.mp h
    rcases hst : s.state with _ | _ | _ | _
    all_goals
      rw [hst] at h
      cases h
    · exact .stopUnstarted _ hstop (by rw [hst]; nofun)
    · exact .stop hstop hst
    · exact .stopUnstarted _ hstop (by rw [hst]; nofun)
    · exact .stopUnstarted _ hstop (by rw [hst]; nofun)
  | scheduleStop =>
    obtain ⟨hstop, ⟨⟩⟩ := ite_none_right_eq_some.mp h
    exact .scheduleStop hstop
  | stopped =>
    obtain ⟨⟨hstop, -⟩, ⟨⟩⟩ := ite_none_right_eq_some.mp h
    exact .stopped hstop
  | check =>
    obtain ⟨hloop, ⟨⟩⟩ := ite_none_right_eq_some.mp h
    by_cases hreq : s.stopRequested = true
    · rw [if_pos hreq]
      exact .leave hloop hreq
    · rw [if_neg hreq]
      exact .enterPoll hloop (Bool.not_eq_true _ ▸ hreq)
  | poll =>
    obtain ⟨hloop, ⟨⟩⟩ := ite_none_right_eq_some.mp h
    exact .poll hloop
  | bh b suspends =>
    rcases hloop : s.loop with _ | _ | slice | _
    all_goals simp only [qtStep, hloop, reduceCtorEq] at h
    obtain ⟨hb, ⟨⟩⟩ := ite_none_right_eq_some.mp h
    cases b with
    | stop => exact .stopBh slice suspends hloop hb
    | call i =>
      cases hkind : kind i with
      | fn =>
        simp only [runBh, hkind]
        exact .callBh slice i .done suspends hloop hb (.inl rfl)
      | coFn =>
        simp only [runBh, hkind]
        refine .callBh slice i _ suspends hloop hb ?_
        cases suspends with
        | false => exact .inl rfl
        | true => exact .inr ⟨hkind, _, rfl⟩
  | resume i suspends =>
    rcases hloop : s.loop with _ | _ | slice | _
    all_goals rcases hi : s.call i with _ | _ | _ | _ | n | _
    all_goals simp only [qtStep, hloop, hi, reduceCtorEq] at h
    obtain ⟨-, ⟨⟩⟩ := ite_none_right_eq_some.mp h
    refine .resume slice i n _ suspends hloop hi ?_
    cases suspends with
    | false => exact .inl rfl
    | true => exact .inr ⟨_, rfl⟩
  | pollEnd =>
    obtain ⟨hloop, ⟨⟩⟩ := ite_none_right_eq_some.mp h
    exact .pollEnd hloop

/-! ### Invariants -/

/-- What is known of `qt_stop` along a run. -/
structure QtSys.StopValid (s : QtSys) : Prop where
  running_iff : s.state = .running ↔ s.stop = .notCalled
  called : .stop ∈ s.scheduled ∨ .stop ∈ s.slice ∨ s.stopRequested = true →
    s.stop ≠ .notCalled ∧ s.stop ≠ .entered
  requested_of_left : s.loop = .left → s.stopRequested = true
  not_requested_of_poll : s.loop = .poll → s.stopRequested = false

/-- The bottom halves that wait to be run are those of the scheduled calls, each once. -/
structure QtSys.BhValid (kind : ℕ → QtKind) (s : QtSys) : Prop where
  nodup : (s.scheduled ++ s.slice).Nodup
  mem_iff : ∀ i, .call i ∈ s.scheduled ++ s.slice ↔ s.call i = .scheduled
  coFn_of_suspended : ∀ i n, s.call i = .suspended n → kind i = .coFn

theorem QtSys.StopValid.move (h : s.StopValid) (hm : QtMove kind s l s') : s'.StopValid := by
  obtain ⟨hrun, hcalled, hleft, hpoll⟩ := h
  cases hm with
  | accept | refuse | resume => exact ⟨hrun, hcalled, hleft, hpoll⟩
  | schedule i =>
    refine ⟨hrun, fun h => hcalled ?_, hleft, hpoll⟩
    simpa [slice, setCall] using h
  | stop hstop => exact ⟨by simp, fun h => absurd hstop (hcalled h).1, hleft, hpoll⟩
  | stopUnstarted _ hstop hne => exact absurd (hrun.mpr hstop) hne
  | scheduleStop hstop => exact ⟨by simp [hrun, hstop], by simp, hleft, hpoll⟩
  | stopped hstop => exact ⟨by simp [hrun, hstop], by simp, hleft, hpoll⟩
  | leave hloop hreq => exact ⟨hrun, fun _ => hcalled (.inr (.inr hreq)), fun _ => hreq, nofun⟩
  | enterPoll hloop hreq =>
    refine ⟨hrun, fun h => hcalled ?_, nofun, fun _ => hreq⟩
    simpa [slice, hloop] using h
  | poll hloop =>
    refine ⟨hrun, fun h => hcalled ?_, nofun, nofun⟩
    simpa [slice, hloop] using h
  | stopBh slice _ hloop hmem =>
    have hslice : .stop ∈ s.slice := by rwa [QtSys.slice, hloop]
    exact ⟨hrun, fun _ => hcalled (.inr (.inl hslice)), nofun, nofun⟩
  | callBh slice i c _ hloop =>
    refine ⟨hrun, fun h => hcalled ?_, nofun, nofun⟩
    rw [QtSys.slice, hloop]
    exact h.imp_right (Or.imp_left List.mem_of_mem_erase)
  | pollEnd hloop =>
    refine ⟨hrun, fun h => hcalled ?_, nofun, nofun⟩
    simpa [slice, hloop] using h

theorem QtSys.BhValid.move (h : s.BhValid kind) (hstop : s.StopValid) (hm : QtMove kind s l s') :
    s'.BhValid kind := by
  obtain ⟨hnodup, hmem, hco⟩ := h
  obtain ⟨-, hcalled, -, -⟩ := hstop
  cases hm
  all_goals refine ⟨?_, ?_, ?_⟩
  all_goals grind [slice]

/-- After a safe stop the bottom half of every unfinished call runs before the loop ends. -/
structure QtSys.Safe (kind : ℕ → QtKind) (s : QtSys) : Prop where
  stopValid : s.StopValid
  bhValid : s.BhValid kind
  settled : s.stop ≠ .notCalled → s.Settled kind
  taken : .stop ∈ s.slice ∨ s.stopRequested = true →
    ∀ i, (s.call i).Unfinished → .call i ∈ s.slice

theorem QtSys.Safe.move (h : s.Safe kind) (hguard : StopsSettled kind s l)
    (hm : QtMove kind s l s') : s'.Safe kind := by
  have hstop := h.stopValid.move hm
  have hbh := h.bhValid.move h.stopValid hm
  obtain ⟨⟨hrun, hcalled, hleft, hpoll⟩, ⟨-, hmem, hco⟩, hsettled, htaken⟩ := h
  unfold Settled at hsettled
  refine ⟨hstop, hbh, ?_, ?_⟩
  · -- the state is no longer running, so no call is accepted any more
    unfold Settled
    cases hm with
    | stop hst hrunning => exact fun _ => hguard rfl
    | _ => grind [slice, QtCall.Unfinished]
  · cases hm
    all_goals grind [slice, QtCall.Unfinished]

end Move

/-! ### Runs -/

section Runs

variable {kind : ℕ → QtKind} {s s' : QtSys}

theorem QtSys.safe_started : started.Safe kind where
  stopValid := ⟨by decide, by simp [started, slice], nofun, nofun⟩
  bhValid := ⟨List.nodup_nil, by simp [started, slice], nofun⟩
  settled h := absurd rfl h
  taken h := by simp [started, slice] at h

theorem safe_of_reach (h : (qtMachine kind).Reach (StopsSettled kind) .started s) : s.Safe kind :=
  h.invariant safe_started fun _ _ _ hs hguard hstep => hs.move hguard (qtStep_move hstep)

theorem QtSys.Safe.not_stranded (h : s.Safe kind) : ¬ s.Stranded := by
  rintro ⟨hleft, i, hi⟩
  have hmem := h.taken (.inr (h.stopValid.requested_of_left hleft)) i hi
  rw [slice, hleft] at hmem
  exact List.not_mem_nil hmem

theorem valid_of_reach (h : (qtMachine kind).Reach (fun _ _ => True) .started s) :
    s.StopValid ∧ s.BhValid kind := by
  have hstart : started.Safe kind := safe_started
  refine h.invariant (P := fun s => s.StopValid ∧ s.BhValid kind)
    ⟨hstart.stopValid, hstart.bhValid⟩ ?_
  rintro s₁ l s₂ ⟨hstop, hbh⟩ - hstep
  exact ⟨hstop.move (qtStep_move hstep), hbh.move hstop (qtStep_move hstep)⟩

/-! ### A stop in an unsettled state -/

/-- A call that will not return. -/
def QtSys.Lost (kind : ℕ → QtKind) (i : ℕ) (s : QtSys) : Prop :=
  (s.call i).Unfinished ∧
    (kind i = .coFn ∨ s.call i = .accepted ∧ .call i ∉ s.scheduled ++ s.slice)

theorem QtSys.Lost.runBh {i : ℕ} {b : QtBh} {slice : List QtBh} (h : s.Lost kind i)
    (hloop : s.loop = .dispatch (b :: slice)) :
    Lost kind i { s.runBh kind true b with loop := .dispatch slice } := by
  obtain ⟨hi, hwhere⟩ := h
  have hslice : s.slice = b :: slice := by rw [QtSys.slice, hloop]
  cases b with
  | stop => exact ⟨hi, by grind [slice, runBh]⟩
  | call j =>
    rw [QtSys.runBh]
    cases hkind : kind j with
    | fn => exact ⟨by grind [QtCall.Unfinished], by grind [slice]⟩
    | coFn =>
      exact ⟨by grind [runCo, QtCall.Unfinished], by grind [slice, runCo]⟩

theorem QtSys.runBh_eq (kind : ℕ → QtKind) (s : QtSys) (suspends : Bool) (b : QtBh) :
    (s.runBh kind suspends b).scheduled = s.scheduled ∧ (s.runBh kind suspends b).stop = s.stop ∧
      (s.runBh kind suspends b).stopRequested = (s.stopRequested || decide (b = .stop)) := by
  cases b with
  | stop => simp [runBh]
  | call j => cases hkind : kind j <;> simp [runBh, runCo, hkind]

theorem can_dispatch {i : ℕ} (slice : List QtBh) (s : QtSys) (hloop : s.loop = .dispatch slice)
    (hlost : s.Lost kind i) :
    (qtMachine kind).Can (fun _ _ => True) (fun s' => s'.loop = .dispatch [] ∧
      s'.Lost kind i ∧ s'.scheduled = s.scheduled ∧ s'.stop = s.stop ∧
      s'.stopRequested = (s.stopRequested || decide (.stop ∈ slice))) s := by
  induction slice generalizing s with
  | nil => exact .now ⟨hloop, hlost, rfl, rfl, by simp⟩
  | cons b slice ih =>
    have hstep : qtStep kind s (.bh b true) =
        some { s.runBh kind true b with loop := .dispatch slice } := by
      simp [qtStep, hloop]
    obtain ⟨hsched, hstop, hreq⟩ := s.runBh_eq kind true b
    refine .step trivial hstep ((ih _ rfl (hlost.runBh hloop)).bind ?_)
    rintro s' - ⟨hloop', hlost', hsched', hstop', hreq'⟩
    refine .now ⟨hloop', hlost', hsched'.trans hsched, hstop'.trans hstop, ?_⟩
    rw [hreq', hreq]
    grind

theorem can_strand {i : ℕ} (hlost : s.Lost kind i) (hstop : .stop ∈ s.scheduled)
    (hloop : s.loop = .check ∧ s.stopRequested = false ∨ s.loop = .poll) :
    (qtMachine kind).Can (fun _ _ => True) Stranded s := by
  have hpoll : ∀ t : QtSys, t.loop = .poll → .stop ∈ t.scheduled → t.Lost kind i →
      (qtMachine kind).Can (fun _ _ => True) Stranded t := by
    intro t hloop hstop hlost
    have hstep : qtStep kind t .poll = some
        { t with loop := .dispatch t.scheduled, scheduled := [], polls := t.polls + 1 } :=
      if_pos hloop
    have hlost' : Lost kind i
        { t with loop := .dispatch t.scheduled, scheduled := [], polls := t.polls + 1 } :=
      ⟨hlost.1, by grind [Lost, slice]⟩
    refine .step trivial hstep ((can_dispatch _ _ rfl hlost').bind ?_)
    rintro u - ⟨huloop, hulost, -, -, hureq⟩
    have hreq : u.stopRequested = true := by simpa [hstop] using hureq
    have hend : qtStep kind u .pollEnd = some { u with loop := .check } := if_pos huloop
    have hleave : qtStep kind { u with loop := .check } .check = some { u with loop := .left } := by
      simp [qtStep, hreq]
    exact .step trivial hend (.step trivial hleave (.now ⟨rfl, i, hulost.1⟩))
  rcases hloop with ⟨hloop, hreq⟩ | hloop
  · have hstep : qtStep kind s .check = some { s with loop := .poll } := by
      simp [qtStep, hloop, hreq]
    refine .step trivial hstep (hpoll _ rfl hstop ⟨hlost.1, ?_⟩)
    grind [Lost, slice]
  · exact hpoll s hloop hstop hlost

theorem can_strand_of_scheduled {i : ℕ} (hlost : s.Lost kind i) (hstop : .stop ∈ s.scheduled)
    (hslice : .stop ∉ s.slice) (hreq : s.stopRequested = false) (hloop : s.loop ≠ .left) :
    (qtMachine kind).Can (fun _ _ => True) Stranded s := by
  cases hloop' : s.loop with
  | check => exact can_strand hlost hstop (.inl ⟨hloop', hreq⟩)
  | poll => exact can_strand hlost hstop (.inr hloop')
  | left => exact absurd hloop' hloop
  | dispatch slice =>
    rw [QtSys.slice, hloop'] at hslice
    refine (can_dispatch slice s hloop' hlost).bind ?_
    rintro u - ⟨huloop, hulost, husched, -, hureq⟩
    have hureq : u.stopRequested = false := by simpa [hreq, hslice] using hureq
    have hend : qtStep kind u .pollEnd = some { u with loop := .check } := if_pos huloop
    refine .step trivial hend (can_strand (i := i) ⟨hulost.1, ?_⟩ ?_ (.inl ⟨rfl, hureq⟩))
    · grind [Lost, slice]
    · exact husched ▸ hstop

theorem exists_lost (h : s.BhValid kind) (hs : ¬ s.Settled kind) : ∃ i, s.Lost kind i := by
  unfold Settled at hs
  push Not at hs
  obtain ⟨i, hi, hne⟩ := hs
  refine ⟨i, hi, ?_⟩
  cases hkind : kind i with
  | coFn => exact .inl rfl
  | fn =>
    have hacc : s.call i = .accepted := by
      cases hcall : s.call i with
      | accepted => rfl
      | scheduled => exact absurd hcall (hne hkind)
      | suspended n => cases hkind.symm.trans (h.coFn_of_suspended i n hcall)
      | _ =>
        rw [hcall] at hi
        exact hi.elim
    refine .inr ⟨hacc, fun hmem => ?_⟩
    cases hacc.symm.trans ((h.mem_iff i).mp hmem)

theorem can_strand_of_not_settled (hreach : (qtMachine kind).Reach (fun _ _ => True) .started s)
    (hstop : s.stop = .notCalled) (hs : ¬ s.Settled kind) :
    (qtMachine kind).Can (fun _ _ => True) Stranded s := by
  obtain ⟨hvalid, hbh⟩ := valid_of_reach hreach
  obtain ⟨i, hlost⟩ := exists_lost hbh hs
  have hnot : ¬ (.stop ∈ s.scheduled ∨ .stop ∈ s.slice ∨ s.stopRequested = true) :=
    fun h => (hvalid.called h).1 hstop
  push Not at hnot
  obtain ⟨-, hslice, hreq⟩ := hnot
  have hstep₁ : qtStep kind s .stop = some { s with state := .stopped, stop := .entered } := by
    simp [qtStep, hstop, hvalid.running_iff.mpr hstop]
  have hstep₂ : qtStep kind { s with state := .stopped, stop := .entered } .scheduleStop = some
      { s with state := .stopped, stop := .waiting, scheduled := s.scheduled ++ [.stop] } := rfl
  refine .step trivial hstep₁ (.step trivial hstep₂ ?_)
  refine can_strand_of_scheduled (i := i) ⟨hlost.1, ?_⟩ (by simp) hslice
    (Bool.eq_false_iff.mpr hreq) fun hleft => hreq (hvalid.requested_of_left hleft)
  grind [Lost, slice]

/-- **Shutdown.** If `qemu_thread_stop` is called when every accepted call has finished or is a
plain one whose bottom half is scheduled, no caller is ever stranded; called in any other state,
it can strand one. -/
theorem stop_strands_nobody (kind : ℕ → QtKind) :
    (∀ s, (qtMachine kind).Reach (StopsSettled kind) .started s → ¬ s.Stranded) ∧
      ∀ s, (qtMachine kind).Reach (fun _ _ => True) .started s → s.stop = .notCalled →
        ¬ s.Settled kind → ∃ s', (qtMachine kind).Reach (fun _ _ => True) s s' ∧ s'.Stranded :=
  ⟨fun _ h => (safe_of_reach h).not_stranded, fun _ h => can_strand_of_not_settled h⟩

/-- The loop has ended when the caller schedules its bottom half. -/
def strandingRun : List QtAct :=
  [.call 0, .stop, .scheduleStop, .check, .poll, .bh .stop false, .pollEnd, .check, .schedule 0]

/-- The caller waits for ever. -/
theorem stop_strands_caller : ¬ ∀ (kind : ℕ → QtKind) (s : QtSys),
    (qtMachine kind).Reach (fun _ _ => True) .started s → ¬ s.Stranded := by
  intro hall
  have hrun : ((Machine.run (qtStep fun _ => .fn) (fun _ _ => True) strandingRun .started).any
      fun s => decide (s.loop = .left ∧ (s.call 0).Unfinished)) = true := by
    decide +kernel
  obtain ⟨s, hs, hleft, hcall⟩ := Machine.exists_of_run hrun
  exact hall (fun _ => .fn) s (.of_run hs) ⟨hleft, 0, hcall⟩

end Runs

end Anyfs
