import Anyfs.Core.NodeSession
import Anyfs.Core.Queue

/-!
# The resources of a `NativeSession`

The operations of a `NativeSession` go through the op queue, so a function that is queued when
`close` is called never runs. `_dispose` waits until the queue is idle and then closes the tracked
descriptors and the disk. The engine is healthy: it answers every operation, and the session never
turns fatal.
-/

namespace Anyfs

open Function Option OpQueue SessionFds

/-- What a queued function does. -/
inductive FdOp where
  | openFd
  | closeFd (n : ℕ)
  | attachPath
  deriving DecidableEq

/-- The op queue with what its calls are and whether they went on with what they got, what the
session keeps, and what the engine did. -/
structure NativeSession where
  queue : OpQueue (Option Resource) Empty
  ops : ℕ → FdOp
  kept : ℕ → Bool
  base : SessionFds
  log : List EngineEvent

namespace NativeSession

def init : NativeSession := ⟨.init, fun _ => .openFd, fun _ => false, .init, []⟩

variable (s : NativeSession)

/-- A call of `serialize`. -/
def enqueue (op : FdOp) : NativeSession :=
  { s with queue := s.queue.serialize, ops := update s.ops s.queue.calls.length op }

def openFd : NativeSession :=
  if s.base.disposed then s else s.enqueue .openFd

def closeFd (n : ℕ) : NativeSession :=
  if s.base.disposed then s else { s with base := s.base.delete n }.enqueue (.closeFd n)

/-- There is no `check` here: the queue refuses the call after `close`. -/
def attachPath : NativeSession :=
  if s.base.handle.isSome then s else s.enqueue .attachPath

/-- The closes of the base class are refused by the queue, so `close` goes on to `_dispose`. -/
def close : NativeSession :=
  if s.base.disposed then s
  else { s with queue := s.queue.dispose, base := { s.base with closer := .draining } }

/-- The engine answers with a resource or without. -/
def yield (i : ℕ) (r : Option Resource) : Option NativeSession :=
  match r with
  | some r =>
    if EngineEvent.opened r ∈ s.log then none
    else (s.queue.finish i (.ok (some r))).map fun q =>
      { s with queue := q, log := s.log ++ [EngineEvent.opened r] }
  | none => (s.queue.finish i (.ok none)).map fun q => { s with queue := q }

/-- The engine does what a call asks for, and answers with `n` or with an error. -/
def execute (i : ℕ) (n : Option ℕ) : Option NativeSession :=
  match s.ops i with
  | .openFd => s.yield i (n.map .fd)
  | .attachPath => s.yield i (n.map .disk)
  | .closeFd m => (s.queue.finish i (.ok none)).map fun q =>
      { s with queue := q, log := s.log ++ [EngineEvent.closed (.fd m)] }

def resume (i : ℕ) : Option NativeSession :=
  match s.kept i, s.queue.result i with
  | false, some (.ok (some r)) => some { s with base := s.base.add r, kept := update s.kept i true }
  | _, _ => none

/-- `_dispose` has waited for the queue. -/
def drained : Option NativeSession :=
  if s.base.closer = .draining ∧ s.queue.queueIdle then
    some { s with base := { s.base with closer := .loop 0 } }
  else none

/-- The engine closes what `_dispose` asks for. -/
def executeClose : Option NativeSession :=
  s.base.request.map fun r =>
    { s with base := s.base.answer, log := s.log ++ [EngineEvent.closed r] }

end NativeSession

/-- The steps of the session, its queue and the engine. -/
inductive NativeAct where
  | openFd
  | closeFd (n : ℕ)
  | attachPath
  | close
  | turn (i : ℕ)
  | execute (i : ℕ) (n : Option ℕ)
  | adopt (i : ℕ)
  | release (i : ℕ)
  | resume (i : ℕ)
  | drained
  | closeStep
  | executeClose
  deriving DecidableEq

def nativeStep (s : NativeSession) : NativeAct → Option NativeSession
  | .openFd => some s.openFd
  | .closeFd n => some (s.closeFd n)
  | .attachPath => some s.attachPath
  | .close => some s.close
  | .turn i => (s.queue.turn i).map fun q => { s with queue := q }
  | .execute i n => s.execute i n
  | .adopt i => (s.queue.adopt i).map fun q => { s with queue := q }
  | .release i => (s.queue.release i).map fun q => { s with queue := q }
  | .resume i => s.resume i
  | .drained => s.drained
  | .closeStep => s.base.advance.map fun b => { s with base := b }
  | .executeClose => s.executeClose

def nativeMachine : Machine NativeSession NativeAct := .ofFun nativeStep

namespace NativeSession

variable (s : NativeSession)

/-- Nothing gets lost in a step: as for a `NodeWasmSession`, and no `closeFd` is queued when `close`
is called. -/
def InTime : NativeAct → Prop
  | .closeFd n => s.base.disposed = false → n ∈ s.base.fds
  | .close =>
    s.base.disposed = false → ∀ i n, s.ops i = .closeFd n → s.queue.calls[i]? ≠ some .queued
  | .resume i => ∀ r, s.queue.result i = some (.ok (some r)) → s.base.closer.collecting = true ∧
      (r.isDisk = true → s.base.handle = none)
  | _ => True

/-- What a call that has settled got. -/
def gained (i : ℕ) : Option Resource :=
  match s.queue.result i with
  | some (.ok r) => r
  | _ => none

/-- A `closeFd` that waits for its turn. -/
def closeQueued (i : ℕ) : Bool :=
  match s.ops i, s.queue.calls[i]? with
  | .closeFd _, some .queued => true
  | _, _ => false

theorem closeQueued_eq_true {s : NativeSession} {i : ℕ} : s.closeQueued i = true ↔
    ∃ n, s.ops i = .closeFd n ∧ s.queue.calls[i]? = some .queued := by
  rw [closeQueued]
  split
  · rename_i n hop hcall
    exact iff_of_true rfl ⟨n, hop, hcall⟩
  · rename_i hno
    exact iff_of_false nofun fun ⟨n, hop, hcall⟩ => hno n hop hcall

instance : (l : NativeAct) → Decidable (s.InTime l)
  | .closeFd n => inferInstanceAs (Decidable (s.base.disposed = false → n ∈ s.base.fds))
  | .close => decidable_of_iff (s.base.disposed = false →
      ∀ i < s.queue.calls.length, s.closeQueued i = false) (by
        refine imp_congr_right fun _ => ⟨fun h i n hop hcall => ?_, fun h i _ => ?_⟩
        · have hlt := (List.getElem?_eq_some_iff.mp hcall).1
          exact Bool.eq_false_iff.mp (h i hlt) (closeQueued_eq_true.mpr ⟨n, hop, hcall⟩)
        · refine Bool.eq_false_iff.mpr fun hq => ?_
          obtain ⟨n, hop, hcall⟩ := closeQueued_eq_true.mp hq
          exact h i n hop hcall)
  | .resume i => decidable_of_iff (∀ r ∈ s.gained i, s.base.closer.collecting = true ∧
      (r.isDisk = true → s.base.handle = none)) (by
        rw [gained]
        split <;> simp_all [InTime])
  | .openFd | .attachPath | .turn _ | .execute _ _ | .adopt _ | .release _ | .drained
  | .closeStep | .executeClose => .isTrue trivial

def ended (i : ℕ) : Bool :=
  match s.queue.result i with
  | some (.ok (some _)) => s.kept i
  | x => x.isSome

/-- `close` is over and so is every call. -/
def Settled : Prop :=
  s.base.closer = .finished ∧ ∀ i < s.queue.calls.length, s.ended i = true

def got : QueuedCall (Option Resource) Empty → Option Resource
  | .returned (.ok r) | .settled (.ok r) | .released (.ok r) => r
  | _ => none

def asks : FdOp → QueuedCall (Option Resource) Empty → Option Resource
  | .closeFd n, .queued | .closeFd n, .running => some (.fd n)
  | _, _ => none

def holdings : Holdings where
  base := s.base
  log := s.log
  call i := if s.kept i then none else s.queue.calls[i]?.bind got
  ask i := s.queue.calls[i]?.bind (asks (s.ops i))

/-- The queue knows of `close`, no `closeFd` is left in it then, and it is over once `_dispose`
closes things. -/
structure QueueInv (s : NativeSession) : Prop where
  ordered : s.queue.Ordered
  disposed : s.queue.disposed = s.base.disposed
  waiting : s.base.disposed = true → ∀ i n, s.ops i = .closeFd n → s.queue.calls[i]? ≠ some .queued
  idle : s.base.closer ≠ .idle → s.base.closer ≠ .draining →
    ∀ (i : ℕ) c, s.queue.calls[i]? = some c → c.Released ∨ c = .refused
  kept : ∀ i, s.kept i = true → ∃ x, s.queue.result i = some x

/-- A step keeps the invariant and moves what is held. -/
def Moves (s s' : NativeSession) : Prop :=
  s.holdings.Goes s'.holdings ∧ s'.QueueInv

variable {s s' : NativeSession} {l : NativeAct} {i : ℕ} {a b : QueuedCall (Option Resource) Empty}
    {op : FdOp}

theorem holdings_put (hi : s.queue.calls[i]? = some a) :
    { s with queue := s.queue.put i b }.holdings =
      { s.holdings with
        call := update s.holdings.call i (if s.kept i then none else got b)
        ask := update s.holdings.ask i (asks (s.ops i) b) } := by
  simp only [holdings, Holdings.mk.injEq, true_and]
  constructor <;> funext j <;> by_cases hj : j = i
  · simp [hj, getElem?_put hi]
  · simp [hj, getElem?_put hi, Ne.symm hj]
  · simp [hj, getElem?_put hi]
  · simp [hj, getElem?_put hi, Ne.symm hj]

attribute [local simp] holdings

theorem holdings_put_of_eq (hi : s.queue.calls[i]? = some a) (hgot : got b = got a)
    (hasks : asks (s.ops i) b = asks (s.ops i) a) :
    { s with queue := s.queue.put i b }.holdings = s.holdings := by
  rw [holdings_put hi, hgot, hasks]
  simp [hi]

theorem holdings_enqueue : (s.enqueue op).holdings =
    { s.holdings with
      ask := update s.holdings.ask s.queue.calls.length
        (if s.queue.disposed then none else asks op .queued) } := by
  simp only [holdings, enqueue, Holdings.mk.injEq, true_and]
  constructor <;> funext j <;> by_cases hj : j = s.queue.calls.length
  · by_cases hd : s.queue.disposed = true <;> simp [calls_serialize, hj, hd, got]
  · simp [calls_serialize, hj]
  · by_cases hd : s.queue.disposed = true <;> simp [calls_serialize, hj, hd, asks]
  · simp [calls_serialize, hj]

/-! ### The queue along a step -/

theorem QueueInv.enqueue (hs : s.QueueInv) : (s.enqueue op).QueueInv where
  ordered := hs.ordered.serialize
  disposed := hs.disposed
  waiting hd j n hj hcall := by
    rcases getElem?_serialize hcall with hcall | ⟨rfl, hnew⟩
    · refine hs.waiting hd j n ?_ hcall
      have hne : j ≠ s.queue.calls.length := by
        rintro rfl
        simp at hcall
      simpa [NativeSession.enqueue, hne] using hj
    · rw [if_pos (hs.disposed.trans hd)] at hnew
      cases hnew
  idle hidle hdrain j c hj := by
    rcases getElem?_serialize hj with hj | ⟨rfl, rfl⟩
    · exact hs.idle hidle hdrain j c hj
    · have hd : s.base.disposed = true := bne_iff_ne.mpr hidle
      rw [if_pos (hs.disposed.trans hd)]
      exact .inr rfl
  kept j hj := by
    obtain ⟨x, hx⟩ := hs.kept j hj
    exact ⟨x, Moves.call.result hx⟩

theorem QueueInv.put (hs : s.QueueInv) (hi : s.queue.calls[i]? = some a)
    (h : s.queue.CallStep i a b) : { s with queue := s.queue.put i b }.QueueInv where
  ordered := hs.ordered.put hi h
  disposed := hs.disposed
  waiting hd j n hj hcall := by
    rw [getElem?_put hi] at hcall
    split_ifs at hcall with hij
    · cases h with
      | turn hopen => exact begin_not_waiting (.inl (some.inj hcall))
      | _ => cases hcall
    · exact hs.waiting hd j n hj hcall
  idle hidle hdrain j c hj := by
    rw [getElem?_put hi] at hj
    split_ifs at hj with hij
    · rcases hs.idle hidle hdrain i a hi with ha | rfl
      · cases h <;> cases ha
      · exact absurd rfl h.ne_refused.1
    · exact hs.idle hidle hdrain j c hj
  kept j hj := by
    obtain ⟨x, hx⟩ := hs.kept j hj
    exact ⟨x, (Moves.step hi h).result hx⟩

theorem QueueInv.base {b : SessionFds} (hs : s.QueueInv) (hd : b.disposed = s.base.disposed)
    (hc : b.closer = .idle ∨ b.closer = .draining ∨ s.base.closer ≠ .idle ∧
      s.base.closer ≠ .draining) :
    { s with base := b }.QueueInv where
  ordered := hs.ordered
  disposed := hs.disposed.trans hd.symm
  waiting hdis := hs.waiting (hd ▸ hdis)
  idle hidle hdrain := by
    obtain ⟨h, h'⟩ := (hc.resolve_left hidle).resolve_left hdrain
    exact hs.idle h h'
  kept := hs.kept

/-! ### The steps -/

theorem enqueue_moves (hop : op = .openFd ∨ op = .attachPath) (hs : s.QueueInv) :
    s.Moves (s.enqueue op) := by
  refine ⟨.inl ?_, hs.enqueue⟩
  have hasks : (if s.queue.disposed then none else asks op .queued) = none := by
    rcases hop with rfl | rfl <;> simp [asks]
  have hask : s.holdings.ask s.queue.calls.length = none := by simp
  rw [holdings_enqueue, hasks, update_eq_self_iff.mpr hask.symm]

theorem closeFd_moves {n : ℕ} (hn : s.base.disposed = false → n ∈ s.base.fds) (hs : s.QueueInv) :
    s.Moves (s.closeFd n) := by
  rw [closeFd]
  by_cases hd : s.base.disposed = true
  · rw [if_pos hd]
    exact ⟨.inl rfl, hs⟩
  · rw [if_neg hd]
    have hidle := closer_of_not_disposed hd
    have hs' : { s with base := s.base.delete n }.QueueInv := hs.base rfl (.inl hidle)
    refine ⟨.inr ?_, hs'.enqueue⟩
    have hqueue : s.queue.disposed = false := by simpa [hs.disposed] using hd
    have hview : ({ s with base := s.base.delete n }.enqueue (.closeFd n)).holdings =
        s.holdings.askFor s.queue.calls.length n := by
      rw [holdings_enqueue]
      simp [Holdings.askFor, hqueue, asks]
    exact hview ▸ .askFor hidle (hn (by simpa using hd)) (by simp)

theorem close_moves (hk : s.InTime .close) (hs : s.QueueInv) : s.Moves s.close := by
  rw [close]
  by_cases hd : s.base.disposed = true
  · rw [if_pos hd]
    exact ⟨.inl rfl, hs⟩
  · rw [if_neg hd]
    have hidle := closer_of_not_disposed hd
    refine ⟨.inr (.drain hidle), ?_⟩
    exact
      { ordered := ⟨hs.ordered.serial, hs.ordered.refused, fun _ _ => rfl⟩
        disposed := rfl
        waiting := fun _ => hk (by simpa using hd)
        idle := fun _ hdrain => absurd rfl hdrain
        kept := hs.kept }

variable {q : OpQueue (Option Resource) Empty}

section

variable (hs : s.QueueInv)
include hs

theorem put_moves (hi : s.queue.calls[i]? = some a) (h : s.queue.CallStep i a b)
    (hgot : got b = got a) (hasks : asks (s.ops i) b = asks (s.ops i) a) :
    s.Moves { s with queue := s.queue.put i b } :=
  ⟨.inl (holdings_put_of_eq hi hgot hasks), hs.put hi h⟩

theorem turn_moves (h : s.queue.turn i = some q) : s.Moves { s with queue := q } := by
  obtain ⟨hi, hopen, rfl⟩ := turn_eq h
  refine ⟨.inl ?_, hs.put hi (.turn hopen)⟩
  have hbegin : s.queue.begin = if s.queue.disposed then .settled (.error .disposed)
      else .running := by
    rw [begin]
    split
    · next e _ => exact e.elim
    · rfl
  rw [hbegin]
  by_cases hd : s.queue.disposed = true
  · -- a `closeFd` whose turn comes is not too late
    rw [if_pos hd]
    refine holdings_put_of_eq hi rfl ?_
    cases hop : s.ops i with
    | closeFd n => exact absurd hi (hs.waiting (hs.disposed.symm.trans hd) i n hop)
    | _ => rfl
  · rw [if_neg hd]
    refine holdings_put_of_eq hi rfl ?_
    cases s.ops i <;> rfl

theorem QueueInv.log {log : List EngineEvent} : { s with log := log }.QueueInv :=
  ⟨hs.ordered, hs.disposed, hs.waiting, hs.idle, hs.kept⟩

theorem QueueInv.not_kept (hi : s.queue.calls[i]? = some .running) : s.kept i = false := by
  by_contra hkept
  obtain ⟨x, hx⟩ := hs.kept i (by simpa using hkept)
  simp [result, hi, QueuedCall.result] at hx

theorem holdings_finish {x : Option Resource}
    (hi : s.queue.calls[i]? = some .running) (log : List EngineEvent) :
    { s with queue := s.queue.put i (.returned (.ok x)), log := log }.holdings =
      { s.holdings with
        log := log
        call := update s.holdings.call i x
        ask := update s.holdings.ask i none } := by
  have hview := holdings_put (b := .returned (.ok x)) hi
  have hasks : asks (s.ops i) (.returned (.ok x)) = none := by
    cases s.ops i <;> rfl
  rw [hs.not_kept hi, hasks] at hview
  exact congrArg (fun H : Holdings => { H with log := log }) hview

end

theorem yield_moves {x : Option Resource} (hop : ∀ n, s.ops i ≠ .closeFd n) (hs : s.QueueInv)
    (h : s.yield i x = some s') : s.Moves s' := by
  have hasks (c : QueuedCall (Option Resource) Empty) : asks (s.ops i) c = none := by
    cases hi : s.ops i with
    | closeFd n => exact absurd hi (hop n)
    | _ => rfl
  cases x with
  | none =>
    obtain ⟨q, hq, rfl⟩ := map_eq_some_iff.mp h
    obtain ⟨hi, rfl⟩ := finish_eq hq
    exact put_moves hs hi (.finish _) rfl (by rw [hasks, hasks])
  | some r =>
    obtain ⟨hnew, h⟩ := ite_none_left_eq_some.mp h
    obtain ⟨q, hq, rfl⟩ := map_eq_some_iff.mp h
    obtain ⟨hi, rfl⟩ := finish_eq hq
    refine ⟨.inr ?_, (hs.put hi (.finish _)).log⟩
    have hask : s.holdings.ask i = none := by simp [hi, hasks]
    have hupdate : update s.holdings.ask i none = s.holdings.ask :=
      update_eq_self_iff.mpr hask.symm
    rw [holdings_finish hs hi, hupdate]
    exact .returned (by simp [hi, got]) hnew

section

variable (hs : s.QueueInv)
include hs

theorem execute_moves {n : Option ℕ} (hH : s.holdings.Inv)
    (h : s.execute i n = some s') : s.Moves s' := by
  rw [execute] at h
  split at h
  · next hop => exact yield_moves (by simp [hop]) hs h
  · next hop => exact yield_moves (by simp [hop]) hs h
  · next m hop =>
    obtain ⟨q, hq, rfl⟩ := map_eq_some_iff.mp h
    obtain ⟨hi, rfl⟩ := finish_eq hq
    refine ⟨.inr ?_, (hs.put hi (.finish _)).log⟩
    have hask : s.holdings.ask i = some (.fd m) := by simp [hi, hop, asks]
    have hcall : s.holdings.call i = none := by simp [hi, got]
    rw [holdings_finish hs hi, update_eq_self_iff.mpr hcall.symm]
    refine .closedAsk hask fun d hd => ?_
    -- the disk is closed when the queue is idle, and here a call runs
    have hnot : ¬ (QueuedCall.Released (.running : QueuedCall (Option Resource) Empty) ∨
        (.running : QueuedCall (Option Resource) Empty) = .refused) := by
      rintro (h | h) <;> cases h
    refine hnot (hs.idle ?_ ?_ i .running hi) <;>
      rcases hH.late d hd with hl | hl <;> rw [show s.base.closer = _ from hl] <;> nofun

theorem resume_moves (hk : s.InTime (.resume i)) (h : s.resume i = some s') : s.Moves s' := by
  rw [resume] at h
  split at h
  · next r hkept hr =>
    cases h
    obtain ⟨hc, hd⟩ := hk r hr
    have hcall : s.holdings.call i = some r := by
      obtain ⟨c, hi, hresult⟩ := bind_eq_some_iff.mp hr
      cases c <;> simp [QueuedCall.result] at hresult <;> simp [hkept, hi, hresult, got]
    refine ⟨.inr ?_, hs.ordered, ?_, ?_, ?_, fun j hj => ?_⟩
    · have hview : ({ s with base := s.base.add r, kept := update s.kept i true } :
          NativeSession).holdings = s.holdings.keep i r := by
        simp only [holdings, Holdings.keep, Holdings.mk.injEq, true_and, and_true]
        funext j
        by_cases hj : j = i <;> simp [hj]
      exact hview ▸ .keep hcall hc hd
    · rw [hs.disposed]
      cases r <;> rfl
    · cases r <;> exact hs.waiting
    · cases r <;> exact hs.idle
    · by_cases hji : j = i
      · exact ⟨_, hji ▸ hr⟩
      · exact hs.kept j (by simpa [hji] using hj)
  · cases h

theorem drained_moves (h : s.drained = some s') : s.Moves s' := by
  obtain ⟨⟨hdrain, hidle⟩, ⟨⟩⟩ := ite_none_right_eq_some.mp h
  refine ⟨.inr (.start (.inr hdrain)), ?_⟩
  exact
    { ordered := hs.ordered
      disposed := hs.disposed.trans (by rw [SessionFds.disposed, hdrain]; rfl)
      waiting := fun _ => hs.waiting (by simp [SessionFds.disposed, hdrain])
      idle := fun _ _ j c hj => hs.ordered.released_of_idle hidle hj
      kept := hs.kept }

theorem closeStep_moves {b : SessionFds} (hb : s.base.advance = some b) :
    s.Moves { s with base := b } := by
  have hclosers : s.base.closer ≠ .idle ∧ s.base.closer ≠ .draining ∧ b.closer ≠ .idle := by
    rcases advance_cases hb with ⟨k, n, hk, -, rfl⟩ | ⟨k, hk, rfl⟩ | ⟨k, d, hk, -, -, rfl⟩ |
      ⟨k, hk, -, -, rfl⟩ | ⟨hk, rfl⟩ <;> rw [hk] <;> exact ⟨nofun, nofun, nofun⟩
  refine ⟨.inr (.advance hb), hs.base ?_ (.inr (.inr ⟨hclosers.1, hclosers.2.1⟩))⟩
  rw [SessionFds.disposed, SessionFds.disposed, bne_iff_ne.mpr hclosers.1,
    bne_iff_ne.mpr hclosers.2.2]

theorem executeClose_moves (h : s.executeClose = some s') : s.Moves s' := by
  obtain ⟨r, hr, rfl⟩ := map_eq_some_iff.mp h
  refine ⟨.inr (.closedRequest hr), ?_⟩
  have hs' : { s with base := s.base.answer }.QueueInv := by
    rcases Holdings.closer_of_request (H := s.holdings) hr with ⟨k, hk, -⟩ | ⟨hk, -⟩
    all_goals
      have hk' : s.base.closer = _ := hk
      refine hs.base ?_ (.inr (.inr ?_))
      · rw [SessionFds.disposed, SessionFds.disposed, SessionFds.answer, hk']
        rfl
      · rw [hk']
        exact ⟨by rintro ⟨⟩, by rintro ⟨⟩⟩
  exact hs'.log

theorem step_moves (hH : s.holdings.Inv) (hk : s.InTime l)
    (h : nativeStep s l = some s') : s.Moves s' := by
  cases l with
  | openFd =>
    cases h
    rw [openFd]
    split_ifs
    · exact ⟨.inl rfl, hs⟩
    · exact enqueue_moves (.inl rfl) hs
  | closeFd n =>
    cases h
    exact closeFd_moves hk hs
  | attachPath =>
    cases h
    rw [attachPath]
    split_ifs
    · exact ⟨.inl rfl, hs⟩
    · exact enqueue_moves (.inr rfl) hs
  | close =>
    cases h
    exact close_moves hk hs
  | turn i =>
    obtain ⟨q, hq, rfl⟩ := map_eq_some_iff.mp h
    exact turn_moves hs hq
  | execute i n => exact execute_moves hs hH h
  | adopt i =>
    obtain ⟨q, hq, rfl⟩ := map_eq_some_iff.mp h
    obtain ⟨r, hi, rfl⟩ := adopt_eq hq
    exact put_moves hs hi (.adopt r) (by cases r <;> rfl) (by cases s.ops i <;> rfl)
  | release i =>
    obtain ⟨q, hq, rfl⟩ := map_eq_some_iff.mp h
    obtain ⟨r, hi, rfl⟩ := release_eq hq
    exact put_moves hs hi (.release r) (by cases r <;> rfl) (by cases s.ops i <;> rfl)
  | resume i => exact resume_moves hs hk h
  | drained => exact drained_moves hs h
  | closeStep =>
    obtain ⟨b, hb, rfl⟩ := map_eq_some_iff.mp h
    exact closeStep_moves hs hb
  | executeClose => exact executeClose_moves hs h

end

theorem inv_of_reach (h : nativeMachine.Reach InTime init s) : s.QueueInv ∧ s.holdings.Inv := by
  have hinit : init.QueueInv := ⟨ordered_init, rfl, nofun, fun h => absurd rfl h, nofun⟩
  refine h.invariant (P := fun s => s.QueueInv ∧ s.holdings.Inv) ⟨hinit, Holdings.inv_init⟩ ?_
  rintro s l s' ⟨hs, hH⟩ hk hstep
  obtain ⟨hmoves, hs'⟩ := step_moves hs hH hk hstep
  exact ⟨hs', hH.goes hmoves⟩

theorem holdings_of_settled (hs : s.Settled) (i : ℕ) :
    s.holdings.call i = none ∧ s.holdings.ask i = none := by
  by_cases hlt : i < s.queue.calls.length
  · have hended := hs.2 i hlt
    obtain ⟨c, hi⟩ : ∃ c, s.queue.calls[i]? = some c := ⟨_, List.getElem?_eq_getElem hlt⟩
    rw [ended, result, hi] at hended
    have hask : asks (s.ops i) c = none := by
      cases s.ops i <;> cases c <;> first | rfl | cases hended
    refine ⟨?_, by simp [hi, hask]⟩
    cases c with
    | settled r | released r =>
      match r with
      | .ok (some r) =>
        have hkept : s.kept i = true := hended
        simp [hkept]
      | .ok none => simp [hi, got]
      | .error e => simp [hi, got]
    | refused => simp [hi, got]
    | _ => cases hended
  · simp [List.getElem?_eq_none (Nat.le_of_not_lt hlt)]

theorem balanced_of_settled (h : nativeMachine.Reach InTime init s) (hs : s.Settled) :
    Balanced s.log :=
  (inv_of_reach h).2.balanced hs.1 (fun i => (holdings_of_settled hs i).1)
    fun i => (holdings_of_settled hs i).2

end NativeSession

/-- When its steps are in time, a session of either kind gives back everything it got, each thing
once and the disk last. -/
theorem sessions_give_back (s : NodeWasmSession) (t : NativeSession) :
    (nodeMachine.Reach NodeWasmSession.InTime .init s → s.Settled → Balanced s.log) ∧
    (nativeMachine.Reach NativeSession.InTime .init t → t.Settled → Balanced t.log) :=
  ⟨fun h hs => NodeWasmSession.balanced_of_settled h hs,
    fun h hs => NativeSession.balanced_of_settled h hs⟩

/-- Two files are opened and one of them is closed before `close` is called. -/
def orderlyNode : List NodeAct :=
  [.attachPath 0, .execute (some 0), .resume 0, .openFd 1, .execute (some 0), .resume 1,
    .openFd 2, .execute (some 1), .resume 2, .closeFd 3 0, .execute none, .resume 3,
    .close, .closeStep, .execute none, .closeStep, .closeStep, .execute none, .closeStep]

def orderlyNative : List NativeAct :=
  [.attachPath, .turn 0, .execute 0 (some 0), .adopt 0, .release 0, .resume 0,
    .openFd, .turn 1, .execute 1 (some 0), .adopt 1, .release 1, .resume 1,
    .openFd, .turn 2, .execute 2 (some 1), .adopt 2, .release 2, .resume 2,
    .closeFd 0, .turn 3, .execute 3 none, .adopt 3, .release 3,
    .close, .drained, .closeStep, .executeClose, .closeStep, .closeStep, .executeClose, .closeStep]

/-- Both sessions can be used in time. -/
theorem sessions_give_back_orderly :
    (∃ s, nodeMachine.Reach NodeWasmSession.InTime .init s ∧ s.Settled ∧
      (closedOf s.log).length = 3 ∧ Balanced s.log) ∧
    ∃ t, nativeMachine.Reach NativeSession.InTime .init t ∧ t.Settled ∧
      (closedOf t.log).length = 3 ∧ Balanced t.log := by
  constructor
  · have hrun : Machine.run nodeStep NodeWasmSession.InTime orderlyNode .init = some _ := rfl
    have hreach := Machine.Reach.of_run hrun
    refine ⟨_, hreach, ?settled, rfl, (sessions_give_back _ .init).1 hreach ?settled⟩
    refine ⟨rfl, fun i => ?_⟩
    match i with
    | 0 | 1 | 2 | 3 => exact .inr rfl
    | _ + 4 => exact .inl rfl
  · have hrun : ((Machine.run nativeStep NativeSession.InTime orderlyNative .init).any fun s =>
        decide ((s.base.closer = .finished ∧ ∀ i < s.queue.calls.length, s.ended i = true) ∧
          (closedOf s.log).length = 3)) = true := by
      decide +kernel
    obtain ⟨s, hrun, hsettled, hclosed⟩ := Machine.exists_of_run hrun
    have hreach := Machine.Reach.of_run hrun
    exact ⟨s, hreach, hsettled, hclosed, (sessions_give_back .init s).2 hreach hsettled⟩

/-- A file is being opened when `close` is called. The session has no descriptor to close, and
closes its disk. -/
def lateOpen : List NodeAct :=
  [.attachPath 0, .execute (some 0), .resume 0, .openFd 1, .close, .closeStep, .execute (some 0),
    .resume 1, .execute none, .closeStep]

/-- A `closeFd` waits behind an `openFd` when `close` is called. -/
def queuedClose : List NativeAct :=
  [.attachPath, .turn 0, .execute 0 (some 0), .adopt 0, .release 0, .resume 0,
    .openFd, .turn 1, .execute 1 (some 0), .adopt 1, .release 1, .resume 1,
    .openFd, .turn 2, .closeFd 0, .close, .execute 2 (some 1), .adopt 2, .release 2, .resume 2,
    .turn 3, .release 3, .drained, .closeStep, .executeClose, .closeStep, .closeStep, .executeClose,
    .closeStep]

theorem sessions_leak :
    (∃ s, nodeMachine.Reach (fun _ _ => True) .init s ∧ s.Settled ∧ ¬ Balanced s.log) ∧
    ∃ s, nativeMachine.Reach (fun _ _ => True) .init s ∧ s.Settled ∧ ¬ Balanced s.log := by
  constructor
  · have hrun : Machine.run nodeStep (fun _ _ => True) lateOpen .init = some _ := rfl
    refine ⟨_, Machine.Reach.of_run hrun, ⟨rfl, fun i => ?_⟩, fun h => ?_⟩
    · match i with
      | 0 => exact .inr rfl
      | 1 => exact .inr rfl
      | _ + 2 => exact .inl rfl
    · exact absurd (h.once (.fd 0) (by decide)) (by decide)
  · have hrun : ((Machine.run nativeStep (fun _ _ => True) queuedClose .init).any fun s =>
        decide ((s.base.closer = .finished ∧ ∀ i < s.queue.calls.length, s.ended i = true) ∧
          .opened (.fd 0) ∈ s.log ∧ (closedOf s.log).count (.fd 0) = 0)) = true := by
      decide +kernel
    obtain ⟨s, hrun, hsettled, hopened, hcount⟩ := Machine.exists_of_run hrun
    refine ⟨s, Machine.Reach.of_run hrun, hsettled, fun h => ?_⟩
    have := h.once (.fd 0) hopened
    omega

end Anyfs
