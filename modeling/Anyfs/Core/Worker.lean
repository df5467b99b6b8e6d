import Anyfs.Core.Queue
import Anyfs.Lib.Script

/-!
# The worker protocol

A call of `WasmSession` posts a message with a new id and waits in `pending` for the reply; all
calls go through the op queue, and all but boot and attach run under the watchdog. Replies may come
in any order, for ids that nobody waits for, and more than once.

A public operation is a script of calls.
-/

namespace Anyfs

open List Option Function OpQueue

/-- What went between the session and its worker: call `i` was posted under an id, a reply came. -/
inductive WorkerMsg (ρ ε : Type*) where
  | posted (id i : ℕ)
  | replied (id : ℕ) (r : Except ε ρ)

/-- An operation: the calls it makes and what it does with the results. -/
abbrev OpScript (ρ ε α : Type*) :=
  Script Bool (Except (SessionError ε) ρ) (Except (SessionError ε) α)

/-- A public operation: its script, the calls it has made, and what is left of the script. -/
structure PublicOp (ρ ε α : Type*) where
  script : OpScript ρ ε α
  calls : List ℕ
  now : OpScript ρ ε α

/-- The session. `answers` are what the promises of `call` under the watchdog have settled with,
`inflight` the guarded calls that have not settled, and `log` is what was said. -/
structure WasmSession (ρ ε α : Type*) where
  queue : OpQueue ρ ε
  guarded : ℕ → Bool
  inflight : List ℕ
  answers : ℕ → Option (Except (SessionError ε) ρ)
  workerError : Option ε
  terminated : Bool
  nextId : ℕ
  pending : List (ℕ × ℕ)
  log : List (WorkerMsg ρ ε)
  ops : List (PublicOp ρ ε α)

open WasmSession

/-- An operation goes on with a script; if that is a call, it has number `i`. -/
def PublicOp.goOn {ρ ε α : Type*} (p : PublicOp ρ ε α) (i : ℕ) : OpScript ρ ε α → PublicOp ρ ε α
  | .done r => { p with now := .done r }
  | .call g k => { p with now := .call g k, calls := p.calls ++ [i] }

namespace WasmSession

variable {ρ ε α : Type*}

def init : WasmSession ρ ε α where
  queue := .init
  guarded _ := false
  inflight := []
  answers _ := none
  workerError := none
  terminated := false
  nextId := 1
  pending := []
  log := []
  ops := []

variable (s : WasmSession ρ ε α) (i : ℕ) (r : Except (SessionError ε) ρ)

def settleCall : WasmSession ρ ε α :=
  { s with queue := (s.queue.finish i r).getD s.queue }

/-- The guarded call settles. -/
def settleGuard : WasmSession ρ ε α :=
  { s.settleCall i r with inflight := s.inflight.filter (· ≠ i) }

def answer : WasmSession ρ ε α :=
  if s.guarded i then { s with answers := update s.answers i ((s.answers i).or (some r)) }
  else s.settleCall i r

/-- `fireFatal`: everything in flight fails. -/
def fireFatal (e : ε) : WasmSession ρ ε α :=
  if s.queue.fatalErr.isSome then s
  else
    s.inflight.foldl (fun s i => s.settleGuard i (.error (.fatal e)))
      { s with queue := s.queue.fireFatal e }

def rejectPending (e : SessionError ε) : WasmSession ρ ε α :=
  { s.pending.foldl (fun s p => s.answer p.2 (.error e)) s with pending := [] }

/-- `postMessage`, under a new id. -/
def post : WasmSession ρ ε α :=
  { s with
    nextId := s.nextId + 1
    pending := s.pending ++ [(s.nextId, i)]
    log := s.log ++ [.posted s.nextId i] }

/-- `call`; `fail` is what `postMessage` throws. -/
def call (fail : Option ε) : WasmSession ρ ε α :=
  if s.queue.disposed then s.answer i (.error .disposed)
  else
    match s.workerError.or s.queue.fatalErr with
    | some e => s.answer i (.error (.fatal e))
    | none =>
      match fail with
      | some e => { s with nextId := s.nextId + 1 }.answer i (.error (.failed e))
      | none => s.post i

/-- The function that `op` and the attaches pass to `serialize`. -/
def run (fail : Option ε) : WasmSession ρ ε α :=
  if s.guarded i then { s with inflight := s.inflight ++ [i] }.call i fail else s.call i fail

def turn (fail : Option ε) : Option (WasmSession ρ ε α) :=
  (s.queue.turn i).map fun q =>
    if q.isRunning i then { s with queue := q }.run i fail else { s with queue := q }

/-- `onMessage`, for a reply. -/
def onReply (id : ℕ) (r : Except ε ρ) : WasmSession ρ ε α :=
  match s.pending.find? (·.1 = id) with
  | some p =>
    answer
      { s with
        pending := s.pending.filter (·.1 ≠ id)
        log := s.log ++ [.replied id r] }
      p.2 (r.mapError .failed)
  | none => { s with log := s.log ++ [.replied id r] }

/-- `onMessage` for a fatal event, and `onError`. -/
def onFatalEvent (e : ε) : WasmSession ρ ε α :=
  ({ s with workerError := some e }.rejectPending (.fatal e)).fireFatal e

def onTimeout (e : ε) : WasmSession ρ ε α :=
  (s.fireFatal e).settleGuard i (.error (.fatal e))

def dispose : WasmSession ρ ε α :=
  { s.rejectPending (s.workerError.elim .disposed .fatal) with terminated := true }

def enqueue : OpScript ρ ε α → WasmSession ρ ε α
  | .done _ => s
  | .call g _ =>
    { s with
      queue := s.queue.serialize
      guarded := update s.guarded s.queue.calls.length g }

def start (script : OpScript ρ ε α) : WasmSession ρ ε α :=
  { s.enqueue script with
    ops := s.ops ++ [PublicOp.goOn ⟨script, [], script⟩ s.queue.calls.length script] }

def resume (j : ℕ) : Option (WasmSession ρ ε α) :=
  match s.ops[j]? with
  | none => none
  | some p =>
    match p.now with
    | .done _ => none
    | .call _ k =>
      (p.calls.getLast?.bind s.queue.result).map fun r =>
        { s.enqueue (k r) with ops := s.ops.set j (p.goOn s.queue.calls.length (k r)) }

end WasmSession

/-- The steps: what the surroundings and the worker do, and promise jobs. -/
inductive WorkerAct (ρ ε α : Type*) where
  | start (script : OpScript ρ ε α)
  | close
  | reply (id : ℕ) (r : Except ε ρ)
  | fatalEvent (e : ε)
  | timeout (i : ℕ) (e : ε)
  | turn (i : ℕ) (fail : Option ε)
  | react (i : ℕ)
  | adopt (i : ℕ)
  | release (i : ℕ)
  | resume (j : ℕ)
  | dispose

def WorkerAct.isJob {ρ ε α : Type*} : WorkerAct ρ ε α → Bool
  | .turn _ _ | .react _ | .adopt _ | .release _ | .resume _ | .dispose => true
  | _ => false

section Step

variable {ρ ε α : Type*}

/-- The steps of a session and its worker. -/
def workerStep (s : WasmSession ρ ε α) : WorkerAct ρ ε α → Option (WasmSession ρ ε α)
  | .start script => some (s.start script)
  | .close => some { s with queue := s.queue.dispose }
  | .reply id r => if s.terminated then none else some (s.onReply id r)
  | .fatalEvent e => if s.terminated then none else some (s.onFatalEvent e)
  | .timeout i e => if i ∈ s.inflight then some (s.onTimeout i e) else none
  | .turn i fail => s.turn i fail
  | .react i =>
    match s.answers i with
    | some r => if i ∈ s.inflight then some (s.settleGuard i r) else none
    | none => none
  | .adopt i => (s.queue.adopt i).map fun q => { s with queue := q }
  | .release i => (s.queue.release i).map fun q => { s with queue := q }
  | .resume j => s.resume j
  | .dispose => if s.queue.disposed ∧ s.terminated = false then some s.dispose else none

def workerMachine : Machine (WasmSession ρ ε α) (WorkerAct ρ ε α) := .ofFun workerStep

end Step

namespace WasmSession

variable {ρ ε α : Type*} {s s' : WasmSession ρ ε α} {i j : ℕ} {r : Except (SessionError ε) ρ}

/-! ### What the parts of a step do -/

theorem isRunning_settleCall :
    (s.settleCall i r).queue.isRunning j = (s.queue.isRunning j && decide (j ≠ i)) :=
  isRunning_finish r

theorem isRunning_answer : (s.answer i r).queue.isRunning j =
    (s.queue.isRunning j && (decide (j ≠ i) || s.guarded i)) := by
  rw [answer]
  split_ifs with hi
  · simp [hi]
  · simp [isRunning_settleCall, hi]

theorem answers_answer : (s.answer i r).answers j =
    if j = i ∧ s.guarded i = true then (s.answers i).or (some r) else s.answers j := by
  rw [answer]
  split_ifs with hi hj hj
  · simp [hj.1]
  · simp_all
  · exact absurd hj.2 hi
  · rfl

/-- `s'` differs from `s` only in its queue, answers and log. -/
structure Frame (s s' : WasmSession ρ ε α) : Prop where
  moves : s.queue.MovesTo s'.queue
  disposed : s'.queue.disposed = s.queue.disposed
  fatalErr : s'.queue.fatalErr = s.queue.fatalErr
  guarded : s'.guarded = s.guarded
  workerError : s'.workerError = s.workerError
  terminated : s'.terminated = s.terminated
  nextId : s'.nextId = s.nextId
  pending : s'.pending = s.pending
  log : s'.log = s.log
  ops : s'.ops = s.ops

theorem Frame.refl (s : WasmSession ρ ε α) : s.Frame s :=
  ⟨.refl, rfl, rfl, rfl, rfl, rfl, rfl, rfl, rfl, rfl⟩

theorem Frame.trans {s'' : WasmSession ρ ε α} (h : s.Frame s') (h' : s'.Frame s'') :
    s.Frame s'' where
  moves := h.moves.trans h'.moves
  disposed := h'.disposed.trans h.disposed
  fatalErr := h'.fatalErr.trans h.fatalErr
  guarded := h'.guarded.trans h.guarded
  workerError := h'.workerError.trans h.workerError
  terminated := h'.terminated.trans h.terminated
  nextId := h'.nextId.trans h.nextId
  pending := h'.pending.trans h.pending
  log := h'.log.trans h.log
  ops := h'.ops.trans h.ops

variable (s)

theorem frame_settleCall (i : ℕ) (r : Except (SessionError ε) ρ) : s.Frame (s.settleCall i r) := by
  rw [settleCall]
  cases h : s.queue.finish i r with
  | none => exact .refl s
  | some q =>
    have hmoves : s.queue.Moves q := moves_of_step (l := .finish i r) h
    obtain ⟨-, rfl⟩ := finish_eq h
    exact ⟨.single hmoves, rfl, rfl, rfl, rfl, rfl, rfl, rfl, rfl, rfl⟩

theorem frame_settleGuard (i : ℕ) (r : Except (SessionError ε) ρ) :
    s.Frame (s.settleGuard i r) := by
  obtain ⟨h1, h2, h3, h4, h5, h6, h7, h8, h9, h10⟩ := frame_settleCall s i r
  exact ⟨h1, h2, h3, h4, h5, h6, h7, h8, h9, h10⟩

theorem frame_answer (i : ℕ) (r : Except (SessionError ε) ρ) : s.Frame (s.answer i r) := by
  rw [answer]
  split_ifs
  · exact ⟨.refl, rfl, rfl, rfl, rfl, rfl, rfl, rfl, rfl, rfl⟩
  · exact frame_settleCall s i r

variable {s}

theorem foldl_settleGuard (l : List ℕ) (s : WasmSession ρ ε α) :
    let s' := l.foldl (fun s i => s.settleGuard i r) s
    s.Frame s' ∧ s'.answers = s.answers ∧ (∀ j, j ∈ s'.inflight ↔ j ∈ s.inflight ∧ j ∉ l) ∧
      ∀ j, s'.queue.isRunning j = (s.queue.isRunning j && decide (j ∉ l)) := by
  induction l generalizing s with
  | nil => simp [Frame.refl]
  | cons i l ih =>
    obtain ⟨hframe, hanswers, hinflight, hrunning⟩ := ih (s.settleGuard i r)
    refine ⟨(frame_settleGuard s i r).trans hframe, hanswers, fun j => ?_, fun j => ?_⟩
    · rw [foldl_cons, hinflight]
      simp [settleGuard, and_assoc]
    · rw [foldl_cons, hrunning]
      simp [settleGuard, isRunning_settleCall, Bool.and_assoc]

theorem foldl_answer (l : List (ℕ × ℕ)) (s : WasmSession ρ ε α) :
    let s' := l.foldl (fun s p => s.answer p.2 r) s
    s.Frame s' ∧ s'.inflight = s.inflight ∧
      (∀ j, (s'.answers j).isSome =
        ((s.answers j).isSome || (s.guarded j && decide (j ∈ l.map Prod.snd)))) ∧
      (∀ j x, s'.answers j = some x → s.answers j = some x ∨ x = r) ∧
      ∀ j, s'.queue.isRunning j =
        (s.queue.isRunning j && (decide (j ∉ l.map Prod.snd) || s.guarded j)) := by
  induction l generalizing s with
  | nil => exact ⟨.refl s, rfl, by simp, fun _ _ => .inl, by simp⟩
  | cons p l ih =>
    obtain ⟨hframe, hinflight, hsome, hanswers, hrunning⟩ := ih (s.answer p.2 r)
    have hguarded := (frame_answer s p.2 r).guarded
    refine ⟨(frame_answer s p.2 r).trans hframe, hinflight.trans ?_, fun j => ?_, fun j x hx => ?_,
      fun j => ?_⟩
    · rw [answer]
      split_ifs <;> rfl
    · rw [foldl_cons, hsome, hguarded, answers_answer]
      simp only [map_cons, mem_cons]
      by_cases hj : j = p.2
      · subst hj
        cases hg : s.guarded p.2 <;> simp
      · simp [hj]
    · rcases hanswers j x hx with hy | hy
      · rw [answers_answer] at hy
        split_ifs at hy with hj
        · rw [hj.1]
          cases hp : s.answers p.2 with
          | some y => exact .inl (by simpa [hp] using hy)
          | none => exact .inr (by simpa [hp] using hy.symm)
        · exact .inl hy
      · exact .inr hy
    · rw [foldl_cons, hrunning, hguarded, isRunning_answer]
      simp only [map_cons, mem_cons]
      by_cases hj : j = p.2
      · subst hj
        cases hg : s.guarded p.2 <;> simp
      · simp [hj]

theorem run_eq (s : WasmSession ρ ε α) (i : ℕ) (fail : Option ε) : s.run i fail = call
    { s with inflight := if s.guarded i then s.inflight ++ [i] else s.inflight } i fail := by
  rw [run]
  split_ifs <;> rfl

theorem resume_eq (h : s.resume j = some s') : ∃ p g k i r, s.ops[j]? = some p ∧ p.now = .call g k ∧
    p.calls.getLast? = some i ∧ s.queue.result i = some r ∧
      s' = { s.enqueue (k r) with ops := s.ops.set j (p.goOn s.queue.calls.length (k r)) } := by
  rw [resume] at h
  split at h
  · cases h
  · next p hp =>
    split at h
    · cases h
    · next g k hnow =>
      obtain ⟨r, hr, rfl⟩ := map_eq_some_iff.mp h
      obtain ⟨i, hi, hir⟩ := bind_eq_some_iff.mp hr
      exact ⟨p, g, k, i, r, hp, hnow, hi, hir, rfl⟩

theorem react_eq (h : workerStep s (.react i) = some s') :
    ∃ r, s.answers i = some r ∧ i ∈ s.inflight ∧ s' = s.settleGuard i r := by
  rw [workerStep] at h
  split at h
  · next r hr =>
    obtain ⟨hi, ⟨⟩⟩ := ite_none_right_eq_some.mp h
    exact ⟨r, hr, hi, rfl⟩
  · cases h

variable (s)

theorem rejectPending_keeps (e : SessionError ε) : s.queue.MovesTo (s.rejectPending e).queue ∧
      (s.rejectPending e).queue.disposed = s.queue.disposed ∧
      (s.rejectPending e).queue.fatalErr = s.queue.fatalErr ∧
      (s.rejectPending e).workerError = s.workerError ∧ (s.rejectPending e).log = s.log ∧
      (s.rejectPending e).ops = s.ops := by
  obtain ⟨hmoves, hdisposed, hfatalErr, -, hworker, -, -, -, hlog, hops⟩ :=
    (foldl_answer (r := .error e) s.pending s).1
  exact ⟨hmoves, hdisposed, hfatalErr, hworker, hlog, hops⟩

theorem fireFatal_keeps (e : ε) : s.queue.MovesTo (s.fireFatal e).queue ∧
      (s.fireFatal e).queue.fatalErr.isSome = true ∧ (s.fireFatal e).log = s.log ∧
      (s.fireFatal e).ops = s.ops := by
  rw [fireFatal]
  split_ifs with hfatal
  · exact ⟨.refl, hfatal, rfl, rfl⟩
  · obtain ⟨hmoves, -, hfatalErr, -, -, -, -, -, hlog, hops⟩ := (foldl_settleGuard
      (r := .error (.fatal e)) s.inflight { s with queue := s.queue.fireFatal e }).1
    refine ⟨.head (.fireFatal e) hmoves, ?_, hlog, hops⟩
    rw [hfatalErr]
    simp [OpQueue.fireFatal]

theorem call_keeps (i : ℕ) (fail : Option ε) :
    s.queue.MovesTo (s.call i fail).queue ∧ (s.call i fail).ops = s.ops := by
  have hanswer (s : WasmSession ρ ε α) (r : Except (SessionError ε) ρ) :
      s.queue.MovesTo (s.answer i r).queue ∧ (s.answer i r).ops = s.ops :=
    ⟨(frame_answer s i r).moves, (frame_answer s i r).ops⟩
  rw [call.eq_def]
  split_ifs
  · exact hanswer s _
  · split
    · exact hanswer s _
    · split
      · exact hanswer { s with nextId := s.nextId + 1 } _
      · exact ⟨.refl, rfl⟩

variable {s}

variable {fail : Option ε} {q q' : OpQueue ρ ε} {p : PublicOp ρ ε α}

theorem turn_keeps (h : s.turn i fail = some s') : s.queue.MovesTo s'.queue ∧ s'.ops = s.ops := by
  obtain ⟨q, hq, rfl⟩ := map_eq_some_iff.mp h
  have hmoves : s.queue.Moves q := moves_of_step (l := .turn i) hq
  split_ifs
  · rw [run_eq]
    obtain ⟨hcall, hops⟩ := call_keeps { s with
      queue := q, inflight := if s.guarded i then s.inflight ++ [i] else s.inflight } i fail
    exact ⟨.head hmoves hcall, hops⟩
  · exact ⟨.single hmoves, rfl⟩

/-! ### The invariant -/

/-- Guarded calls that run are in flight. A call that runs, other than `x`, waits for a reply, or
for the job that hands on what it got. Nothing runs after a fatal error, and nothing is pending
after `dispose`. -/
structure InvBut (x : Option ℕ) (s : WasmSession ρ ε α) : Prop where
  ordered : s.queue.Ordered
  inflight : ∀ i, i ∈ s.inflight ↔ s.guarded i = true ∧ s.queue.isRunning i = true
  running : ∀ i, x ≠ some i → s.queue.isRunning i = true →
    (∃ id, (id, i) ∈ s.pending) ∨ s.guarded i = true ∧ (s.answers i).isSome = true
  fatal : s.queue.fatalErr.isSome = true → ∀ i, s.queue.isRunning i = false
  terminated : s.terminated = true → s.pending = [] ∧ s.queue.disposed = true

/-- What holds between the steps. -/
abbrev Inv (s : WasmSession ρ ε α) : Prop := s.InvBut none

theorem inv_init : (init : WasmSession ρ ε α).Inv where
  ordered := ordered_init
  inflight i := by simp [init, isRunning, init]
  running i _ h := by simp [init, OpQueue.isRunning, OpQueue.init] at h
  fatal h := by simp [init, OpQueue.init] at h
  terminated h := by simp [init] at h

theorem Inv.rejectPending (hs : s.Inv) (e : SessionError ε) : (s.rejectPending e).Inv ∧
    ∀ j, (s.rejectPending e).queue.isRunning j = true → (s.rejectPending e).guarded j = true := by
  obtain ⟨hframe, hinflight, hsome, -, hrunning⟩ := foldl_answer (r := .error e) s.pending s
  obtain ⟨hmoves, hdisposed, hfatal, hguarded, -, hterminated, -⟩ := hframe
  have hmem : ∀ j, s.queue.isRunning j = true → s.guarded j = false →
      j ∈ s.pending.map Prod.snd := by
    intro j hj hg
    rcases hs.running j nofun hj with ⟨id, hid⟩ | ⟨hg', -⟩
    · exact mem_map_of_mem hid
    · simp [hg] at hg'
  have hguard : ∀ j, (s.rejectPending e).queue.isRunning j = true → s.guarded j = true := by
    intro j hj
    by_contra hg
    rw [WasmSession.rejectPending, hrunning] at hj
    grind
  refine ⟨⟨hs.ordered.of_moves hmoves, fun j => ?_, fun j _ hj => .inr ?_, fun h j => ?_,
    fun h => ⟨rfl, ?_⟩⟩, fun j hj => hguarded ▸ hguard j hj⟩
  · simp only [WasmSession.rejectPending, hinflight, hguarded, hrunning, hs.inflight]
    grind
  · have hg := hguard j hj
    have hj' : s.queue.isRunning j = true := by
      rw [WasmSession.rejectPending, hrunning, Bool.and_eq_true] at hj
      exact hj.1
    simp only [WasmSession.rejectPending, hguarded, hsome, hg, true_and, Bool.or_eq_true,
      Bool.true_and, decide_eq_true_eq]
    rcases hs.running j nofun hj' with ⟨id, hid⟩ | ⟨-, h⟩
    · exact .inr (mem_map_of_mem hid)
    · exact .inl h
  · simp only [WasmSession.rejectPending, hfatal, hrunning] at h ⊢
    simp [hs.fatal h j]
  · exact hdisposed.trans (hs.terminated (hterminated.symm.trans h)).2

theorem Inv.fireFatal (hs : s.Inv) (hguard : ∀ j, s.queue.isRunning j = true → s.guarded j = true)
    (e : ε) : (s.fireFatal e).Inv ∧ (s.fireFatal e).queue.fatalErr.isSome = true := by
  by_cases hfatal : s.queue.fatalErr.isSome = true
  · rw [WasmSession.fireFatal, if_pos hfatal]
    exact ⟨hs, hfatal⟩
  · have hspec := foldl_settleGuard (r := .error (.fatal e)) s.inflight
      { s with queue := s.queue.fireFatal e }
    have heq := if_neg hfatal ▸ WasmSession.fireFatal.eq_1 s e
    rw [← heq] at hspec
    obtain ⟨hframe, -, hinflight, hrunning⟩ := hspec
    obtain ⟨hmoves, hdisposed, hfatalErr, hguarded, -, hterminated, -, hpending, -⟩ := hframe
    have hnone : ∀ j, (s.fireFatal e).queue.isRunning j = false := by
      intro j
      rw [hrunning]
      by_cases hj : s.queue.isRunning j = true
      · have hmem := (hs.inflight j).mpr ⟨hguard j hj, hj⟩
        simp [hmem]
      · have hj' : (s.queue.fireFatal e).isRunning j = false := Bool.eq_false_iff.mpr hj
        simp [hj']
    refine ⟨⟨?_, fun j => ?_, fun j _ hj => ?_, fun _ => hnone, fun h => ?_⟩, ?_⟩
    · exact (hs.ordered.moves (.fireFatal e)).of_moves hmoves
    · rw [hinflight, hnone]
      simp
    · rw [hnone] at hj
      cases hj
    · rw [hpending, hdisposed]
      exact hs.terminated (hterminated.symm.trans h)
    · rw [hfatalErr]
      simp [OpQueue.fireFatal]

theorem Inv.settleGuard (hs : s.Inv) (i : ℕ) (r : Except (SessionError ε) ρ) :
    (s.settleGuard i r).Inv := by
  obtain ⟨hmoves, hdisposed, hfatalErr, hguarded, -, hterminated, -, hpending, -⟩ :=
    frame_settleGuard s i r
  have hrunning : ∀ j, (s.settleGuard i r).queue.isRunning j =
      (s.queue.isRunning j && decide (j ≠ i)) := fun j => isRunning_settleCall
  refine ⟨hs.ordered.of_moves hmoves, fun j => ?_, fun j _ hj => ?_, fun h j => ?_, fun h => ?_⟩
  · rw [hguarded, hrunning]
    have := hs.inflight j
    simp only [WasmSession.settleGuard, mem_filter]
    grind
  · rw [hrunning, Bool.and_eq_true] at hj
    rw [hpending, hguarded]
    exact hs.running j nofun hj.1
  · rw [hrunning, hs.fatal (hfatalErr ▸ h) j, Bool.false_and]
  · rw [hpending, hdisposed]
    exact hs.terminated (hterminated.symm.trans h)

theorem InvBut.answer (hs : s.InvBut (some i)) (r : Except (SessionError ε) ρ) :
    (s.answer i r).Inv := by
  obtain ⟨hmoves, hdisposed, hfatalErr, hguarded, -, hterminated, -, hpending, -⟩ :=
    frame_answer s i r
  have hinflight : (s.answer i r).inflight = s.inflight := by
    rw [WasmSession.answer]
    split_ifs <;> rfl
  refine ⟨hs.ordered.of_moves hmoves, fun j => ?_, fun j _ hj => ?_, fun h j => ?_, fun h => ?_⟩
  · have := hs.inflight j
    rw [hinflight, hguarded, isRunning_answer]
    grind
  · rw [hpending, hguarded, answers_answer]
    rw [isRunning_answer] at hj
    have := fun hji : j ≠ i => hs.running j fun h => hji (some.inj h).symm
    grind
  · rw [isRunning_answer, hs.fatal (hfatalErr ▸ h) j, Bool.false_and]
  · rw [hpending, hdisposed]
    exact hs.terminated (hterminated.symm.trans h)

theorem InvBut.post (hs : s.InvBut (some i)) (hover : ¬ s.queue.Over) : (s.post i).Inv := by
  refine { hs with running := fun j _ hj => ?_, terminated := fun h => ?_ }
  · by_cases hji : j = i
    · exact .inl ⟨s.nextId, by simp [WasmSession.post, hji]⟩
    · exact (hs.running j (fun h => hji (some.inj h).symm) hj).imp_left fun ⟨id, hid⟩ =>
        ⟨id, mem_append_left _ hid⟩
  · exact absurd (.inl (hs.terminated h).2) hover

/-! ### What was said -/

/-- Call `i` was posted under `id`, and no reply to it has come since. -/
def Asked (log : List (WorkerMsg ρ ε)) (id i : ℕ) : Prop :=
  ∃ a b, log = a ++ .posted id i :: b ∧ ∀ r, .replied id r ∉ b

/-- The first reply under the id was `v`. -/
def FirstReply (log : List (WorkerMsg ρ ε)) (i : ℕ) (v : ρ) : Prop :=
  ∃ id a b c, log = a ++ .posted id i :: (b ++ .replied id (.ok v) :: c) ∧ ∀ r, .replied id r ∉ b

section Log

variable {log : List (WorkerMsg ρ ε)} {id : ℕ} {v : ρ}

theorem FirstReply.append (h : FirstReply log i v) (m : WorkerMsg ρ ε) :
    FirstReply (log ++ [m]) i v := by
  obtain ⟨id, a, b, c, rfl, hb⟩ := h
  exact ⟨id, a, b, c ++ [m], by simp, hb⟩

theorem Asked.append (h : Asked log id i) {m : WorkerMsg ρ ε} (hm : ∀ r, m ≠ .replied id r) :
    Asked (log ++ [m]) id i := by
  obtain ⟨a, b, rfl, hb⟩ := h
  refine ⟨a, b ++ [m], by simp, fun r hr => ?_⟩
  rcases mem_append.mp hr with hr | hr
  · exact hb r hr
  · exact hm r (mem_singleton.mp hr).symm

theorem Asked.reply (h : Asked log id i) (v : ρ) :
    FirstReply (log ++ [.replied id (.ok v)]) i v := by
  obtain ⟨a, b, rfl, hb⟩ := h
  exact ⟨id, a, b, [], by simp, hb⟩

end Log

def OkOutcome (s : WasmSession ρ ε α) (j : ℕ) (v : ρ) : Prop :=
  ∃ c, s.queue.calls[j]? = some c ∧ c.outcome = some (.ok v)

/-- Who waits under an id has posted it, and has no reply; ids are not used twice; and success is
the first reply to what was posted. -/
structure Told (s : WasmSession ρ ε α) : Prop where
  nodup : (s.pending.map Prod.fst).Nodup
  asked : ∀ id i, (id, i) ∈ s.pending → Asked s.log id i
  fresh : ∀ id i, .posted id i ∈ s.log → id < s.nextId
  own : ∀ id i i', .posted id i ∈ s.log → .posted id i' ∈ s.log → i = i'
  answers : ∀ i v, s.answers i = some (.ok v) → FirstReply s.log i v
  outcome : ∀ i v, s.OkOutcome i v → FirstReply s.log i v

theorem told_init : (init : WasmSession ρ ε α).Told := by
  constructor <;> simp [init, OkOutcome, OpQueue.init]

theorem Told.of_eq (hs : s.Told) (hlog : s'.log = s.log) (hnext : s'.nextId = s.nextId)
    (hpending : s'.pending.Sublist s.pending)
    (hanswers : ∀ i v, s'.answers i = some (.ok v) → FirstReply s.log i v)
    (houtcome : ∀ i v, s'.OkOutcome i v → FirstReply s.log i v) : s'.Told where
  nodup := hs.nodup.sublist (hpending.map _)
  asked id i h := hlog ▸ hs.asked id i (hpending.subset h)
  fresh id i h := hnext ▸ hs.fresh id i (hlog ▸ h)
  own id i i' h h' := hs.own id i i' (hlog ▸ h) (hlog ▸ h')
  answers i v h := hlog ▸ hanswers i v h
  outcome i v h := hlog ▸ houtcome i v h

theorem okOutcome_settleCall {v : ρ} (h : (s.settleCall i r).OkOutcome j v) :
    s.OkOutcome j v ∨ (j = i ∧ r = .ok v) := by
  obtain ⟨c, hc, hcv⟩ := h
  rw [settleCall] at hc
  cases hq : s.queue.finish i r with
  | none => exact .inl ⟨c, by simpa [hq] using hc, hcv⟩
  | some q =>
    rcases outcome_of_step (l := .finish i r) hq (by simpa [hq] using hc) hcv with h | h
    · exact .inl h
    · cases h
      exact .inr ⟨rfl, rfl⟩

theorem okOutcome_answer {v : ρ} (h : (s.answer i r).OkOutcome j v) :
    s.OkOutcome j v ∨ (j = i ∧ r = .ok v) := by
  rw [answer] at h
  split_ifs at h
  · exact .inl h
  · exact okOutcome_settleCall h

section

variable (hs : s.Told)
include hs

theorem Told.settleGuard (hr : ∀ v, r = .ok v → FirstReply s.log i v) :
    (s.settleGuard i r).Told := by
  obtain ⟨-, -, -, -, -, -, hnext, hpending, hlog, -⟩ := frame_settleGuard s i r
  refine hs.of_eq hlog hnext (hpending ▸ List.Sublist.refl _) hs.answers fun j v h => ?_
  rcases okOutcome_settleCall h with h | ⟨rfl, hv⟩
  · exact hs.outcome j v h
  · exact hr v hv

theorem Told.answer (hr : ∀ v, r = .ok v → FirstReply s.log i v) : (s.answer i r).Told := by
  obtain ⟨-, -, -, -, -, -, hnext, hpending, hlog, -⟩ := frame_answer s i r
  refine hs.of_eq hlog hnext (hpending ▸ List.Sublist.refl _) (fun j v h => ?_) fun j v h => ?_
  · rw [answers_answer] at h
    split_ifs at h with hj
    · rcases or_eq_some_iff.mp h with h | ⟨-, h⟩
      · exact hj.1 ▸ hs.answers i v h
      · exact hj.1 ▸ hr v (some.inj h)
    · exact hs.answers j v h
  · rcases okOutcome_answer h with h | ⟨rfl, hv⟩
    · exact hs.outcome j v h
    · exact hr v hv

theorem Told.rejectPending (e : SessionError ε) : (s.rejectPending e).Told := by
  have hfold : (s.pending.foldl (fun s p => s.answer p.2 (.error e)) s).Told :=
    foldlRecOn _ _ hs fun s hs p _ => hs.answer nofun
  exact hfold.of_eq rfl rfl (nil_sublist _) hfold.answers hfold.outcome

theorem Told.fireFatal (e : ε) : (s.fireFatal e).Told := by
  rw [WasmSession.fireFatal]
  split_ifs
  · exact hs
  · have hmark : Told { s with queue := s.queue.fireFatal e } := { hs with }
    exact foldlRecOn _ _ hmark fun s hs i _ => hs.settleGuard nofun

/-- What was said before a reply stays. -/
theorem Told.heard {pending : List (ℕ × ℕ)} {id : ℕ}
    (hsub : pending.Sublist s.pending) (hne : ∀ p ∈ pending, p.1 ≠ id) (x : Except ε ρ) :
    Told { s with pending := pending, log := s.log ++ [.replied id x] } := by
  have hposted : ∀ id' i, .posted id' i ∈ s.log ++ [.replied id x] → .posted id' i ∈ s.log := by
    intro id' i h
    simpa using h
  refine ⟨hs.nodup.sublist (hsub.map _), fun id' i h => ?_,
    fun id' i h => hs.fresh id' i (hposted id' i h),
    fun id' i i' h h' => hs.own id' i i' (hposted id' i h) (hposted id' i' h'),
    fun i v h => (hs.answers i v h).append _, fun i v h => (hs.outcome i v h).append _⟩
  refine (hs.asked id' i (hsub.subset h)).append fun r heq => hne _ h ?_
  cases heq
  rfl

theorem Told.of_queue {l : QueueAct ρ ε} (hq : queueStep s.queue l = some q)
    (hl : ∀ i r, l ≠ .finish i r) : Told { s with queue := q } :=
  hs.of_eq rfl rfl (List.Sublist.refl _) hs.answers fun j v ⟨_, hc, hcv⟩ =>
    hs.outcome j v ((outcome_of_step hq hc hcv).resolve_right (hl _ _))

theorem Told.post : (s.post i).Told := by
  have hpending : ∀ p ∈ s.pending, p.1 < s.nextId := by
    intro p hp
    obtain ⟨a, b, hlog, -⟩ := hs.asked p.1 p.2 hp
    exact hs.fresh p.1 p.2 (by simp [hlog])
  refine ⟨?_, fun id j h => ?_, fun id j h => ?_, fun id j j' h h' => ?_,
    fun j v h => (hs.answers j v h).append _, fun j v h => (hs.outcome j v h).append _⟩
  · rw [WasmSession.post, map_append]
    refine nodup_append.mpr ⟨hs.nodup, by simp, ?_⟩
    simp only [List.mem_map, map_cons, map_nil, mem_singleton]
    rintro _ ⟨p, hp, rfl⟩ _ rfl
    exact Nat.ne_of_lt (hpending p hp)
  · rcases mem_append.mp h with h | h
    · exact (hs.asked id j h).append nofun
    · obtain ⟨rfl, rfl⟩ := Prod.mk.inj (mem_singleton.mp h)
      exact ⟨s.log, [], rfl, nofun⟩
  · rcases mem_append.mp h with h | h
    · exact Nat.lt_succ_of_lt (hs.fresh id j h)
    · cases mem_singleton.mp h
      exact Nat.lt_succ_self _
  · rcases mem_append.mp h with h | h <;> rcases mem_append.mp h' with h' | h'
    · exact hs.own id j j' h h'
    · cases mem_singleton.mp h'
      exact absurd (hs.fresh _ _ h) (Nat.lt_irrefl _)
    · cases mem_singleton.mp h
      exact absurd (hs.fresh _ _ h') (Nat.lt_irrefl _)
    · cases mem_singleton.mp h
      cases mem_singleton.mp h'
      rfl

end

/-! ### Who waits -/

/-- A call waits under one id. While it waits it has begun and has no answer, and what has not begun
has none either. -/
structure Waits (s : WasmSession ρ ε α) : Prop where
  once : (s.pending.map Prod.snd).Nodup
  begun : ∀ p ∈ s.pending, s.queue.Begun p.2
  unanswered : ∀ p ∈ s.pending, s.answers p.2 = none
  fresh : ∀ i, ¬ s.queue.Begun i → s.answers i = none

theorem begun_of_moves (h : q.MovesTo q') (hi : q.Begun i) : q'.Begun i :=
  h.keeps (fun hstep hi => hstep.begun hi) hi

theorem waits_init : (init : WasmSession ρ ε α).Waits := by
  constructor <;> simp [init]

theorem Waits.of_eq (hs : s.Waits) (hmoves : s.queue.MovesTo s'.queue)
    (hpending : s'.pending.Sublist s.pending) (hanswers : s'.answers = s.answers) : s'.Waits where
  once := hs.once.sublist (hpending.map _)
  begun p hp := begun_of_moves hmoves (hs.begun p (hpending.subset hp))
  unanswered p hp := hanswers ▸ hs.unanswered p (hpending.subset hp)
  fresh i hi := hanswers ▸ hs.fresh i fun h => hi (begun_of_moves hmoves h)

theorem Waits.answer (hs : s.Waits) (hi : s.queue.Begun i) (hnot : i ∉ s.pending.map Prod.snd)
    (r : Except (SessionError ε) ρ) : (s.answer i r).Waits := by
  obtain ⟨hmoves, -, -, -, -, -, -, hpending, -⟩ := frame_answer s i r
  refine ⟨hpending ▸ hs.once, fun p hp => ?_, fun p hp => ?_, fun j hj => ?_⟩
  · exact begun_of_moves hmoves (hs.begun p (hpending ▸ hp))
  · rw [hpending] at hp
    have hne : p.2 ≠ i := fun h => hnot (h ▸ mem_map_of_mem hp)
    rw [answers_answer, if_neg fun h => hne h.1]
    exact hs.unanswered p hp
  · have hne : j ≠ i := fun h => hj (begun_of_moves hmoves (h ▸ hi))
    rw [answers_answer, if_neg fun h => hne h.1]
    exact hs.fresh j fun h => hj (begun_of_moves hmoves h)

theorem Waits.rejectPending (hs : s.Waits) (e : SessionError ε) : (s.rejectPending e).Waits := by
  obtain ⟨hframe, -, hsome, -⟩ := foldl_answer (r := .error e) s.pending s
  refine ⟨nodup_nil, nofun, nofun, fun i hi => ?_⟩
  have hbegun : ¬ s.queue.Begun i := fun h => hi (begun_of_moves hframe.moves h)
  have hnot : i ∉ s.pending.map Prod.snd := by
    intro hmem
    obtain ⟨p, hp, rfl⟩ := mem_map.mp hmem
    exact hbegun (hs.begun p hp)
  have hnone := hsome i
  rw [hs.fresh i hbegun, decide_eq_false hnot, Bool.and_false] at hnone
  exact isNone_iff_eq_none.mp (isSome_eq_false_iff.mp hnone)

theorem answers_fireFatal (s : WasmSession ρ ε α) (e : ε) :
    (s.fireFatal e).answers = s.answers ∧ (s.fireFatal e).pending = s.pending := by
  rw [fireFatal]
  split_ifs
  · exact ⟨rfl, rfl⟩
  · obtain ⟨hframe, hanswers, -⟩ := foldl_settleGuard (r := .error (.fatal e)) s.inflight
      { s with queue := s.queue.fireFatal e }
    exact ⟨hanswers, hframe.pending⟩

theorem Waits.fireFatal (hs : s.Waits) (e : ε) : (s.fireFatal e).Waits :=
  hs.of_eq (fireFatal_keeps s e).1 ((answers_fireFatal s e).2 ▸ List.Sublist.refl _)
    (answers_fireFatal s e).1

theorem Waits.settleGuard (hs : s.Waits) (i : ℕ) (r : Except (SessionError ε) ρ) :
    (s.settleGuard i r).Waits :=
  hs.of_eq (frame_settleGuard s i r).moves ((frame_settleGuard s i r).pending ▸ List.Sublist.refl _)
    rfl

theorem Waits.post (hs : s.Waits) (hi : s.queue.Begun i) (hnot : i ∉ s.pending.map Prod.snd)
    (hnone : s.answers i = none) : (s.post i).Waits := by
  refine ⟨?_, forall_mem_append.mpr ⟨hs.begun, forall_mem_singleton.mpr hi⟩,
    forall_mem_append.mpr ⟨hs.unanswered, forall_mem_singleton.mpr hnone⟩, hs.fresh⟩
  rw [WasmSession.post, map_append]
  refine nodup_append.mpr ⟨hs.once, by simp, ?_⟩
  rintro j hj _ hmem rfl
  obtain rfl : j = i := by simpa using hmem
  exact hnot hj

/-- Call `i` has the answer `r`: a call under the watchdog hands it on, another one returns it. -/
def Answered (s : WasmSession ρ ε α) (i : ℕ) (r : Except (SessionError ε) ρ) : Prop :=
  if s.guarded i then s.answers i = some r ∧ i ∈ s.inflight
  else s.queue.calls[i]? = some (.returned r)

theorem answered_answer (hrun : s.queue.isRunning i = true) (hnone : s.answers i = none)
    (hguard : s.guarded i = true → i ∈ s.inflight) (r : Except (SessionError ε) ρ) :
    (s.answer i r).Answered i r := by
  rw [Answered, (frame_answer s i r).guarded]
  split_ifs with hg
  · rw [answers_answer, if_pos ⟨rfl, hg⟩, hnone, none_or, answer, if_pos hg]
    exact ⟨rfl, hguard hg⟩
  · obtain ⟨q, hq, hi⟩ := s.queue.runs.settles i r (isRunning_iff.mp hrun)
    rw [answer, if_neg hg, settleCall, show s.queue.finish i r = some q from hq]
    exact hi

/-! ### Runs -/

/-- All that is known of a session along a run. -/
structure Good (s : WasmSession ρ ε α) : Prop where
  inv : s.Inv
  told : s.Told
  waits : s.Waits
  dead : s.workerError.isSome = true → s.queue.fatalErr.isSome = true

theorem good_init : (init : WasmSession ρ ε α).Good := ⟨inv_init, told_init, waits_init, nofun⟩

theorem Good.withOps (hs : s.Good) (ops : List (PublicOp ρ ε α)) : Good { s with ops := ops } :=
  ⟨{ hs.inv with }, { hs.told with }, { hs.waits with }, hs.dead⟩

theorem Good.of_queue {l : QueueAct ρ ε} (hs : s.Good) (hq : queueStep s.queue l = some q)
    (hl : ∀ i r, l ≠ .finish i r) (hrunning : ∀ j, q.isRunning j = s.queue.isRunning j)
    (hfatal : q.fatalErr = s.queue.fatalErr)
    (hdisposed : s.queue.disposed = true → q.disposed = true) : Good { s with queue := q } where
  inv :=
    { ordered := hs.inv.ordered.moves (moves_of_step hq)
      inflight := fun j => by simpa only [hrunning] using hs.inv.inflight j
      running := fun j _ hj => hs.inv.running j nofun (hrunning j ▸ hj)
      fatal := fun h j => (hrunning j).trans (hs.inv.fatal (hfatal ▸ h) j)
      terminated := fun h => ⟨(hs.inv.terminated h).1, hdisposed (hs.inv.terminated h).2⟩ }
  told := hs.told.of_queue hq hl
  waits := hs.waits.of_eq (.single (moves_of_step hq)) (List.Sublist.refl _) rfl
  dead h := hfatal ▸ hs.dead h

theorem Good.enqueue (hs : s.Good) (script : OpScript ρ ε α) : (s.enqueue script).Good := by
  cases script with
  | done r => exact hs
  | call g k =>
    obtain ⟨hinv, htold, hwaits, hdead⟩ :=
      hs.of_queue (l := .serialize) rfl nofun (fun j => isRunning_serialize) rfl id
    -- the new call does not run, so nothing depends on whether it is guarded
    have hguarded : ∀ j, s.queue.serialize.isRunning j = true →
        update s.guarded s.queue.calls.length g j = s.guarded j := by
      intro j hj
      rw [isRunning_serialize, isRunning_iff] at hj
      exact update_of_ne (Nat.ne_of_lt (List.getElem?_eq_some_iff.mp hj).1) _ _
    refine ⟨{ hinv with inflight := fun j => ?_, running := fun j _ hj => ?_ }, { htold with },
      { hwaits with }, hdead⟩
    · refine (hinv.inflight j).trans ⟨fun ⟨hg, hr⟩ => ⟨?_, hr⟩, fun ⟨hg, hr⟩ => ⟨?_, hr⟩⟩
      · exact (hguarded j hr).trans hg
      · exact (hguarded j hr).symm.trans hg
    · rw [WasmSession.enqueue]
      dsimp only
      rw [hguarded j hj]
      exact hinv.running j nofun hj

theorem Good.onReply (hs : s.Good) (id : ℕ) (x : Except ε ρ) : (s.onReply id x).Good := by
  rw [WasmSession.onReply]
  split
  · next p hp =>
    have hmem := mem_of_find?_eq_some hp
    have hid : p.1 = id := by simpa using List.find?_some hp
    have hinv : InvBut (some p.2) { s with
        pending := s.pending.filter (·.1 ≠ id)
        log := s.log ++ [.replied id x] } := by
      refine { hs.inv with running := fun j hne hj => ?_, terminated := fun h => ?_ }
      · -- the other calls still wait under their own ids
        refine (hs.inv.running j nofun hj).imp_left fun ⟨id', hid'⟩ =>
          ⟨id', mem_filter.mpr ⟨hid', ?_⟩⟩
        have hne' : id' ≠ id := by
          rintro rfl
          have heq := inj_on_of_nodup_map hs.told.nodup hid' hmem hid.symm
          exact hne (congrArg (some ·.2) heq.symm)
        simpa using hne'
      · simp [(hs.inv.terminated h).1] at hmem
    have hwaits : Waits { s with
        pending := s.pending.filter (·.1 ≠ id)
        log := s.log ++ [.replied id x] } :=
      hs.waits.of_eq .refl filter_sublist rfl
    refine ⟨hinv.answer _, (hs.told.heard filter_sublist (by simp) x).answer fun v hv => ?_,
      hwaits.answer (hs.waits.begun p hmem) (fun h => ?_) _, ?_⟩
    · obtain rfl : x = .ok v := by
        cases x with
        | ok w => simpa [Except.mapError] using hv
        | error e => cases hv
      exact (hs.told.asked id p.2 (hid ▸ hmem)).reply v
    · obtain ⟨p', hp', heq⟩ := List.mem_map.mp h
      obtain ⟨hmem', hne⟩ := mem_filter.mp hp'
      rw [inj_on_of_nodup_map hs.waits.once hmem' hmem heq] at hne
      simp [hid] at hne
    · rw [(frame_answer _ _ _).workerError, (frame_answer _ _ _).fatalErr]
      exact hs.dead
  · next hnone =>
    refine ⟨{ hs.inv with }, hs.told.heard (List.Sublist.refl _) (fun p hp heq => ?_) x,
      { hs.waits with }, hs.dead⟩
    simpa [heq] using List.find?_eq_none.mp hnone p hp

/-- Call `i` has begun, and nothing was done for it yet. -/
structure Ready (i : ℕ) (s : WasmSession ρ ε α) : Prop where
  inv : s.InvBut (some i)
  told : s.Told
  waits : s.Waits
  alive : ¬ s.queue.Over
  worker : s.workerError = none
  begun : s.queue.Begun i
  notPending : i ∉ s.pending.map Prod.snd
  unanswered : s.answers i = none

theorem Ready.call (hs : s.Ready i) (fail : Option ε) : (s.call i fail).Good := by
  have hd : s.queue.disposed = false := by
    by_contra h
    exact hs.alive (.inl (by simpa using h))
  have hf : s.queue.fatalErr = none := by
    by_contra h
    exact hs.alive (.inr (isSome_iff_ne_none.mpr h))
  cases fail with
  | some e =>
    have hcall : s.call i (some e) =
        { s with nextId := s.nextId + 1 }.answer i (.error (.failed e)) := by
      simp [WasmSession.call, hd, hf, hs.worker]
    have hinv : InvBut (some i) { s with nextId := s.nextId + 1 } := { hs.inv with }
    have hwaits : Waits { s with nextId := s.nextId + 1 } := { hs.waits with }
    have htold : Told { s with nextId := s.nextId + 1 } :=
      { hs.told with fresh := fun id j h => Nat.lt_succ_of_lt (hs.told.fresh id j h) }
    rw [hcall]
    refine ⟨hinv.answer _, htold.answer nofun, hwaits.answer hs.begun hs.notPending _, ?_⟩
    rw [(frame_answer _ _ _).workerError]
    simp [hs.worker]
  | none =>
    have hcall : s.call i none = s.post i := by simp [WasmSession.call, hd, hf, hs.worker]
    rw [hcall]
    refine ⟨hs.inv.post hs.alive, hs.told.post,
      hs.waits.post hs.begun hs.notPending hs.unanswered, ?_⟩
    simp [WasmSession.post, hs.worker]

theorem Good.turn (hs : s.Good) (h : s.turn i fail = some s') : s'.Good := by
  obtain ⟨q, hq, rfl⟩ := map_eq_some_iff.mp h
  obtain ⟨hdisposed, hfatalErr, hother, hself, hover⟩ := isRunning_turn hq
  split_ifs with hrun
  · have hmoves : s.queue.Moves q := moves_of_step (l := .turn i) hq
    have halive := hover hrun
    have halive' : ¬ q.Over := by rwa [Over, hdisposed, hfatalErr]
    have hworker : s.workerError = none := by
      by_contra h
      exact halive (.inr (hs.dead (isSome_iff_ne_none.mpr h)))
    -- the call had not begun before its turn
    have hbegun : ¬ s.queue.Begun i := fun ⟨c, hc, hne⟩ =>
      hne (some.inj (hc.symm.trans (turn_eq hq).1))
    have hnot : i ∉ s.pending.map Prod.snd := by
      intro hmem
      obtain ⟨p, hp, rfl⟩ := List.mem_map.mp hmem
      exact hbegun (hs.waits.begun p hp)
    have hinv : InvBut (some i) { s with
        queue := q, inflight := if s.guarded i then s.inflight ++ [i] else s.inflight } := by
      refine ⟨hs.inv.ordered.moves hmoves, fun j => ?_, fun j hj h => hs.inv.running j nofun ?_,
        fun h => absurd (.inr h) halive', fun h => absurd (.inl (hs.inv.terminated h).2) halive⟩
      · have := hs.inv.inflight j
        by_cases hj : j = i
        · subst hj
          grind
        · grind
      · exact hother j (fun hji => hj (congrArg some hji.symm)) ▸ h
    have hready : Ready i { s with
        queue := q, inflight := if s.guarded i then s.inflight ++ [i] else s.inflight } :=
      ⟨hinv, { hs.told.of_queue (l := .turn i) hq nofun with },
        hs.waits.of_eq (.single hmoves) (List.Sublist.refl _) rfl, halive', hworker,
        ⟨.running, isRunning_iff.mp hrun, nofun⟩, hnot, hs.waits.fresh i hbegun⟩
    rw [run_eq]
    exact hready.call fail
  · refine hs.of_queue (l := .turn i) hq nofun (fun j => ?_) hfatalErr fun h => hdisposed.trans h
    by_cases hj : j = i
    · rw [hj, hself]
      exact Bool.eq_false_iff.mpr hrun
    · exact hother j hj

theorem Good.onFatalEvent (hs : s.Good) (e : ε) : (s.onFatalEvent e).Good := by
  have hinv : Inv { s with workerError := some e } := { hs.inv with }
  have htold : Told { s with workerError := some e } := { hs.told with }
  have hwaits : Waits { s with workerError := some e } := { hs.waits with }
  obtain ⟨hreject, hguard⟩ := hinv.rejectPending (.fatal e)
  obtain ⟨hinv', hfatal⟩ := hreject.fireFatal hguard e
  exact ⟨hinv', (htold.rejectPending _).fireFatal e, (hwaits.rejectPending _).fireFatal e,
    fun _ => hfatal⟩

theorem Good.onTimeout (hs : s.Good) (hi : i ∈ s.inflight) (e : ε) : (s.onTimeout i e).Good := by
  obtain ⟨hg, hrun⟩ := (hs.inv.inflight i).mp hi
  have hguard : ∀ j, s.queue.isRunning j = true → s.guarded j = true := fun j hj =>
    hs.inv.ordered.running_unique hrun hj ▸ hg
  obtain ⟨hinv, hfatal⟩ := hs.inv.fireFatal hguard e
  refine ⟨hinv.settleGuard i _, (hs.told.fireFatal e).settleGuard nofun,
    (hs.waits.fireFatal e).settleGuard i _, fun _ => ?_⟩
  rw [WasmSession.onTimeout, (frame_settleGuard _ i _).fatalErr]
  exact hfatal

variable {l : WorkerAct ρ ε α}

theorem Good.step (hs : s.Good) (h : workerStep s l = some s') : s'.Good := by
  cases l with
  | start script =>
    cases h
    exact (hs.enqueue script).withOps _
  | close =>
    cases h
    exact hs.of_queue (l := .close) rfl nofun (fun _ => rfl) rfl fun _ => rfl
  | reply id r =>
    obtain ⟨-, ⟨⟩⟩ := ite_none_left_eq_some.mp h
    exact hs.onReply id r
  | fatalEvent e =>
    obtain ⟨-, ⟨⟩⟩ := ite_none_left_eq_some.mp h
    exact hs.onFatalEvent e
  | timeout i e =>
    obtain ⟨hi, ⟨⟩⟩ := ite_none_right_eq_some.mp h
    exact hs.onTimeout hi e
  | turn i fail => exact hs.turn h
  | react i =>
    obtain ⟨r, hr, -, rfl⟩ := react_eq h
    refine ⟨hs.inv.settleGuard i r, hs.told.settleGuard fun v hv => ?_, hs.waits.settleGuard i r,
      ?_⟩
    · exact hs.told.answers i v (hv ▸ hr)
    · rw [(frame_settleGuard s i r).workerError, (frame_settleGuard s i r).fatalErr]
      exact hs.dead
  | adopt i =>
    obtain ⟨q, hq, rfl⟩ := map_eq_some_iff.mp h
    obtain ⟨r, hi, rfl⟩ := adopt_eq hq
    exact hs.of_queue (l := .adopt i) hq nofun (fun _ => isRunning_put_of_ne hi nofun nofun) rfl id
  | release i =>
    obtain ⟨q, hq, rfl⟩ := map_eq_some_iff.mp h
    obtain ⟨r, hi, rfl⟩ := release_eq hq
    exact hs.of_queue (l := .release i) hq nofun
      (fun _ => isRunning_put_of_ne hi nofun nofun) rfl id
  | resume j =>
    obtain ⟨p, g, k, i, r, -, -, -, -, rfl⟩ := resume_eq h
    exact (hs.enqueue _).withOps _
  | dispose =>
    obtain ⟨⟨hd, -⟩, ⟨⟩⟩ := ite_none_right_eq_some.mp h
    obtain ⟨hmoves, hdisposed, hfatalErr, hworker, -⟩ := rejectPending_keeps s
      (s.workerError.elim .disposed .fatal)
    refine ⟨{ (hs.inv.rejectPending _).1 with terminated := fun _ => ⟨rfl, hdisposed.trans hd⟩ },
      { hs.told.rejectPending _ with }, { hs.waits.rejectPending _ with }, ?_⟩
    rw [dispose]
    dsimp only
    rw [hfatalErr, hworker]
    exact hs.dead

theorem good_of_reach (h : workerMachine.Reach (fun _ _ => True) init s) : s.Good :=
  h.invariant good_init fun _ _ _ hs _ hstep => hs.step hstep

theorem moves_enqueue (s : WasmSession ρ ε α) (script : OpScript ρ ε α) :
    s.queue.MovesTo (s.enqueue script).queue := by
  cases script with
  | done r => exact .refl
  | call g k => exact .single .call

/-- A step moves the queue, and changes the operations only at `start` and `resume`. Nothing is
posted once the session is disposed or dead. -/
theorem step_keeps (h : workerStep s l = some s') :
    s.queue.MovesTo s'.queue ∧
      (s'.ops = s.ops ∨ (∃ script, l = .start script) ∨ ∃ j, l = .resume j) ∧
      (s.queue.Over → ∀ id i, .posted id i ∈ s'.log → .posted id i ∈ s.log) := by
  have henqueue : ∀ script : OpScript ρ ε α, (s.enqueue script).log = s.log := by
    rintro (r | ⟨g, k⟩) <;> rfl
  cases l with
  | start script =>
    cases h
    exact ⟨moves_enqueue s script, .inr (.inl ⟨script, rfl⟩), fun _ _ _ hid =>
      henqueue script ▸ hid⟩
  | close =>
    cases h
    exact ⟨.single .dispose, .inl rfl, fun _ _ _ hid => hid⟩
  | reply id r =>
    obtain ⟨-, ⟨⟩⟩ := ite_none_left_eq_some.mp h
    rw [onReply]
    split
    · next p _ =>
      have hframe := frame_answer
        { s with pending := s.pending.filter (·.1 ≠ id), log := s.log ++ [.replied id r] } p.2
        (r.mapError .failed)
      refine ⟨hframe.moves, .inl hframe.ops, fun _ id' i hid => ?_⟩
      rw [hframe.log] at hid
      simpa using hid
    · exact ⟨.refl, .inl rfl, fun _ id' i hid => by simpa using hid⟩
  | fatalEvent e =>
    obtain ⟨-, ⟨⟩⟩ := ite_none_left_eq_some.mp h
    obtain ⟨hreject, -, -, -, hlog, hops⟩ :=
      rejectPending_keeps { s with workerError := some e } (.fatal e)
    obtain ⟨hfatal, -, hlog', hops'⟩ :=
      fireFatal_keeps (rejectPending { s with workerError := some e } (.fatal e)) e
    exact ⟨hreject.trans hfatal, .inl (hops'.trans hops), fun _ _ _ hid => hlog'.trans hlog ▸ hid⟩
  | timeout i e =>
    obtain ⟨-, ⟨⟩⟩ := ite_none_right_eq_some.mp h
    obtain ⟨hfatal, -, hlog, hops⟩ := fireFatal_keeps s e
    have hframe := frame_settleGuard (s.fireFatal e) i (.error (.fatal e))
    exact ⟨hfatal.trans hframe.moves, .inl (hframe.ops.trans hops),
      fun _ _ _ hid => hframe.log.trans hlog ▸ hid⟩
  | turn i fail =>
    obtain ⟨hmoves, hops⟩ := turn_keeps h
    refine ⟨hmoves, .inl hops, fun hover id j hid => ?_⟩
    obtain ⟨q, hq, rfl⟩ := map_eq_some_iff.mp h
    rw [if_neg fun hrun => (isRunning_turn hq).2.2.2.2 hrun hover] at hid
    exact hid
  | react i =>
    obtain ⟨r, -, -, rfl⟩ := react_eq h
    have hframe := frame_settleGuard s i r
    exact ⟨hframe.moves, .inl hframe.ops, fun _ _ _ hid => hframe.log ▸ hid⟩
  | adopt i =>
    obtain ⟨q, hq, rfl⟩ := map_eq_some_iff.mp h
    exact ⟨.single (moves_of_step (l := .adopt i) hq), .inl rfl, fun _ _ _ hid => hid⟩
  | release i =>
    obtain ⟨q, hq, rfl⟩ := map_eq_some_iff.mp h
    exact ⟨.single (moves_of_step (l := .release i) hq), .inl rfl, fun _ _ _ hid => hid⟩
  | resume j =>
    obtain ⟨p, g, k, i, r, -, -, -, -, rfl⟩ := resume_eq h
    exact ⟨moves_enqueue s _, .inr (.inr ⟨j, rfl⟩), fun _ _ _ hid => henqueue (k r) ▸ hid⟩
  | dispose =>
    obtain ⟨-, ⟨⟩⟩ := ite_none_right_eq_some.mp h
    obtain ⟨hmoves, -, -, -, hlog, hops⟩ :=
      rejectPending_keeps s (s.workerError.elim .disposed .fatal)
    exact ⟨hmoves, .inl hops, fun _ _ _ hid => hlog ▸ hid⟩

/-! ### Operations -/

/-- A reply to a pending id is the answer of the call that waits under it. -/
theorem Good.reply (hs : s.Good) {id : ℕ} (hid : (id, i) ∈ s.pending) (r : Except ε ρ) :
    ∃ s', workerStep s (.reply id r) = some s' ∧ id ∉ s'.pending.map Prod.fst ∧
      (s.queue.isRunning i = true → s'.Answered i (r.mapError .failed)) := by
  have halive : s.terminated = false := by
    refine Bool.eq_false_iff.mpr fun h => ?_
    rw [(hs.inv.terminated h).1] at hid
    exact absurd hid not_mem_nil
  have hfind : s.pending.find? (·.1 = id) = some (id, i) := by
    have hsome : (s.pending.find? (·.1 = id)).isSome = true :=
      List.find?_isSome.mpr ⟨(id, i), hid, decide_eq_true rfl⟩
    obtain ⟨p, hp⟩ := isSome_iff_exists.mp hsome
    have heq : p.1 = id := by simpa using List.find?_some hp
    rw [hp, inj_on_of_nodup_map hs.told.nodup (mem_of_find?_eq_some hp) hid heq]
  have hreply : s.onReply id r = answer
      { s with
        pending := s.pending.filter (·.1 ≠ id)
        log := s.log ++ [.replied id r] } i (r.mapError .failed) := by
    rw [WasmSession.onReply, hfind]
  refine ⟨s.onReply id r, by simp [workerStep, halive], ?_, fun hrun => ?_⟩
  · rw [hreply, (frame_answer _ _ _).pending]
    simp
  · rw [hreply]
    apply answered_answer
    · exact hrun
    · exact hs.waits.unanswered _ hid
    · exact fun hg => (hs.inv.inflight i).mpr ⟨hg, hrun⟩

/-- The job of a guarded call hands on the answer. -/
theorem Good.react (hs : s.Good) (h : workerStep s (.react i) = some s')
    (hr : s.answers i = some r) : s'.queue.calls[i]? = some (.returned r) := by
  obtain ⟨r', hr', hi, rfl⟩ := react_eq h
  obtain rfl := some.inj (hr.symm.trans hr')
  obtain ⟨q, hq, hq'⟩ :=
    s.queue.runs.settles i r (isRunning_iff.mp ((hs.inv.inflight i).mp hi).2)
  simpa [settleGuard, settleCall, show s.queue.finish i r = some q from hq] using hq'

/-- The operation is where its results have brought it. -/
def Follows (q : OpQueue ρ ε) (p : PublicOp ρ ε α) : Prop :=
  match p.now with
  | .done r => ∃ rs, Forall₂ (fun i x => q.result i = some x) p.calls rs ∧
      p.script.feed rs = .done r
  | .call g k => ∃ cs i rs, p.calls = cs ++ [i] ∧
      Forall₂ (fun i x => q.result i = some x) cs rs ∧ p.script.feed rs = .call g k

/-- The operations and their calls. -/
structure OpsInv (s : WasmSession ρ ε α) : Prop where
  follows : ∀ p ∈ s.ops, Follows s.queue p
  lt_length : ∀ p ∈ s.ops, ∀ i ∈ p.calls, i < s.queue.calls.length
  own : ∀ (j j' : ℕ) (p p' : PublicOp ρ ε α) (i : ℕ), s.ops[j]? = some p → s.ops[j']? = some p' →
    i ∈ p.calls → i ∈ p'.calls → j = j'

theorem result_of_moves (h : q.MovesTo q') (hr : q.result i = some r) : q'.result i = some r :=
  h.keeps (fun hstep hr => hstep.result hr) hr

theorem length_of_moves (h : q.MovesTo q') : q.calls.length ≤ q'.calls.length :=
  h.keeps (fun hstep hle => Nat.le_trans hle hstep.length_le) (Nat.le_refl _)

theorem Follows.of_moves (hp : Follows q p) (h : q.MovesTo q') : Follows q' p := by
  have hall : ∀ {cs : List ℕ} {rs : List (Except (SessionError ε) ρ)},
      Forall₂ (fun i x => q.result i = some x) cs rs →
        Forall₂ (fun i x => q'.result i = some x) cs rs := fun hrs =>
    hrs.imp fun _ _ => result_of_moves h
  rw [Follows] at hp ⊢
  split at hp
  · obtain ⟨rs, hrs, hfeed⟩ := hp
    exact ⟨rs, hall hrs, hfeed⟩
  · obtain ⟨cs, i, rs, hcalls, hrs, hfeed⟩ := hp
    exact ⟨cs, i, rs, hcalls, hall hrs, hfeed⟩

theorem OpsInv.of_moves (hs : s.OpsInv) (h : s.queue.MovesTo s'.queue)
    (hops : s'.ops = s.ops) : s'.OpsInv where
  follows p hp := (hs.follows p (hops ▸ hp)).of_moves h
  lt_length p hp i hi := Nat.lt_of_lt_of_le (hs.lt_length p (hops ▸ hp) i hi) (length_of_moves h)
  own := hops ▸ hs.own

theorem mem_calls_goOn {n : ℕ} {script : OpScript ρ ε α}
    (hi : i ∈ (p.goOn n script).calls) : i ∈ p.calls ∨ (i = n ∧ ∃ g k, script = .call g k) := by
  cases script with
  | done r => exact .inl hi
  | call g k =>
    rcases mem_append.mp hi with hi | hi
    · exact .inl hi
    · exact .inr ⟨mem_singleton.mp hi, g, k, rfl⟩

theorem lt_length_enqueue {g : Bool} {k : Except (SessionError ε) ρ → OpScript ρ ε α} :
    s.queue.calls.length < (s.enqueue (.call g k)).queue.calls.length := by
  simp [enqueue, serialize]

theorem OpsInv.put (hs : s.OpsInv) {script : OpScript ρ ε α}
    {ops : List (PublicOp ρ ε α)} (hj : ops[j]? = some (p.goOn s.queue.calls.length script))
    (hother : ∀ k : ℕ, k ≠ j → ops[k]? = s.ops[k]?) (hp : ∀ i ∈ p.calls, s.ops[j]? = some p)
    (hfollows : Follows (s.enqueue script).queue (p.goOn s.queue.calls.length script)) :
    OpsInv { s.enqueue script with ops := ops } := by
  have hmoves := moves_enqueue s script
  have hlt : ∀ i ∈ (p.goOn s.queue.calls.length script).calls,
      i < (s.enqueue script).queue.calls.length := by
    intro i hi
    rcases mem_calls_goOn hi with hi | ⟨rfl, g, k, rfl⟩
    · have hmem := mem_of_getElem? (hp i hi)
      exact Nat.lt_of_lt_of_le (hs.lt_length p hmem i hi) (length_of_moves hmoves)
    · exact lt_length_enqueue
  -- a call of this operation is no other operation's
  have hown : ∀ (k : ℕ) (p' : PublicOp ρ ε α) (i : ℕ), k ≠ j → s.ops[k]? = some p' →
      i ∈ (p.goOn s.queue.calls.length script).calls → i ∉ p'.calls := by
    intro k p' i hk hp' hi hi'
    rcases mem_calls_goOn hi with hi | ⟨rfl, -⟩
    · exact hk (hs.own k j p' p i hp' (hp i hi) hi' hi)
    · exact absurd (hs.lt_length p' (mem_of_getElem? hp') _ hi') (Nat.lt_irrefl _)
  have hcases : ∀ {k : ℕ} {p' : PublicOp ρ ε α}, ops[k]? = some p' →
      k = j ∧ p' = p.goOn s.queue.calls.length script ∨ k ≠ j ∧ s.ops[k]? = some p' := by
    intro k p' hk
    by_cases hkj : k = j
    · subst hkj
      exact .inl ⟨rfl, some.inj (hk.symm.trans hj)⟩
    · exact .inr ⟨hkj, hother k hkj ▸ hk⟩
  refine ⟨fun p' hp' => ?_, fun p' hp' => ?_, fun k k' p₁ p₂ i h₁ h₂ hi₁ hi₂ => ?_⟩
  · obtain ⟨k, hk⟩ := mem_iff_getElem?.mp hp'
    rcases hcases hk with ⟨-, rfl⟩ | ⟨-, hk⟩
    · exact hfollows
    · exact (hs.follows p' (mem_of_getElem? hk)).of_moves hmoves
  · obtain ⟨k, hk⟩ := mem_iff_getElem?.mp hp'
    rcases hcases hk with ⟨-, rfl⟩ | ⟨-, hk⟩
    · exact hlt
    · exact fun i hi => Nat.lt_of_lt_of_le (hs.lt_length p' (mem_of_getElem? hk) i hi)
        (length_of_moves hmoves)
  · rcases hcases h₁ with ⟨hk, rfl⟩ | ⟨hk, h₁⟩ <;> rcases hcases h₂ with ⟨hk', rfl⟩ | ⟨hk', h₂⟩
    · exact hk.trans hk'.symm
    · exact absurd hi₂ (hown k' p₂ i hk' h₂ hi₁)
    · exact absurd hi₁ (hown k p₁ i hk h₁ hi₂)
    · exact hs.own k k' p₁ p₂ i h₁ h₂ hi₁ hi₂

theorem OpsInv.start (hs : s.OpsInv) (script : OpScript ρ ε α) : (s.start script).OpsInv := by
  refine hs.put (j := s.ops.length) (p := ⟨script, [], script⟩) (by simp) (fun k hk => ?_) nofun ?_
  · by_cases hlt : k < s.ops.length
    · exact List.getElem?_append_left hlt
    · rw [List.getElem?_eq_none (by simp; omega), List.getElem?_eq_none (by omega)]
  · cases script with
    | done r => exact ⟨[], .nil, rfl⟩
    | call g k => exact ⟨[], s.queue.calls.length, [], rfl, .nil, rfl⟩

theorem OpsInv.resume (hs : s.OpsInv) (h : s.resume j = some s') : s'.OpsInv := by
  obtain ⟨p, g, k, i, r, hp, hnow, hi, hir, rfl⟩ := resume_eq h
  have hlen := (List.getElem?_eq_some_iff.mp hp).1
  have hfollows := hs.follows p (mem_of_getElem? hp)
  rw [Follows, hnow] at hfollows
  obtain ⟨cs, i', rs, hcalls, hrs, hfeed⟩ := hfollows
  obtain rfl : i' = i := by simpa [hcalls] using hi
  refine hs.put (j := j) (p := p) ?_ (fun k hk => ?_) (fun _ _ => hp) ?_
  · exact List.getElem?_set_self hlen
  · exact List.getElem?_set_ne (Ne.symm hk)
  · -- the answer is the last one of those that the script has got
    have hall : Forall₂ (fun i x => s.queue.result i = some x) p.calls (rs ++ [r]) := by
      rw [hcalls]
      exact rel_append hrs (.cons hir .nil)
    have hall' := hall.imp fun i x => result_of_moves (i := i) (r := x) (moves_enqueue s (k r))
    have hfeed' := Script.feed_append_singleton hfeed r
    generalize k r = script at hall' hfeed'
    cases script with
    | done x => exact ⟨rs ++ [r], hall', hfeed'⟩
    | call g' k' => exact ⟨p.calls, s.queue.calls.length, rs ++ [r], rfl, hall', hfeed'⟩

theorem OpsInv.step (hs : s.OpsInv) (h : workerStep s l = some s') : s'.OpsInv := by
  obtain ⟨hmoves, hops | ⟨script, rfl⟩ | ⟨j, rfl⟩, -⟩ := step_keeps h
  · exact hs.of_moves hmoves hops
  · cases h
    exact hs.start script
  · exact hs.resume h

def Quiet (s : WasmSession ρ ε α) : Prop := ∀ l, l.isJob = true → workerStep s l = none

theorem Quiet.queue (hs : s.Quiet) : s.queue.Quiet := by
  intro l hl
  cases l with
  | turn i => exact map_eq_none_iff.mp (hs (.turn i none) rfl)
  | adopt i => exact map_eq_none_iff.mp (hs (.adopt i) rfl)
  | release i => exact map_eq_none_iff.mp (hs (.release i) rfl)
  | _ => cases hl

theorem Quiet.terminated (hs : s.Quiet) (hd : s.queue.disposed = true) : s.terminated = true := by
  by_contra hne
  have := hs .dispose rfl
  simp [workerStep, hd, hne] at this

variable (s)

variable {s}

end WasmSession

open WasmSession

end Anyfs
