import Mathlib.Tactic.Common

/-!
# Readable streams

A stream in the sense of the Streams standard, with its default controller and a high water mark of
one chunk. The source is asked for more (`callsPull`) when the consumer waits for a chunk or none is
queued, and not while it is still busy with the last request: then `pullAgain` notes that it is to
be asked again.
-/

/-- The state of a stream. -/
inductive StreamState (ε : Type*) where
  | readable
  | closed
  | errored (e : ε)
  deriving DecidableEq

/-- What a read gives. -/
inductive ReadResult (α ε : Type*) where
  | chunk (a : α)
  | done
  | failed (e : ε)
  deriving DecidableEq

/-- A stream and its controller: `requests` are the reads that are left, `answers` were given. -/
structure ReadableStream (α ε : Type*) where
  state : StreamState ε
  closeRequested : Bool
  queue : List α
  started : Bool
  pulling : Bool
  pullAgain : Bool
  requests : ℕ
  answers : List (ReadResult α ε)

namespace ReadableStream

open List

variable {α ε : Type*}

def new : ReadableStream α ε := ⟨.readable, false, [], false, false, false, 0, []⟩

variable (s : ReadableStream α ε)

/-- `ReadableStreamDefaultControllerCanCloseOrEnqueue`. -/
def canCloseOrEnqueue : Bool :=
  match s.state with
  | .readable => !s.closeRequested
  | _ => false

/-- `ReadableStreamDefaultControllerShouldCallPull`. -/
def shouldCallPull : Bool :=
  s.canCloseOrEnqueue && s.started && (decide (0 < s.requests) || s.queue.isEmpty)

/-- `ReadableStreamDefaultControllerCallPullIfNeeded` asks the source. -/
def callsPull : Bool := s.shouldCallPull && !s.pulling

/-- The stream after `ReadableStreamDefaultControllerCallPullIfNeeded`. -/
def notePull : ReadableStream α ε :=
  if s.shouldCallPull then
    if s.pulling then { s with pullAgain := true } else { s with pulling := true }
  else s

def answerAll (r : ReadResult α ε) : ReadableStream α ε :=
  { s with answers := s.answers ++ List.replicate s.requests r, requests := 0 }

/-- `ReadableStreamClose`. -/
def shut : ReadableStream α ε :=
  { s.answerAll .done with state := .closed }

/-- `enqueue` of the controller, without the request for more; it throws without a value. -/
def enqueue (a : α) : Option (ReadableStream α ε) :=
  if s.canCloseOrEnqueue then
    if 0 < s.requests then
      some { s with requests := s.requests - 1, answers := s.answers ++ [.chunk a] }
    else some { s with queue := s.queue ++ [a] }
  else none

/-- `close` of the controller; it throws without a value. -/
def close : Option (ReadableStream α ε) :=
  if s.canCloseOrEnqueue then
    let s := { s with closeRequested := true }
    some (if s.queue.isEmpty then s.shut else s)
  else none

/-- `error` of the controller. -/
def error (e : ε) : ReadableStream α ε :=
  match s.state with
  | .readable => { s.answerAll (.failed e) with state := .errored e, queue := [] }
  | _ => s

/-- `read` of the reader, without the request for more. -/
def read : ReadableStream α ε :=
  match s.state with
  | .closed => { s with answers := s.answers ++ [.done] }
  | .errored e => { s with answers := s.answers ++ [.failed e] }
  | .readable =>
    match s.queue with
    | [] => { s with requests := s.requests + 1 }
    | a :: queue =>
      let s := { s with queue := queue, answers := s.answers ++ [.chunk a] }
      if s.closeRequested && queue.isEmpty then s.shut else s

/-- `cancel` of a stream that can be read; the source is told. -/
def cancel : Option (ReadableStream α ε) :=
  match s.state with
  | .readable => some { s.shut with queue := [] }
  | _ => none

def release (e : ε) : ReadableStream α ε := s.answerAll (.failed e)

def start : ReadableStream α ε := { s with started := true }

def pulled : ReadableStream α ε :=
  { s with pulling := false, pullAgain := false }

variable {s s' : ReadableStream α ε} {a : α}

/-! ### Asking the source -/

theorem canCloseOrEnqueue_iff :
    s.canCloseOrEnqueue = true ↔ s.state = .readable ∧ s.closeRequested = false := by
  rw [canCloseOrEnqueue]
  cases hstate : s.state <;> simp

theorem canCloseOrEnqueue_of_shouldCallPull (h : s.shouldCallPull = true) :
    s.canCloseOrEnqueue = true := by
  simp only [shouldCallPull, Bool.and_eq_true] at h
  exact h.1.1

theorem shouldCallPull_eq_false (h : s.canCloseOrEnqueue = false) : s.shouldCallPull = false := by
  simp [shouldCallPull, h]

@[simp]
theorem state_notePull : s.notePull.state = s.state := by
  rw [notePull]
  split_ifs <;> rfl

@[simp]
theorem closeRequested_notePull : s.notePull.closeRequested = s.closeRequested := by
  rw [notePull]
  split_ifs <;> rfl

@[simp]
theorem queue_notePull : s.notePull.queue = s.queue := by
  rw [notePull]
  split_ifs <;> rfl

@[simp]
theorem started_notePull : s.notePull.started = s.started := by
  rw [notePull]
  split_ifs <;> rfl

@[simp]
theorem requests_notePull : s.notePull.requests = s.requests := by
  rw [notePull]
  split_ifs <;> rfl

@[simp]
theorem answers_notePull : s.notePull.answers = s.answers := by
  rw [notePull]
  split_ifs <;> rfl

@[simp]
theorem canCloseOrEnqueue_notePull : s.notePull.canCloseOrEnqueue = s.canCloseOrEnqueue := by
  simp [canCloseOrEnqueue]

@[simp]
theorem shouldCallPull_notePull : s.notePull.shouldCallPull = s.shouldCallPull := by
  simp [shouldCallPull]

theorem pullAgain_notePull (hpulling : s.pulling = true) (h : s.shouldCallPull = true) :
    s.notePull.pullAgain = true := by
  rw [notePull, if_pos h, if_pos hpulling]

theorem pulling_notePull (h : s.callsPull = false) : s.notePull.pulling = s.pulling := by
  rw [callsPull] at h
  rw [notePull]
  cases hpulling : s.pulling
  · rw [hpulling, Bool.not_false, Bool.and_true] at h
    rw [h]
    exact hpulling
  · split_ifs <;> first | rfl | exact hpulling

theorem notePull_of_callsPull (h : s.callsPull = true) :
    s.notePull = { s with pulling := true } := by
  simp only [callsPull, Bool.and_eq_true, Bool.not_eq_true'] at h
  rw [notePull, if_pos h.1, h.2]
  rfl

/-! ### What the operations do -/

theorem enqueue_eq_some (h : s.enqueue a = some s') :
    s.canCloseOrEnqueue = true ∧ s'.canCloseOrEnqueue = true ∧ s'.pulling = s.pulling ∧
      s'.started = s.started := by
  rw [enqueue] at h
  split_ifs at h with hcan hreq
  all_goals
    cases h
    exact ⟨hcan, hcan, rfl, rfl⟩

theorem enqueue_eq_none : s.enqueue a = none ↔ s.canCloseOrEnqueue = false := by
  rw [enqueue]
  split_ifs with hcan hreq <;> simp [hcan]

theorem close_eq_some (h : s.close = some s') :
    s.canCloseOrEnqueue = true ∧ s'.canCloseOrEnqueue = false ∧ s'.pulling = s.pulling ∧
      s'.started = s.started := by
  rw [close] at h
  split_ifs at h with hcan
  cases h
  refine ⟨hcan, ?_, ?_, ?_⟩
  · dsimp only
    split_ifs
    · rfl
    · simp [canCloseOrEnqueue, (canCloseOrEnqueue_iff.mp hcan).1]
  · dsimp only
    split_ifs <;> rfl
  · dsimp only
    split_ifs <;> rfl

theorem close_eq_none : s.close = none ↔ s.canCloseOrEnqueue = false := by
  rw [close]
  split_ifs with hcan <;> simp [hcan]

theorem error_spec (s : ReadableStream α ε) (e : ε) :
    (s.error e).canCloseOrEnqueue = false ∧ (s.error e).pulling = s.pulling ∧
      (s.error e).started = s.started := by
  rw [error]
  split
  · exact ⟨rfl, rfl, rfl⟩
  · rename_i hstate
    refine ⟨?_, rfl, rfl⟩
    rw [← Bool.not_eq_true, canCloseOrEnqueue_iff]
    exact fun h => hstate h.1

theorem cancel_eq_some (h : s.cancel = some s') :
    s'.canCloseOrEnqueue = false ∧ s'.pulling = s.pulling := by
  rw [cancel] at h
  split at h
  · cases h
    exact ⟨rfl, rfl⟩
  · cases h

theorem cancel_eq_none (h : s.cancel = none) : s.canCloseOrEnqueue = false := by
  rw [cancel] at h
  split at h
  · cases h
  · rename_i hstate
    rw [← Bool.not_eq_true, canCloseOrEnqueue_iff]
    exact fun h => hstate h.1

@[simp]
theorem canCloseOrEnqueue_read : s.read.canCloseOrEnqueue = s.canCloseOrEnqueue := by
  cases hstate : s.state with
  | closed => simp [read, canCloseOrEnqueue, hstate]
  | errored e => simp [read, canCloseOrEnqueue, hstate]
  | readable =>
    cases hqueue : s.queue with
    | nil => simp [read, canCloseOrEnqueue, hstate, hqueue]
    | cons a queue =>
      cases hclose : s.closeRequested <;> cases queue <;>
        simp [read, canCloseOrEnqueue, hstate, hqueue, hclose, shut]

@[simp]
theorem pulling_read : s.read.pulling = s.pulling := by
  rw [read]
  split
  · rfl
  · rfl
  · split
    · rfl
    · dsimp only
      split_ifs <;> rfl

theorem shouldCallPull_of_release {e : ε} (h : (s.release e).shouldCallPull = true) :
    s.shouldCallPull = true := by
  simp only [shouldCallPull, release, answerAll, canCloseOrEnqueue, Bool.and_eq_true,
    Bool.or_eq_true] at h ⊢
  refine ⟨h.1, .inr ?_⟩
  simpa using h.2

/-! ### Sound streams -/

/-- Nothing is queued for a consumer that waits, and a stream that is to be closed is closed when
its queue is empty. -/
structure Sound (s : ReadableStream α ε) : Prop where
  waiting : 0 < s.requests → s.state = .readable ∧ s.queue = []
  closing : s.closeRequested = true → s.state = .readable → s.queue ≠ []

namespace Sound

theorem new : (ReadableStream.new : ReadableStream α ε).Sound :=
  ⟨fun h => absurd h (Nat.lt_irrefl 0), fun h => nomatch h⟩

theorem shouldCallPull (h : s.Sound) (hstarted : s.started = true) (hstate : s.state = .readable)
    (hqueue : s.queue = []) : s.shouldCallPull = true := by
  have hclose : s.closeRequested = false := by
    by_contra hne
    exact h.closing (Bool.not_eq_false _ |>.mp hne) hstate hqueue
  simp [ReadableStream.shouldCallPull, canCloseOrEnqueue, hstate, hclose, hstarted, hqueue]

theorem notePull (h : s.Sound) : s.notePull.Sound :=
  ⟨by simpa using h.waiting, by simpa using h.closing⟩

theorem start (h : s.Sound) : s.start.Sound := ⟨h.waiting, h.closing⟩

theorem pulled (h : s.Sound) : s.pulled.Sound := ⟨h.waiting, h.closing⟩

theorem release (h : s.Sound) (e : ε) : (s.release e).Sound :=
  ⟨fun hreq => absurd hreq (Nat.lt_irrefl 0), h.closing⟩

theorem enqueue (h : s.Sound) (hs : s.enqueue a = some s') : s'.Sound := by
  rw [ReadableStream.enqueue] at hs
  split_ifs at hs with hcan hreq
  · cases hs
    exact ⟨fun _ => h.waiting hreq, h.closing⟩
  · cases hs
    exact ⟨fun hreq' => absurd hreq' hreq, fun _ _ => by simp⟩

theorem close (h : s.Sound) (hs : s.close = some s') : s'.Sound := by
  rw [ReadableStream.close] at hs
  split_ifs at hs with hcan
  cases hs
  dsimp only
  split_ifs with hempty
  · exact ⟨fun hreq => absurd hreq (Nat.lt_irrefl 0), fun _ hstate => nomatch hstate⟩
  · exact ⟨h.waiting, fun _ _ hnil => hempty (isEmpty_iff.mpr hnil)⟩

theorem error (h : s.Sound) (e : ε) : (s.error e).Sound := by
  rw [ReadableStream.error]
  split
  · exact ⟨fun hreq => absurd hreq (Nat.lt_irrefl 0), fun _ hstate => nomatch hstate⟩
  · exact h

theorem cancel (hs : s.cancel = some s') : s'.Sound := by
  rw [ReadableStream.cancel] at hs
  split at hs
  · cases hs
    exact ⟨fun hreq => absurd hreq (Nat.lt_irrefl 0), fun _ hstate => nomatch hstate⟩
  · cases hs

theorem read (h : s.Sound) : s.read.Sound := by
  rw [ReadableStream.read]
  split
  · exact ⟨h.waiting, h.closing⟩
  · exact ⟨h.waiting, h.closing⟩
  · rename_i hstate
    split
    · rename_i hqueue
      exact ⟨fun _ => ⟨hstate, hqueue⟩, h.closing⟩
    · rename_i a queue hqueue
      have hreq : ¬ 0 < s.requests := fun hreq => by
        rw [(h.waiting hreq).2] at hqueue
        cases hqueue
      dsimp only
      split_ifs with hlast
      · exact ⟨fun hreq => absurd hreq (Nat.lt_irrefl 0), fun _ hstate => nomatch hstate⟩
      · refine ⟨fun hreq' => absurd hreq' hreq, fun hclose _ hnil => hlast ?_⟩
        rw [Bool.and_eq_true]
        exact ⟨hclose, isEmpty_iff.mpr hnil⟩

end Sound

/-! ### What the consumer gets -/

def received (answers : List (ReadResult α ε)) : List α :=
  answers.filterMap fun
    | .chunk a => some a
    | _ => none

def chunks (s : ReadableStream α ε) : List α := received s.answers ++ s.queue

theorem received_append (xs ys : List (ReadResult α ε)) :
    received (xs ++ ys) = received xs ++ received ys := filterMap_append

theorem received_replicate_done (n : ℕ) :
    received (List.replicate n (ReadResult.done : ReadResult α ε)) = [] := by
  rw [received, filterMap_replicate_of_none rfl]

theorem length_received {answers : List (ReadResult α ε)} (hdone : .done ∉ answers)
    (hfailed : ∀ e, .failed e ∉ answers) : (received answers).length = answers.length := by
  induction answers with
  | nil => rfl
  | cons r answers ih =>
    have ih := ih (fun h => hdone (mem_cons_of_mem _ h)) fun e h => hfailed e (mem_cons_of_mem _ h)
    cases r with
    | chunk a => rw [length_cons, ← ih]; rfl
    | done => exact absurd mem_cons_self hdone
    | failed e => exact absurd mem_cons_self (hfailed e)

theorem chunks_notePull : s.notePull.chunks = s.chunks := by simp [chunks]

theorem chunks_enqueue (hsound : s.Sound) (h : s.enqueue a = some s') :
    s'.chunks = s.chunks ++ [a] := by
  rw [enqueue] at h
  split_ifs at h with hcan hreq
  · cases h
    have hqueue := (hsound.waiting hreq).2
    simp only [chunks, hqueue, append_nil, received_append]
    rfl
  · cases h
    exact (append_assoc _ _ _).symm

theorem chunks_close (h : s.close = some s') : s'.chunks = s.chunks := by
  rw [close] at h
  split_ifs at h with hcan
  cases h
  dsimp only
  split_ifs
  · simp [chunks, shut, answerAll, received_append, received_replicate_done]
  · rfl

theorem chunks_read : s.read.chunks = s.chunks := by
  rw [read]
  split
  · simp [chunks, received]
  · simp [chunks, received]
  · split
    · rfl
    · rename_i a queue hqueue
      dsimp only
      split_ifs
      · simp [chunks, shut, answerAll, hqueue, received]
      · simp [chunks, hqueue, received]

/-- A stream that was not cancelled and did not fail, and whose reader was not released. -/
structure Undisturbed (s : ReadableStream α ε) : Prop where
  state : s.state = .readable ∨ s.state = .closed ∧ s.closeRequested = true ∧ s.queue = []
  done : .done ∈ s.answers → s.state = .closed
  failed : ∀ e, .failed e ∉ s.answers

namespace Undisturbed

theorem new : (ReadableStream.new : ReadableStream α ε).Undisturbed :=
  ⟨.inl rfl, fun h => absurd h not_mem_nil, fun _ => not_mem_nil⟩

theorem notePull (h : s.Undisturbed) : s.notePull.Undisturbed :=
  ⟨by simpa using h.state, by simpa using h.done, by simpa using h.failed⟩

theorem start (h : s.Undisturbed) : s.start.Undisturbed := ⟨h.state, h.done, h.failed⟩

theorem pulled (h : s.Undisturbed) : s.pulled.Undisturbed := ⟨h.state, h.done, h.failed⟩

theorem enqueue (h : s.Undisturbed) (hs : s.enqueue a = some s') : s'.Undisturbed := by
  rw [ReadableStream.enqueue] at hs
  split_ifs at hs with hcan hreq
  · cases hs
    exact ⟨h.state, by simpa using h.done, by simpa using h.failed⟩
  · cases hs
    have hstate := (canCloseOrEnqueue_iff.mp hcan).1
    exact ⟨.inl hstate, h.done, h.failed⟩

theorem shut (h : s.Undisturbed) (hclose : s.closeRequested = true) (hqueue : s.queue = []) :
    s.shut.Undisturbed := by
  refine ⟨.inr ⟨rfl, hclose, hqueue⟩, fun _ => rfl, fun e he => ?_⟩
  rcases mem_append.mp he with he | he
  · exact h.failed e he
  · cases eq_of_mem_replicate he

theorem close (h : s.Undisturbed) (hs : s.close = some s') : s'.Undisturbed := by
  rw [ReadableStream.close] at hs
  split_ifs at hs with hcan
  cases hs
  have hstate := (canCloseOrEnqueue_iff.mp hcan).1
  have hrequested : Undisturbed { s with closeRequested := true } :=
    ⟨.inl hstate, h.done, h.failed⟩
  dsimp only
  split_ifs with hempty
  · exact hrequested.shut rfl (isEmpty_iff.mp hempty)
  · exact hrequested

theorem read (h : s.Undisturbed) : s.read.Undisturbed := by
  rw [ReadableStream.read]
  split
  · rename_i hstate
    refine ⟨h.state, fun _ => hstate, ?_⟩
    simpa using h.failed
  · rename_i e hstate
    rcases h.state with hs | ⟨hs, -⟩ <;> cases hstate.symm.trans hs
  · rename_i hstate
    split
    · exact ⟨.inl hstate, h.done, h.failed⟩
    · rename_i a queue hqueue
      have hread : Undisturbed { s with queue := queue, answers := s.answers ++ [.chunk a] } :=
        ⟨.inl hstate, by simpa using h.done, by simpa using h.failed⟩
      dsimp only
      split_ifs with hlast
      · rw [Bool.and_eq_true] at hlast
        exact hread.shut hlast.1 (isEmpty_iff.mp hlast.2)
      · exact hread

end Undisturbed

end ReadableStream
