import Anyfs.Lib.Bytes
import Anyfs.Lib.Machine
import Anyfs.Lib.ReadableStream

/-!
# Streaming a file

Each time the stream of `openReadable` asks for more, `pull` reads from the descriptor at the offset
it has got to. It closes the descriptor before the stream is closed, and `cancel` closes it, too.
-/

namespace Anyfs

open List Option ReadableStream

/-- What a stream fails with: an exception of its own, or what a read was rejected with. -/
inductive ReadableError (ε : Type*) where
  | typeError
  | failed (e : ε)
  deriving DecidableEq

/-- A file that is streamed: its content, the size `statFollow` gave, and the option `chunkSize`. -/
structure FileSource where
  content : Bytes
  total : ℕ
  chunkSize : ℕ
  chunkSize_pos : 0 < chunkSize

/-- What the consumer should get: the file, up to the size that `statFollow` gave. -/
def FileSource.delivered (src : FileSource) : Bytes :=
  src.content.take (min src.total src.content.length)

/-- What the source asks of the file. -/
inductive FdCall where
  | read (offset length : ℕ)
  | close
  deriving DecidableEq

/-- Where `pull` stands. The calls of `closeFd` are told apart by what follows them. -/
inductive PullPoint (ε : Type*) where
  | idle
  | reading (want : ℕ)
  | closingFirst
  | closingTry
  | closingCatch (e : ReadableError ε)
  | returned
  | threw (e : ReadableError ε)
  deriving DecidableEq

/-- The stream, and the variables of `openReadable`. -/
structure OpenReadable (ε : Type*) where
  stream : ReadableStream Bytes (ReadableError ε)
  offset : ℕ
  closed : Bool
  point : PullPoint ε
  calls : List FdCall

open OpenReadable

namespace OpenReadable

variable {ε : Type*}

/-- What `openReadable` returns. -/
def init : OpenReadable ε := ⟨.new, 0, false, .idle, []⟩

/-- `closeFd`, up to its `await`. -/
def closeFd (s : OpenReadable ε) : OpenReadable ε :=
  if s.closed then s else { s with closed := true, calls := s.calls ++ [.close] }

/-- `pull`, up to its first `await`. -/
def pull (src : FileSource) (s : OpenReadable ε) : OpenReadable ε :=
  if src.total ≤ s.offset then { s.closeFd with point := .closingFirst }
  else
    let want := min src.chunkSize (src.total - s.offset)
    { s with calls := s.calls ++ [.read s.offset want], point := .reading want }

/-- The stream asks for more, if it needs more. -/
def callPullIfNeeded (src : FileSource) (s : OpenReadable ε)
    (stream : ReadableStream Bytes (ReadableError ε)) : OpenReadable ε :=
  let s' := { s with stream := stream.notePull }
  if stream.callsPull then s'.pull src else s'

/-- The `catch` block of `pull`, up to its `await`. -/
def pullCatch (s : OpenReadable ε) (e : ReadableError ε) : OpenReadable ε :=
  { s.closeFd with point := .closingCatch e }

/-- `pull` goes on with what it has read. While it runs, `enqueue` only notes that it is to be
called again. -/
def pullChunk (src : FileSource) (s : OpenReadable ε) (chunk : Bytes) : OpenReadable ε :=
  if chunk.length = 0 then { s.closeFd with point := .closingTry }
  else
    let s := { s with offset := s.offset + chunk.length }
    match s.stream.enqueue chunk with
    | none => s.pullCatch .typeError
    | some stream =>
      let s := { s with stream := stream.notePull }
      if src.total ≤ s.offset then { s.closeFd with point := .closingTry }
      else { s with point := .returned }

/-- `pull` goes on after `closeFd`. -/
def pullClosed (s : OpenReadable ε) : Option (OpenReadable ε) :=
  match s.point with
  | .closingFirst =>
    match s.stream.close with
    | some stream => some { s with stream := stream, point := .returned }
    | none => some { s with point := .threw .typeError }
  | .closingTry =>
    match s.stream.close with
    | some stream => some { s with stream := stream, point := .returned }
    | none => some (s.pullCatch .typeError)
  | .closingCatch e => some { s with stream := s.stream.error e, point := .returned }
  | _ => none

def pullDone (src : FileSource) (s : OpenReadable ε) : Option (OpenReadable ε) :=
  match s.point with
  | .returned =>
    let s' := { s with stream := s.stream.pulled, point := .idle }
    some (if s.stream.pullAgain then s'.callPullIfNeeded src s'.stream else s')
  | .threw e => some { s with stream := s.stream.error e, point := .idle }
  | _ => none

end OpenReadable

/-- A step of the stream: the consumer reads, cancels or releases its reader, or a job runs. -/
inductive ReadableLabel (ε : Type*) where
  | read
  | cancel
  | release
  | started
  | chunk (data : Bytes)
  | readError (e : ε)
  | closeDone
  | pullDone
  deriving DecidableEq

def ReadableLabel.isJob {ε : Type*} : ReadableLabel ε → Bool
  | .read | .cancel | .release => false
  | _ => true

open OpenReadable

/-- The steps of the stream and its source. -/
def readableStep {ε : Type*} (src : FileSource) (s : OpenReadable ε) :
    ReadableLabel ε → Option (OpenReadable ε)
  | .read => some (s.callPullIfNeeded src s.stream.read)
  | .cancel =>
    match s.stream.cancel with
    | some stream => some { s.closeFd with stream := stream }
    | none => some s
  | .release => some { s with stream := s.stream.release .typeError }
  | .started =>
    if s.stream.started then none else some (s.callPullIfNeeded src s.stream.start)
  | .chunk data =>
    match s.point with
    | .reading _ => some (s.pullChunk src data)
    | _ => none
  | .readError e =>
    match s.point with
    | .reading _ => some (s.pullCatch (.failed e))
    | _ => none
  | .closeDone => s.pullClosed
  | .pullDone => s.pullDone src

/-- The runs of `openReadable`. -/
def readableMachine {ε : Type*} (src : FileSource) : Machine (OpenReadable ε) (ReadableLabel ε) :=
  .ofFun (readableStep src)

/-! ### What holds in every run -/

/-- `pull` awaits `closeFd`. -/
def PullPoint.isClosing {ε : Type*} : PullPoint ε → Bool
  | .closingFirst | .closingTry | .closingCatch _ => true
  | _ => false

namespace OpenReadable

variable {ε : Type*} {src : FileSource} {s s' : OpenReadable ε}
  {stream : ReadableStream Bytes (ReadableError ε)}

/-- The file is closed once, after all reads. -/
def CallsOnce (closed : Bool) (calls : List FdCall) : Prop :=
  ∃ reads : List FdCall, .close ∉ reads ∧ calls = reads ++ if closed then [.close] else []

/-- The descriptor is open as long as the stream takes chunks, and from the moment `closeFd` was
called `pull` is on its way to end the stream. -/
structure Ready (src : FileSource) (s : OpenReadable ε) : Prop where
  sound : s.stream.Sound
  busy : s.point ≠ .idle → s.stream.pulling = true
  free : s.point = .idle → s.stream.pulling = true → s.stream.canCloseOrEnqueue = false
  reading : ∀ want, s.point = .reading want →
    s.offset < src.total ∧ want = min src.chunkSize (src.total - s.offset)
  ended : s.stream.canCloseOrEnqueue = false → s.closed = true
  closing : s.point.isClosing = true → s.closed = true
  ending : s.closed = true → s.stream.canCloseOrEnqueue = true → s.point.isClosing = true
  threw : ∀ e, s.point = .threw e → s.stream.canCloseOrEnqueue = false
  calls : CallsOnce s.closed s.calls

/-- What holds in every state of a run: the stream has asked for all it needs. -/
structure Good (src : FileSource) (s : OpenReadable ε) : Prop extends Ready src s where
  idle : s.point = .idle → s.stream.shouldCallPull = false
  again : s.point = .returned → s.stream.shouldCallPull = true → s.stream.pullAgain = true

theorem good_init (src : FileSource) : (init : OpenReadable ε).Good src where
  sound := .new
  busy h := absurd rfl h
  free _ h := nomatch h
  reading _ h := nomatch h
  ended h := nomatch h
  closing h := nomatch h
  ending h := nomatch h
  threw _ h := nomatch h
  calls := ⟨[], not_mem_nil, rfl⟩
  idle _ := rfl
  again h := nomatch h

@[simp]
theorem closed_closeFd : s.closeFd.closed = true := by
  rw [closeFd]
  split_ifs with h
  · exact h
  · rfl

@[simp]
theorem stream_closeFd : s.closeFd.stream = s.stream := by
  rw [closeFd]
  split_ifs <;> rfl

@[simp]
theorem offset_closeFd : s.closeFd.offset = s.offset := by
  rw [closeFd]
  split_ifs <;> rfl

@[simp]
theorem point_closeFd : s.closeFd.point = s.point := by
  rw [closeFd]
  split_ifs <;> rfl

theorem CallsOnce.closeFd (h : CallsOnce s.closed s.calls) :
    CallsOnce s.closeFd.closed s.closeFd.calls := by
  rw [OpenReadable.closeFd]
  split_ifs with hclosed
  · exact h
  · obtain ⟨reads, hreads, hcalls⟩ := h
    refine ⟨reads, hreads, ?_⟩
    rw [hcalls, if_neg hclosed, append_nil]
    rfl

variable {calls : List FdCall} {want : ℕ} {l : ReadableLabel ε}

theorem CallsOnce.read (h : CallsOnce false calls) (offset want : ℕ) :
    CallsOnce false (calls ++ [.read offset want]) := by
  obtain ⟨reads, hreads, hcalls⟩ := h
  refine ⟨reads ++ [.read offset want], ?_, ?_⟩
  · simpa using hreads
  · rw [hcalls]
    simp

variable {p : PullPoint ε}

theorem good_closing (hsound : s.stream.Sound) (hpulling : s.stream.pulling = true)
    (hcalls : CallsOnce s.closed s.calls) (hp : p.isClosing = true) :
    Good src { s.closeFd with point := p } where
  sound := by simpa using hsound
  busy _ := by simpa using hpulling
  free h := by
    obtain rfl : p = .idle := h
    cases hp
  reading want h := by
    obtain rfl : p = .reading want := h
    cases hp
  ended _ := closed_closeFd
  closing _ := closed_closeFd
  ending _ _ := hp
  threw e h := by
    obtain rfl : p = .threw e := h
    cases hp
  calls := hcalls.closeFd
  idle h := by
    obtain rfl : p = .idle := h
    cases hp
  again h := by
    obtain rfl : p = .returned := h
    cases hp

theorem good_pull (hsound : s.stream.Sound) (hpulling : s.stream.pulling = true)
    (hcan : s.stream.canCloseOrEnqueue = true) (hclosed : s.closed = false)
    (hcalls : CallsOnce s.closed s.calls) : (s.pull src).Good src := by
  rw [pull]
  split_ifs with hend
  · exact good_closing hsound hpulling hcalls rfl
  · rw [hclosed] at hcalls
    exact {
      sound := hsound
      busy := fun _ => hpulling
      free := fun h => nomatch h
      reading := fun want h => ⟨Nat.lt_of_not_le hend, (PullPoint.reading.inj h).symm⟩
      ended := fun h => absurd (h.symm.trans hcan) Bool.false_ne_true
      closing := fun h => nomatch h
      ending := fun h => absurd (hclosed.symm.trans h) Bool.false_ne_true
      threw := fun _ h => nomatch h
      calls := by
        dsimp only
        rw [hclosed]
        exact hcalls.read _ _
      idle := fun h => nomatch h
      again := fun h => nomatch h }

theorem Ready.of_stream (h : s.Ready src) (hsound : stream.Sound)
    (hpulling : stream.pulling = s.stream.pulling)
    (hcan : stream.canCloseOrEnqueue = s.stream.canCloseOrEnqueue) :
    Ready src { s with stream := stream } where
  sound := hsound
  busy hne := hpulling.trans (h.busy hne)
  free hidle hp := hcan.trans (h.free hidle (hpulling.symm.trans hp))
  reading := h.reading
  ended hc := h.ended (hcan.symm.trans hc)
  closing := h.closing
  ending hclosed hc := h.ending hclosed (hcan.symm.trans hc)
  threw e he := hcan.trans (h.threw e he)
  calls := h.calls

theorem good_of_ended (hsound : s.stream.Sound) (hcan : s.stream.canCloseOrEnqueue = false)
    (hclosed : s.closed = true) (hbusy : s.point ≠ .idle → s.stream.pulling = true)
    (hreading : ∀ want, s.point = .reading want →
      s.offset < src.total ∧ want = min src.chunkSize (src.total - s.offset))
    (hcalls : CallsOnce s.closed s.calls) : s.Good src where
  sound := hsound
  busy := hbusy
  free _ _ := hcan
  reading := hreading
  ended _ := hclosed
  closing _ := hclosed
  ending _ h := absurd (hcan.symm.trans h) Bool.false_ne_true
  threw _ _ := hcan
  calls := hcalls
  idle _ := shouldCallPull_eq_false hcan
  again _ h := absurd ((shouldCallPull_eq_false hcan).symm.trans h)
    Bool.false_ne_true

theorem Ready.of_callsPull (h : Ready src { s with stream := stream })
    (hcalls : stream.callsPull = true) :
    s.point = .idle ∧ s.closed = false ∧ stream.canCloseOrEnqueue = true := by
  obtain ⟨hshould, hpulling⟩ : stream.shouldCallPull = true ∧ stream.pulling = false := by
    simpa [callsPull] using hcalls
  have hcan := canCloseOrEnqueue_of_shouldCallPull hshould
  have hidle : s.point = .idle := by
    by_contra hne
    exact absurd (hpulling.symm.trans (h.busy hne)) Bool.false_ne_true
  refine ⟨hidle, ?_, hcan⟩
  by_contra hne
  have hclosing := h.ending (Bool.not_eq_false _ |>.mp hne) hcan
  dsimp only at hclosing
  rw [hidle] at hclosing
  cases hclosing

theorem Ready.callPullIfNeeded (h : Ready src { s with stream := stream }) :
    (s.callPullIfNeeded src stream).Good src := by
  rw [OpenReadable.callPullIfNeeded]
  cases hcalls : stream.callsPull with
  | true =>
    obtain ⟨-, hclosed, hcan⟩ := h.of_callsPull hcalls
    rw [notePull_of_callsPull hcalls]
    exact good_pull ⟨h.sound.waiting, h.sound.closing⟩ rfl hcan hclosed h.calls
  | false =>
    have hnone : s.point = .idle → stream.shouldCallPull = false := by
      intro hidle
      by_contra hshould
      rw [Bool.not_eq_false] at hshould
      have hpulling : stream.pulling = true := by
        simpa [callsPull, hshould] using hcalls
      rw [shouldCallPull_eq_false (h.free hidle hpulling)] at hshould
      cases hshould
    have hpulling := pulling_notePull hcalls
    exact {
      h.of_stream h.sound.notePull hpulling (by simp) with
      idle := fun hidle => by simpa using hnone hidle
      again := fun (hret : s.point = .returned) hshould => by
        have hbusy : stream.pulling = true := h.busy (by dsimp only; rw [hret]; rintro ⟨⟩)
        exact pullAgain_notePull hbusy (by simpa using hshould) }

/-! ### One step -/

section

variable (h : s.Good src)
include h

theorem Good.ready_read : Ready src { s with stream := s.stream.read } :=
  h.of_stream h.sound.read (by simp) (by simp)

theorem Good.ready_start : Ready src { s with stream := s.stream.start } :=
  h.of_stream h.sound.start rfl rfl

theorem Good.ready_pulled (hpoint : s.point = .returned) :
    Ready src { s with stream := s.stream.pulled, point := .idle } where
  sound := h.sound.pulled
  busy h := absurd rfl h
  free _ h := nomatch h
  reading _ h := nomatch h
  ended := h.ended
  closing h := nomatch h
  ending hclosed hcan := by
    have hclosing := h.ending hclosed hcan
    rw [hpoint] at hclosing
    cases hclosing
  threw _ h := nomatch h
  calls := h.calls

theorem Good.release : Good src { s with stream := s.stream.release .typeError } where
  toReady := h.of_stream (h.sound.release _) rfl rfl
  idle hidle := by
    have hnone := h.idle hidle
    by_contra hshould
    rw [Bool.not_eq_false] at hshould
    rw [shouldCallPull_of_release hshould] at hnone
    cases hnone
  again hret hshould := h.again hret (shouldCallPull_of_release hshould)

theorem Good.cancel (hs : s.stream.cancel = some stream) :
    Good src { s.closeFd with stream := stream } := by
  obtain ⟨hcan, hpulling⟩ := cancel_eq_some hs
  refine good_of_ended (.cancel hs) hcan closed_closeFd ?_ (by simpa using h.reading)
    h.calls.closeFd
  exact fun hne => hpulling.trans (h.busy (by simpa using hne))

theorem Good.open_of_reading (hpoint : s.point = .reading want)
    (hcan : s.stream.canCloseOrEnqueue = true) : s.closed = false := by
  by_contra hne
  have hclosing := h.ending (Bool.not_eq_false _ |>.mp hne) hcan
  rw [hpoint] at hclosing
  cases hclosing

theorem Good.pullChunk (hreading : s.point = .reading want)
    (chunk : Bytes) : (s.pullChunk src chunk).Good src := by
  have hbusy : s.point ≠ .idle := by rw [hreading]; rintro ⟨⟩
  have hpulling := h.busy hbusy
  rw [OpenReadable.pullChunk]
  split_ifs with hempty
  · exact good_closing h.sound hpulling h.calls rfl
  dsimp only
  cases henqueue : s.stream.enqueue chunk with
  | none =>
    exact good_closing (s := { s with offset := s.offset + chunk.length }) h.sound hpulling h.calls
      rfl
  | some stream =>
    obtain ⟨hcan, hcan', hpulling', -⟩ := enqueue_eq_some henqueue
    have hsound := (h.sound.enqueue henqueue).notePull
    have hp : stream.pulling = true := hpulling'.trans hpulling
    have hp' : stream.notePull.pulling = true := by
      rw [pulling_notePull (by simp [callsPull, hp]), hp]
    dsimp only
    split_ifs with hend
    · exact good_closing
        (s := ⟨stream.notePull, s.offset + chunk.length, s.closed, s.point, s.calls⟩)
        hsound hp' h.calls rfl
    · have hopen := h.open_of_reading hreading hcan
      exact {
        sound := hsound
        busy := fun _ => hp'
        free := fun h => by cases h
        reading := fun _ h => by cases h
        ended := fun h => by
          rw [canCloseOrEnqueue_notePull, hcan'] at h
          cases h
        closing := fun h => by cases h
        ending := fun h => absurd (hopen.symm.trans h) Bool.false_ne_true
        threw := fun _ h => by cases h
        calls := h.calls
        idle := fun h => by cases h
        again := fun _ hshould =>
          pullAgain_notePull hp (by simpa using hshould) }

theorem Good.pulling_of_closing (hpoint : s.point.isClosing = true) : s.stream.pulling = true := by
  refine h.busy fun hidle => ?_
  rw [hidle] at hpoint
  cases hpoint

end

theorem pullClosed_cases (hs : s.pullClosed = some s') : s.point.isClosing = true ∧
    ((∃ stream, s.stream.close = some stream ∧
        s' = { s with stream := stream, point := .returned }) ∨
      (s.stream.close = none ∧ s' = { s with point := .threw .typeError }) ∨
      (s.stream.close = none ∧ s.point = .closingTry ∧ s' = s.pullCatch .typeError) ∨
      ∃ e, s.point = .closingCatch e ∧
        s' = { s with stream := s.stream.error e, point := .returned }) := by
  rw [pullClosed] at hs
  split at hs
  · rename_i hpoint
    refine ⟨by rw [hpoint]; rfl, ?_⟩
    split at hs
    · exact .inl ⟨_, ‹_›, (some.inj hs).symm⟩
    · exact .inr (.inl ⟨‹_›, (some.inj hs).symm⟩)
  · rename_i hpoint
    refine ⟨by rw [hpoint]; rfl, ?_⟩
    split at hs
    · exact .inl ⟨_, ‹_›, (some.inj hs).symm⟩
    · exact .inr (.inr (.inl ⟨‹_›, hpoint, (some.inj hs).symm⟩))
  · rename_i e hpoint
    exact ⟨by rw [hpoint]; rfl, .inr (.inr (.inr ⟨e, hpoint, (some.inj hs).symm⟩))⟩
  · cases hs

theorem Good.pullClosed (h : s.Good src) (hs : s.pullClosed = some s') : s'.Good src := by
  obtain ⟨hpoint, hcases⟩ := pullClosed_cases hs
  have hpulling := h.pulling_of_closing hpoint
  have hclosed := h.closing hpoint
  obtain ⟨stream, hclose, rfl⟩ | ⟨hclose, rfl⟩ | ⟨-, -, rfl⟩ | ⟨e, -, rfl⟩ := hcases
  · obtain ⟨-, hcan, hp, -⟩ := close_eq_some hclose
    exact good_of_ended (h.sound.close hclose) hcan hclosed (fun _ => hp.trans hpulling) nofun
      h.calls
  · exact good_of_ended h.sound (close_eq_none.mp hclose) hclosed (fun _ => hpulling) nofun h.calls
  · exact good_closing h.sound hpulling h.calls rfl
  · obtain ⟨hcan, hp, -⟩ := error_spec s.stream e
    exact good_of_ended (h.sound.error e) hcan hclosed (fun _ => hp.trans hpulling) nofun h.calls

theorem Good.pullDone (h : s.Good src) (hs : s.pullDone src = some s') : s'.Good src := by
  rw [OpenReadable.pullDone] at hs
  split at hs
  · rename_i hpoint
    have hready := h.ready_pulled hpoint
    cases hs
    dsimp only
    split_ifs with hagain
    · exact Ready.callPullIfNeeded hready
    · refine { hready with idle := fun _ => ?_, again := fun h => nomatch h }
      by_contra hshould
      exact hagain (h.again hpoint (Bool.not_eq_false _ |>.mp hshould))
  · rename_i e hpoint
    cases hs
    obtain ⟨hcan, -⟩ := error_spec s.stream e
    exact good_of_ended (h.sound.error e) hcan (h.ended (h.threw e hpoint)) (fun h => absurd rfl h)
      nofun h.calls
  · cases hs

theorem reading_of_step {data : Bytes} (hs : readableStep src s (.chunk data) = some s') :
    ∃ want, s.point = .reading want ∧ s' = s.pullChunk src data := by
  rw [readableStep] at hs
  split at hs
  · rename_i want hpoint
    exact ⟨want, hpoint, (some.inj hs).symm⟩
  · cases hs

theorem reading_of_readError {e : ε} (hs : readableStep src s (.readError e) = some s') :
    ∃ want, s.point = .reading want ∧ s' = s.pullCatch (.failed e) := by
  rw [readableStep] at hs
  split at hs
  · rename_i want hpoint
    exact ⟨want, hpoint, (some.inj hs).symm⟩
  · cases hs

theorem Good.step (h : s.Good src) (hs : readableStep src s l = some s') : s'.Good src := by
  cases l with
  | read =>
    cases hs
    exact h.ready_read.callPullIfNeeded
  | cancel =>
    rw [readableStep] at hs
    cases hcancel : s.stream.cancel with
    | some stream =>
      rw [hcancel] at hs
      cases hs
      exact h.cancel hcancel
    | none =>
      rw [hcancel] at hs
      cases hs
      exact h
  | release =>
    cases hs
    exact h.release
  | started =>
    obtain ⟨-, hs⟩ := ite_none_left_eq_some.mp hs
    cases hs
    exact h.ready_start.callPullIfNeeded
  | chunk data =>
    obtain ⟨want, hpoint, rfl⟩ := reading_of_step hs
    exact h.pullChunk hpoint data
  | readError e =>
    obtain ⟨want, hpoint, rfl⟩ := reading_of_readError hs
    exact good_closing h.sound (h.busy (by rw [hpoint]; exact nofun)) h.calls rfl
  | closeDone => exact h.pullClosed hs
  | pullDone => exact h.pullDone hs

theorem good_of_reach (h : (readableMachine src).Reach (fun _ _ => True) init s) : s.Good src :=
  h.invariant (P := Good src) (good_init src) fun _ _ _ hs _ hstep => Good.step hs hstep

/-! ### Jobs end -/

/-- The jobs that are left before `pull` is done or called again. -/
def pointWeight (closed : Bool) : PullPoint ε → ℕ
  | .idle => 0
  | .reading _ => if closed then 15 else 5
  | .closingFirst => 14
  | .closingTry => 14
  | .closingCatch _ => 13
  | .returned => 8
  | .threw _ => 8

/-- A bound for the jobs that are left. -/
def weight (src : FileSource) (s : OpenReadable ε) : ℕ :=
  20 * (src.total - s.offset + (!s.closed).toNat + (!s.stream.started).toNat) +
    pointWeight s.closed s.point

theorem weight_closing (s : OpenReadable ε) (p : PullPoint ε) (src : FileSource) :
    weight src { s.closeFd with point := p } =
      20 * (src.total - s.offset + (!s.stream.started).toNat) + pointWeight true p := by
  simp [weight]

theorem weight_pull (src : FileSource) (hclosed : s.closed = false) :
    weight src (s.pull src) ≤ weight src { s with point := .idle } + 5 := by
  rw [pull]
  split_ifs with hend
  · rw [weight_closing, weight, hclosed]
    simp only [Bool.not_false, Bool.toNat_true, pointWeight]
    omega
  · simp only [weight, hclosed, pointWeight]
    exact Nat.le_refl _

theorem Ready.weight_callPullIfNeeded (h : Ready src { s with stream := stream }) :
    weight src (s.callPullIfNeeded src stream) ≤ weight src { s with stream := stream } + 5 := by
  rw [OpenReadable.callPullIfNeeded]
  have hnote : weight src { s with stream := stream.notePull } =
      weight src { s with stream := stream } := by simp [weight]
  split_ifs with hcalls
  · obtain ⟨hidle, hclosed, -⟩ := h.of_callsPull hcalls
    have hpull := weight_pull (s := { s with stream := stream.notePull }) src hclosed
    rw [← hidle] at hpull
    exact hnote ▸ hpull
  · rw [hnote]
    exact Nat.le_add_right _ _

theorem weight_closing_lt (hpoint : s.point = .reading want)
    (hp : pointWeight true p ≤ 14) : weight src { s.closeFd with point := p } < weight src s := by
  have hreading : pointWeight s.closed s.point = if s.closed then 15 else 5 := by
    rw [hpoint]
    rfl
  rw [weight_closing, weight, hreading]
  cases s.closed
  · rw [Bool.not_false, Bool.toNat_true, if_neg Bool.false_ne_true]
    omega
  · rw [Bool.not_true, Bool.toNat_false, if_pos rfl]
    omega

theorem weight_pullChunk_lt (hpoint : s.point = .reading want) (hlt : s.offset < src.total)
    (chunk : Bytes) : weight src (s.pullChunk src chunk) < weight src s := by
  have hreading : 20 * (src.total - s.offset + (!s.stream.started).toNat) + 5 ≤ weight src s := by
    rw [weight, hpoint]
    simp only [pointWeight]
    split_ifs <;> omega
  rw [pullChunk]
  split_ifs with hempty
  · exact weight_closing_lt hpoint (Nat.le_refl _)
  dsimp only
  cases henqueue : s.stream.enqueue chunk with
  | none =>
    dsimp only [pullCatch]
    rw [weight_closing]
    simp only [pointWeight]
    omega
  | some stream =>
    obtain ⟨-, -, -, hstarted⟩ := enqueue_eq_some henqueue
    dsimp only
    split_ifs with hend
    · rw [weight_closing]
      simp only [pointWeight, started_notePull, hstarted]
      omega
    · simp only [weight, pointWeight, started_notePull, hstarted, hpoint]
      split_ifs <;> omega

theorem lt_pointWeight (hp : p.isClosing = true) (closed : Bool) : 8 < pointWeight closed p := by
  cases p with
  | closingFirst | closingTry | closingCatch _ => exact Nat.lt_of_sub_pos (Nat.succ_pos _)
  | _ => cases hp

theorem weight_lt_of_point (hstarted : stream.started = s.stream.started)
    (hp : pointWeight s.closed p < pointWeight s.closed s.point) :
    weight src { s with stream := stream, point := p } < weight src s := by
  simp only [weight, hstarted]
  omega

theorem weight_pullClosed_lt (src : FileSource) (hs : s.pullClosed = some s') :
    weight src s' < weight src s := by
  obtain ⟨hpoint, hcases⟩ := pullClosed_cases hs
  have hlt := lt_pointWeight hpoint s.closed
  obtain ⟨stream, hclose, rfl⟩ | ⟨-, rfl⟩ | ⟨-, htry, rfl⟩ | ⟨e, -, rfl⟩ := hcases
  · obtain ⟨-, -, -, hstarted⟩ := close_eq_some hclose
    exact weight_lt_of_point hstarted hlt
  · exact weight_lt_of_point rfl hlt
  · rw [pullCatch, weight_closing, weight, htry]
    simp only [pointWeight]
    omega
  · obtain ⟨-, -, hstarted⟩ := error_spec s.stream e
    exact weight_lt_of_point hstarted hlt

theorem Good.weight_pullDone_lt (h : s.Good src) (hs : s.pullDone src = some s') :
    weight src s' < weight src s := by
  rw [OpenReadable.pullDone] at hs
  split at hs
  · rename_i hpoint
    have hle : weight src (callPullIfNeeded src
        { s with stream := s.stream.pulled, point := .idle } s.stream.pulled) ≤
          weight src { s with stream := s.stream.pulled, point := .idle } + 5 :=
      Ready.weight_callPullIfNeeded (h.ready_pulled hpoint)
    have hidle : weight src { s with stream := s.stream.pulled, point := .idle } + 8 =
        weight src s := by
      simp only [weight, pointWeight, hpoint, pulled]
    cases hs
    dsimp only
    split_ifs <;> omega
  · rename_i e hpoint
    cases hs
    obtain ⟨-, -, hstarted⟩ := error_spec s.stream e
    refine weight_lt_of_point hstarted ?_
    rw [hpoint]
    exact Nat.succ_pos _
  · cases hs

theorem Good.weight_lt (h : s.Good src) (hl : l.isJob = true)
    (hs : readableStep src s l = some s') : weight src s' < weight src s := by
  cases l with
  | read => cases hl
  | cancel => cases hl
  | release => cases hl
  | started =>
    obtain ⟨hstarted, hs⟩ := ite_none_left_eq_some.mp hs
    cases hs
    have hle := h.ready_start.weight_callPullIfNeeded
    rw [Bool.not_eq_true] at hstarted
    have hstart : weight src { s with stream := s.stream.start } + 20 = weight src s := by
      simp only [weight, start, hstarted, Bool.not_true, Bool.not_false,
        Bool.toNat_true, Bool.toNat_false]
      omega
    omega
  | chunk data =>
    obtain ⟨want, hpoint, rfl⟩ := reading_of_step hs
    exact weight_pullChunk_lt hpoint (h.reading want hpoint).1 data
  | readError e =>
    obtain ⟨want, hpoint, rfl⟩ := reading_of_readError hs
    exact weight_closing_lt hpoint (Nat.le_succ 13)
  | closeDone => exact weight_pullClosed_lt src hs
  | pullDone => exact h.weight_pullDone_lt hs

/-! ### A file that is read to the end -/

/-- The steps of a run that nobody disturbs: a read gets some of the bytes that were asked for, and
none only at the end of the file. -/
def Undisturbed (src : FileSource) (s : OpenReadable ε) : ReadableLabel ε → Prop
  | .chunk data => data <+: src.content.drop s.offset ∧
      (∀ want, s.point = .reading want → data.length ≤ want) ∧
      (data = [] → src.content.length ≤ s.offset)
  | .readError _ | .cancel | .release => False
  | _ => True

/-- The bytes `pull` waits for. -/
def wanted (s : OpenReadable ε) : Option ℕ :=
  match s.point with
  | .reading want => some want
  | _ => none

instance (src : FileSource) (s : OpenReadable ε) :
    (l : ReadableLabel ε) → Decidable (Undisturbed src s l)
  | .chunk data => decidable_of_iff (data <+: src.content.drop s.offset ∧
      (∀ want ∈ s.wanted, data.length ≤ want) ∧
      (data = [] → src.content.length ≤ s.offset)) (by
        cases hp : s.point <;> simp [Undisturbed, wanted, hp])
  | .readError _ | .cancel | .release => .isFalse id
  | .read | .started | .closeDone | .pullDone => .isTrue trivial

/-- What holds in such a run: the stream has had the bytes up to the offset, and it is closed only
at the end. -/
structure Flow (src : FileSource) (s : OpenReadable ε) : Prop where
  stream : s.stream.Undisturbed
  bytes : s.stream.chunks.flatten = src.content.take s.offset
  nonempty : ∀ chunk ∈ s.stream.chunks, chunk ≠ []
  offset_le : s.offset ≤ min src.total src.content.length
  finished : s.closed = true → min src.total src.content.length ≤ s.offset
  live : s.point ≠ .idle → s.point ≠ .returned → s.stream.canCloseOrEnqueue = true
  calm : ∀ e, s.point ≠ .closingCatch e ∧ s.point ≠ .threw e

theorem flow_init (src : FileSource) : (init : OpenReadable ε).Flow src where
  stream := .new
  bytes := rfl
  nonempty _ h := absurd h not_mem_nil
  offset_le := Nat.zero_le _
  finished h := nomatch h
  live h := absurd rfl h
  calm _ := ⟨nofun, nofun⟩

theorem Flow.closing (h : s.Flow src) (hcan : s.stream.canCloseOrEnqueue = true)
    (hend : min src.total src.content.length ≤ s.offset)
    (hp : p = .closingFirst ∨ p = .closingTry) : Flow src { s.closeFd with point := p } where
  stream := by simpa using h.stream
  bytes := by simpa using h.bytes
  nonempty := by simpa using h.nonempty
  offset_le := by simpa using h.offset_le
  finished _ := by simpa using hend
  live _ _ := by simpa using hcan
  calm e := by rcases hp with rfl | rfl <;> exact ⟨nofun, nofun⟩

theorem Flow.of_stream (h : s.Flow src) (hstream : stream.Undisturbed)
    (hchunks : stream.chunks = s.stream.chunks)
    (hcan : stream.canCloseOrEnqueue = s.stream.canCloseOrEnqueue) :
    Flow src { s with stream := stream } where
  stream := hstream
  bytes := hchunks ▸ h.bytes
  nonempty := hchunks ▸ h.nonempty
  offset_le := h.offset_le
  finished := h.finished
  live hne hne' := hcan.trans (h.live hne hne')
  calm := h.calm

theorem Flow.callPullIfNeeded (h : Flow src { s with stream := stream })
    (hready : Ready src { s with stream := stream }) :
    (s.callPullIfNeeded src stream).Flow src := by
  have hnote : Flow src { s with stream := stream.notePull } :=
    h.of_stream h.stream.notePull (chunks_notePull) (by simp)
  rw [OpenReadable.callPullIfNeeded]
  cases hcalls : stream.callsPull with
  | false => exact hnote
  | true =>
    obtain ⟨-, hclosed, hcan⟩ := hready.of_callsPull hcalls
    have hcan' : stream.notePull.canCloseOrEnqueue = true := by simpa using hcan
    rw [if_pos rfl, pull]
    split_ifs with hend
    · exact hnote.closing hcan' (Nat.le_trans (Nat.min_le_left _ _) hend) (.inl rfl)
    · exact { hnote with live := fun _ _ => hcan', calm := fun _ => ⟨nofun, nofun⟩ }

theorem Flow.pullChunk (h : s.Flow src) (hgood : s.Good src) (hpoint : s.point = .reading want)
    {data : Bytes} (hdata : Undisturbed src s (.chunk data)) : (s.pullChunk src data).Flow src := by
  obtain ⟨hpart, hle, heof⟩ := hdata
  obtain ⟨hlt, hwant⟩ := hgood.reading want hpoint
  have hlen := hle want hpoint
  have hroom : data.length ≤ src.content.length - s.offset := by
    simpa using hpart.length_le
  have hcan : s.stream.canCloseOrEnqueue = true :=
    h.live (by rw [hpoint]; exact nofun) (by rw [hpoint]; exact nofun)
  rw [OpenReadable.pullChunk]
  split_ifs with hempty
  · have hend := heof (length_eq_zero_iff.mp hempty)
    exact h.closing hcan (Nat.le_trans (Nat.min_le_right _ _) hend) (.inr rfl)
  dsimp only
  cases henqueue : s.stream.enqueue data with
  | none =>
    rw [enqueue_eq_none, hcan] at henqueue
    cases henqueue
  | some stream =>
    have hopen := hgood.open_of_reading hpoint hcan
    obtain ⟨-, hcan', -⟩ := enqueue_eq_some henqueue
    have hchunks : stream.notePull.chunks = s.stream.chunks ++ [data] := by
      rw [chunks_notePull, chunks_enqueue hgood.sound henqueue]
    have hcan'' : stream.notePull.canCloseOrEnqueue = true := by simpa using hcan'
    have hnext : Flow src ⟨stream.notePull, s.offset + data.length, s.closed, s.point, s.calls⟩ := {
      stream := (h.stream.enqueue henqueue).notePull
      bytes := by
        dsimp only
        rw [hchunks, flatten_append, flatten_singleton, h.bytes, take_add,
          ← prefix_iff_eq_take.mp hpart]
      nonempty := by
        intro chunk hchunk
        rw [hchunks] at hchunk
        rcases mem_append.mp hchunk with hchunk | hchunk
        · exact h.nonempty chunk hchunk
        · obtain rfl := mem_singleton.mp hchunk
          exact fun hnil => hempty (by rw [hnil]; rfl)
      offset_le := by
        dsimp only
        have hoffset := h.offset_le
        omega
      finished := fun hclosed => absurd (hopen.symm.trans hclosed) Bool.false_ne_true
      live := fun _ _ => hcan''
      calm := h.calm }
    dsimp only
    split_ifs with hend
    · exact hnext.closing hcan'' (Nat.le_trans (Nat.min_le_left _ _) hend) (.inr rfl)
    · exact { hnext with live := fun _ hne => absurd rfl hne, calm := fun _ => ⟨nofun, nofun⟩ }

theorem Flow.pullClosed (h : s.Flow src) (hs : s.pullClosed = some s') : s'.Flow src := by
  obtain ⟨hpoint, hcases⟩ := pullClosed_cases hs
  have hcan : s.stream.close ≠ none := by
    intro hnone
    rw [close_eq_none, h.live] at hnone
    · cases hnone
    · rintro hp
      rw [hp] at hpoint
      cases hpoint
    · rintro hp
      rw [hp] at hpoint
      cases hpoint
  obtain ⟨stream, hclose, rfl⟩ | ⟨hnone, -⟩ | ⟨hnone, -⟩ | ⟨e, he, -⟩ := hcases
  · exact {
      stream := h.stream.close hclose
      bytes := chunks_close hclose ▸ h.bytes
      nonempty := chunks_close hclose ▸ h.nonempty
      offset_le := h.offset_le
      finished := h.finished
      live := fun _ hne => absurd rfl hne
      calm := fun _ => ⟨nofun, nofun⟩ }
  · exact absurd hnone hcan
  · exact absurd hnone hcan
  · exact absurd he (h.calm e).1

theorem Flow.pullDone (h : s.Flow src) (hgood : s.Good src) (hs : s.pullDone src = some s') :
    s'.Flow src := by
  rw [OpenReadable.pullDone] at hs
  split at hs
  · rename_i hpoint
    have hidle : Flow src { s with stream := s.stream.pulled, point := .idle } := {
      h.of_stream h.stream.pulled rfl rfl with
      live := fun h => absurd rfl h
      calm := fun _ => ⟨nofun, nofun⟩ }
    cases hs
    dsimp only
    split_ifs
    · exact Flow.callPullIfNeeded hidle (hgood.ready_pulled hpoint)
    · exact hidle
  · rename_i e hpoint
    exact absurd hpoint (h.calm e).2
  · cases hs

theorem Flow.step (h : s.Flow src) (hgood : s.Good src)
    (hl : Undisturbed src s l) (hs : readableStep src s l = some s') : s'.Flow src := by
  cases l with
  | read =>
    cases hs
    exact (h.of_stream h.stream.read (chunks_read) (by simp)).callPullIfNeeded hgood.ready_read
  | started =>
    obtain ⟨-, hs⟩ := ite_none_left_eq_some.mp hs
    cases hs
    exact (h.of_stream h.stream.start rfl rfl).callPullIfNeeded hgood.ready_start
  | chunk data =>
    obtain ⟨want, hpoint, rfl⟩ := reading_of_step hs
    exact h.pullChunk hgood hpoint hl
  | closeDone => exact h.pullClosed hs
  | pullDone => exact h.pullDone hgood hs
  | readError e => exact hl.elim
  | cancel => exact hl.elim
  | release => exact hl.elim

theorem flow_of_reach (h : (readableMachine src).Reach (Undisturbed src) init s) :
    s.Good src ∧ s.Flow src :=
  h.invariant (P := fun s => s.Good src ∧ s.Flow src) ⟨good_init src, flow_init src⟩
    fun _ _ _ hs hl hstep => ⟨hs.1.step hstep, hs.2.step hs.1 hl hstep⟩

/-! ### Rest -/

def Quiet (src : FileSource) (s : OpenReadable ε) : Prop :=
  ∀ l, l.isJob = true → readableStep src s l = none

theorem exists_pullClosed (h : s.point.isClosing = true) : ∃ s', s.pullClosed = some s' := by
  rw [pullClosed]
  cases hpoint : s.point with
  | closingFirst => cases s.stream.close <;> exact ⟨_, rfl⟩
  | closingTry => cases s.stream.close <;> exact ⟨_, rfl⟩
  | closingCatch e => exact ⟨_, rfl⟩
  | _ =>
    rw [hpoint] at h
    cases h

theorem Good.exists_job (h : s.Good src) (hrest : ¬ (s.stream.started = true ∧ s.point = .idle)) :
    ∃ l s', l.isJob = true ∧ Undisturbed src s l ∧ readableStep src s l = some s' := by
  cases hpoint : s.point with
  | idle =>
    have hstarted : ¬ s.stream.started = true := fun hs => hrest ⟨hs, hpoint⟩
    exact ⟨.started, _, rfl, trivial, if_neg hstarted⟩
  | reading want =>
    obtain ⟨hlt, hwant⟩ := h.reading want hpoint
    have hpos := src.chunkSize_pos
    have hstep : ∀ data, readableStep src s (.chunk data) = some (s.pullChunk src data) := by
      intro data
      rw [readableStep, hpoint]
    refine ⟨.chunk ((src.content.drop s.offset).take want), _, rfl, ⟨?_, ?_, ?_⟩, hstep _⟩
    · exact take_prefix _ _
    · intro want' hwant'
      obtain rfl := PullPoint.reading.inj (hpoint.symm.trans hwant')
      exact length_take_le _ _
    · intro hnil
      have hlen := congrArg List.length hnil
      rw [length_take, length_drop, length_nil] at hlen
      omega
  | closingFirst | closingTry | closingCatch _ =>
    obtain ⟨s', hs'⟩ := exists_pullClosed (s := s) (by rw [hpoint]; rfl)
    exact ⟨.closeDone, s', rfl, trivial, hs'⟩
  | returned | threw _ =>
    have hstep : ∃ s', s.pullDone src = some s' := by
      rw [OpenReadable.pullDone, hpoint]
      exact ⟨_, rfl⟩
    obtain ⟨s', hs'⟩ := hstep
    exact ⟨.pullDone, s', rfl, trivial, hs'⟩

theorem quiet_of_idle (hstarted : s.stream.started = true) (hidle : s.point = .idle) :
    Quiet src s := by
  intro l hl
  cases l with
  | read => cases hl
  | cancel => cases hl
  | release => cases hl
  | started => exact if_pos hstarted
  | chunk data => rw [readableStep, hidle]
  | readError e => rw [readableStep, hidle]
  | closeDone => rw [readableStep, pullClosed, hidle]
  | pullDone => rw [readableStep, pullDone, hidle]

theorem Good.at_rest (h : s.Good src) (hquiet : Quiet src s) :
    s.stream.started = true ∧ s.point = .idle := by
  by_contra hrest
  obtain ⟨l, s', hl, -, hs'⟩ := h.exists_job hrest
  rw [hquiet l hl] at hs'
  cases hs'

theorem Good.of_quiet (h : s.Good src) (hquiet : Quiet src s) :
    s.stream.requests = 0 ∧ (s.stream.state = .readable → s.stream.queue ≠ []) := by
  obtain ⟨hstarted, hidle⟩ := h.at_rest hquiet
  have hnone := h.idle hidle
  have hqueue : s.stream.state = .readable → s.stream.queue ≠ [] := by
    intro hstate hqueue
    rw [h.sound.shouldCallPull hstarted hstate hqueue] at hnone
    cases hnone
  refine ⟨?_, hqueue⟩
  by_contra hreq
  obtain ⟨hstate, hempty⟩ := h.sound.waiting (Nat.pos_of_ne_zero hreq)
  exact hqueue hstate hempty

/-! ### The results -/

/-- What an undisturbed run delivers: the bytes of the file in order, all of them when the consumer
is told that there are no more. At rest every read is answered, and there is a chunk to read unless
all is delivered and the stream is closed. -/
structure Delivers (src : FileSource) (s : OpenReadable ε) : Prop where
  inOrder : (received s.stream.answers).flatten <+: src.delivered
  failed : ∀ e, .failed e ∉ s.stream.answers
  done : .done ∈ s.stream.answers →
    (received s.stream.answers).flatten = src.delivered ∧ s.stream.state = .closed
  ends : src.delivered.length < s.stream.answers.length → .done ∈ s.stream.answers
  rest : Quiet src s → s.stream.requests = 0 ∧ (s.stream.queue ≠ [] ∨
    (received s.stream.answers).flatten = src.delivered ∧ s.stream.state = .closed)

/-- The descriptor is closed at most once and not used after that, and it is closed when the stream
has ended or is to end. -/
structure ClosesOnce (s : OpenReadable ε) : Prop where
  last : ∀ before after, s.calls = before ++ .close :: after → .close ∉ before ∧ after = []
  ended : s.stream.state ≠ .readable ∨ s.stream.closeRequested = true → .close ∈ s.calls

theorem CallsOnce.last {closed : Bool} {before after : List FdCall} (h : CallsOnce closed calls)
    (hcalls : calls = before ++ .close :: after) : .close ∉ before ∧ after = [] := by
  obtain ⟨reads, hreads, rfl⟩ := h
  cases closed with
  | false =>
    rw [if_neg Bool.false_ne_true, append_nil] at hcalls
    exact absurd (by rw [hcalls]; simp) hreads
  | true =>
    rw [if_pos rfl] at hcalls
    rcases eq_nil_or_concat after with rfl | ⟨after, c, rfl⟩
    · obtain ⟨rfl, -⟩ := append_inj' hcalls rfl
      exact ⟨hreads, rfl⟩
    · rw [concat_eq_append, ← cons_append, ← append_assoc] at hcalls
      obtain ⟨rfl, -⟩ := append_inj' hcalls rfl
      exact absurd (by simp) hreads

theorem CallsOnce.mem (h : CallsOnce true calls) : .close ∈ calls := by
  obtain ⟨reads, -, rfl⟩ := h
  simp

theorem Good.closesOnce (h : s.Good src) : s.ClosesOnce := by
  refine ⟨fun before after hcalls => h.calls.last hcalls, fun hover => ?_⟩
  have hcan : s.stream.canCloseOrEnqueue = false := by
    rw [← Bool.not_eq_true, canCloseOrEnqueue_iff]
    rintro ⟨hstate, hclose⟩
    rcases hover with hne | hreq
    · exact hne hstate
    · rw [hclose] at hreq
      cases hreq
  exact CallsOnce.mem (h.ended hcan ▸ h.calls)

theorem Flow.delivered (h : s.Flow src) (hgood : s.Good src) (hstate : s.stream.state = .closed) :
    (received s.stream.answers).flatten = src.delivered := by
  have hqueue : s.stream.queue = [] := by
    rcases h.stream.state with hs | ⟨-, -, hqueue⟩
    · cases hstate.symm.trans hs
    · exact hqueue
  have hcan : s.stream.canCloseOrEnqueue = false := by
    rw [← Bool.not_eq_true, canCloseOrEnqueue_iff, hstate]
    exact fun h => nomatch h.1
  have hoffset : s.offset = min src.total src.content.length :=
    Nat.le_antisymm h.offset_le (h.finished (hgood.ended hcan))
  have hbytes := h.bytes
  rwa [chunks, hqueue, append_nil, hoffset] at hbytes

theorem length_le_flatten {chunks : List Bytes} (h : ∀ chunk ∈ chunks, chunk ≠ []) :
    chunks.length ≤ chunks.flatten.length := by
  induction chunks with
  | nil => exact Nat.le_refl _
  | cons chunk chunks ih =>
    have hpos := length_pos_iff.mpr (h chunk mem_cons_self)
    have ih := ih fun c hc => h c (mem_cons_of_mem _ hc)
    rw [flatten_cons, length_append, length_cons]
    omega

theorem Flow.delivers (h : s.Flow src) (hgood : s.Good src) : Delivers src s := by
  have hin : (received s.stream.answers).flatten <+: src.delivered := by
    have hbytes := h.bytes
    rw [chunks, flatten_append] at hbytes
    refine (hbytes ▸ prefix_append _ _ : _ <+: src.content.take s.offset).trans ?_
    exact take_prefix_take_left h.offset_le
  have hdone : .done ∈ s.stream.answers → (received s.stream.answers).flatten = src.delivered ∧
        s.stream.state = .closed := fun hd =>
    ⟨h.delivered hgood (h.stream.done hd), h.stream.done hd⟩
  refine ⟨hin, h.stream.failed, hdone, fun hlong => ?_, fun hquiet => ?_⟩
  · -- without an end every answer was a chunk
    by_contra hnot
    have hcount := length_received hnot h.stream.failed
    have hle := length_le_flatten fun chunk hc => h.nonempty chunk (mem_append_left _ hc)
    have hbound := hin.length_le
    omega
  · obtain ⟨hreq, hqueue⟩ := hgood.of_quiet hquiet
    refine ⟨hreq, ?_⟩
    rcases h.stream.state with hstate | ⟨hstate, -⟩
    · exact .inl (hqueue hstate)
    · exact .inr ⟨h.delivered hgood hstate, hstate⟩

theorem Good.close_of_end (h : s.Good src) (hl : l = .cancel ∨ ∃ e, l = .readError e)
    (hs : readableStep src s l = some s') : .close ∈ s'.calls := by
  have hgood := h.step hs
  suffices hclosed : s'.closed = true from CallsOnce.mem (hclosed ▸ hgood.calls)
  rcases hl with rfl | ⟨e, rfl⟩
  · rw [readableStep] at hs
    cases hcancel : s.stream.cancel with
    | some stream =>
      rw [hcancel] at hs
      cases hs
      exact closed_closeFd
    | none =>
      rw [hcancel] at hs
      cases hs
      exact h.ended (cancel_eq_none hcancel)
  · obtain ⟨want, -, rfl⟩ := reading_of_readError hs
    exact closed_closeFd

end OpenReadable

/-- **Streaming a file.** If the session answers reads with some of the bytes asked for, and with
none only at the end of the file, the stream delivers the file up to the size `statFollow` gave and
closes. In every run the descriptor is closed exactly once when the stream has ended, and not used
after that. Jobs come to an end. -/
theorem openReadable_streams (ε : Type*) (src : FileSource) :
    (∀ s : OpenReadable ε, (readableMachine src).Reach (Undisturbed src) init s →
      Delivers src s ∧ (¬ Quiet src s → ∃ l s', l.isJob = true ∧ Undisturbed src s l ∧
        readableStep src s l = some s')) ∧
    (∀ s : OpenReadable ε, (readableMachine src).Reach (fun _ _ => True) init s →
      ClosesOnce s ∧ ∀ l s', (l = .cancel ∨ ∃ e, l = .readError e) →
        readableStep src s l = some s' → .close ∈ s'.calls) ∧
    WellFounded fun s' s : OpenReadable ε =>
      (readableMachine src).Reach (fun _ _ => True) init s ∧
        ∃ l, l.isJob = true ∧ readableStep src s l = some s' := by
  refine ⟨fun s hs => ?_, fun s hs => ?_, ?_⟩
  · obtain ⟨hgood, hflow⟩ := flow_of_reach hs
    exact ⟨hflow.delivers hgood, fun hquiet => hgood.exists_job fun hrest =>
      hquiet (quiet_of_idle hrest.1 hrest.2)⟩
  · have hgood := good_of_reach hs
    exact ⟨hgood.closesOnce, fun l s' hl hstep => hgood.close_of_end hl hstep⟩
  · refine Subrelation.wf (r := InvImage (· < ·) (weight src)) ?_ (InvImage.wf _ Nat.lt_wfRel.wf)
    rintro s' s ⟨hs, l, hl, hstep⟩
    exact (good_of_reach hs).weight_lt hl hstep

def FileSource.three : FileSource := ⟨[7, 8, 9], 3, 2, by decide⟩

/-- The first read gets one byte of the two it asks for, and the consumer reads three times. -/
def shortReads : List (ReadableLabel Unit) :=
  [.started, .chunk [7], .pullDone, .read, .chunk [8, 9], .closeDone, .pullDone, .read, .read]

theorem openReadable_streams_three : ∃ s : OpenReadable Unit,
    (readableMachine .three).Reach (Undisturbed .three) init s ∧ .done ∈ s.stream.answers ∧
      (received s.stream.answers).flatten = [7, 8, 9] ∧ .close ∈ s.calls := by
  have hrun : ((Machine.run (readableStep .three) (Undisturbed .three) shortReads init).any
      fun s => decide (.done ∈ s.stream.answers ∧ s.stream.state ≠ .readable)) = true := by
    decide +kernel
  obtain ⟨s, hrun, hdone, hended⟩ := Machine.exists_of_run hrun
  have hreach := Machine.Reach.of_run hrun
  obtain ⟨hflow, hany, -⟩ := openReadable_streams Unit .three
  exact ⟨s, hreach, hdone, ((hflow s hreach).1.done hdone).1,
    (hany s (hreach.mono fun _ _ _ => trivial)).1.ended (.inl hended)⟩

end Anyfs
