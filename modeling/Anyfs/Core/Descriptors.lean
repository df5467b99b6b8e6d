import Mathlib.Data.Int.Notation
import Mathlib.Tactic.Common

/-!
# The descriptors of a session

On a `NodeWasmSession` and a `NativeSession` a negative result of the engine is an error. The
operations `open` and `close` of the worker hand it on as a result, and `WasmSession` takes it for
one.
-/

namespace Anyfs

open List

/-- The classes that extend `SessionBase`. -/
inductive SessionKind where
  | wasm
  | nodeWasm
  | native
  deriving DecidableEq

/-- What the worker posts back. -/
inductive WorkerReply where
  | ok (result : ℤ)
  | failed (error : String)

def workerReply : Except String ℤ → WorkerReply
  | .ok result => .ok result
  | .error e => .failed e

/-- `onMessage` of a `WasmSession`: how the promise of a call settles. -/
def WorkerReply.settle : WorkerReply → Except String ℤ
  | .ok result => .ok result
  | .failed e => .error e

/-- `open` and `close` of the worker: what the call of the engine resolves with. -/
def workerOp (rc : ℤ) : Except String ℤ := .ok rc

def failNegative (call : String) (rc : ℤ) : Except String ℤ :=
  if rc < 0 then .error (call ++ " failed: " ++ toString rc) else .ok rc

variable (kind : SessionKind)

/-- `_openFdRaw`, when the engine's open gives `rc`. -/
def SessionKind.openFdRaw (path : String) (rc : ℤ) : Except String ℤ :=
  match kind with
  | .wasm => (workerReply (workerOp rc)).settle
  | .nodeWasm | .native => failNegative ("open(" ++ path ++ ")") rc

/-- `_closeFdRaw`, when the engine's close gives `rc`. -/
def SessionKind.closeFdRaw (fd rc : ℤ) : Except String Unit :=
  match kind with
  | .wasm => (workerReply (workerOp rc)).settle.map fun _ => ()
  | .nodeWasm | .native => (failNegative ("close(" ++ toString fd ++ ")") rc).map fun _ => ()

/-- `disposed` and `fds`. -/
structure FdSession where
  disposed : Bool
  fds : List ℤ

/-- What `check` throws. -/
def alreadyDisposed : String := "AnyfsSession: already disposed"

def openFd (path : String) (rc : ℤ) (s : FdSession) : Except String ℤ × FdSession :=
  if s.disposed then (.error alreadyDisposed, s)
  else
    match kind.openFdRaw path rc with
    | .error e => (.error e, s)
    | .ok fd => (.ok fd, { s with fds := s.fds.insert fd })

def closeFd (fd rc : ℤ) (s : FdSession) : Except String Unit × FdSession :=
  if s.disposed then (.error alreadyDisposed, s)
  else (kind.closeFdRaw fd rc, { s with fds := s.fds.erase fd })

/-- What is done with a session: `openFd` adds to `fds` when the engine has answered, `closeFd`
deletes when it is called. -/
inductive FdAct where
  | openFd (path : String) (rc : ℤ)
  | closeFd (fd rc : ℤ)
  | close

def FdSession.act (s : FdSession) : FdAct → FdSession
  | .openFd path rc => (Anyfs.openFd kind path rc s).2
  | .closeFd fd rc => (Anyfs.closeFd kind fd rc s).2
  | .close => ⟨true, []⟩

def FdSession.run (acts : List FdAct) : FdSession :=
  acts.foldl (act kind) ⟨false, []⟩

/-- Calls fail exactly where the engine does. -/
structure Reports (kind : SessionKind) (s : FdSession) (path : String) (fd openRc closeRc : ℤ) :
    Prop where
  opens : (∃ e, (openFd kind path openRc s).1 = .error e) ↔ openRc < 0
  resolves : 0 ≤ openRc → (openFd kind path openRc s).1 = .ok openRc
  closes : (∃ e, (closeFd kind fd closeRc s).1 = .error e) ↔ closeRc < 0

theorem openFdRaw_eq (path : String) (rc : ℤ) : kind.openFdRaw path rc =
    if kind ≠ .wasm ∧ rc < 0 then .error ("open(" ++ path ++ ")" ++ " failed: " ++ toString rc)
    else .ok rc := by
  cases kind <;> simp [SessionKind.openFdRaw, workerOp, workerReply, WorkerReply.settle,
    failNegative]

theorem closeFdRaw_eq (fd rc : ℤ) : kind.closeFdRaw fd rc =
    if kind ≠ .wasm ∧ rc < 0 then
      .error ("close(" ++ toString fd ++ ")" ++ " failed: " ++ toString rc)
    else .ok () := by
  by_cases h : rc < 0 <;> cases kind <;>
    simp [SessionKind.closeFdRaw, workerOp, workerReply, WorkerReply.settle, failNegative,
      Except.map, h]

theorem reports_iff {s : FdSession} (hs : s.disposed = false) (path : String)
    (fd openRc closeRc : ℤ) :
    Reports kind s path fd openRc closeRc ↔ (kind = .wasm → 0 ≤ openRc ∧ 0 ≤ closeRc) := by
  have hopen : (openFd kind path openRc s).1 = kind.openFdRaw path openRc := by
    rw [openFd, if_neg (by simp [hs])]
    split <;> simp [*]
  have hclose : (closeFd kind fd closeRc s).1 = kind.closeFdRaw fd closeRc := by
    rw [closeFd, if_neg (by simp [hs])]
  have hfields : Reports kind s path fd openRc closeRc ↔
      ((∃ e, kind.openFdRaw path openRc = .error e) ↔ openRc < 0) ∧
      (0 ≤ openRc → kind.openFdRaw path openRc = .ok openRc) ∧
      ((∃ e, kind.closeFdRaw fd closeRc = .error e) ↔ closeRc < 0) := by
    rw [← hopen, ← hclose]
    exact ⟨fun h => ⟨h.opens, h.resolves, h.closes⟩, fun h => ⟨h.1, h.2.1, h.2.2⟩⟩
  rw [hfields, openFdRaw_eq, closeFdRaw_eq]
  by_cases hk : kind = .wasm
  · simp [hk]
  · by_cases h₁ : openRc < 0 <;> by_cases h₂ : closeRc < 0 <;> simp [hk, h₁, h₂]

theorem FdSession.act_nonneg {kind : SessionKind} {s : FdSession} {a : FdAct}
    (hs : ∀ fd ∈ s.fds, 0 ≤ fd) (ha : kind = .wasm → ∀ path rc, a = .openFd path rc → 0 ≤ rc) :
    ∀ fd ∈ (s.act kind a).fds, 0 ≤ fd := by
  cases a with
  | close => exact nofun
  | closeFd fd rc =>
    intro x hx
    rw [act, Anyfs.closeFd] at hx
    split_ifs at hx
    · exact hs x hx
    · exact hs x (mem_of_mem_erase hx)
  | openFd path rc =>
    intro x hx
    rw [act, Anyfs.openFd, openFdRaw_eq] at hx
    split_ifs at hx with _ hneg
    · exact hs x hx
    · exact hs x hx
    · rcases mem_insert_iff.mp hx with rfl | hx
      · by_cases hk : kind = .wasm
        · exact ha hk path x rfl
        · simpa [hk] using hneg
      · exact hs x hx

theorem FdSession.run_nonneg {kind : SessionKind} {s : FdSession} {acts : List FdAct}
    (hs : ∀ fd ∈ s.fds, 0 ≤ fd) (h : kind = .wasm → ∀ path rc, .openFd path rc ∈ acts → 0 ≤ rc) :
    ∀ fd ∈ (acts.foldl (act kind) s).fds, 0 ≤ fd := by
  induction acts generalizing s with
  | nil => exact hs
  | cons a acts ih =>
    refine ih (act_nonneg hs ?_) fun hk path rc hmem => h hk path rc (mem_cons_of_mem _ hmem)
    rintro hk path rc rfl
    exact h hk path rc mem_cons_self

/-- Failed calls are reported by every kind of session except by a `WasmSession`, whose calls all
resolve: its set of descriptors gets negative numbers, and the others' do not. -/
theorem session_reports_iff : (∀ s : FdSession, s.disposed = false → ∀ path fd openRc closeRc,
      Reports kind s path fd openRc closeRc ↔ (kind = .wasm → 0 ≤ openRc ∧ 0 ≤ closeRc)) ∧
    (∀ acts, (kind = .wasm → ∀ path rc, .openFd path rc ∈ acts → 0 ≤ rc) →
      ∀ fd ∈ (FdSession.run kind acts).fds, 0 ≤ fd) ∧
    ((∀ acts, ∀ fd ∈ (FdSession.run kind acts).fds, 0 ≤ fd) ↔ kind ≠ .wasm) := by
  have hrun (acts : List FdAct) (h : kind = .wasm → ∀ path rc, .openFd path rc ∈ acts → 0 ≤ rc) :=
    FdSession.run_nonneg (s := ⟨false, []⟩) nofun h
  refine ⟨fun s hs => reports_iff kind hs, hrun, ?_, fun hk acts => hrun acts fun h => absurd h hk⟩
  rintro h rfl
  exact absurd (h [.openFd "/x" (-2)] (-2) (by decide)) (by decide)

/-- A `WasmSession` resolves with -2, and keeps it as a descriptor. -/
theorem openFd_wasm_noent :
    openFd .wasm "/x" (-2) ⟨false, []⟩ = (.ok (-2), ⟨false, [-2]⟩) ∧
      closeFd .wasm 3 (-9) ⟨false, [3]⟩ = (.ok (), ⟨false, []⟩) :=
  ⟨rfl, rfl⟩

end Anyfs
