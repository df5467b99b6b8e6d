import Anyfs.Session.Enter
import Anyfs.Session.Protocol

/-!
# Concurrent calls on a session

`anyfs_session_enter` and `anyfs_session_leave` cut at the session's mutex: one step is one section
between locking and unlocking, or one call of the kernel without the lock. A thread that waits on
the condition variable of a target that is MOUNTING cannot take a step.
-/

namespace Anyfs

open Function

/-! ### Targets at the top level -/

/-- A slot without a parent. -/
structure TopSlot (d : Disk) where
  id : ℕ
  id_lt : id < d.parts.length
  parent_eq : (d.part id).parent = none
  deriving DecidableEq

/-- What `anyfs_session_enter` enters: the whole disk or a top-level slot. -/
inductive TopTarget (d : Disk) where
  | whole
  | slot (i : TopSlot d)
  deriving DecidableEq

variable {d : Disk}

def TopTarget.target : TopTarget d → Target
  | .whole => .whole
  | .slot i => .slot i.id

def TopTarget.name (t : TopTarget d) : MountName := d.nameOf t.target

/-- The slot of a partition number, as `find_slot_by_pair_locked` finds it. -/
def Disk.findTop (d : Disk) (part : UInt32) : Option (TopSlot d) :=
  match h : d.findSlotByPair none part with
  | none => none
  | some i =>
    some ⟨i, (Disk.findSlotByPair_eq_some h).1, (Disk.findSlotByPair_eq_some h).2.1⟩

theorem TopTarget.target_inj {t u : TopTarget d} (h : t.target = u.target) : t = u := by
  cases t with
  | whole =>
    cases u with
    | whole => rfl
    | slot j => cases h
  | slot i =>
    cases u with
    | whole => cases h
    | slot j =>
      obtain ⟨i, _, _⟩ := i
      obtain ⟨j, _, _⟩ := j
      obtain rfl : i = j := Target.slot.inj h
      rfl

theorem TopTarget.name_inj {t u : TopTarget d} (h : t.name = u.name) : t = u := by
  refine target_inj (Disk.nameOf_inj ?_ ?_ h)
  · cases t with
    | whole => trivial
    | slot i => exact i.id_lt
  · cases u with
    | whole => trivial
    | slot i => exact i.id_lt

/-! ### Program points -/

/-- Where a thread is. A call of `anyfs_session_leave` by `release_conflicts` says where the attempt
goes on; `none` is a call made from outside. -/
inductive Pc (d : Disk) where
  /-- In no call. -/
  | idle
  /-- Before the first section of `anyfs_session_enter`. -/
  | begin (t : TopTarget d) (replace : Bool)
  /-- `release_conflicts` for slot `i`. -/
  | relWhole (i : TopSlot d)
  /-- `release_conflicts` for the whole disk, at slot `j`. -/
  | relPart (j : ℕ)
  /-- Before the first section of `anyfs_session_leave` of a partition. -/
  | leaveCheck (part : UInt32) (k : Option ℕ)
  /-- Before `anyfs_umount` of the whole disk. -/
  | umountWhole (k : Option (TopSlot d))
  /-- The whole disk was unmounted. -/
  | leftWhole (k : Option (TopSlot d))
  /-- Before `anyfs_umount` of slot `i`. -/
  | umountPart (i : TopSlot d) (k : Option ℕ)
  /-- Slot `i` was unmounted. -/
  | leftPart (i : TopSlot d) (k : Option ℕ)
  /-- Before `anyfs_mount`, after `waited` milliseconds of retries. -/
  | mount (t : TopTarget d) (waited : ℕ)
  /-- The mount was busy: in `busy_is_transient`. -/
  | busy (t : TopTarget d) (waited : ℕ)
  /-- Before the last section of `anyfs_session_enter`. -/
  | publish (t : TopTarget d) (rc : ℤ)
  /-- `enter_container_slot` gives up. -/
  | container (i : TopSlot d)
  deriving DecidableEq

/-- What decides a step: a call from outside, the result of a call of the kernel, or nothing. -/
inductive Act where
  | enter (part : UInt32) (replace : Bool)
  | leave (part : UInt32)
  | rc (r : ℤ)
  | go
  deriving DecidableEq

/-- What a step changes: nothing, the state of a target, or the mounts of the kernel. -/
inductive Effect (d : Disk) where
  | skip
  | set (t : TopTarget d) (st : AnyfsPartState)
  | mount (t : TopTarget d)
  | umount (t : TopTarget d)

namespace Pc

/-- Where an attempt to mount slot `i`, or an outside call, goes on after leaving the whole
disk. -/
def afterWhole : Option (TopSlot d) → Pc d
  | none => .idle
  | some i => .mount (.slot i) 0

def afterPart : Option ℕ → Pc d
  | none => .idle
  | some j => .relPart j

def afterBegin : TopTarget d → Bool → Pc d
  | .whole, replace => if replace then .relPart 0 else .mount .whole 0
  | .slot i, replace =>
    if (d.part i.id).kind ≠ .fs then .container i
    else if replace then .relWhole i
    else .mount (.slot i) 0

end Pc

/-- The state that publishes the result of a mount. A busy device is not held against a slot;
no error is held against the whole disk. -/
def publishedState : TopTarget d → ℤ → AnyfsPartState
  | .whole, rc => if rc = 0 then .mounted else .new
  | .slot _, rc => if rc = 0 then .mounted else if rc = -EBUSY then .new else .failed

/-- `conflict_mounted_locked` on the states alone. -/
def conflictState (st : Target → AnyfsPartState) : TopTarget d → Bool
  | .slot _ => st .whole ≠ .new
  | .whole => (List.range d.parts.length).any fun i =>
    d.isTopFs i && (st (.slot i) = .mounting ∨ st (.slot i) = .mounted)

/-- What a thread does next. -/
def Pc.step (st : Target → AnyfsPartState) : Pc d → Act → Option (Effect d × Pc d)
  | .idle, .enter part replace =>
    some (.skip,
      if part = 0 then if d.wholeDev = 0 then .idle else .begin .whole replace
      else
        match d.findTop part with
        | none => .idle
        | some i => .begin (.slot i) replace)
  | .idle, .leave part =>
    some (.skip, if part = 0 then .umountWhole none else .leaveCheck part none)
  | .begin t replace, .go =>
    -- the loop around `pthread_cond_wait`
    if st t.target = .mounting then none
    -- FAILED is final for a slot; the whole disk asks for MOUNTED only
    else if st t.target = .mounted ∨ (st t.target = .failed ∧ t ≠ .whole) then
      some (.skip, .idle)
    else some (.set t .mounting, .afterBegin t replace)
  | .relWhole i, .go =>
    some (.skip, if st .whole = .mounted then .umountWhole (some i) else .mount (.slot i) 0)
  | .relPart j, .go =>
    some (.skip,
      if d.parts.length ≤ j then .mount .whole 0
      else if d.isTopFs j ∧ st (.slot j) = .mounted then
        .leaveCheck (d.part j).index (some (j + 1))
      else .relPart (j + 1))
  | .leaveCheck part k, .go =>
    some (.skip,
      match d.findTop part with
      | none => .afterPart k
      | some i =>
        if st (.slot i.id) ≠ .mounted ∨ (d.part i.id).kind ≠ .fs then .afterPart k
        else .umountPart i k)
  | .umountWhole k, .rc r =>
    some (if r = 0 then (.umount .whole, .leftWhole k) else (.skip, .afterWhole k))
  | .leftWhole k, .go => some (.set .whole .new, .afterWhole k)
  | .umountPart i k, .rc r =>
    some (if r = 0 then (.umount (.slot i), .leftPart i k) else (.skip, .afterPart k))
  | .leftPart i k, .go => some (.set (.slot i) .new, .afterPart k)
  | .mount t waited, .rc r =>
    some (if r = 0 then (.mount t, .publish t 0)
      else if r = -EBUSY ∧ waited < 500 then (.skip, .busy t waited)
      else (.skip, .publish t r))
  | .busy t waited, .go =>
    some (.skip, if conflictState st t then .publish t (-EBUSY) else .mount t (waited + 10))
  | .publish t rc, .go => some (.set t (publishedState t rc), .idle)
  | .container i, .go => some (.set (.slot i) .failed, .idle)
  | _, _ => none

/-! ### The machine -/

/-- The state of each target, how many mounts the kernel has on its mount point, and the threads. -/
structure Sys (d : Disk) where
  state : Target → AnyfsPartState
  mounts : MountName → ℕ
  pc : ℕ → Pc d

def Sys.opened (d : Disk) : Sys d := ⟨fun _ => .new, fun _ => 0, fun _ => .idle⟩

variable (s : Sys d)

def Sys.Quiet : Prop := ∀ a, s.pc a = .idle

def Effect.Enabled : Effect d → Prop
  | .umount t => 0 < s.mounts t.name
  | _ => True

instance : DecidablePred (Effect.Enabled s)
  | .skip => inferInstanceAs (Decidable True)
  | .set _ _ => inferInstanceAs (Decidable True)
  | .mount _ => inferInstanceAs (Decidable True)
  | .umount t => inferInstanceAs (Decidable (0 < s.mounts t.name))

/-- What a step does to the session. -/
def Effect.exec : Effect d → Sys d
  | .skip => s
  | .set t st => { s with state := update s.state t.target st }
  | .mount t => { s with mounts := update s.mounts t.name (s.mounts t.name + 1) }
  | .umount t => { s with mounts := update s.mounts t.name (s.mounts t.name - 1) }

def Sys.goto (a : ℕ) (pc : Pc d) : Sys d :=
  { s with pc := update s.pc a pc }

/-- The steps of all threads. -/
def sessionStep (l : ℕ × Act) : Option (Sys d) :=
  ((s.pc l.1).step s.state l.2).bind fun r =>
    if r.1.Enabled s then some ((r.1.exec s).goto l.1 r.2) else none

def sessionMachine (d : Disk) : Machine (Sys d) (ℕ × Act) := .ofFun sessionStep

end Anyfs
