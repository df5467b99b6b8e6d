import Anyfs.Lib.CString

/-!
# Sessions: partition slots and their states

A slot has a state NEW → MOUNTING → MOUNTED | FAILED, and so has the whole disk. What discovery
fixes (`PartInfo`, `Disk`) is kept apart from what entering and leaving change (`PartSlot`,
`Session`): the code that would add slots in `enter_container_slot` is switched off.
-/

namespace Anyfs

open CString List

/-- `AnyfsPartKind`. -/
inductive AnyfsPartKind where
  | fs
  | lvmPv
  | luks
  | nestedPartitionTable
  | unknown
  deriving DecidableEq, Repr, Inhabited

def anyfsPartkindName : AnyfsPartKind → Bytes
  | .fs => ascii "FS"
  | .lvmPv => ascii "LVM_PV"
  | .luks => ascii "LUKS"
  | .nestedPartitionTable => ascii "NESTED"
  | .unknown => ascii "UNKNOWN"

/-- `AnyfsPartState`. -/
inductive AnyfsPartState where
  | new
  | mounting
  | mounted
  | failed
  deriving DecidableEq, Repr, Inhabited

/-- The mount flags of `anyfs_session_enter`: `ANYFS_MOUNT_RDONLY`, `ANYFS_MOUNT_REPLACE` and
the four-bit field `ANYFS_MOUNT_FAT_CP_*`. -/
structure MountFlags where
  rdonly : Bool
  replace : Bool
  fatCp : Fin 16
  deriving DecidableEq

instance neZero_sixteen : NeZero 16 := ⟨by decide⟩

/-! ### Error numbers -/

def ENOENT : ℤ := 2
def EIO : ℤ := 5
def EBUSY : ℤ := 16
def EISDIR : ℤ := 21
def EINVAL : ℤ := 22
def ENOSYS : ℤ := 38

/-! ### The disk -/

/-- What discovery finds out about a slot. The parent is `none` for `ROOT_PARENT`. -/
structure PartInfo where
  parent : Option ℕ
  index : UInt32
  kind : AnyfsPartKind
  blkdev : Bytes
  deriving DecidableEq, Repr, Inhabited

/-- The part of an `AnyfsSession` that does not change after it was opened. -/
structure Disk where
  diskId : ℕ
  readonly : Bool
  wholeFstypeHint : Bytes
  wholeDev : UInt32
  parts : List PartInfo
  /-- The disk id is an `int`. -/
  diskId_lt : diskId < 2 ^ 31
  /-- The slots are an array of `MAX_PARTS`. -/
  length_parts_le : parts.length ≤ 128
  /-- Partitions are numbered from one; zero stands for the whole disk. -/
  index_ne_zero : ∀ p ∈ parts, p.index ≠ 0
  /-- A partition number is used once under a parent. -/
  nodup_pair : (parts.map fun p => (p.parent, p.index)).Nodup
  /-- Only containers have children. -/
  parent_kind : ∀ p ∈ parts, ∀ q, p.parent = some q → (parts.getD q default).kind ≠ .fs

namespace Disk

def part (d : Disk) (i : ℕ) : PartInfo := d.parts.getD i default

/-- `find_slot_by_pair_locked`. -/
def findSlotByPair (d : Disk) (parent : Option ℕ) (index : UInt32) : Option ℕ :=
  d.parts.findIdx? fun p => p.parent == parent && p.index == index

variable {d : Disk} {parent : Option ℕ} {index : UInt32} {i j : ℕ}

theorem findSlotByPair_eq_some (h : d.findSlotByPair parent index = some i) :
    i < d.parts.length ∧ (d.part i).parent = parent ∧ (d.part i).index = index := by
  obtain ⟨hi, hp, -⟩ := List.findIdx?_eq_some_iff_getElem.mp h
  simp only [Bool.and_eq_true, beq_iff_eq] at hp
  rw [part, getD_eq_getElem _ _ hi]
  exact ⟨hi, hp⟩

theorem eq_of_pair_eq (hi : i < d.parts.length) (hj : j < d.parts.length)
    (hp : (d.part i).parent = (d.part j).parent) (hx : (d.part i).index = (d.part j).index) :
    i = j := by
  rw [part, part, getD_eq_getElem _ _ hi, getD_eq_getElem _ _ hj] at hp hx
  have hi' : i < (d.parts.map fun p => (p.parent, p.index)).length := by simpa using hi
  have hj' : j < (d.parts.map fun p => (p.parent, p.index)).length := by simpa using hj
  have heq : (d.parts.map fun p => (p.parent, p.index))[i] =
      (d.parts.map fun p => (p.parent, p.index))[j] := by simp [hp, hx]
  exact d.nodup_pair.getElem_inj_iff.mp heq

theorem index_part_ne_zero (hi : i < d.parts.length) : (d.part i).index ≠ 0 := by
  refine d.index_ne_zero _ ?_
  rw [part, getD_eq_getElem _ _ hi]
  exact getElem_mem hi

theorem findSlotByPair_eq_none_of_fs (hk : (d.part i).kind = .fs) (index : UInt32) :
    d.findSlotByPair (some i) index = none := by
  cases h : d.findSlotByPair (some i) index with
  | none => rfl
  | some j =>
    obtain ⟨hj, hp, -⟩ := findSlotByPair_eq_some h
    refine absurd hk (d.parent_kind (d.part j) ?_ i hp)
    rw [part, getD_eq_getElem _ _ hj]
    exact getElem_mem hj

end Disk

def Disk.single : Disk where
  diskId := 0
  readonly := false
  wholeFstypeHint := []
  wholeDev := 1
  parts := [⟨none, 1, .fs, ascii "/dev/vda1"⟩]
  diskId_lt := by decide
  length_parts_le := by decide
  index_ne_zero := by decide
  nodup_pair := by decide
  parent_kind := by simp

/-! ### The session -/

/-- What a session keeps for a partition. -/
structure PartSlot where
  state : AnyfsPartState
  failReason : Option Bytes
  fstypeCache : Bytes
  deriving DecidableEq, Repr, Inhabited

/-- `anyfs_session`: the disk and the states. -/
structure Session where
  disk : Disk
  wholeState : AnyfsPartState
  slot : ℕ → PartSlot

namespace Session

def setSlot (s : Session) (i : ℕ) (p : PartSlot) : Session :=
  { s with slot := Function.update s.slot i p }

def setState (s : Session) (i : ℕ) (st : AnyfsPartState) : Session :=
  s.setSlot i { s.slot i with state := st }

def setFail (s : Session) (i : ℕ) (reason : Bytes) : Session :=
  s.setSlot i { s.slot i with state := .failed, failReason := some reason }

def setWhole (s : Session) (st : AnyfsPartState) : Session := { s with wholeState := st }

section Simp

variable (s : Session) (i j : ℕ) (p : PartSlot) (st : AnyfsPartState) (r : Bytes)

@[simp] theorem slot_setSlot_self : (s.setSlot i p).slot i = p := by simp [setSlot]
@[simp] theorem disk_setState : (s.setState i st).disk = s.disk := rfl
@[simp] theorem state_setState_self : ((s.setState i st).slot i).state = st := by
  simp [setState]
@[simp] theorem fstypeCache_setState :
    ((s.setState i st).slot j).fstypeCache = (s.slot j).fstypeCache := by
  by_cases h : j = i <;> simp [setState, setSlot, h]
@[simp] theorem state_setFail_self : ((s.setFail i r).slot i).state = .failed := by
  simp [setFail]

theorem setFail_setState : (s.setState i st).setFail i r = s.setFail i r := by
  simp [setFail, setState, setSlot]

variable {s i j p st r}

theorem slot_setSlot_of_ne (h : j ≠ i) : (s.setSlot i p).slot j = s.slot j := by
  simp [setSlot, h]

end Simp

/-- A session as `anyfs_session_open` leaves it. `cache` are the filesystem types that were probed.
-/
def opened (d : Disk) (cache : ℕ → Bytes) : Session where
  disk := d
  wholeState := .new
  slot i := ⟨.new, none, cache i⟩

end Session

end Anyfs
