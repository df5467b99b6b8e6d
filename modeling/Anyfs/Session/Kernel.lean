import Anyfs.Session.Types

/-!
# The kernel below a session

What the kernel answers is an input (`KernelEnv`, indexed by a call counter), with one restriction:
`umount` succeeds only on a mount point that is mounted. The mount table and the calls made so far
are the state (`Kernel`).
-/

namespace Anyfs

open CString List Function

/-- What a mount below `/lklmnt` is for. A partition has a number, a nested slot an id. -/
inductive MountNode where
  | whole
  | part (index : UInt32)
  | slot (id : ℕ)
  deriving DecidableEq

/-- The name of a mount below `/lklmnt`. -/
structure MountName where
  disk : ℕ
  node : MountNode
  deriving DecidableEq

open MountName

namespace MountName

/-- The mount name the sources print: `anyfs_d0_whole`, `anyfs_d0_p1` or `anyfs_d0_s3`. -/
def text (m : MountName) : Bytes :=
  ascii "anyfs_d" ++ decimal m.disk ++
    match m.node with
    | .whole => ascii "_whole"
    | .part index => ascii "_p" ++ decimal index.toNat
    | .slot id => ascii "_s" ++ decimal id

def point (m : MountName) : Bytes := ascii "/lklmnt/" ++ m.text

end MountName

variable (d : Disk)

def Disk.mountName (i : ℕ) : MountName :=
  ⟨d.diskId, if (d.part i).parent = none then .part (d.part i).index else .slot i⟩

def Disk.wholeName : MountName := ⟨d.diskId, .whole⟩

theorem Disk.snprintf_point {d : Disk} {i : ℕ} (hi : i < d.parts.length) :
    snprintf 64 (d.mountName i).point = (d.mountName i).point := by
  have hdisk : (decimal d.diskId).length ≤ 10 :=
    length_decimal_le (by decide) (d.diskId_lt.trans (by decide))
  have hindex : (decimal (d.part i).index.toNat).length ≤ 10 :=
    length_decimal_le (by decide) ((d.part i).index.toNat_lt.trans (by decide))
  have hslot : (decimal i).length ≤ 10 :=
    length_decimal_le (by decide) ((hi.trans_le d.length_parts_le).trans (by decide))
  have hmnt : (ascii "/lklmnt/").length = 8 := by decide
  have hany : (ascii "anyfs_d").length = 7 := by decide
  have hp : (ascii "_p").length = 2 := by decide
  have hs : (ascii "_s").length = 2 := by decide
  refine take_of_length_le ?_
  rw [point, text, Disk.mountName]
  split_ifs <;> simp only [length_append] <;> omega

/-- What can be mounted: the whole disk or a slot. -/
inductive Target where
  | whole
  | slot (i : ℕ)
  deriving DecidableEq

def Disk.nameOf : Target → MountName
  | .whole => d.wholeName
  | .slot i => d.mountName i

def Disk.Has : Target → Prop
  | .whole => True
  | .slot i => i < d.parts.length

def Disk.IsTarget : Target → Prop
  | .whole => True
  | .slot i => i < d.parts.length ∧ (d.part i).kind = .fs

instance : DecidablePred d.IsTarget
  | .whole => inferInstanceAs (Decidable True)
  | .slot i => inferInstanceAs (Decidable (i < d.parts.length ∧ (d.part i).kind = .fs))

theorem Disk.IsTarget.has {d : Disk} {t : Target} (h : d.IsTarget t) : d.Has t := by
  cases t with
  | whole => trivial
  | slot i => exact h.1

/-- The state of a target. -/
def Session.stateOf (s : Session) : Target → AnyfsPartState
  | .whole => s.wholeState
  | .slot i => (s.slot i).state

namespace Session

variable {s : Session} {t : Target} {i : ℕ} {p : PartSlot} {st : AnyfsPartState}

@[simp] theorem stateOf_setSlot_self : (s.setSlot i p).stateOf (.slot i) = p.state := by
  simp [stateOf]

@[simp] theorem stateOf_setState_self : (s.setState i st).stateOf (.slot i) = st := by
  simp [setState]

@[simp] theorem stateOf_setFail_self {r : Bytes} : (s.setFail i r).stateOf (.slot i) = .failed := by
  simp [setFail]

theorem stateOf_setSlot_of_ne (h : t ≠ .slot i) : (s.setSlot i p).stateOf t = s.stateOf t := by
  cases t with
  | whole => rfl
  | slot j => exact congrArg PartSlot.state (slot_setSlot_of_ne fun hj => h (hj ▸ rfl))

@[simp] theorem stateOf_setWhole_self : (s.setWhole st).stateOf .whole = st := rfl

theorem stateOf_setWhole_of_ne (h : t ≠ .whole) : (s.setWhole st).stateOf t = s.stateOf t := by
  cases t with
  | whole => exact absurd rfl h
  | slot j => rfl

end Session

@[simp] theorem Disk.disk_nameOf (d : Disk) (t : Target) : (d.nameOf t).disk = d.diskId := by
  cases t <;> rfl

theorem Disk.mountName_inj {d : Disk} {i j : ℕ} (hi : i < d.parts.length)
    (hj : j < d.parts.length) (h : d.mountName i = d.mountName j) : i = j := by
  have hnode : (if (d.part i).parent = none then MountNode.part (d.part i).index else .slot i) =
      if (d.part j).parent = none then MountNode.part (d.part j).index else .slot j :=
    congrArg node h
  split_ifs at hnode with hp hq hq
  · exact Disk.eq_of_pair_eq hi hj (hp.trans hq.symm) (MountNode.part.inj hnode)
  · exact MountNode.slot.inj hnode

theorem Disk.nameOf_inj {d : Disk} {t u : Target} (ht : d.Has t) (hu : d.Has u)
    (h : d.nameOf t = d.nameOf u) : t = u := by
  have hne : ∀ i, d.mountName i ≠ d.wholeName := by
    intro i hi
    have hnode := congrArg node hi
    simp only [Disk.mountName, Disk.wholeName] at hnode
    split_ifs at hnode
  cases t with
  | whole =>
    cases u with
    | whole => rfl
    | slot j => exact absurd h.symm (hne j)
  | slot i =>
    cases u with
    | whole => exact absurd h (hne i)
    | slot j => rw [Disk.mountName_inj ht hu h]

theorem eq_of_decimal_append {a b : ℕ} {x y : Bytes}
    (h : decimal a ++ 95 :: x = decimal b ++ 95 :: y) : a = b ∧ x = y := by
  have hdigits (n : ℕ) : 95 ∉ decimal n := fun hc => Bool.noConfusion (isDigit_of_mem_decimal hc)
  have hfirst := congrArg (strchr 95) h
  rw [strchr_append (hdigits a), strchr_append (hdigits b)] at hfirst
  obtain ⟨hdec, hrest⟩ := Prod.mk.inj (Option.some.inj hfirst)
  exact ⟨decimal_injective hdec, hrest⟩

theorem MountName.point_injective : Function.Injective point := by
  rintro ⟨a, m⟩ ⟨b, n⟩ h
  have htext := append_cancel_left h
  simp only [text, append_assoc] at htext
  have hnode := append_cancel_left htext
  cases m <;> cases n <;> obtain ⟨rfl, hrest⟩ := eq_of_decimal_append hnode
  case whole.whole => rfl
  case part.part i j => rw [UInt32.toNat_inj.mp (decimal_injective (cons.inj hrest).2)]
  case slot.slot i j => rw [decimal_injective (cons.inj hrest).2]
  all_goals cases hrest

theorem Disk.snprintf_nameOf {d : Disk} {t : Target} (ht : d.Has t) :
    snprintf 64 (d.nameOf t).point = (d.nameOf t).point := by
  cases t with
  | slot i => exact Disk.snprintf_point ht
  | whole =>
    have hdisk : (decimal d.diskId).length ≤ 10 :=
      length_decimal_le (by decide) (d.diskId_lt.trans (by decide))
    refine take_of_length_le ?_
    rw [nameOf, wholeName, point, text]
    simp [ascii]
    omega

/-- **Mount points.** The mount points of the targets of a disk fit into their buffers. As they are
printed there, they are distinct, and so are those of disks with different ids. -/
theorem mountPoints_distinct (d e : Disk) :
    (∀ t, d.Has t → (d.nameOf t).point.length < 64) ∧
    (∀ t u, d.Has t → d.Has u →
      snprintf 64 (d.nameOf t).point = snprintf 64 (d.nameOf u).point → t = u) ∧
    ∀ t u, d.Has t → e.Has u →
      snprintf 64 (d.nameOf t).point = snprintf 64 (e.nameOf u).point → d.diskId = e.diskId := by
  refine ⟨fun t ht => ?_, fun t u ht hu h => ?_, fun t u ht hu h => ?_⟩
  · exact (snprintf_eq_self_iff (.inl (by decide))).mp (Disk.snprintf_nameOf ht)
  · rw [Disk.snprintf_nameOf ht, Disk.snprintf_nameOf hu] at h
    exact Disk.nameOf_inj ht hu (point_injective h)
  · rw [Disk.snprintf_nameOf ht, Disk.snprintf_nameOf hu] at h
    simpa using congrArg disk (point_injective h)

/-- What the kernel answers to the call made at each point in time. -/
structure KernelEnv where
  blkdev : ℕ → ℤ
  dev : ℕ → UInt32
  roset : ℕ → ℤ
  mount : ℕ → ℤ
  umount : ℕ → ℤ
  filesystems : ℕ → Option Bytes

def KernelEnv.accepting : KernelEnv :=
  ⟨fun _ => 0, fun _ => 0, fun _ => 0, fun _ => 0, fun _ => 0, fun _ => none⟩

/-- The calls made to the kernel. -/
inductive KernelCall where
  | blkdev (rc : ℤ)
  | roset (dev : Bytes) (ro : Bool) (rc : ℤ)
  | mount (dev : Bytes) (name : MountName) (fstype : Bytes) (rdonly : Bool) (opts : Bytes) (rc : ℤ)
  | umount (name : MountName) (rc : ℤ)
  deriving DecidableEq

/-- The call counter, the mounts below `/lklmnt` and the calls made so far. -/
structure Kernel where
  clock : ℕ
  mounts : MountName → Bool
  calls : List KernelCall

def Kernel.fresh : Kernel := ⟨0, fun _ => false, []⟩

namespace Kernel

variable (env : KernelEnv) (k : Kernel)

def log (c : KernelCall) : Kernel := { k with clock := k.clock + 1, calls := k.calls ++ [c] }

/-- `lkl_get_virtio_blkdev`: the result and the device number. -/
def getVirtioBlkdev : ℤ × UInt32 × Kernel :=
  (env.blkdev k.clock, env.dev k.clock, k.log (.blkdev (env.blkdev k.clock)))

def setBdevRo (dev : Bytes) (ro : Bool) : ℤ × Kernel :=
  (env.roset k.clock, k.log (.roset dev ro (env.roset k.clock)))

/-- The result of `lkl_sys_mount`: a negative error number, or zero. -/
def mountRc : ℤ := if env.mount k.clock < 0 then env.mount k.clock else 0

/-- `lkl_sys_mount` of a device on the mount point of a name. -/
def mount (dev : Bytes) (name : MountName) (fstype : Bytes) (rdonly : Bool) (opts : Bytes) :
    ℤ × Kernel :=
  (k.mountRc env,
    { k.log (.mount dev name fstype rdonly opts (k.mountRc env)) with
      mounts := if k.mountRc env = 0 then update k.mounts name true else k.mounts })

/-- The result of `lkl_sys_umount`: only what is mounted can be unmounted. -/
def umountRc (name : MountName) : ℤ :=
  if k.mounts name then (if env.umount k.clock < 0 then env.umount k.clock else 0) else -EINVAL

/-- `lkl_sys_umount` of the mount point of a name. -/
def umount (name : MountName) : ℤ × Kernel :=
  (k.umountRc env name,
    { k.log (.umount name (k.umountRc env name)) with
      mounts := if k.umountRc env name = 0 then update k.mounts name false
        else k.mounts })

/-- The text of `/proc/filesystems`. -/
def filesystems : Option Bytes × Kernel :=
  (env.filesystems k.clock, { k with clock := k.clock + 1 })

section Simp

variable (c : KernelCall) (dev : Bytes) (ro : Bool) (name : MountName) (fstype opts : Bytes)
  (rdonly : Bool)

@[simp] theorem mounts_getVirtioBlkdev : (k.getVirtioBlkdev env).2.2.mounts = k.mounts := rfl
@[simp] theorem mounts_setBdevRo : (k.setBdevRo env dev ro).2.mounts = k.mounts := rfl
@[simp] theorem mounts_filesystems : (k.filesystems env).2.mounts = k.mounts := rfl

end Simp

variable {env k}

theorem mountRc_nonpos : k.mountRc env ≤ 0 := by
  rw [mountRc]
  split_ifs <;> omega

theorem mounts_umount_of_ne {name n : MountName} (h : n ≠ name) :
    (k.umount env name).2.mounts n = k.mounts n := by
  rw [umount]
  dsimp only
  split_ifs
  · exact update_of_ne h _ _
  · rfl

theorem mounts_umount_self {name : MountName} (h : k.mounts name = true) :
    (k.umount env name).2.mounts name = false ↔ 0 ≤ env.umount k.clock := by
  by_cases hneg : env.umount k.clock < 0
  · simp [umount, umountRc, h, hneg, hneg.ne]
  · simp [umount, umountRc, h, hneg, not_lt.mp hneg]

theorem mounts_of_umount {name n : MountName} (h : (k.umount env name).2.mounts n = true) :
    k.mounts n = true := by
  rw [umount] at h
  dsimp only at h
  split_ifs at h with hrc
  · by_cases hn : n = name
    · simp [hn] at h
    · rwa [update_of_ne hn] at h
  · exact h

end Kernel

end Anyfs
