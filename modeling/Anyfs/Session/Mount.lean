import Anyfs.Session.Kernel

/-!
# Mounting and unmounting a filesystem

`mount_via_devpath` marks the device read-only or read-write and mounts it. With a given type the
caller sees the error of `mount`; after the auto-detect loop over `/proc/filesystems` it sees `-1`
whatever the kernel said.
-/

namespace Anyfs

open List CString

/-! ### Mount options -/

/-- Filesystems that take an `errors=` option. -/
def errorsOptFs : List Bytes :=
  ["ext2", "ext3", "ext4", "vfat", "msdos", "exfat", "f2fs", "ntfs"].map ascii

/-- `append`: add an option after a comma, unless the buffer of `cap` bytes is too small. -/
def appendOpt (cap : ℕ) (buf opt : Bytes) : Option Bytes :=
  let s := (if buf = [] then [] else ascii ",") ++ opt
  if cap - buf.length ≤ s.length then none else some (buf ++ s)

/-- The options `anyfs_mount_opts` appends, in order. -/
def mountOptList (fstype : Bytes) (rdonly : Bool) (fatCp : ℕ) : List Bytes :=
  (if rdonly then
    if fstype = ascii "xfs" ∨ fstype = ascii "btrfs" then [ascii "norecovery"]
    else if fstype = ascii "ext4" ∨ fstype = ascii "ext3" then [ascii "noload"]
    else []
  else []) ++
  (if fstype = ascii "ufs" then [ascii "ufstype=ufs2"] else []) ++
  (if fstype = ascii "vfat" then [ascii "utf8"] else []) ++
  (if fatCp ≠ 0 ∧ (fstype = ascii "vfat" ∨ fstype = ascii "msdos") then
    [ascii "codepage=" ++ decimal fatCp] else []) ++
  (if fstype ∈ errorsOptFs then
    [if rdonly then ascii "errors=continue" else ascii "errors=remount-ro"] else [])

/-- `anyfs_mount_opts`: `none` when the options do not fit. -/
def anyfsMountOpts (fstype : Bytes) (rdonly : Bool) (fatCp cap : ℕ) : Option Bytes :=
  if cap = 0 then none else (mountOptList fstype rdonly fatCp).foldlM (appendOpt cap) []

def fatCodepage (flags : MountFlags) : ℕ := [0, 936, 950, 932, 949].getD flags.fatCp 0

/-- What `mount(2)` reads from its data argument. -/
def mountDataSize : ℕ := 4096

theorem foldlM_appendOpt_isSome {cap : ℕ} : ∀ (opts : List Bytes) (buf : Bytes),
    buf.length + (opts.map fun o => o.length + 1).sum < cap →
      (opts.foldlM (appendOpt cap) buf).isSome := by
  intro opts
  induction opts with
  | nil => intro buf _; simp
  | cons o opts ih =>
    intro buf h
    simp only [map_cons, sum_cons] at h
    have hlen : ((if buf = [] then [] else ascii ",") ++ o).length ≤ o.length + 1 := by
      have hcomma : (ascii ",").length = 1 := by decide
      rw [length_append]
      split_ifs
      · simp
      · omega
    have happ : appendOpt cap buf o =
        some (buf ++ ((if buf = [] then [] else ascii ",") ++ o)) := by
      rw [appendOpt, if_neg (by omega)]
    rw [foldlM_cons, happ]
    refine ih _ ?_
    rw [length_append]
    omega

theorem anyfsMountOpts_isSome (fstype : Bytes) (rdonly : Bool) (flags : MountFlags) :
    (anyfsMountOpts fstype rdonly (fatCodepage flags) mountDataSize).isSome := by
  rw [anyfsMountOpts, if_neg (by decide)]
  refine foldlM_appendOpt_isSome _ _ ?_
  have hcp : (ascii "codepage=" ++ decimal (fatCodepage flags)).length ≤ 12 := by
    rw [fatCodepage]
    generalize flags.fatCp = c
    revert c
    decide
  simp only [mountOptList, mountDataSize, length_nil, Nat.zero_add, map_append, sum_append]
  -- a bound for each option, and the page is much larger than their sum
  have hjournal : (((if rdonly then
      if fstype = ascii "xfs" ∨ fstype = ascii "btrfs" then [ascii "norecovery"]
      else if fstype = ascii "ext4" ∨ fstype = ascii "ext3" then [ascii "noload"]
      else []
      else []).map fun o => o.length + 1).sum) ≤ 11 := by
    split_ifs <;> decide
  have hufs : (((if fstype = ascii "ufs" then [ascii "ufstype=ufs2"] else []).map
      fun o => o.length + 1).sum) ≤ 13 := by
    split_ifs <;> decide
  have hutf8 : (((if fstype = ascii "vfat" then [ascii "utf8"] else []).map
      fun o => o.length + 1).sum) ≤ 5 := by
    split_ifs <;> decide
  have hcodepage : (((if fatCodepage flags ≠ 0 ∧
        (fstype = ascii "vfat" ∨ fstype = ascii "msdos") then
      [ascii "codepage=" ++ decimal (fatCodepage flags)] else []).map
      fun o => o.length + 1).sum) ≤ 13 := by
    split_ifs
    · simp only [map_cons, map_nil, sum_cons, sum_nil]
      omega
    · simp
  have herrors : (((if fstype ∈ errorsOptFs then
      [if rdonly then ascii "errors=continue" else ascii "errors=remount-ro"] else []).map
      fun o => o.length + 1).sum) ≤ 18 := by
    split_ifs <;> decide
  omega

/-! ### Filesystem types -/

/-- The filesystem a line of `/proc/filesystems` names, if it is one for block devices and fits a
`FSTYPE_MAXLEN` buffer. -/
def blockFstype (line : Bytes) : Option Bytes :=
  if line.head? = some 9 ∨ line.head? = some 32 then
    let name := line.dropWhile fun c => c == 9 || c == 32
    if name ≠ [] ∧ name.length < 32 then some name else none
  else none

/-- `get_block_fstypes`, with its read buffer of 8192 bytes and its table of `max` names. -/
def getBlockFstypes (text : Option Bytes) (max : ℕ) : List Bytes :=
  match text with
  | none => []
  | some buf => (((buf.take 8191).splitOn 10).filterMap blockFstype).take max

def maxFstypes : ℕ := 128

/-! ### Mounting -/

/-- `AnyfsMount`: the mount point and the filesystem type of a mount, empty after a failure. -/
structure AnyfsMount where
  mountPoint : Bytes
  fstype : Bytes
  deriving DecidableEq

/-- The filled `AnyfsMount` of a successful mount. -/
def AnyfsMount.of (name : MountName) (fstype : Bytes) : AnyfsMount :=
  ⟨snprintf 64 name.point, snprintf 32 fstype⟩

/-- The zeroed `AnyfsMount`. -/
def AnyfsMount.none : AnyfsMount := ⟨[], []⟩

/-- What a mount function returns: its result, the `AnyfsMount` and the kernel afterwards. -/
structure MountRet where
  rc : ℤ
  mnt : AnyfsMount
  kernel : Kernel

/-- One `lkl_sys_mount` of a device with a given type and options. -/
def mountWith (env : KernelEnv) (dev fstype : Bytes) (name : MountName) (flags : MountFlags)
    (opts : Bytes) (k : Kernel) : MountRet :=
  let r := k.mount env dev name fstype flags.rdonly opts
  ⟨r.1, if r.1 = 0 then .of name fstype else .none, r.2⟩

/-- The auto-detect loop; a failed attempt with `apfs` or `btrfs` would keep the device busy. -/
def mountAuto (env : KernelEnv) (dev : Bytes) (name : MountName) (flags : MountFlags) :
    List Bytes → Kernel → MountRet
  | [], k => ⟨-1, .none, k⟩
  | t :: ts, k =>
    if t = ascii "apfs" ∨ t = ascii "btrfs" then mountAuto env dev name flags ts k
    else
      match anyfsMountOpts t flags.rdonly (fatCodepage flags) mountDataSize with
      | none => mountAuto env dev name flags ts k
      | some opts =>
        let r := mountWith env dev t name flags opts k
        if r.rc = 0 then r else mountAuto env dev name flags ts r.kernel

variable (env : KernelEnv)

/-- `mount_via_devpath` after the device was marked. -/
def mountMarked (dev : Bytes) (fstype : Option Bytes) (name : MountName)
    (flags : MountFlags) (k : Kernel) : MountRet :=
  if fstype = none ∨ fstype = some (ascii "auto") then
    let f := k.filesystems env
    mountAuto env dev name flags (getBlockFstypes f.1 maxFstypes) f.2
  else
    match anyfsMountOpts (fstype.getD []) flags.rdonly (fatCodepage flags) mountDataSize with
    | none => ⟨-1, .none, k⟩
    | some opts => mountWith env dev (fstype.getD []) name flags opts k

def mountViaDevpath (dev : Bytes) (fstype : Option Bytes) (name : MountName)
    (flags : MountFlags) (k : Kernel) : MountRet :=
  let r := k.setBdevRo env dev flags.rdonly
  if r.1 < 0 then ⟨r.1, .none, r.2⟩ else mountMarked env dev fstype name flags r.2

/-- `anyfs_mount`: look up the device of a partition and mount it. -/
def anyfsMount (fstype : Option Bytes) (name : MountName)
    (flags : MountFlags) (k : Kernel) : MountRet :=
  let r := k.getVirtioBlkdev env
  if r.1 < 0 then ⟨r.1, .none, r.2.2⟩
  else mountViaDevpath env (ascii "/dev/" ++ hex8 r.2.1) fstype name flags r.2.2

/-- `anyfs_mount_blkdev`: mount a device node that exists already. -/
def anyfsMountBlkdev (dev : Bytes) (fstype : Option Bytes)
    (name : MountName) (flags : MountFlags) (k : Kernel) : MountRet :=
  mountViaDevpath env dev fstype name flags k

def anyfsUmount (name : MountName) (k : Kernel) : ℤ × Kernel :=
  k.umount env name

/-! ### What mounting does -/

/-- The contract of the mount functions: they report zero or an error, a success adds one mount
and fills in its mount point, and a failure leaves the mounts alone. -/
structure MountRet.Spec (name : MountName) (k : Kernel) (r : MountRet) : Prop where
  rc_nonpos : r.rc ≤ 0
  mounts : r.kernel.mounts = if r.rc = 0 then Function.update k.mounts name true else k.mounts
  mountPoint : r.rc = 0 → r.mnt.mountPoint = snprintf 64 name.point
  calls : k.calls <+: r.kernel.calls

section Spec

variable {env : KernelEnv} {dev : Bytes} {name : MountName} {flags : MountFlags}
  {k k₁ : Kernel} {r : MountRet}

theorem MountRet.Spec.of_le (hm : k₁.mounts = k.mounts) (hc : k.calls <+: k₁.calls)
    (h : r.Spec name k₁) : r.Spec name k :=
  ⟨h.rc_nonpos, hm ▸ h.mounts, h.mountPoint, hc.trans h.calls⟩

theorem MountRet.Spec.of_neg {rc : ℤ} (hrc : rc < 0) (hm : k₁.mounts = k.mounts)
    (hc : k.calls <+: k₁.calls) : MountRet.Spec name k ⟨rc, .none, k₁⟩ := by
  refine ⟨hrc.le, ?_, fun h => absurd h hrc.ne, hc⟩
  rw [if_neg hrc.ne, hm]

theorem MountRet.Spec.mounts_of_ne (h : r.Spec name k) (hrc : r.rc ≠ 0) :
    r.kernel.mounts = k.mounts := by
  rw [h.mounts, if_neg hrc]

theorem mountWith_spec (fstype opts : Bytes) :
    (mountWith env dev fstype name flags opts k).Spec name k := by
  refine ⟨Kernel.mountRc_nonpos, rfl, fun h => ?_, prefix_append _ _⟩
  rw [mountWith] at h ⊢
  rw [if_pos h]
  rfl

theorem mountAuto_spec (ts : List Bytes) (k : Kernel) :
    (mountAuto env dev name flags ts k).Spec name k := by
  induction ts generalizing k with
  | nil => exact .of_neg (by decide) rfl (prefix_refl _)
  | cons t ts ih =>
    rw [mountAuto]
    split_ifs with ht
    · exact ih k
    · cases anyfsMountOpts t flags.rdonly (fatCodepage flags) mountDataSize with
      | none => exact ih k
      | some opts =>
        have hw : (mountWith env dev t name flags opts k).Spec name k := mountWith_spec t opts
        dsimp only
        split_ifs with hrc
        · exact hw
        · exact (ih _).of_le (hw.mounts_of_ne hrc) hw.calls

theorem mountMarked_spec (fstype : Option Bytes) :
    (mountMarked env dev fstype name flags k).Spec name k := by
  rw [mountMarked]
  split_ifs with hauto
  · exact .of_le (Kernel.mounts_filesystems env k) (prefix_refl _) (mountAuto_spec _ _)
  · cases anyfsMountOpts (fstype.getD []) flags.rdonly (fatCodepage flags) mountDataSize with
    | none => exact .of_neg (by decide) rfl (prefix_refl _)
    | some opts => exact mountWith_spec _ _

theorem calls_prefix_setBdevRo (ro : Bool) : k.calls <+: (k.setBdevRo env dev ro).2.calls :=
  prefix_append _ _

theorem mountViaDevpath_spec (fstype : Option Bytes) :
    (mountViaDevpath env dev fstype name flags k).Spec name k := by
  rw [mountViaDevpath]
  split_ifs with hneg
  · exact .of_neg hneg rfl (calls_prefix_setBdevRo _)
  · exact .of_le (Kernel.mounts_setBdevRo env k dev flags.rdonly) (calls_prefix_setBdevRo _)
      (mountMarked_spec fstype)

theorem calls_prefix_getVirtioBlkdev : k.calls <+: (k.getVirtioBlkdev env).2.2.calls :=
  prefix_append _ _

theorem anyfsMount_spec (fstype : Option Bytes) :
    (anyfsMount env fstype name flags k).Spec name k := by
  rw [anyfsMount]
  split_ifs with hneg
  · exact .of_neg hneg rfl calls_prefix_getVirtioBlkdev
  · exact .of_le (Kernel.mounts_getVirtioBlkdev env k) calls_prefix_getVirtioBlkdev
      (mountViaDevpath_spec fstype)

end Spec

end Anyfs
