import Anyfs.Path.Dsl
import Anyfs.Session.Container
import Anyfs.Session.Mount

/-!
# The calls on a session

The calls of `anyfs_session.c` as sequential functions on the session and the kernel. A function
that would wait for another thread returns `none`; several threads are in `Session.Threads`.
-/

namespace Anyfs

open CString List

/-- What an entering function returns: its result, the mount point, the session and the kernel. -/
structure EnterRet where
  rc : ℤ
  lklPath : Bytes
  session : Session
  kernel : Kernel

/-- What `anyfs_session_leave` returns, with the session and the kernel afterwards. -/
structure LeaveRet where
  rc : ℤ
  session : Session
  kernel : Kernel

section Calls

variable (env : KernelEnv) (ce : CredEnv)

/-! ### Leaving -/

variable (s : Session)

/-- `anyfs_session_leave`. The whole disk is unmounted without a look at its state. -/
def anyfsSessionLeave (k : Kernel) (part : UInt32) : LeaveRet :=
  if part = 0 then
    let r := anyfsUmount env s.disk.wholeName k
    ⟨r.1, if r.1 = 0 then s.setWhole .new else s, r.2⟩
  else
    match s.disk.findSlotByPair none part with
    | none => ⟨-1, s, k⟩
    | some i =>
      if (s.slot i).state ≠ .mounted ∨ (s.disk.part i).kind ≠ .fs then ⟨-1, s, k⟩
      else
        let r := anyfsUmount env ⟨s.disk.diskId, .part part⟩ k
        ⟨r.1, if r.1 = 0 then s.setState i .new else s, r.2⟩

def Disk.isTopFs (d : Disk) (i : ℕ) : Bool :=
  (d.part i).parent = none ∧ (d.part i).kind = .fs

/-- `conflict_mounted_locked`. -/
def conflictMounted (part : UInt32) : Bool :=
  if part ≠ 0 then s.wholeState ≠ .new
  else (range s.disk.parts.length).any fun i =>
    s.disk.isTopFs i && ((s.slot i).state = .mounting ∨ (s.slot i).state = .mounted)

/-- One round of the loop of `release_conflicts` over the slots. -/
def releasePart (sk : Session × Kernel) (i : ℕ) : Session × Kernel :=
  if sk.1.disk.isTopFs i ∧ (sk.1.slot i).state = .mounted then
    let r := anyfsSessionLeave env sk.1 sk.2 (sk.1.disk.part i).index
    (r.session, r.kernel)
  else sk

/-- What is mounted in the way is released. -/
def releaseConflicts (k : Kernel) (part : UInt32) : Session × Kernel :=
  if part ≠ 0 then
    if s.wholeState = .mounted then
      let r := anyfsSessionLeave env s k 0
      (r.session, r.kernel)
    else (s, k)
  else (range s.disk.parts.length).foldl (releasePart env) (s, k)

/-! ### Entering -/

/-- `BUSY_RETRY_TOTAL_MS` in steps of `BUSY_RETRY_STEP_MS`. -/
def busyRetries : ℕ := 500 / 10

/-- The retry loop: mount again while `busy_is_transient` and the budget lasts. -/
def mountRetry (mount : Kernel → MountRet) (conflict : Bool) : ℕ → Kernel → MountRet
  | 0, k => mount k
  | n + 1, k =>
    let r := mount k
    if r.rc = -EBUSY ∧ conflict = false then mountRetry mount conflict n r.kernel else r

def Session.mountFlags (flags : MountFlags) : MountFlags :=
  ⟨s.disk.readonly || flags.rdonly, false, flags.fatCp⟩

/-- The filesystem type `enter_fs_slot` asks for. -/
def PartSlot.fstypeHint (p : PartSlot) : Bytes :=
  if p.fstypeCache = [] then ascii "auto" else p.fstypeCache

/-- The last section of `enter_fs_slot`: publish the result of the mount. A busy device is not
held against the slot, every other error is. -/
def publishSlot (i : ℕ) (r : MountRet) : EnterRet :=
  if r.rc = 0 then
    ⟨0, snprintf 64 r.mnt.mountPoint,
      s.setSlot i { s.slot i with state := .mounted, fstypeCache := r.mnt.fstype }, r.kernel⟩
  else if r.rc = -EBUSY then ⟨r.rc, [], s.setState i .new, r.kernel⟩
  else
    ⟨r.rc, [],
      s.setFail i (snprintf 64 (ascii "mount failed (rc=" ++ decimalInt r.rc ++ ascii ")")),
      r.kernel⟩

def mountSlot (k : Kernel) (i : ℕ) (flags : MountFlags) : EnterRet :=
  let p := s.disk.part i
  let hint := some (s.slot i).fstypeHint
  let name := s.disk.mountName i
  if p.parent = none then
    let sk := if flags.replace then releaseConflicts env s k p.index else (s, k)
    publishSlot sk.1 i <|
      mountRetry (anyfsMount env hint name (s.mountFlags flags)) (conflictMounted sk.1 p.index)
        busyRetries sk.2
  else
    publishSlot s i (anyfsMountBlkdev env (snprintf 80 p.blkdev) hint name (s.mountFlags flags) k)

def enterFsSlot (k : Kernel) (i : ℕ) (flags : MountFlags) : Option EnterRet :=
  match (s.slot i).state with
  | .mounting => none
  | .mounted => some ⟨0, snprintf 64 (s.disk.mountName i).point, s, k⟩
  | .failed => some ⟨-3, [], s, k⟩
  | .new => some (mountSlot env (s.setState i .mounting) k i flags)

/-- The device node `anyfs_session_enter` makes for the whole disk. -/
def Disk.wholeDevpath (d : Disk) : Bytes := ascii "/dev/" ++ d.wholeName.text

/-- The whole-disk half of `anyfs_session_enter`: any error leaves the disk NEW. -/
def enterWhole (k : Kernel) (flags : MountFlags) : Option EnterRet :=
  if s.disk.wholeDev = 0 then some ⟨-4, [], s, k⟩
  else
    match s.wholeState with
    | .mounting => none
    | .mounted => some ⟨0, snprintf 64 s.disk.wholeName.point, s, k⟩
    | _ =>
      let s := s.setWhole .mounting
      let sk := if flags.replace then releaseConflicts env s k 0 else (s, k)
      let hint := if s.disk.wholeFstypeHint = [] then none else some s.disk.wholeFstypeHint
      let r := mountRetry
        (anyfsMountBlkdev env s.disk.wholeDevpath hint s.disk.wholeName (s.mountFlags flags))
        (conflictMounted sk.1 0) busyRetries sk.2
      if r.rc = 0 then
        some ⟨0, snprintf 64 r.mnt.mountPoint, sk.1.setWhole .mounted, r.kernel⟩
      else some ⟨r.rc, [], sk.1.setWhole .new, r.kernel⟩

/-- `enter_container_slot` as a call that does not touch the kernel. -/
def enterContainer (k : Kernel) (i : ℕ) (query : Option Bytes) : Option EnterRet :=
  (enterContainerSlot ce s i query).map fun r => ⟨r.1, [], r.2, k⟩

def enterLeaf (k : Kernel) (i : ℕ) (query : Option Bytes) (flags : MountFlags) : Option EnterRet :=
  if (s.disk.part i).kind = .fs then enterFsSlot env s k i flags
  else enterContainer ce s k i query

def anyfsSessionEnter (k : Kernel) (part : UInt32) (flags : MountFlags) : Option EnterRet :=
  if part = 0 then enterWhole env s k flags
  else
    match s.disk.findSlotByPair none part with
    | none => some ⟨-2, [], s, k⟩
    | some i => enterLeaf env ce s k i none flags

/-- The loop of `anyfs_session_walk` below a parent, with the leaf slot id it writes. -/
def walkFrom (s : Session) (k : Kernel) (parent : Option ℕ) (flags : MountFlags) :
    List AnyfsPathComp → Option (EnterRet × Option ℕ)
  | [] => some (⟨-EINVAL, [], s, k⟩, none)
  | c :: rest =>
    match s.disk.findSlotByPair parent c.p with
    | none => some (⟨-ENOENT, [], s, k⟩, none)
    | some i =>
      if rest = [] then (enterLeaf env ce s k i c.query flags).map fun r => (r, some i)
      else
        match enterContainer ce s k i c.query with
        | none => none
        | some r =>
          if r.rc < 0 then some (r, none) else walkFrom r.session r.kernel (some i) flags rest

def anyfsSessionWalk (s : Session) (k : Kernel) (comp : List AnyfsPathComp)
    (flags : MountFlags) : Option (EnterRet × Option ℕ) :=
  walkFrom env ce s k none flags comp

def anyfsSessionEnterPath (s : Session) (k : Kernel) (comp : List AnyfsPathComp)
    (flags : MountFlags) : Option EnterRet :=
  (anyfsSessionWalk env ce s k comp flags).map fun (r, leaf) =>
    if r.rc < 0 then r
    else
      match leaf with
      | none => { r with rc := -EINVAL }
      | some i =>
        if (r.session.disk.part i).kind ≠ .fs then { r with rc := -EISDIR } else { r with rc := 0 }

/-! ### Closing -/

/-- One round of the loop of `anyfs_session_close`; the result of the unmount is dropped. -/
def closePart (s : Session) (k : Kernel) (i : ℕ) : Kernel :=
  if (s.slot i).state = .mounted ∧ (s.disk.part i).kind = .fs then
    (anyfsUmount env (s.disk.mountName i) k).2
  else k

/-- `anyfs_session_close` up to `anyfs_disk_remove`: the kernel at that moment. -/
def anyfsSessionClose (s : Session) (k : Kernel) : Kernel :=
  let k := if s.wholeState = .mounted then (anyfsSessionLeave env s k 0).kernel else k
  (range s.disk.parts.length).reverse.foldl (closePart env s) k

end Calls

/-! ### What the calls do -/

/-- What leaving and `release_conflicts` do: some targets are NEW and unmounted afterwards. -/
structure Released (s : Session) (k : Kernel) (s' : Session) (k' : Kernel) : Prop where
  disk : s'.disk = s.disk
  calls : k.calls <+: k'.calls
  fstypeCache : ∀ i, (s'.slot i).fstypeCache = (s.slot i).fstypeCache
  target : ∀ t, s.disk.IsTarget t →
    (s'.stateOf t = s.stateOf t ∧ k'.mounts (s.disk.nameOf t) = k.mounts (s.disk.nameOf t)) ∨
      (s'.stateOf t = .new ∧ k'.mounts (s.disk.nameOf t) = false)
  other : ∀ t, ¬ s.disk.IsTarget t → s'.stateOf t = s.stateOf t
  mounts_le : ∀ n, k'.mounts n = true → k.mounts n = true

section Released

variable {env : KernelEnv} {s s' s₁ : Session} {k k' k₁ : Kernel} {t : Target}

theorem Released.refl : Released s k s k where
  disk := rfl
  calls := prefix_refl _
  fstypeCache _ := rfl
  target _ _ := .inl ⟨rfl, rfl⟩
  other _ _ := rfl
  mounts_le _ h := h

theorem Released.trans (h₁ : Released s k s₁ k₁) (h₂ : Released s₁ k₁ s' k') :
    Released s k s' k' where
  disk := h₂.disk.trans h₁.disk
  calls := h₁.calls.trans h₂.calls
  fstypeCache i := (h₂.fstypeCache i).trans (h₁.fstypeCache i)
  target t ht := by
    have hd := h₁.disk
    rcases h₂.target t (hd ▸ ht) with ⟨hst, hm⟩ | ⟨hst, hm⟩
    · rw [hd] at hm
      rcases h₁.target t ht with ⟨hst₁, hm₁⟩ | ⟨hst₁, hm₁⟩
      · exact .inl ⟨hst.trans hst₁, hm.trans hm₁⟩
      · exact .inr ⟨hst.trans hst₁, hm.trans hm₁⟩
    · exact .inr ⟨hst, hd ▸ hm⟩
  other t ht := (h₂.other t (h₁.disk ▸ ht)).trans (h₁.other t ht)
  mounts_le n h := h₁.mounts_le n (h₂.mounts_le n h)

theorem Released.of_umount (ht : s.disk.IsTarget t) (hd : s'.disk = s.disk)
    (hc : ∀ i, (s'.slot i).fstypeCache = (s.slot i).fstypeCache) (hnew : s'.stateOf t = .new)
    (hne : ∀ u, u ≠ t → s'.stateOf u = s.stateOf u) :
    Released s k (if k.umountRc env (s.disk.nameOf t) = 0 then s' else s)
      (k.umount env (s.disk.nameOf t)).2 := by
  have hcalls : k.calls <+: (k.umount env (s.disk.nameOf t)).2.calls := prefix_append _ _
  by_cases hrc : k.umountRc env (s.disk.nameOf t) = 0
  · have hm : (k.umount env (s.disk.nameOf t)).2.mounts =
        Function.update k.mounts (s.disk.nameOf t) false := if_pos hrc
    rw [if_pos hrc]
    refine ⟨hd, hcalls, hc, fun u hu => ?_, fun u hu => ?_, fun _ => Kernel.mounts_of_umount⟩
    · rcases eq_or_ne u t with rfl | hut
      · exact .inr ⟨hnew, by simp [hm]⟩
      · have hname : s.disk.nameOf u ≠ s.disk.nameOf t := fun h =>
          hut (Disk.nameOf_inj hu.has ht.has h)
        exact .inl ⟨hne u hut, by rw [hm, Function.update_of_ne hname]⟩
    · exact hne u fun h => hu (h ▸ ht)
  · have hm : (k.umount env (s.disk.nameOf t)).2.mounts = k.mounts := if_neg hrc
    rw [if_neg hrc]
    exact ⟨rfl, hcalls, fun _ => rfl, fun _ _ => .inl ⟨rfl, by rw [hm]⟩, fun _ _ => rfl,
      fun _ => Kernel.mounts_of_umount⟩

theorem Disk.mountName_of_top {d : Disk} {i : ℕ} (h : (d.part i).parent = none) :
    d.mountName i = ⟨d.diskId, .part (d.part i).index⟩ := by
  rw [Disk.mountName, if_pos h]

theorem anyfsSessionLeave_released (env : KernelEnv) (s : Session) (k : Kernel) (part : UInt32) :
    Released s k (anyfsSessionLeave env s k part).session
      (anyfsSessionLeave env s k part).kernel := by
  rw [anyfsSessionLeave]
  by_cases hpart : part = 0
  · rw [if_pos hpart]
    have hwhole : s.disk.IsTarget .whole := trivial
    exact .of_umount hwhole rfl (fun _ => rfl) rfl fun _ => Session.stateOf_setWhole_of_ne
  rw [if_neg hpart]
  rcases hi : s.disk.findSlotByPair none part with _ | i
  · exact .refl
  dsimp only
  by_cases hst : (s.slot i).state ≠ .mounted ∨ (s.disk.part i).kind ≠ .fs
  · rw [if_pos hst]
    exact .refl
  rw [if_neg hst]
  obtain ⟨hlt, hparent, hindex⟩ := Disk.findSlotByPair_eq_some hi
  have hslot : s.disk.IsTarget (.slot i) := ⟨hlt, by_contra fun h => hst (.inr h)⟩
  have hname : s.disk.nameOf (.slot i) = ⟨s.disk.diskId, .part part⟩ := by
    rw [Disk.nameOf, Disk.mountName_of_top hparent, hindex]
  rw [← hname]
  exact .of_umount hslot rfl (fun _ => Session.fstypeCache_setState ..)
    Session.stateOf_setSlot_self fun _ => Session.stateOf_setSlot_of_ne

theorem releasePart_released (env : KernelEnv) (sk : Session × Kernel) (i : ℕ) :
    Released sk.1 sk.2 (releasePart env sk i).1 (releasePart env sk i).2 := by
  rw [releasePart]
  split_ifs
  · exact anyfsSessionLeave_released ..
  · exact .refl

theorem foldl_releasePart_released (env : KernelEnv) (is : List ℕ) (sk : Session × Kernel) :
    Released sk.1 sk.2 (is.foldl (releasePart env) sk).1 (is.foldl (releasePart env) sk).2 := by
  induction is generalizing sk with
  | nil => exact .refl
  | cons i is ih => exact (releasePart_released env sk i).trans (ih _)

theorem releaseConflicts_released (env : KernelEnv) (s : Session) (k : Kernel) (part : UInt32) :
    Released s k (releaseConflicts env s k part).1 (releaseConflicts env s k part).2 := by
  rw [releaseConflicts]
  split_ifs with hpart hwhole
  · exact anyfsSessionLeave_released ..
  · exact .refl
  · exact foldl_releasePart_released env _ (s, k)

end Released

theorem mountRetry_spec {mount : Kernel → MountRet} {name : MountName}
    (hmount : ∀ k, (mount k).Spec name k) (conflict : Bool) (n : ℕ) (k : Kernel) :
    (mountRetry mount conflict n k).Spec name k := by
  induction n generalizing k with
  | zero => exact hmount k
  | succ n ih =>
    rw [mountRetry]
    split_ifs with hbusy
    · have hne : (mount k).rc ≠ 0 := by
        rw [hbusy.1]
        decide
      exact (ih _).of_le ((hmount k).mounts_of_ne hne) (hmount k).calls
    · exact hmount k

theorem mountSlot_of_top (env : KernelEnv) (s : Session) (k : Kernel) (flags : MountFlags)
    {i : ℕ} (hp : (s.disk.part i).parent = none) : ∃ s₁ k₁ conflict m,
    Released s k s₁ k₁ ∧ m.Spec (s.disk.mountName i) k₁ ∧
      m = mountRetry (anyfsMount env (some (s.slot i).fstypeHint) (s.disk.mountName i)
        (s.mountFlags flags)) conflict busyRetries k₁ ∧
      mountSlot env s k i flags = publishSlot s₁ i m := by
  refine ⟨_, _, _, _, ?_, ?_, rfl, by rw [mountSlot, if_pos hp]⟩
  · split_ifs
    · exact releaseConflicts_released ..
    · exact .refl
  · exact mountRetry_spec (fun _ => anyfsMount_spec _) _ _ _

theorem enterWhole_cases (env : KernelEnv) (s : Session) (k : Kernel) (flags : MountFlags) :
    enterWhole env s k flags = some ⟨-4, [], s, k⟩ ∨
      s.wholeState = .mounting ∧ enterWhole env s k flags = none ∨
      enterWhole env s k flags = some ⟨0, snprintf 64 s.disk.wholeName.point, s, k⟩ ∨
      s.wholeState ≠ .mounted ∧ ∃ (s₁ : Session) (k₁ : Kernel) (conflict : Bool) (m : MountRet),
        Released (s.setWhole .mounting) k s₁ k₁ ∧
        k₁ = (if flags.replace then releaseConflicts env (s.setWhole .mounting) k 0
          else (s.setWhole .mounting, k)).2 ∧
        m.Spec s.disk.wholeName k₁ ∧
        m = mountRetry (anyfsMountBlkdev env s.disk.wholeDevpath
          (if s.disk.wholeFstypeHint = [] then none else some s.disk.wholeFstypeHint)
          s.disk.wholeName (s.mountFlags flags)) conflict busyRetries k₁ ∧
        enterWhole env s k flags =
          if m.rc = 0 then
            some ⟨0, snprintf 64 m.mnt.mountPoint, s₁.setWhole .mounted, m.kernel⟩
          else some ⟨m.rc, [], s₁.setWhole .new, m.kernel⟩ := by
  by_cases hdev : s.disk.wholeDev = 0
  · exact .inl (if_pos hdev)
  have hrel : Released (s.setWhole .mounting) k
      (if flags.replace then releaseConflicts env (s.setWhole .mounting) k 0
        else (s.setWhole .mounting, k)).1
      (if flags.replace then releaseConflicts env (s.setWhole .mounting) k 0
        else (s.setWhole .mounting, k)).2 := by
    split_ifs
    · exact releaseConflicts_released ..
    · exact .refl
  rcases hst : s.wholeState with _ | _ | _ | _
  · refine .inr (.inr (.inr ⟨nofun, _, _, _, _, hrel, rfl, ?_, rfl,
      by rw [enterWhole, if_neg hdev, hst]; rfl⟩))
    exact mountRetry_spec (fun _ => mountViaDevpath_spec _) _ _ _
  · exact .inr (.inl ⟨rfl, by rw [enterWhole, if_neg hdev, hst]⟩)
  · exact .inr (.inr (.inl (by rw [enterWhole, if_neg hdev, hst])))
  · refine .inr (.inr (.inr ⟨nofun, _, _, _, _, hrel, rfl, ?_, rfl,
      by rw [enterWhole, if_neg hdev, hst]; rfl⟩))
    exact mountRetry_spec (fun _ => mountViaDevpath_spec _) _ _ _

end Anyfs
