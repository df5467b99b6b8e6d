import Anyfs.Session.Enter

/-!
# Busy devices

A partition cannot be mounted while the whole disk is: the kernel answers `EBUSY`. `enter_fs_slot`
retries and at last returns the partition to NEW. For that it has to see the answer, but the
auto-detect loop reports every failure as `-1`, and the partition is FAILED.
-/

namespace Anyfs

open CString

/-! ### The calls made by a function -/

/-- The calls made since `k`. -/
def Kernel.made (k k' : Kernel) : List KernelCall := k'.calls.drop k.calls.length

open Kernel

def KernelCall.IsMount : KernelCall → Prop
  | .mount .. => True
  | _ => False

/-- A call that fails at most because the device is busy. Unmounts may end in any way. -/
def KernelCall.Busy : KernelCall → Prop
  | .blkdev rc => 0 ≤ rc
  | .roset _ _ rc => 0 ≤ rc
  | .mount _ _ _ _ _ rc => rc = -EBUSY
  | .umount _ _ => True

instance : DecidablePred KernelCall.IsMount
  | .mount .. => isTrue trivial
  | .blkdev _ => isFalse id
  | .roset .. => isFalse id
  | .umount .. => isFalse id

instance : DecidablePred KernelCall.Busy
  | .blkdev rc => inferInstanceAs (Decidable (0 ≤ rc))
  | .roset _ _ rc => inferInstanceAs (Decidable (0 ≤ rc))
  | .mount _ _ _ _ _ rc => inferInstanceAs (Decidable (rc = -EBUSY))
  | .umount _ _ => isTrue trivial

def Kernel.AllBusy (k k' : Kernel) : Prop := ∀ c ∈ k.made k', c.Busy

section Made

variable {k k₁ k₂ : Kernel}

theorem Kernel.made_trans (h₁ : k.calls <+: k₁.calls) (h₂ : k₁.calls <+: k₂.calls) :
    k.made k₂ = k.made k₁ ++ k₁.made k₂ := by
  obtain ⟨l, hl⟩ := h₁
  obtain ⟨m, hm⟩ := h₂
  simp [made, ← hm, ← hl]

theorem Kernel.AllBusy.right (h₁ : k.calls <+: k₁.calls) (h₂ : k₁.calls <+: k₂.calls)
    (h : k.AllBusy k₂) : k₁.AllBusy k₂ := by
  intro c hc
  refine h c ?_
  rw [made_trans h₁ h₂]
  exact List.mem_append_right _ hc

theorem Kernel.AllBusy.log {c : KernelCall} (h : k.AllBusy (k.log c)) : c.Busy :=
  h c (by simp [Kernel.made, Kernel.log])

end Made

/-! ### Mounting a busy device -/

section Mount

variable {env : KernelEnv} {dev t : Bytes} {name : MountName} {flags : MountFlags} {k : Kernel}

theorem mountWith_busy {opts : Bytes}
    (h : k.AllBusy (mountWith env dev t name flags opts k).kernel) :
    (mountWith env dev t name flags opts k).rc = -EBUSY :=
  AllBusy.log h

theorem mountAuto_busy (ts : List Bytes) (k : Kernel)
    (h : k.AllBusy (mountAuto env dev name flags ts k).kernel) :
    (mountAuto env dev name flags ts k).rc = -1 := by
  induction ts generalizing k with
  | nil => rfl
  | cons t ts ih =>
    rw [mountAuto] at h ⊢
    split_ifs at h ⊢ with hskip
    · exact ih k h
    · rcases hopts : anyfsMountOpts t flags.rdonly (fatCodepage flags) mountDataSize with _ | opts
      · simp only [hopts] at h
        exact ih k h
      · simp only [hopts] at h ⊢
        have hw : (mountWith env dev t name flags opts k).Spec name k := mountWith_spec t opts
        split_ifs at h ⊢ with hrc
        · rw [mountWith_busy h] at hrc
          cases hrc
        · exact ih _ (h.right hw.calls (mountAuto_spec ts _).calls)

theorem mountMarked_busy (h : k.AllBusy (mountMarked env dev (some t) name flags k).kernel) :
    (mountMarked env dev (some t) name flags k).rc =
      if t = ascii "auto" then -1 else -EBUSY := by
  rw [mountMarked] at h ⊢
  by_cases hauto : t = ascii "auto"
  · simp only [hauto, or_true, if_true] at h ⊢
    exact mountAuto_busy _ _ h
  · have hopts := anyfsMountOpts_isSome t flags.rdonly flags
    obtain ⟨opts, hopts⟩ := Option.isSome_iff_exists.mp hopts
    simp only [Option.some.injEq, hauto, reduceCtorEq, or_self, if_false, Option.getD_some,
      hopts] at h ⊢
    exact mountWith_busy h

theorem mountViaDevpath_busy
    (h : k.AllBusy (mountViaDevpath env dev (some t) name flags k).kernel) :
    (mountViaDevpath env dev (some t) name flags k).rc =
      if t = ascii "auto" then -1 else -EBUSY := by
  rw [mountViaDevpath] at h ⊢
  have hro : k.calls <+: (k.setBdevRo env dev flags.rdonly).2.calls := calls_prefix_setBdevRo _
  split_ifs at h ⊢ with hneg
  · exact absurd hneg (not_lt.mpr h.log)
  · exact absurd hneg (not_lt.mpr h.log)
  · rw [mountMarked_busy (h.right hro (mountMarked_spec _).calls), if_pos ‹_›]
  · rw [mountMarked_busy (h.right hro (mountMarked_spec _).calls), if_neg ‹_›]

theorem anyfsMount_busy (h : k.AllBusy (anyfsMount env (some t) name flags k).kernel) :
    (anyfsMount env (some t) name flags k).rc = if t = ascii "auto" then -1 else -EBUSY := by
  rw [anyfsMount] at h ⊢
  have hdev : k.calls <+: (k.getVirtioBlkdev env).2.2.calls := calls_prefix_getVirtioBlkdev
  by_cases hneg : (k.getVirtioBlkdev env).1 < 0
  · simp only [hneg, if_true] at h
    exact absurd hneg (not_lt.mpr h.log)
  · simp only [hneg, if_false] at h ⊢
    exact mountViaDevpath_busy (h.right hdev (mountViaDevpath_spec _).calls)

def KernelEnv.Accepts (env : KernelEnv) : Prop :=
  ∀ n, 0 ≤ env.blkdev n ∧ 0 ≤ env.roset n ∧ 0 ≤ env.mount n

theorem anyfsMount_of_accepts (henv : env.Accepts) (ht : t ≠ ascii "auto") (name : MountName)
    (flags : MountFlags) (k : Kernel) : (anyfsMount env (some t) name flags k).rc = 0 := by
  have hopts := anyfsMountOpts_isSome t flags.rdonly flags
  obtain ⟨opts, hopts⟩ := Option.isSome_iff_exists.mp hopts
  have hdev : ¬ (k.getVirtioBlkdev env).1 < 0 := not_lt.mpr (henv _).1
  have hro : ∀ k dev, ¬ (setBdevRo env k dev flags.rdonly).1 < 0 :=
    fun _ _ => not_lt.mpr (henv _).2.1
  have hmount : ∀ k, mountRc env k = 0 := fun k => if_neg (not_lt.mpr (henv _).2.2)
  simp [anyfsMount, hdev, mountViaDevpath, hro, mountMarked, ht, hopts, mountWith, mount, hmount]

theorem mountRetry_busy {mount : Kernel → MountRet} {rc : ℤ} (hspec : ∀ k, (mount k).Spec name k)
    (hmount : ∀ k, k.AllBusy (mount k).kernel → (mount k).rc = rc) (conflict : Bool) (n : ℕ)
    (k : Kernel) (h : k.AllBusy (mountRetry mount conflict n k).kernel) :
    (mountRetry mount conflict n k).rc = rc := by
  induction n generalizing k with
  | zero => exact hmount k h
  | succ n ih =>
    rw [mountRetry] at h ⊢
    split_ifs at h ⊢ with hbusy
    · exact ih _ (h.right (hspec k).calls (mountRetry_spec hspec conflict n _).calls)
    · exact hmount k h

theorem mountRetry_of_accepted {mount : Kernel → MountRet} (conflict : Bool) (n : ℕ)
    (hmount : (mount k).rc = 0) : (mountRetry mount conflict n k).rc = 0 := by
  cases n with
  | zero => exact hmount
  | succ n =>
    have hne : ¬ ((mount k).rc = -EBUSY ∧ conflict = false) := by
      rw [hmount]
      rintro ⟨h, -⟩
      cases h
    rw [mountRetry, if_neg hne, hmount]

end Mount

/-! ### Entering a busy partition -/

section Enter

variable {env : KernelEnv} {ce : CredEnv} {s : Session} {k : Kernel} {flags : MountFlags}
  {part : UInt32} {i : ℕ} {r : EnterRet}

theorem fstypeHint_setState {st : AnyfsPartState} :
    ((s.setState i st).slot i).fstypeHint = (s.slot i).fstypeHint := by
  simp [PartSlot.fstypeHint]

theorem enterFsSlot_of_accepts (henv : env.Accepts) (hp : (s.disk.part i).parent = none)
    (hnew : (s.slot i).state = .new) (ht : (s.slot i).fstypeHint ≠ ascii "auto") :
    ∃ r, enterFsSlot env s k i flags = some r ∧ r.rc = 0 := by
  obtain ⟨s₁, k₁, conflict, m, -, -, hm, hslot⟩ :=
    mountSlot_of_top env (s.setState i .mounting) k flags hp
  rw [fstypeHint_setState] at hm
  have hrc : m.rc = 0 := by
    rw [hm]
    exact mountRetry_of_accepted conflict busyRetries (anyfsMount_of_accepts henv ht ..)
  refine ⟨_, by rw [enterFsSlot, hnew], ?_⟩
  rw [hslot, publishSlot]
  exact (if_pos hrc).symm ▸ rfl

theorem enter_of_tried (hslot : s.disk.findSlotByPair none part = some i)
    (h : anyfsSessionEnter env ce s k part flags = some r)
    (htried : ∃ c ∈ k.made r.kernel, c.IsMount) :
    (s.disk.part i).kind = .fs ∧ (s.slot i).state = .new ∧
      r = mountSlot env (s.setState i .mounting) k i flags := by
  obtain ⟨hlt, -, hindex⟩ := Disk.findSlotByPair_eq_some hslot
  have hpart : part ≠ 0 := hindex ▸ Disk.index_part_ne_zero hlt
  have hcalls : r.kernel ≠ k := by
    rintro hk
    obtain ⟨c, hc, -⟩ := htried
    simp [made, hk] at hc
  simp only [anyfsSessionEnter, hpart, if_false, hslot, enterLeaf] at h
  split_ifs at h with hkind
  · rcases hst : (s.slot i).state with _ | _ | _ | _ <;>
      simp only [enterFsSlot, hst, reduceCtorEq, Option.some.injEq] at h
    · exact ⟨hkind, rfl, h.symm⟩
    · exact absurd (h ▸ rfl) hcalls
    · exact absurd (h ▸ rfl) hcalls
  · rw [enterContainer, Option.map_eq_some_iff] at h
    obtain ⟨_, -, rfl⟩ := h
    exact absurd rfl hcalls

theorem kernel_publishSlot (m : MountRet) : (publishSlot s i m).kernel = m.kernel := by
  rw [publishSlot]
  split_ifs <;> rfl

theorem mountSlot_busy (hp : (s.disk.part i).parent = none)
    (h : k.AllBusy (mountSlot env s k i flags).kernel) :
    (mountSlot env s k i flags).rc =
        (if (s.slot i).fstypeHint = ascii "auto" then -1 else -EBUSY) ∧
      ((mountSlot env s k i flags).session.slot i).state =
        (if (s.slot i).fstypeHint = ascii "auto" then .failed else .new) ∧
      ((mountSlot env s k i flags).session.slot i).fstypeCache = (s.slot i).fstypeCache := by
  obtain ⟨s₁, k₁, conflict, m, hrel, hspec, hm, hmount⟩ := mountSlot_of_top env s k flags hp
  rw [hmount, kernel_publishSlot] at h
  rw [hmount]
  have hrc : m.rc = if (s.slot i).fstypeHint = ascii "auto" then -1 else -EBUSY := by
    have hlater := h.right hrel.calls hspec.calls
    rw [hm] at hlater ⊢
    exact mountRetry_busy (fun _ => anyfsMount_spec _) (fun _ => anyfsMount_busy) conflict
      busyRetries k₁ hlater
  by_cases hauto : (s.slot i).fstypeHint = ascii "auto"
  · rw [if_pos hauto] at hrc
    have hne : ¬ (-1 : ℤ) = -EBUSY := by decide
    simp [publishSlot, hrc, hauto, hne, hrel.fstypeCache, Session.setFail]
  · rw [if_neg hauto] at hrc
    have hne : ¬ -EBUSY = 0 := by decide
    simp [publishSlot, hrc, hauto, hne, hrel.fstypeCache]

/-- **Busy devices.** An enter of a partition all of whose mount attempts were answered
`EBUSY` returns that error, leaves the partition NEW and lets a later enter succeed on a kernel
that accepts the mount, exactly when the filesystem type of the partition is known. -/
theorem enter_busy_iff (hslot : s.disk.findSlotByPair none part = some i)
    (h : anyfsSessionEnter env ce s k part flags = some r)
    (htried : ∃ c ∈ k.made r.kernel, c.IsMount) (hbusy : k.AllBusy r.kernel) :
    (r.rc = -EBUSY ∧ (r.session.slot i).state = .new ∧
        ∀ env' s' k' flags', env'.Accepts → s'.disk = s.disk →
          s'.slot i = r.session.slot i →
          ∃ r', anyfsSessionEnter env' ce s' k' part flags' = some r' ∧ r'.rc = 0) ↔
      (s.slot i).fstypeCache ≠ [] ∧ (s.slot i).fstypeCache ≠ ascii "auto" := by
  obtain ⟨hkind, -, hr⟩ := enter_of_tried hslot h htried
  obtain ⟨hlt, hparent, hindex⟩ := Disk.findSlotByPair_eq_some hslot
  have hpart : part ≠ 0 := hindex ▸ Disk.index_part_ne_zero hlt
  rw [hr] at hbusy ⊢
  obtain ⟨hrc, hstate, hcache⟩ := mountSlot_busy (s := s.setState i .mounting) hparent hbusy
  rw [fstypeHint_setState] at hrc hstate
  rw [Session.fstypeCache_setState] at hcache
  have hhint : (s.slot i).fstypeHint ≠ ascii "auto" ↔
      (s.slot i).fstypeCache ≠ [] ∧ (s.slot i).fstypeCache ≠ ascii "auto" := by
    rw [PartSlot.fstypeHint]
    split_ifs with hc <;> simp [hc]
  rw [← hhint]
  constructor
  · -- the auto-detection loses the error and the slot is FAILED
    rintro ⟨-, hnew, -⟩ hauto
    rw [if_pos hauto, hnew] at hstate
    cases hstate
  · intro hauto
    rw [if_neg hauto] at hrc hstate
    refine ⟨hrc, hstate, fun env' s' k' flags' henv hd hs => ?_⟩
    have hhint' : (s'.slot i).fstypeHint ≠ ascii "auto" := by
      rwa [PartSlot.fstypeHint, hs, hcache]
    have hnew' : (s'.slot i).state = .new := by rw [hs, hstate]
    rw [← hd] at hslot hkind hparent
    simp only [anyfsSessionEnter, hpart, if_false, hslot, enterLeaf, hkind, if_true]
    exact enterFsSlot_of_accepts henv hparent hnew' hhint'

end Enter

/-- A kernel on which every mount is answered `EBUSY` and which knows one filesystem. -/
def KernelEnv.busy : KernelEnv :=
  { KernelEnv.accepting with
    mount := fun _ => -EBUSY
    filesystems := fun _ => some (ascii "\text4") }

/-- Partition 1 of a disk that is mounted as a whole; `cache` is the type of the partition. -/
def Session.wholeMounted (cache : Bytes) : Session :=
  (Session.opened Disk.single fun _ => cache).setWhole .mounted

def enterBusy (cache : Bytes) : Option EnterRet :=
  anyfsSessionEnter .busy .empty (.wholeMounted cache) .fresh 1 ⟨false, false, 0⟩

/-- With a known type the partition can be entered again. -/
theorem enter_busy_known_type : ∃ r, enterBusy (ascii "ext4") = some r ∧
    r.rc = -EBUSY ∧ (r.session.slot 0).state = .new ∧
    ∀ env' s' k' flags', env'.Accepts → s'.disk = Disk.single → s'.slot 0 = r.session.slot 0 →
      ∃ r', anyfsSessionEnter env' .empty s' k' 1 flags' = some r' ∧ r'.rc = 0 := by
  have hsome : (enterBusy (ascii "ext4")).isSome := by decide +kernel
  obtain ⟨r, hr⟩ := Option.isSome_iff_exists.mp hsome
  have htried : ((enterBusy (ascii "ext4")).map fun r =>
      (fresh.made r.kernel).any (·.IsMount) && (fresh.made r.kernel).all (·.Busy)) =
        some true := by decide +kernel
  rw [hr, Option.map_some, Option.some.injEq, Bool.and_eq_true, List.any_eq_true,
    List.all_eq_true] at htried
  refine ⟨r, hr, (enter_busy_iff (i := 0) rfl hr ?_ ?_).mpr ⟨by decide, by decide⟩⟩
  · simpa using htried.1
  · simpa [AllBusy] using htried.2

/-- With an unknown type the partition is FAILED, although the device was only busy. -/
theorem enter_busy_unknown_type_fails :
    ¬ ∀ (env : KernelEnv) (ce : CredEnv) (s : Session) (k : Kernel) (part : UInt32)
        (flags : MountFlags) (i : ℕ) (r : EnterRet),
      s.disk.findSlotByPair none part = some i →
      anyfsSessionEnter env ce s k part flags = some r →
      (∃ c ∈ k.made r.kernel, c.IsMount) → k.AllBusy r.kernel →
      (r.session.slot i).state = .new := by
  intro hall
  have hrun : ((enterBusy []).map fun r =>
      (fresh.made r.kernel).any (·.IsMount) && (fresh.made r.kernel).all (·.Busy) &&
        decide ((r.session.slot 0).state = .failed)) = some true := by decide +kernel
  obtain ⟨r, hr, hfacts⟩ := Option.map_eq_some_iff.mp hrun
  rw [Bool.and_eq_true, Bool.and_eq_true, List.any_eq_true, List.all_eq_true,
    decide_eq_true_iff] at hfacts
  obtain ⟨⟨hmount, hbusy⟩, hfailed⟩ := hfacts
  have hnew := hall _ _ _ _ _ _ 0 r rfl hr (by simpa using hmount) (by simpa [AllBusy] using hbusy)
  rw [hfailed] at hnew
  cases hnew

end Anyfs
