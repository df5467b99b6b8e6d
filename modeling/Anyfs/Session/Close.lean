import Anyfs.Session.Agreement

/-!
# Closing a session

`anyfs_session_close` unmounts the whole disk and every mounted filesystem, drops the results and
removes the disk. Nothing is left exactly when every one of these unmounts succeeds
(`close_unmounts_iff`).
-/

namespace Anyfs

open List

/-- The targets in the order in which `anyfs_session_close` looks at them. -/
def Disk.closeOrder (d : Disk) : List Target :=
  .whole :: (List.range d.parts.length).reverse.map .slot

/-- The targets `anyfs_session_close` unmounts. -/
def Session.mountedTargets (s : Session) : List Target :=
  s.disk.closeOrder.filter fun t => s.stateOf t = .mounted ∧ s.disk.IsTarget t

def umountAll (env : KernelEnv) (d : Disk) (ts : List Target) (k : Kernel) : Kernel :=
  ts.foldl (fun k t => (k.umount env (d.nameOf t)).2) k

section Close

variable {env : KernelEnv} {s : Session} {k : Kernel} {d : Disk}

theorem anyfsSessionClose_eq : anyfsSessionClose env s k =
    umountAll env s.disk s.mountedTargets k := by
  rw [umountAll, Session.mountedTargets, foldl_filter, Disk.closeOrder, foldl_cons, foldl_map]
  have hwhole : (if s.wholeState = .mounted then (anyfsSessionLeave env s k 0).kernel else k) =
      if decide (s.stateOf .whole = .mounted ∧ s.disk.IsTarget .whole) = true then
        (k.umount env (s.disk.nameOf .whole)).2 else k := by
    simp [Session.stateOf, Disk.IsTarget, anyfsSessionLeave, anyfsUmount, Disk.nameOf]
  rw [anyfsSessionClose, hwhole]
  refine foldl_ext _ _ _ fun k i hi => ?_
  have hlt : i < s.disk.parts.length := by simpa using hi
  simp [closePart, Session.stateOf, Disk.IsTarget, hlt, anyfsUmount, Disk.nameOf]

theorem mem_mountedTargets {t : Target} :
    t ∈ s.mountedTargets ↔ s.stateOf t = .mounted ∧ s.disk.IsTarget t := by
  rw [Session.mountedTargets, mem_filter, decide_eq_true_iff, and_iff_right_iff_imp]
  rintro ⟨-, ht⟩
  cases t with
  | whole => exact mem_cons_self
  | slot i => exact mem_cons_of_mem _ (mem_map_of_mem (by simpa using ht.1))

theorem nodup_mountedTargets : s.mountedTargets.Nodup := by
  refine List.Nodup.filter _ (nodup_cons.mpr ⟨by simp, ?_⟩)
  exact (nodup_reverse.mpr nodup_range).map fun _ _ => Target.slot.inj

theorem mounts_umountAll_of_notMem {n : MountName} (ts : List Target) (k : Kernel)
    (hn : ∀ t ∈ ts, n ≠ d.nameOf t) : (umountAll env d ts k).mounts n = k.mounts n := by
  induction ts generalizing k with
  | nil => rfl
  | cons t ts ih =>
    have hrest : (umountAll env d (t :: ts) k).mounts n = (k.umount env (d.nameOf t)).2.mounts n :=
      ih _ fun u hu => hn u (mem_cons_of_mem _ hu)
    rw [hrest, Kernel.mounts_umount_of_ne (hn t mem_cons_self)]

theorem mounts_of_umountAll {n : MountName} (ts : List Target) (k : Kernel)
    (h : (umountAll env d ts k).mounts n = true) : k.mounts n = true := by
  induction ts generalizing k with
  | nil => exact h
  | cons t ts ih => exact Kernel.mounts_of_umount (ih _ h)

theorem umountAll_iff (ts : List Target) (k : Kernel) (hnodup : ts.Nodup)
    (ht : ∀ t ∈ ts, d.IsTarget t) (hm : ∀ t ∈ ts, k.mounts (d.nameOf t) = true) :
    (∀ t ∈ ts, (umountAll env d ts k).mounts (d.nameOf t) = false) ↔
      ∀ j < ts.length, 0 ≤ env.umount (k.clock + j) := by
  induction ts generalizing k with
  | nil => simp
  | cons t ts ih =>
    obtain ⟨hnot, hnodup⟩ := nodup_cons.mp hnodup
    have htarget : d.IsTarget t := ht t mem_cons_self
    have hrest : ∀ u ∈ ts, d.IsTarget u := fun u hu => ht u (mem_cons_of_mem _ hu)
    -- the first unmount does not touch the later targets, and they do not touch its own
    have hname : ∀ u ∈ ts, d.nameOf t ≠ d.nameOf u := fun u hu h =>
      hnot (Disk.nameOf_inj htarget.has (hrest u hu).has h ▸ hu)
    have hfirst : (k.umount env (d.nameOf t)).2.mounts (d.nameOf t) = false ↔
        0 ≤ env.umount k.clock := Kernel.mounts_umount_self (hm t mem_cons_self)
    have hlater : ∀ u ∈ ts, (k.umount env (d.nameOf t)).2.mounts (d.nameOf u) = true := by
      intro u hu
      rw [Kernel.mounts_umount_of_ne (hname u hu).symm]
      exact hm u (mem_cons_of_mem _ hu)
    have hgone : (umountAll env d (t :: ts) k).mounts (d.nameOf t) =
        (k.umount env (d.nameOf t)).2.mounts (d.nameOf t) :=
      mounts_umountAll_of_notMem ts _ hname
    have hclock : ∀ j, k.clock + (j + 1) = (k.umount env (d.nameOf t)).2.clock + j := by
      intro j
      simp only [Kernel.umount, Kernel.log]
      omega
    rw [forall_mem_cons, length_cons, Nat.forall_lt_succ_left, hgone, hfirst]
    simp only [hclock, Nat.add_zero]
    exact and_congr_right fun _ => ih _ hnodup hrest hlater

/-- **Closing.** After a sequential run of calls on a session, no mount of its disk is left
when the disk is removed exactly when every unmount that closing issues succeeds. -/
theorem close_unmounts_iff {ce : CredEnv} {cache : ℕ → Bytes} {calls : List Call} {k₀ : Kernel}
    (hk : ∀ n, n.disk = d.diskId → k₀.mounts n = false)
    (hrun : runCalls env ce calls (Session.opened d cache, k₀) = some (s, k)) :
    (∀ n, n.disk = d.diskId → (anyfsSessionClose env s k).mounts n = false) ↔
      ∀ j < s.mountedTargets.length, 0 ≤ env.umount (k.clock + j) := by
  have hend : ∃ sk, runCalls env ce calls (Session.opened d cache, k₀) = some sk ∧
      sk.1.disk = d ∧ Consistent sk.1 sk.2 none := run_consistent calls (consistent_opened cache hk)
  obtain ⟨⟨s', k'⟩, hrun', hd, hcons⟩ := hend
  obtain ⟨rfl, rfl⟩ : s = s' ∧ k = k' := by simpa [hrun] using hrun'
  have htarget : ∀ t ∈ s.mountedTargets, s.disk.IsTarget t := fun t ht =>
    (mem_mountedTargets.mp ht).2
  have hmounted : ∀ t ∈ s.mountedTargets, k.mounts (s.disk.nameOf t) = true := fun t ht =>
    (hcons.agrees t (htarget t ht) nofun).mpr (mem_mountedTargets.mp ht).1
  rw [anyfsSessionClose_eq, ← umountAll_iff _ k nodup_mountedTargets htarget hmounted]
  constructor
  · intro h t _
    exact h _ (hd ▸ Disk.disk_nameOf s.disk t)
  · intro h n hn
    by_contra hne
    rw [Bool.not_eq_false] at hne
    -- whatever is still mounted was mounted before, so it is one of the session's targets
    have hbefore := mounts_of_umountAll _ _ hne
    obtain ⟨t, ht, rfl⟩ := hcons.only n (hd ▸ hn) hbefore
    have hmem := mem_mountedTargets.mpr ⟨(hcons.agrees t ht nofun).mp hbefore, ht⟩
    rw [h t hmem] at hne
    cases hne

end Close

/-- A kernel that knows one filesystem, mounts it and answers every unmount with `rc`. -/
def KernelEnv.unmounting (rc : ℤ) : KernelEnv :=
  { KernelEnv.accepting with
    umount := fun _ => rc
    filesystems := fun _ => some (CString.ascii "\text4") }

def enterWholeDisk (rc : ℤ) : Option (Session × Kernel) :=
  runCalls (.unmounting rc) .empty [.enter 0 ⟨false, false, 0⟩]
    (Session.opened Disk.single fun _ => [], .fresh)

/-- Mounting a disk as a whole and closing the session, on a kernel that unmounts it. -/
theorem close_after_enter : ∃ s k, enterWholeDisk 0 = some (s, k) ∧ s.wholeState = .mounted ∧
    ∀ n, n.disk = 0 → (anyfsSessionClose (.unmounting 0) s k).mounts n = false := by
  have hrun : ((enterWholeDisk 0).map fun sk => sk.1.wholeState) = some .mounted := by
    decide +kernel
  obtain ⟨⟨s, k⟩, hrun, hst⟩ := Option.map_eq_some_iff.mp hrun
  exact ⟨s, k, hrun, hst, (close_unmounts_iff (d := Disk.single) (fun _ _ => rfl) hrun).mpr
    fun _ _ => le_rfl⟩

/-- A file is open on the mounted disk when the session is closed: the disk is removed below
the mount. -/
theorem close_leaves_busy_mount :
    ¬ ∀ (env : KernelEnv) (ce : CredEnv) (d : Disk) (cache : ℕ → Bytes) (calls : List Call)
        (k₀ : Kernel) (s : Session) (k : Kernel),
      (∀ n, n.disk = d.diskId → k₀.mounts n = false) →
      runCalls env ce calls (Session.opened d cache, k₀) = some (s, k) →
      ∀ n, n.disk = d.diskId → (anyfsSessionClose env s k).mounts n = false := by
  intro hall
  have hrun : ((enterWholeDisk (-EBUSY)).map fun sk =>
      (anyfsSessionClose (.unmounting (-EBUSY)) sk.1 sk.2).mounts Disk.single.wholeName) =
        some true := by
    decide +kernel
  obtain ⟨⟨s, k⟩, hrun, hleft⟩ := Option.map_eq_some_iff.mp hrun
  rw [hall _ _ _ _ _ _ s k (fun _ _ => rfl) hrun Disk.single.wholeName rfl] at hleft
  cases hleft

end Anyfs
