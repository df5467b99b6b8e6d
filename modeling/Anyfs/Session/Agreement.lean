import Anyfs.Session.Enter

/-!
# The session and the kernel agree

With one caller at a time, a target is MOUNTED exactly when the kernel has its mount, and the kernel
has no other mount of the disk (`Consistent`, with a parameter for the target that is being
entered).
-/

namespace Anyfs

open Option

/-- The session and the kernel agree about every target but `e`, which is being entered and
not mounted. -/
structure Consistent (s : Session) (k : Kernel) (e : Option Target) : Prop where
  settled : ∀ t, some t ≠ e → s.stateOf t ≠ .mounting
  agrees : ∀ t, s.disk.IsTarget t → some t ≠ e →
    (k.mounts (s.disk.nameOf t) = true ↔ s.stateOf t = .mounted)
  idle : ∀ t, s.disk.IsTarget t → some t = e → k.mounts (s.disk.nameOf t) = false
  only : ∀ n, n.disk = s.disk.diskId → k.mounts n = true →
    ∃ t, s.disk.IsTarget t ∧ n = s.disk.nameOf t

/-- Only the state of `t` may differ. -/
structure SameBut (t : Target) (s s' : Session) : Prop where
  disk : s'.disk = s.disk
  stateOf : ∀ u, u ≠ t → s'.stateOf u = s.stateOf u

section Steps

variable {s s' : Session} {k k' : Kernel} {e : Option Target} {t : Target} {i : ℕ}

theorem sameBut_setSlot (s : Session) (i : ℕ) (p : PartSlot) :
    SameBut (.slot i) s (s.setSlot i p) :=
  ⟨rfl, fun _ => Session.stateOf_setSlot_of_ne⟩

theorem sameBut_setWhole (s : Session) (st : AnyfsPartState) : SameBut .whole s (s.setWhole st) :=
  ⟨rfl, fun _ => Session.stateOf_setWhole_of_ne⟩

theorem consistent_opened {d : Disk} (cache : ℕ → Bytes)
    (hk : ∀ n, n.disk = d.diskId → k.mounts n = false) :
    Consistent (Session.opened d cache) k none := by
  have hstate : ∀ t, (Session.opened d cache).stateOf t = .new := by
    rintro (_ | _) <;> rfl
  refine ⟨fun t _ => ?_, fun t _ _ => ?_, fun t _ h => ?_, fun n hn hm => ?_⟩
  · rw [hstate]
    decide
  · rw [hstate, hk ((Session.opened d cache).disk.nameOf t) (Disk.disk_nameOf d t)]
    decide
  · cases h
  · rw [hk n hn] at hm
    cases hm

theorem Consistent.released (h : Consistent s k e) (hr : Released s k s' k') :
    Consistent s' k' e := by
  have hstate : ∀ t, s'.stateOf t = s.stateOf t ∨ s'.stateOf t = .new := by
    intro t
    by_cases ht : s.disk.IsTarget t
    · exact (hr.target t ht).imp And.left And.left
    · exact .inl (hr.other t ht)
  refine ⟨fun t he => ?_, fun t ht he => ?_, fun t ht he => ?_, fun n hn hm => ?_⟩
  · rcases hstate t with hst | hst
    · exact hst ▸ h.settled t he
    · rw [hst]
      decide
  · rw [hr.disk] at ht ⊢
    rcases hr.target t ht with ⟨hst, hm⟩ | ⟨hst, hm⟩
    · rw [hst, hm]
      exact h.agrees t ht he
    · rw [hst, hm]
      decide
  · -- releasing mounts nothing, so what was not mounted is not mounted
    rw [hr.disk] at ht ⊢
    have hidle := h.idle t ht he
    by_contra hm
    rw [Bool.not_eq_false] at hm
    rw [hr.mounts_le _ hm] at hidle
    cases hidle
  · rw [hr.disk] at hn ⊢
    exact h.only n hn (hr.mounts_le n hm)

theorem Consistent.begin (h : Consistent s k none) (hs : SameBut t s s')
    (hst : s.stateOf t ≠ .mounted) : Consistent s' k (some t) := by
  refine ⟨fun u hu => ?_, fun u hu hne => ?_, fun u hu heq => ?_, fun n hn hm => ?_⟩
  · rw [hs.stateOf u fun h => hu (h ▸ rfl)]
    exact h.settled u nofun
  · rw [hs.disk] at hu ⊢
    rw [hs.stateOf u fun h => hne (h ▸ rfl)]
    exact h.agrees u hu nofun
  · rw [hs.disk] at hu ⊢
    obtain rfl : u = t := some.inj heq
    rw [← Bool.not_eq_true, h.agrees u hu nofun]
    exact hst
  · rw [hs.disk] at hn ⊢
    exact h.only n hn hm

theorem Consistent.publish {r : MountRet} (h : Consistent s k (some t)) (ht : s.disk.IsTarget t)
    (hspec : r.Spec (s.disk.nameOf t) k) (hs : SameBut t s s')
    (hst : s'.stateOf t = .mounted ↔ r.rc = 0) (hne : s'.stateOf t ≠ .mounting) :
    Consistent s' r.kernel none := by
  -- a mount moves one name only, and only when it succeeds
  have hself : r.kernel.mounts (s.disk.nameOf t) = true ↔ r.rc = 0 := by
    rw [hspec.mounts]
    by_cases hrc : r.rc = 0
    · simp [hrc]
    · simp [hrc, h.idle t ht rfl]
  have hother : ∀ n, n ≠ s.disk.nameOf t → r.kernel.mounts n = k.mounts n := by
    intro n hn
    rw [hspec.mounts]
    split_ifs
    · exact Function.update_of_ne hn _ _
    · rfl
  refine ⟨fun u _ => ?_, fun u hu _ => ?_, nofun, fun n hn hm => ?_⟩
  · rcases eq_or_ne u t with rfl | hut
    · exact hne
    · rw [hs.stateOf u hut]
      exact h.settled u fun h => hut (some.inj h)
  · rw [hs.disk] at hu ⊢
    rcases eq_or_ne u t with rfl | hut
    · rw [hself, hst]
    · rw [hs.stateOf u hut, hother _ fun h => hut (Disk.nameOf_inj hu.has ht.has h)]
      exact h.agrees u hu fun h => hut (some.inj h)
  · rw [hs.disk] at hn ⊢
    by_cases hname : n = s.disk.nameOf t
    · exact ⟨t, ht, hname⟩
    · exact h.only n hn (hother n hname ▸ hm)

theorem Consistent.update (h : Consistent s k none) (hs : SameBut t s s')
    (hst : s.stateOf t ≠ .mounted) (hst' : s'.stateOf t ≠ .mounted)
    (hne : s'.stateOf t ≠ .mounting) : Consistent s' k none := by
  have hb := h.begin hs hst
  refine ⟨fun u _ => ?_, fun u hu _ => ?_, nofun, hb.only⟩
  · rcases eq_or_ne u t with rfl | hut
    · exact hne
    · exact hb.settled u fun h => hut (some.inj h)
  · rcases eq_or_ne u t with rfl | hut
    · rw [hb.idle u hu rfl]
      simp [hst']
    · exact hb.agrees u hu fun h => hut (some.inj h)

end Steps

/-! ### The calls -/

section Calls

variable {env : KernelEnv} {ce : CredEnv} {s : Session} {k : Kernel} {flags : MountFlags}
  {i : ℕ}

def EndsConsistent (s : Session) (o : Option EnterRet) : Prop :=
  ∃ r, o = some r ∧ r.session.disk = s.disk ∧ Consistent r.session r.kernel none

theorem publishSlot_consistent {m : MountRet} (h : Consistent s k (some (.slot i)))
    (ht : s.disk.IsTarget (.slot i)) (hspec : m.Spec (s.disk.mountName i) k) :
    (publishSlot s i m).session.disk = s.disk ∧
      Consistent (publishSlot s i m).session (publishSlot s i m).kernel none := by
  rw [publishSlot]
  split_ifs with hrc hbusy
  · refine ⟨rfl, h.publish ht hspec (sameBut_setSlot ..) ?_ ?_⟩
    · simp [hrc]
    · simp
  · refine ⟨rfl, h.publish ht hspec (sameBut_setSlot ..) ?_ ?_⟩
    · simp [hrc]
    · simp
  · refine ⟨rfl, h.publish ht hspec (sameBut_setSlot ..) ?_ ?_⟩
    · simp [hrc]
    · simp

theorem mountSlot_consistent (h : Consistent s k (some (.slot i)))
    (ht : s.disk.IsTarget (.slot i)) :
    (mountSlot env s k i flags).session.disk = s.disk ∧
      Consistent (mountSlot env s k i flags).session (mountSlot env s k i flags).kernel none := by
  by_cases hparent : (s.disk.part i).parent = none
  · obtain ⟨s₁, k₁, -, m, hrel, hspec, -, hslot⟩ := mountSlot_of_top env s k flags hparent
    have hd := hrel.disk
    rw [← hd] at ht hspec
    rw [hslot, ← hd]
    exact publishSlot_consistent (h.released hrel) ht hspec
  · rw [mountSlot, if_neg hparent]
    exact publishSlot_consistent h ht (mountViaDevpath_spec _)

section

variable (h : Consistent s k none)
include h

theorem enterFsSlot_consistent (ht : s.disk.IsTarget (.slot i)) :
    EndsConsistent s (enterFsSlot env s k i flags) := by
  rw [enterFsSlot]
  rcases hst : (s.slot i).state with _ | _ | _ | _
  · have hne : s.stateOf (.slot i) ≠ .mounted := by simp [Session.stateOf, hst]
    exact ⟨_, rfl, mountSlot_consistent (h.begin (sameBut_setSlot ..) hne) ht⟩
  · exact absurd hst (h.settled (.slot i) (by rintro ⟨⟩))
  · exact ⟨_, rfl, rfl, h⟩
  · exact ⟨_, rfl, rfl, h⟩

theorem enterContainer_consistent (query : Option Bytes) :
    EndsConsistent s (enterContainer ce s k i query) := by
  rw [enterContainer]
  rcases hent : enterContainerSlot ce s i query with _ | ⟨rc, s'⟩
  · rcases hst : (s.slot i).state with _ | _ | _ | _ <;> simp [enterContainerSlot, hst] at hent
    exact absurd hst (h.settled (.slot i) (by rintro ⟨⟩))
  · rcases enterContainerSlot_cases hent with ⟨-, -, rfl⟩ | ⟨-, -, rfl⟩ | ⟨hst, -, rfl⟩
    · exact ⟨_, rfl, rfl, h⟩
    · exact ⟨_, rfl, rfl, h⟩
    · -- the slot may be a filesystem that the walk takes for a container
      refine ⟨_, rfl, rfl, h.update (t := .slot i) (sameBut_setSlot ..) ?_ ?_ ?_⟩
      · simp [Session.stateOf, hst]
      · simp [Session.stateOf]
      · simp [Session.stateOf]

theorem enterLeaf_consistent (hi : i < s.disk.parts.length)
    (query : Option Bytes) : EndsConsistent s (enterLeaf env ce s k i query flags) := by
  rw [enterLeaf]
  split_ifs with hkind
  · exact enterFsSlot_consistent h ⟨hi, hkind⟩
  · exact enterContainer_consistent h query

theorem enterWhole_consistent : EndsConsistent s (enterWhole env s k flags) := by
  obtain hent | ⟨hst, -⟩ | hent | ⟨hne, s₁, k₁, -, m, hrel, -, hspec, -, hent⟩ :=
    enterWhole_cases env s k flags
  · exact ⟨_, hent, rfl, h⟩
  · exact absurd hst (h.settled .whole nofun)
  · exact ⟨_, hent, rfl, h⟩
  · have hb := (h.begin (sameBut_setWhole s .mounting) hne).released hrel
    have hd : s₁.disk = s.disk := hrel.disk
    rw [Disk.wholeName, ← hd] at hspec
    rw [hent]
    split_ifs with hrc
    · refine ⟨_, rfl, hd, hb.publish (t := .whole) trivial hspec (sameBut_setWhole ..) ?_ ?_⟩
      · simp [hrc]
      · simp
    · refine ⟨_, rfl, hd, hb.publish (t := .whole) trivial hspec (sameBut_setWhole ..) ?_ ?_⟩
      · simp [hrc]
      · simp

theorem anyfsSessionEnter_consistent (part : UInt32) :
    EndsConsistent s (anyfsSessionEnter env ce s k part flags) := by
  rw [anyfsSessionEnter]
  split_ifs with hpart
  · exact enterWhole_consistent h
  · rcases hi : s.disk.findSlotByPair none part with _ | i
    · exact ⟨_, rfl, rfl, h⟩
    · exact enterLeaf_consistent h (Disk.findSlotByPair_eq_some hi).1 none

end

theorem walkFrom_consistent (comp : List AnyfsPathComp) (h : Consistent s k none)
    (parent : Option ℕ) :
    EndsConsistent s ((walkFrom env ce s k parent flags comp).map Prod.fst) := by
  induction comp generalizing s k parent with
  | nil => exact ⟨_, rfl, rfl, h⟩
  | cons c rest ih =>
    rw [walkFrom]
    rcases hi : s.disk.findSlotByPair parent c.p with _ | i
    · exact ⟨_, rfl, rfl, h⟩
    dsimp only
    by_cases hrest : rest = []
    · have hleaf : EndsConsistent s (enterLeaf env ce s k i c.query flags) :=
        enterLeaf_consistent h (Disk.findSlotByPair_eq_some hi).1 c.query
      obtain ⟨r, hr, hcons⟩ := hleaf
      exact ⟨r, by simp [hrest, hr], hcons⟩
    · have hup : EndsConsistent s (enterContainer ce s k i c.query) :=
        enterContainer_consistent h c.query
      obtain ⟨r, hr, hd, hcons⟩ := hup
      simp only [hrest, if_false, hr]
      split_ifs
      · exact ⟨r, rfl, hd, hcons⟩
      · obtain ⟨r', hr', hd', hcons'⟩ := ih hcons (some i)
        exact ⟨r', hr', hd'.trans hd, hcons'⟩

theorem anyfsSessionEnterPath_consistent (h : Consistent s k none) (comp : List AnyfsPathComp) :
    EndsConsistent s (anyfsSessionEnterPath env ce s k comp flags) := by
  have hwalk : EndsConsistent s ((walkFrom env ce s k none flags comp).map Prod.fst) :=
    walkFrom_consistent comp h none
  obtain ⟨r, hr, hd, hcons⟩ := hwalk
  obtain ⟨⟨r, leaf⟩, hw, rfl⟩ := map_eq_some_iff.mp hr
  rw [anyfsSessionEnterPath, anyfsSessionWalk, hw, map_some]
  refine ⟨_, rfl, ?_⟩
  dsimp only at hd hcons ⊢
  split_ifs
  · exact ⟨hd, hcons⟩
  · cases leaf with
    | none => exact ⟨hd, hcons⟩
    | some i =>
      dsimp only
      split_ifs <;> exact ⟨hd, hcons⟩

end Calls

/-! ### Sequential runs -/

/-- The calls that change a session. -/
inductive Call where
  | enter (part : UInt32) (flags : MountFlags)
  | enterPath (comp : List AnyfsPathComp) (flags : MountFlags)
  | leave (part : UInt32)

def Call.exec (env : KernelEnv) (ce : CredEnv) (sk : Session × Kernel) :
    Call → Option (Session × Kernel)
  | .enter part flags =>
    (anyfsSessionEnter env ce sk.1 sk.2 part flags).map fun r => (r.session, r.kernel)
  | .enterPath comp flags =>
    (anyfsSessionEnterPath env ce sk.1 sk.2 comp flags).map fun r => (r.session, r.kernel)
  | .leave part =>
    let r := anyfsSessionLeave env sk.1 sk.2 part
    some (r.session, r.kernel)

def runCalls (env : KernelEnv) (ce : CredEnv) : List Call → Session × Kernel →
    Option (Session × Kernel)
  | [], sk => some sk
  | c :: cs, sk => (c.exec env ce sk).bind (runCalls env ce cs)

variable {env : KernelEnv} {ce : CredEnv}

theorem exec_consistent (c : Call) {sk : Session × Kernel} (h : Consistent sk.1 sk.2 none) :
    ∃ sk', c.exec env ce sk = some sk' ∧ sk'.1.disk = sk.1.disk ∧
      Consistent sk'.1 sk'.2 none := by
  cases c with
  | enter part flags =>
    have hend : EndsConsistent sk.1 (anyfsSessionEnter env ce sk.1 sk.2 part flags) :=
      anyfsSessionEnter_consistent h part
    obtain ⟨r, hr, hcons⟩ := hend
    exact ⟨_, by rw [Call.exec, hr]; rfl, hcons⟩
  | enterPath comp flags =>
    have hend : EndsConsistent sk.1 (anyfsSessionEnterPath env ce sk.1 sk.2 comp flags) :=
      anyfsSessionEnterPath_consistent h comp
    obtain ⟨r, hr, hcons⟩ := hend
    exact ⟨_, by rw [Call.exec, hr]; rfl, hcons⟩
  | leave part =>
    have hrel := anyfsSessionLeave_released env sk.1 sk.2 part
    exact ⟨_, rfl, hrel.disk, h.released hrel⟩

theorem run_consistent (cs : List Call) {sk : Session × Kernel} (h : Consistent sk.1 sk.2 none) :
    ∃ sk', runCalls env ce cs sk = some sk' ∧ sk'.1.disk = sk.1.disk ∧
      Consistent sk'.1 sk'.2 none := by
  induction cs generalizing sk with
  | nil => exact ⟨sk, rfl, rfl, h⟩
  | cons c cs ih =>
    have hstep : ∃ sk', c.exec env ce sk = some sk' ∧ sk'.1.disk = sk.1.disk ∧
        Consistent sk'.1 sk'.2 none := exec_consistent c h
    obtain ⟨sk₁, hexec, hd, hcons⟩ := hstep
    obtain ⟨sk₂, hrun, hd', hcons'⟩ := ih hcons
    exact ⟨sk₂, by rw [runCalls, hexec, bind_some, hrun], hd'.trans hd, hcons'⟩

end Anyfs
