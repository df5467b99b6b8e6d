import Anyfs.Session.Enter

/-!
# What a walk does

`anyfs_session_walk` refuses a path that goes on below a plain filesystem, but only after it has
handed the filesystem to `enter_container_slot`: a filesystem that was NEW is FAILED, in every other
state nothing has changed.
-/

namespace Anyfs

open Option CString List

/-- The slot that a chain leads to. -/
def Disk.resolve (d : Disk) : Option ℕ → List AnyfsPathComp → Option ℕ
  | _, [] => none
  | parent, c :: rest =>
    match d.findSlotByPair parent c.p with
    | none => none
    | some i => if rest = [] then some i else d.resolve (some i) rest

section MountPoint

variable {env : KernelEnv} {ce : CredEnv} {s : Session} {k : Kernel} {flags : MountFlags}
  {parent : Option ℕ} {comp : List AnyfsPathComp} {i : ℕ} {r : EnterRet} {leaf : Option ℕ}

theorem publishSlot_lklPath {m : MountRet} {name : MountName} (hspec : m.Spec name k)
    (hrc : ¬ (publishSlot s i m).rc < 0) :
    (publishSlot s i m).lklPath = snprintf 64 name.point := by
  have hm : m.rc = 0 := by
    have hle := hspec.rc_nonpos
    by_contra hne
    refine hrc ?_
    rw [publishSlot, if_neg hne]
    split_ifs <;> exact lt_of_le_of_ne hle hne
  rw [publishSlot, if_pos hm, hspec.mountPoint hm]
  simp [snprintf]

theorem enterFsSlot_lklPath (h : enterFsSlot env s k i flags = some r) (hrc : ¬ r.rc < 0) :
    r.lklPath = snprintf 64 (s.disk.mountName i).point := by
  rcases hst : (s.slot i).state with _ | _ | _ | _ <;>
    simp only [enterFsSlot, hst, reduceCtorEq, some.injEq] at h
  · rw [← h] at hrc ⊢
    by_cases hp : (s.disk.part i).parent = none
    · obtain ⟨s₁, k₁, -, m, -, hspec, -, hslot⟩ :=
        mountSlot_of_top env (s.setState i .mounting) k flags hp
      rw [hslot] at hrc ⊢
      exact publishSlot_lklPath hspec hrc
    · rw [mountSlot, Session.disk_setState, if_neg hp] at hrc ⊢
      exact publishSlot_lklPath (mountViaDevpath_spec _) hrc
  · rw [← h]
  · rw [← h] at hrc
    exact absurd (by decide : (-3 : ℤ) < 0) hrc

theorem walkFrom_of_ok (h : walkFrom env ce s k parent flags comp = some (r, leaf))
    (hrc : ¬ r.rc < 0) :
    ∃ i query, s.disk.resolve parent comp = some i ∧ i < s.disk.parts.length ∧ leaf = some i ∧
      enterLeaf env ce s k i query flags = some r := by
  induction comp generalizing parent with
  | nil =>
    simp only [walkFrom, some.injEq, Prod.mk.injEq] at h
    rw [← h.1] at hrc
    exact absurd (by decide : -EINVAL < 0) hrc
  | cons c rest ih =>
    rw [walkFrom] at h
    rw [Disk.resolve]
    rcases hi : s.disk.findSlotByPair parent c.p with _ | i
    · simp only [hi, some.injEq, Prod.mk.injEq] at h
      rw [← h.1] at hrc
      exact absurd (by decide : -ENOENT < 0) hrc
    obtain ⟨hlt, -, -⟩ := Disk.findSlotByPair_eq_some hi
    simp only [hi] at h ⊢
    by_cases hrest : rest = []
    · -- the last component
      simp only [hrest, if_true, map_eq_some_iff, Prod.mk.injEq] at h ⊢
      obtain ⟨r', hr, rfl, rfl⟩ := h
      exact ⟨i, c.query, rfl, hlt, rfl, hr⟩
    · simp only [hrest, if_false, enterContainer] at h ⊢
      rcases hent : enterContainerSlot ce s i c.query with _ | ⟨rc, s'⟩
      · simp [hent] at h
      simp only [hent, map_some] at h
      rcases enterContainerSlot_cases hent with ⟨-, rfl, rfl⟩ | ⟨-, rfl, rfl⟩ | ⟨-, hneg, rfl⟩
      · rw [if_neg (by decide)] at h
        exact ih h
      · rw [if_pos (by decide), some.injEq, Prod.mk.injEq] at h
        rw [← h.1] at hrc
        exact absurd (by decide : (-3 : ℤ) < 0) hrc
      · rw [if_pos hneg, some.injEq, Prod.mk.injEq] at h
        rw [← h.1] at hrc
        exact absurd hneg hrc

theorem walkFrom_of_lklPath_ne_nil (h : walkFrom env ce s k parent flags comp = some (r, leaf))
    (hrc : ¬ r.rc < 0) (hpath : r.lklPath ≠ []) :
    ∃ i, s.disk.resolve parent comp = some i ∧ i < s.disk.parts.length ∧
      (s.disk.part i).kind = .fs ∧ r.lklPath = (s.disk.mountName i).point := by
  obtain ⟨i, query, hres, hlt, -, hr⟩ := walkFrom_of_ok h hrc
  rw [enterLeaf] at hr
  by_cases hk : (s.disk.part i).kind = .fs
  · rw [if_pos hk] at hr
    refine ⟨i, hres, hlt, hk, ?_⟩
    rw [enterFsSlot_lklPath hr hrc, Disk.snprintf_point hlt]
  · -- a container hands out no mount point
    rw [if_neg hk, enterContainer, map_eq_some_iff] at hr
    obtain ⟨_, _, rfl⟩ := hr
    exact absurd rfl hpath

theorem anyfsSessionEnterPath_lklPath (h : anyfsSessionEnterPath env ce s k comp flags = some r)
    (hrc : ¬ r.rc < 0) : ∃ name : MountName, r.lklPath = snprintf 64 name.point := by
  rw [anyfsSessionEnterPath, map_eq_some_iff] at h
  obtain ⟨⟨r', leaf⟩, hwalk, hr⟩ := h
  dsimp only at hr
  by_cases hneg : r'.rc < 0
  · rw [if_pos hneg] at hr
    exact absurd (hr ▸ hneg) hrc
  rw [if_neg hneg] at hr
  obtain ⟨i, query, -, -, rfl, hent⟩ := walkFrom_of_ok hwalk hneg
  dsimp only at hr
  rw [enterLeaf] at hent
  by_cases hk : (s.disk.part i).kind = .fs
  · rw [if_pos hk] at hent
    refine ⟨s.disk.mountName i, ?_⟩
    rw [← enterFsSlot_lklPath hent hneg, ← hr]
    split_ifs <;> rfl
  · -- a container is refused after the walk
    rw [if_neg hk, enterContainer, map_eq_some_iff] at hent
    obtain ⟨⟨rc, s'⟩, hslot, rfl⟩ := hent
    have hdisk : s'.disk = s.disk := by
      rcases enterContainerSlot_cases hslot with ⟨-, -, rfl⟩ | ⟨-, -, rfl⟩ | ⟨-, -, rfl⟩ <;> rfl
    rw [if_pos (show (s'.disk.part i).kind ≠ .fs from hdisk ▸ hk)] at hr
    rw [← hr] at hrc
    exact absurd (by decide : -EISDIR < 0) hrc

theorem enterWhole_lklPath (h : enterWhole env s k flags = some r) (hrc : ¬ r.rc < 0) :
    r.lklPath = snprintf 64 s.disk.wholeName.point := by
  obtain hent | ⟨-, hent⟩ | hent | ⟨-, s₁, k₁, -, m, -, -, hspec, -, hent⟩ :=
    enterWhole_cases env s k flags
  · rw [← some.inj (hent.symm.trans h)] at hrc
    exact absurd (by decide : (-4 : ℤ) < 0) hrc
  · cases hent.symm.trans h
  · rw [← some.inj (hent.symm.trans h)]
  · by_cases hm : m.rc = 0
    · rw [if_pos hm] at hent
      rw [← some.inj (hent.symm.trans h), hspec.mountPoint hm]
      simp [snprintf]
    · rw [if_neg hm] at hent
      rw [← some.inj (hent.symm.trans h)] at hrc
      exact absurd (lt_of_le_of_ne hspec.rc_nonpos hm) hrc

end MountPoint

/-- Where the loop of `anyfs_session_walk` stands after some components, none of them the last. -/
def Session.passed (s : Session) : Option ℕ → List AnyfsPathComp → Option (Option ℕ)
  | parent, [] => some parent
  | parent, c :: rest =>
    match s.disk.findSlotByPair parent c.p with
    | none => none
    | some i => if (s.slot i).state = .mounted then s.passed (some i) rest else none

section Walk

variable {env : KernelEnv} {ce : CredEnv} {s : Session} {k : Kernel} {flags : MountFlags}
  {parent parent' : Option ℕ} {pre post : List AnyfsPathComp} {c : AnyfsPathComp} {i : ℕ}
  {r : EnterRet} {leaf : Option ℕ}

theorem walkFrom_append_of_passed (hrest : post ≠ []) (h : s.passed parent pre = some parent') :
    walkFrom env ce s k parent flags (pre ++ post) =
      walkFrom env ce s k parent' flags post := by
  induction pre generalizing parent with
  | nil =>
    obtain rfl : parent = parent' := by simpa [Session.passed] using h
    rfl
  | cons c pre ih =>
    rw [Session.passed] at h
    rw [cons_append, walkFrom]
    rcases hi : s.disk.findSlotByPair parent c.p with _ | i
    · simp [hi] at h
    · simp only [hi] at h
      by_cases hst : (s.slot i).state = .mounted
      · rw [if_pos hst] at h
        have hne : pre ++ post ≠ [] := by simp [hrest]
        have hup : enterContainer ce s k i c.query = some ⟨0, [], s, k⟩ := by
          simp [enterContainer, enterContainerSlot, hst]
        simp only [hne, if_false, hup]
        exact ih h
      · simp [hst] at h

theorem walkFrom_cons_of_fs (hc : s.disk.findSlotByPair parent c.p = some i)
    (hk : (s.disk.part i).kind = .fs) (hpost : post ≠ [])
    (h : walkFrom env ce s k parent flags (c :: post) = some (r, leaf)) :
    r.rc < 0 ∧ r.kernel = k ∧
      if (s.slot i).state = .new then (r.session.slot i).state = .failed
      else r.session = s := by
  simp only [walkFrom, hc, hpost, if_false, enterContainer] at h
  rcases hent : enterContainerSlot ce s i c.query with _ | ⟨rc, s'⟩
  · simp [hent] at h
  simp only [hent, map_some] at h
  rcases enterContainerSlot_cases hent with ⟨hst, rfl, rfl⟩ | ⟨hst, rfl, rfl⟩ | ⟨hst, hrc, rfl⟩
  · -- an entered filesystem lets the walk pass, and then has no child to go on with
    obtain ⟨c', post, rfl⟩ := exists_cons_of_ne_nil hpost
    rw [if_neg (by decide)] at h
    simp only [walkFrom, s'.disk.findSlotByPair_eq_none_of_fs hk, some.injEq, Prod.mk.injEq] at h
    obtain ⟨rfl, -⟩ := h
    exact ⟨(by decide : -ENOENT < 0), rfl, by simp [hst]⟩
  · rw [if_pos (by decide)] at h
    simp only [some.injEq, Prod.mk.injEq] at h
    obtain ⟨rfl, -⟩ := h
    exact ⟨(by decide : (-3 : ℤ) < 0), rfl, by simp [hst]⟩
  · rw [if_pos hrc] at h
    simp only [some.injEq, Prod.mk.injEq] at h
    obtain ⟨rfl, -⟩ := h
    exact ⟨hrc, rfl, by simp [hst]⟩

/-- A walk whose path goes on below a plain filesystem waits exactly while another thread has
the filesystem in MOUNTING. -/
theorem walkFrom_cons_eq_none_iff (hc : s.disk.findSlotByPair parent c.p = some i)
    (hk : (s.disk.part i).kind = .fs) (hpost : post ≠ []) :
    walkFrom env ce s k parent flags (c :: post) = none ↔ (s.slot i).state = .mounting := by
  obtain ⟨c', post, rfl⟩ := exists_cons_of_ne_nil hpost
  simp only [walkFrom, hc, hpost, if_false, enterContainer]
  cases hst : (s.slot i).state with
  | new => simp [enterContainerSlot, hst, containerRc_neg]
  | mounting => simp [enterContainerSlot, hst]
  | mounted => simp [enterContainerSlot, hst, s.disk.findSlotByPair_eq_none_of_fs hk]
  | failed => simp [enterContainerSlot, hst]

/-- **A path through a filesystem.** A walk whose path goes on below a plain filesystem waits
while the filesystem is MOUNTING, and fails otherwise. It leaves the filesystem as it was, and
a later enter cannot tell that it happened, exactly when the filesystem was not NEW. -/
theorem walk_through_fs_iff (hpre : s.passed none pre = some parent)
    (hc : s.disk.findSlotByPair parent c.p = some i) (hk : (s.disk.part i).kind = .fs)
    (hpost : post ≠ []) :
    (anyfsSessionWalk env ce s k (pre ++ c :: post) flags = none ↔
        (s.slot i).state = .mounting) ∧
      ∀ r leaf, anyfsSessionWalk env ce s k (pre ++ c :: post) flags = some (r, leaf) →
        r.rc < 0 ∧
          (((r.session.slot i).state = (s.slot i).state ∧
              ∀ env' part flags', anyfsSessionEnter env' ce r.session r.kernel part flags' =
                anyfsSessionEnter env' ce s k part flags') ↔
            (s.slot i).state ≠ .new) := by
  rw [anyfsSessionWalk, walkFrom_append_of_passed (cons_ne_nil c post) hpre]
  refine ⟨walkFrom_cons_eq_none_iff hc hk hpost, fun r leaf h => ?_⟩
  obtain ⟨hrc, hkernel, hsess⟩ := walkFrom_cons_of_fs hc hk hpost h
  refine ⟨hrc, ⟨fun ⟨hsame, _⟩ hnew => ?_, fun hnew => ?_⟩⟩
  · rw [if_pos hnew] at hsess
    rw [hsess, hnew] at hsame
    cases hsame
  · rw [if_neg hnew] at hsess
    rw [hsess, hkernel]
    exact ⟨rfl, fun _ _ _ => rfl⟩

end Walk

/-- The path `p1/p1`, where partition 1 is a mounted filesystem, is refused. -/
theorem walk_through_fs_mounted :
    let s := (Session.opened Disk.single fun _ => []).setState 0 .mounted
    ∃ r leaf, anyfsSessionWalk .accepting .empty s .fresh [⟨1, none⟩, ⟨1, none⟩]
        ⟨false, false, 0⟩ = some (r, leaf) ∧ r.rc < 0 ∧
      (r.session.slot 0).state = (s.slot 0).state ∧
      ∀ env' part flags', anyfsSessionEnter env' .empty r.session r.kernel part flags' =
        anyfsSessionEnter env' .empty s .fresh part flags' := by
  intro s
  have hwalk : anyfsSessionWalk .accepting .empty s .fresh [⟨1, none⟩, ⟨1, none⟩]
      ⟨false, false, 0⟩ = some (⟨-ENOENT, [], s, .fresh⟩, none) := rfl
  obtain ⟨hrc, hiff⟩ := (@walk_through_fs_iff .accepting .empty s .fresh ⟨false, false, 0⟩ none
    [] [⟨1, none⟩] ⟨1, none⟩ 0 rfl rfl rfl (cons_ne_nil _ _)).2 _ _ hwalk
  exact ⟨_, _, hwalk, hrc, hiff.mpr (by decide)⟩

/-- The path `p1/p1` leaves a filesystem in partition 1 FAILED that was not entered yet. -/
theorem walk_through_new_fs_fails_it :
    ¬ ∀ (env : KernelEnv) (ce : CredEnv) (s : Session) (k : Kernel) (flags : MountFlags)
        (pre : List AnyfsPathComp) (c : AnyfsPathComp) (post : List AnyfsPathComp)
        (parent : Option ℕ) (i : ℕ) (r : EnterRet) (leaf : Option ℕ),
      s.passed none pre = some parent → s.disk.findSlotByPair parent c.p = some i →
      (s.disk.part i).kind = .fs → post ≠ [] →
      anyfsSessionWalk env ce s k (pre ++ c :: post) flags = some (r, leaf) →
      (r.session.slot i).state = (s.slot i).state := by
  intro hall
  let s := Session.opened Disk.single fun _ => []
  let reason := containerFailReason .empty .fs none
  have h := hall .accepting .empty s .fresh ⟨false, false, 0⟩ [] ⟨1, none⟩ [⟨1, none⟩] none 0
    ⟨-EINVAL, [], (s.setState 0 .mounting).setFail 0 reason, .fresh⟩ none
    rfl rfl rfl (cons_ne_nil _ _) rfl
  rw [Session.state_setFail_self] at h
  cases h

end Anyfs
