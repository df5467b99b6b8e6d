import Anyfs.Fuse.Path
import Anyfs.Session.Walk

/-!
# Long FUSE paths

`FuseFs.Names` says which file a path names: the mount point and the complete path below it. The
function prints both into its buffers with `snprintf` and reports success in any case.
-/

namespace Anyfs

open List Option CString

/-- A disk index as `parse_fuse_path` uses it: a path without one is about disk 0. -/
def diskOf (diskIdx : ℤ) : ℕ := if diskIdx < 0 then 0 else diskIdx.toNat

theorem ofNat_diskOf (diskIdx : ℤ) :
    (if diskIdx < 0 then 0 else diskIdx) = (diskOf diskIdx : ℤ) := by
  rw [diskOf]
  split_ifs
  · rfl
  · omega

/-- What a path stands for: a mount point and a path below it. -/
inductive FuseFs.Names (f : FuseFs) (path : Bytes) : Bytes → Bytes → Prop
  /-- In Mode A the whole path is below the mount point. -/
  | pinned {mountPoint : Bytes} (h : f.modeA = some mountPoint) :
      f.Names path mountPoint (dropSlash path)
  /-- In Mode B the path is a chain to a filesystem, and a path below it. -/
  | inPartition {diskIdx : ℤ} {p : Bytes} {s : Session} {dsl : AnyfsPath} {i : ℕ}
      (h : f.modeA = none) (hhead : fuseHead f.disks.length path = .chain diskIdx p)
      (hdisk : f.disks[diskOf diskIdx]? = some s)
      (hdsl : anyfsPathParse (chainSplit p).1 = some dsl)
      (hleaf : s.disk.resolve none dsl.comp = some i) (hkind : (s.disk.part i).kind = .fs) :
      f.Names path (s.disk.mountName i).point (chainSplit p).2

section Names

variable {f : FuseFs} {path mount inner mount' inner' : Bytes}

theorem FuseFs.Names.unique (h : f.Names path mount inner) (h' : f.Names path mount' inner') :
    mount' = mount ∧ inner' = inner := by
  cases h with
  | pinned hm =>
    cases h' with
    | pinned hm' => exact ⟨some.inj (hm'.symm.trans hm), rfl⟩
    | inPartition hm' => cases hm.symm.trans hm'
  | inPartition hm hhead hdisk hdsl hleaf =>
    cases h' with
    | pinned hm' => cases hm.symm.trans hm'
    | inPartition _ hhead' hdisk' hdsl' hleaf' =>
      obtain ⟨rfl, rfl⟩ := FuseHead.chain.inj (hhead.symm.trans hhead')
      obtain rfl := some.inj (hdisk.symm.trans hdisk')
      obtain rfl := some.inj (hdsl.symm.trans hdsl')
      obtain rfl := some.inj (hleaf.symm.trans hleaf')
      exact ⟨rfl, rfl⟩

theorem parseChain_inPartition {diskIdx : ℤ} {p : Bytes} {fp : FusePath}
    (h : parseChain diskIdx p = some (.inPartition, fp)) :
    ∃ dsl, anyfsPathParse (chainSplit p).1 = some dsl ∧
      fp = ⟨diskOf diskIdx, some dsl, slash :: snprintf 4095 (chainSplit p).2⟩ := by
  simp only [parseChain, ofNat_diskOf] at h
  by_cases hp : p.head? ≠ some 112
  · rw [if_pos hp] at h
    cases h
  by_cases hlen : (chainSplit p).1.length = 0 ∨ 512 ≤ (chainSplit p).1.length
  · rw [if_neg hp, if_pos hlen] at h
    cases h
  rw [if_neg hp, if_neg hlen] at h
  rcases hdsl : anyfsPathParse (chainSplit p).1 with _ | dsl
  · simp [hdsl] at h
  · simp only [hdsl] at h
    split_ifs at h with hrest
    · simp only [some.injEq, Prod.mk.injEq, true_and] at h
      exact ⟨dsl, rfl, h.symm⟩
    · simp at h

theorem resolveWalk_ok {env : KernelEnv} {ce : CredEnv} {n : ℕ} {dsl : AnyfsPath} {w : WalkRet}
    (h : resolveWalk env ce f ⟨n, some dsl, inner⟩ = some w) (hrc : w.rc = 0)
    (hmount : w.lklMount ≠ []) :
    ∃ s i, f.disks[n]? = some s ∧ s.disk.resolve none dsl.comp = some i ∧
      (s.disk.part i).kind = .fs ∧ w.lklMount = (s.disk.mountName i).point := by
  have hn : ¬ (n : ℤ) < 0 := by omega
  simp only [resolveWalk, hn, if_false, Int.toNat_natCast] at h
  rcases hs : f.disks[n]? with _ | s
  · simp only [hs, some.injEq] at h
    rw [← h] at hmount
    exact absurd rfl hmount
  simp only [hs, map_eq_some_iff, anyfsSessionWalk] at h
  obtain ⟨⟨r, leaf⟩, hwalk, rfl⟩ := h
  by_cases hneg : r.rc < 0
  · simp only [hneg, if_true] at hmount
    exact absurd rfl hmount
  · simp only [hneg, if_false] at hmount ⊢
    have hpath : r.lklPath ≠ [] := fun h => hmount (by rw [h]; rfl)
    obtain ⟨i, hi, hlt, hkind, hpoint⟩ := walkFrom_of_lklPath_ne_nil hwalk hneg hpath
    refine ⟨s, i, rfl, hi, hkind, ?_⟩
    rw [hpoint, Disk.snprintf_point hlt]

theorem fusePathToLkl_out {env : KernelEnv} {ce : CredEnv} {outLen : ℕ} {r : FuseRet}
    (h : fusePathToLkl env ce f path outLen = some r) (hrc : r.rc = 0) :
    ∃ mount inner, f.Names path mount inner ∧ r.out =
      snprintf outLen (mount ++ slash ::
        if f.modeA = none then snprintf 4095 inner else inner) := by
  rw [fusePathToLkl] at h
  rcases hmode : f.modeA with _ | mountPoint
  · -- Mode B: every way out but one reports an error
    have herror : (⟨-ENOENT, [], f⟩ : FuseRet) ≠ r := fun h => by
      rw [← h] at hrc
      exact absurd hrc (by decide : ¬ -ENOENT = 0)
    simp only [hmode, parseFusePath] at h
    rcases hhead : fuseHead f.disks.length path with _ | d | d | ⟨d, p⟩ <;>
      simp only [hhead, some.injEq] at h
    · exact absurd h herror
    · exact absurd h herror
    · exact absurd h herror
    rcases hchain : parseChain d p with _ | ⟨kind, fp⟩
    · simp only [hchain, some.injEq] at h
      exact absurd h herror
    cases kind with
    | inPartition =>
      simp only [hchain, map_eq_some_iff] at h
      obtain ⟨w, hw, rfl⟩ := h
      obtain ⟨dsl, hdsl, rfl⟩ := parseChain_inPartition hchain
      by_cases hok : w.rc = 0 ∧ w.lklMount ≠ []
      · obtain ⟨s, i, hs, hi, hkind, hpoint⟩ := resolveWalk_ok hw hok.1 hok.2
        refine ⟨_, _, .inPartition hmode hhead hs hdsl hi hkind, ?_⟩
        rw [if_pos hok, ← hpoint]
        rfl
      · rw [if_neg hok] at hrc
        exact absurd hrc (by decide : ¬ - EIO = 0)
    | synthRoot | partNode | synthFile =>
      simp only [hchain, some.injEq] at h
      exact absurd h herror
  · simp only [hmode, some.injEq] at h
    exact ⟨mountPoint, dropSlash path, .pinned hmode, by simp [← h]⟩

/-- The named path fits the caller's buffer, and in Mode B the one for the path inside the
partition. -/
def FuseFs.Fits (f : FuseFs) (outLen : ℕ) (mount inner : Bytes) : Prop :=
  (mount ++ slash :: inner).length < outLen ∧ (f.modeA = none → inner.length ≤ 4094)

/-- **Long paths.** When `fuse_path_to_lkl` reports success the path names one file, and the
buffer holds its mount point followed by the complete path below it exactly when these fit the
buffers. -/
theorem fusePathToLkl_names_iff {env : KernelEnv} {ce : CredEnv} {outLen : ℕ} {r : FuseRet}
    (h : fusePathToLkl env ce f path outLen = some r) (hrc : r.rc = 0) :
    ∃ mount inner, (∀ mount' inner', f.Names path mount' inner' ↔ mount' = mount ∧ inner' = inner) ∧
      (r.out = mount ++ slash :: inner ↔ f.Fits outLen mount inner) := by
  obtain ⟨mount, inner, hnames, hout⟩ := fusePathToLkl_out h hrc
  refine ⟨mount, inner, fun mount' inner' => ⟨hnames.unique, ?_⟩, ?_⟩
  · rintro ⟨rfl, rfl⟩
    exact hnames
  have hne : mount ++ slash :: inner ≠ [] := by simp
  rw [hout, FuseFs.Fits]
  by_cases hmode : f.modeA = none
  · simp only [hmode, if_true, true_implies]
    constructor
    · intro heq
      -- compare lengths: neither of the two copies may have lost a byte
      have hlen := congrArg length heq
      simp only [snprintf, length_take, length_append, length_cons] at hlen ⊢
      omega
    · rintro ⟨hlen, hinner⟩
      have hkeep : snprintf 4095 inner = inner := take_of_length_le hinner
      rw [hkeep, snprintf_eq_self_iff (.inr hne)]
      exact hlen
  · simp only [hmode, if_false, false_implies, and_true]
    exact snprintf_eq_self_iff (.inr hne)

end Names

def FuseFs.pinnedTo (mountPoint : Bytes) : FuseFs :=
  ⟨some mountPoint, [], .fresh, ⟨false, false, 0⟩, by decide⟩

/-- A short path in Mode A. -/
theorem fusePathToLkl_names_short :
    ∃ r, fusePathToLkl .accepting .empty (.pinnedTo (ascii "/lklmnt/anyfs_d0_p1"))
        (ascii "/etc/passwd") lklPathBuf = some r ∧ r.rc = 0 ∧
      r.out = ascii "/lklmnt/anyfs_d0_p1" ++ slash :: ascii "etc/passwd" := by
  refine ⟨_, rfl, rfl, ?_⟩
  obtain ⟨mount, inner, hnames, hout⟩ := @fusePathToLkl_names_iff
    (.pinnedTo (ascii "/lklmnt/anyfs_d0_p1")) (ascii "/etc/passwd") .accepting .empty lklPathBuf
    _ rfl rfl
  obtain ⟨rfl, rfl⟩ := (hnames _ _).mp (.pinned rfl)
  exact hout.mpr ⟨by decide, nofun⟩

/-- A path of 15 names with 255 letters and one with 240, as a kernel can send it: success is
reported, and the last letters are missing. -/
theorem fusePathToLkl_truncates :
    ¬ ∀ (env : KernelEnv) (ce : CredEnv) (f : FuseFs) (path : Bytes) (r : FuseRet),
      fusePathToLkl env ce f path lklPathBuf = some r → r.rc = 0 →
      ∃ mount inner, f.Names path mount inner ∧ r.out = mount ++ slash :: inner := by
  intro hall
  let name : Bytes := replicate 255 97
  let inner : Bytes := name ++ (replicate 14 (slash :: name)).flatten ++
    slash :: replicate 240 97
  have hinner : inner.length = 4080 := by
    simp only [inner, name, length_append, length_flatten, map_replicate, length_cons,
      length_replicate, sum_replicate_nat]
  obtain ⟨mount, _, hnames, hout⟩ := hall .accepting .empty
    (.pinnedTo (ascii "/lklmnt/anyfs_d0_p1")) (slash :: inner) _ rfl rfl
  cases hnames with
  | inPartition hmode => cases hmode
  | pinned hmode =>
    obtain rfl := some.inj hmode
    have hpoint : (ascii "/lklmnt/anyfs_d0_p1").length = 19 := rfl
    have hdrop : dropSlash (slash :: inner) = inner := rfl
    have hlen := congrArg length hout
    simp only [hdrop, snprintf, lklPathBuf, length_take, length_append, length_cons,
      hinner, hpoint] at hlen
    omega

end Anyfs
