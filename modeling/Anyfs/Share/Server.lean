import Anyfs.Session.Walk
import Anyfs.Share.Resolve

/-!
# The shares of a server

`anyfs_server_resolve_shares` resolves one specification after the other, on the same disks, and
gives up at the first one that fails (`AnyfsShareEntry.For`).
-/

namespace Anyfs

open List CString

/-- An `AnyfsShareEntry`. -/
structure AnyfsShareEntry where
  name : Bytes
  lklPath : Bytes
  deriving DecidableEq

section Calls

variable (env : KernelEnv) (ce : CredEnv)

/-- The loop of `anyfs_server_resolve_shares` after `n` entries, or `none` where it returns -1 or
does not return. -/
def resolveShares (flags : MountFlags) (maxOut : ℕ) :
    ℕ → List Session → Kernel → List Bytes → Option (List AnyfsShareEntry)
  | _, _, _, [] => some []
  | n, disks, k, spec :: specs =>
    if maxOut ≤ n then none
    else
      match (anyfsShareResolve env ce disks k spec flags 64 64).ret with
      | none => none
      | some r =>
        if r.rc < 0 then none
        else
          (resolveShares flags maxOut (n + 1) r.disks r.kernel specs).map (⟨r.name, r.lkl⟩ :: ·)

def anyfsServerResolveShares (specs : List Bytes) (disks : List Session) (k : Kernel)
    (flags : MountFlags) (maxOut : ℕ) : Option (List AnyfsShareEntry) :=
  resolveShares env ce flags maxOut 0 disks k specs

end Calls

/-! ### Names -/

theorem notMem_appendComps {canonical : Bytes} (h : 0 ∉ canonical) (comp : List AnyfsPathComp) :
    0 ∉ appendComps canonical comp := by
  have hpiece : ∀ c : AnyfsPathComp, 0 ∉ ascii "_p" ++ decimal c.p.toNat := by
    intro c hmem
    rcases mem_append.mp hmem with hmem | hmem
    · exact absurd hmem (by decide)
    · exact absurd (isDigit_of_mem_decimal hmem) (by decide)
  induction comp generalizing canonical with
  | nil => exact h
  | cons c rest ih =>
    rw [appendComps]
    split_ifs
    · intro hmem
      rcases mem_append.mp hmem with hmem | hmem
      · exact h hmem
      · exact hpiece c (mem_of_mem_take hmem)
    · refine ih fun hmem => ?_
      rcases mem_append.mp hmem with hmem | hmem
      · exact h hmem
      · exact hpiece c hmem

theorem notMem_canonicalName (disk : ℤ) (comp : List AnyfsPathComp) :
    0 ∉ canonicalName disk comp := by
  refine notMem_appendComps (fun hmem => ?_) comp
  rcases mem_append.mp hmem with hmem | hmem
  · exact absurd hmem (by decide)
  · rw [decimalInt] at hmem
    split_ifs at hmem
    · rcases mem_cons.mp hmem with hzero | hmem
      · exact absurd hzero (by decide)
      · exact absurd (isDigit_of_mem_decimal hmem) (by decide)
    · exact absurd (isDigit_of_mem_decimal hmem) (by decide)

theorem notMem_anyfsShareAutoName (disk : ℤ) (comp : List AnyfsPathComp) (sz : ℕ) :
    0 ∉ anyfsShareAutoName (canonicalName disk comp) sz := by
  intro hmem
  obtain ⟨c, hc, heq⟩ := mem_map.mp (mem_of_mem_take hmem)
  split_ifs at heq
  · exact absurd heq (by decide)
  · exact notMem_canonicalName disk comp (heq ▸ hc)

theorem notMem_shareName {nDisks : ℕ} {spec : Bytes} {rd : ShareReading} {ap : AnyfsPath}
    (hspec : 0 ∉ spec) (h : shareTarget nDisks spec = .ok (rd, ap)) (sz : ℕ) :
    0 ∉ shareName rd ap sz := by
  obtain ⟨hsplit, -⟩ := shareReading_eq_some.mp (shareTarget_eq_ok.mp h).1
  rw [shareName]
  split
  · next name hname =>
    split_ifs
    · exact notMem_anyfsShareAutoName _ _ _
    · -- a name that was given is the start of the specification
      rw [hname] at hsplit
      intro hmem
      refine hspec (mem_of_mem_take (?_ : (0 : UInt8) ∈ snprintf 256 spec))
      rcases anyfsShareSplit_cases (snprintf 256 spec) with ⟨-, hs⟩ | ⟨name', path, -, htext, hs⟩
      · rw [hs] at hsplit
        cases (Prod.mk.inj hsplit).1
      · rw [hs] at hsplit
        obtain rfl := Option.some.inj (Prod.mk.inj hsplit).1
        rw [htext]
        exact mem_append_left _ (mem_of_mem_take hmem)
  · exact notMem_anyfsShareAutoName _ _ _

theorem length_shareName_lt (rd : ShareReading) (ap : AnyfsPath) :
    (shareName rd ap 64).length < 64 := by
  have hcut : ∀ s : Bytes, (snprintf 64 s).length < 64 := by
    intro s
    rw [snprintf, length_take]
    omega
  rw [shareName]
  split
  · split_ifs
    · exact hcut _
    · exact hcut _
  · exact hcut _

/-! ### Entries -/

/-- The entry of a specification: the name it gives, and a mount point. -/
structure AnyfsShareEntry.For (nDisks : ℕ) (spec : Bytes) (e : AnyfsShareEntry) : Prop where
  name : ∃ rd ap, shareTarget nDisks spec = .ok (rd, ap) ∧ e.name = shareName rd ap 64
  lklPath : ∃ mount : MountName, e.lklPath = snprintf 64 mount.point

section Entries

variable {env : KernelEnv} {ce : CredEnv} {disks : List Session} {k : Kernel} {flags : MountFlags}

theorem enterShare_lklPath {s : Session} {comp : List AnyfsPathComp} {r : EnterRet}
    (h : enterShare env ce s k comp flags = some r) (hrc : ¬ r.rc < 0) :
    ∃ mount : MountName, r.lklPath = snprintf 64 mount.point := by
  rw [enterShare] at h
  split_ifs at h
  · exact ⟨_, enterWhole_lklPath h hrc⟩
  · exact anyfsSessionEnterPath_lklPath h hrc

theorem anyfsShareResolve_entry {spec : Bytes} {r : ShareRet}
    (h : (anyfsShareResolve env ce disks k spec flags 64 64).ret = some r) (hrc : ¬ r.rc < 0) :
    AnyfsShareEntry.For disks.length spec ⟨r.name, r.lkl⟩ ∧ r.disks.length = disks.length := by
  obtain hneg | ⟨rd, ap, s, e, htarget, hdisk, henter, herc⟩ := anyfsShareResolve_cases h
  · exact absurd (hneg ▸ by decide) hrc
  · obtain ⟨mount, hmount⟩ := enterShare_lklPath henter herc
    rw [anyfsShareResolve_of_enter htarget hdisk henter herc] at h
    cases h
    refine ⟨⟨⟨rd, ap, htarget, rfl⟩, mount, ?_⟩, length_set⟩
    -- the mount point was cut to the same size before
    change snprintf 64 e.lklPath = _
    rw [hmount]
    simp [snprintf]

theorem forall₂_resolveShares {maxOut n : ℕ} {specs : List Bytes} {ents : List AnyfsShareEntry}
    (h : resolveShares env ce flags maxOut n disks k specs = some ents) :
    Forall₂ (AnyfsShareEntry.For disks.length) specs ents ∧
      (n ≤ maxOut → n + ents.length ≤ maxOut) := by
  induction specs generalizing n disks k ents with
  | nil =>
    cases h
    exact ⟨.nil, fun hn => hn⟩
  | cons spec specs ih =>
    rw [resolveShares] at h
    split_ifs at h with hfull
    split at h
    · cases h
    next r hr =>
      split_ifs at h with hrc
      obtain ⟨rest, hrest, rfl⟩ := Option.map_eq_some_iff.mp h
      obtain ⟨hentry, hlen⟩ := anyfsShareResolve_entry hr hrc
      obtain ⟨hall, hroom⟩ := ih hrest
      rw [hlen] at hall
      refine ⟨.cons hentry hall, fun _ => ?_⟩
      have := hroom (by omega)
      rw [length_cons]
      omega

end Entries

end Anyfs
