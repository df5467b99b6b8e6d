import Anyfs.Fuse.Truncation

/-!
# Names that look like partitions

In Mode B the file `q` of partition `N` is reached as `/p<N>/q`. The chain is parsed greedily, so a
first name of `q` that looks like a chain segment is taken for a partition inside partition `N`.
-/

namespace Anyfs

open List Option CString

/-- The directory of disk `D`, with its trailing slash. With one disk the root itself serves, too.
-/
def FuseFs.DiskRoot (f : FuseFs) (D : ℕ) (root : Bytes) : Prop :=
  (root = [slash] ∧ f.disks.length = 1 ∧ D = 0) ∨
    root = slash :: (ascii "disk" ++ decimal D ++ [slash])

def partName (N : UInt32) : Bytes := 112 :: decimal N.toNat

section Chain

variable {f : FuseFs} {N : UInt32} {q : Bytes} {names : List Bytes}

theorem slash_notMem_partName : slash ∉ partName N := by
  intro h
  rcases mem_cons.mp h with h | h
  · revert h
    decide
  · exact absurd (isDigit_of_mem_decimal h) (by decide)

theorem isChainSeg_partName : isChainSeg (partName N) = true := by
  obtain ⟨c, ds, hds⟩ := exists_cons_of_ne_nil (decimal_ne_nil N.toNat)
  have hdigit : ∀ c ∈ decimal N.toNat, isDigit c = true := fun _ => isDigit_of_mem_decimal
  have hdrop : (decimal N.toNat).dropWhile isDigit = [] := dropWhile_eq_nil_iff.mpr hdigit
  have hhead : (decimal N.toNat).head?.map isDigit = some true := by
    rw [hds, List.head?_cons, map_some, hdigit c (hds ▸ mem_cons_self)]
  simp [isChainSeg, partName, hdrop, hhead]

theorem head?_of_isChainSeg {seg : Bytes} (h : isChainSeg seg = true) : seg.head? = some 112 := by
  unfold isChainSeg at h
  split at h
  · rfl
  · cases h

theorem isSynthFile_partName : isSynthFile (partName N ++ slash :: q) = false := by
  obtain ⟨c, ds, hds⟩ := exists_cons_of_ne_nil (decimal_ne_nil N.toNat)
  have hc : c ≠ 97 := by
    have hmem : c ∈ decimal N.toNat := hds ▸ mem_cons_self
    rintro rfl
    exact absurd (isDigit_of_mem_decimal hmem) (by decide)
  rw [isSynthFile, decide_eq_false_iff_not, partName, hds]
  rintro (h | h)
  · have hhead : some (112 : UInt8) = (ascii ".partitions").head? := h ▸ rfl
    exact absurd hhead (by decide)
  · -- `partitions.txt` starts with a `p`, too, but goes on with a letter
    have hsecond : some c = (ascii "partitions.txt")[1]? := h ▸ rfl
    exact hc (some.inj hsecond)

theorem isSynthFile_disk (q : Bytes) : isSynthFile (ascii "disk" ++ q) = false := by
  have hhead : (ascii "disk" ++ q).head? = some 100 := rfl
  rw [isSynthFile, decide_eq_false_iff_not]
  rintro (h | h)
  · rw [h] at hhead
    exact absurd hhead (by decide)
  · rw [h] at hhead
    exact absurd hhead (by decide)

theorem isDigit_head_slash {q : Bytes} : ∀ c ∈ (slash :: q).head?, isDigit c = false := by
  intro c hc
  obtain rfl : slash = c := some.inj hc
  decide

/-- What the first half of the parser makes of a number after `disk`, and of what follows it. -/
def diskHead (n : ℕ) (p : Bytes) (v : ℤ) : Bytes → FuseHead
  | [] => if v < 0 ∨ n ≤ v then .error else .root v
  | 47 :: q =>
    if v < 0 ∨ n ≤ v then .error
    else if isSynthFile q then .file v
    else .chain v q
  | _ => .chain (-1) p

theorem fuseHead_disk {n : ℕ} {path ds rest : Bytes} (hds : Numeral ds)
    (hpath : dropSlash path = ascii "disk" ++ (ds ++ rest))
    (hrest : ∀ c ∈ rest.head?, isDigit c = false) :
    fuseHead n path =
      diskHead n (dropSlash path) (min (digitsValue ds : ℤ) (2 ^ 63 - 1)) rest := by
  have hdisk : (ascii "disk").isPrefixOf (ascii "disk" ++ (ds ++ rest)) = true := rfl
  have hnum : (ascii "disk" ++ (ds ++ rest)).drop 4 = ds ++ rest := rfl
  have hdigit : ((ds ++ rest).head?.map isDigit).getD false = true := by
    obtain ⟨c, ds, rfl⟩ := exists_cons_of_ne_nil hds.1
    rw [cons_append, List.head?_cons, map_some, hds.2 c mem_cons_self, getD_some]
  have hne : ascii "disk" ++ (ds ++ rest) ≠ [] := nofun
  simp only [fuseHead, hpath, hne, if_false, isSynthFile_disk, Bool.false_eq_true, hdisk, hnum,
    hdigit, and_self, if_true, hds.strtol_append hrest]
  rfl

theorem fuseHead_root {D : ℕ} {root : Bytes} (hroot : f.DiskRoot D root) (hD : D < f.disks.length) :
    ∃ d, diskOf d = D ∧
      fuseHead f.disks.length (root ++ (partName N ++ slash :: q)) =
        .chain d (partName N ++ slash :: q) := by
  have hsynth : isSynthFile (partName N ++ slash :: q) = false := isSynthFile_partName
  rcases hroot with ⟨rfl, hlen, rfl⟩ | rfl
  · -- a single disk is the root itself
    have hdrop : dropSlash ([slash] ++ (partName N ++ slash :: q)) = partName N ++ slash :: q := rfl
    have hdisk : (ascii "disk").isPrefixOf (partName N ++ slash :: q) = false := rfl
    have hne : partName N ++ slash :: q ≠ [] := by simp
    refine ⟨-1, rfl, ?_⟩
    simp only [fuseHead, hdrop, hne, if_false, hsynth, hdisk, hlen, Bool.false_eq_true, false_and]
    rfl
  · set chain := partName N ++ slash :: q
    have hdrop : dropSlash (slash :: (ascii "disk" ++ decimal D ++ [slash]) ++ chain) =
        ascii "disk" ++ (decimal D ++ slash :: chain) := by
      rw [cons_append, append_assoc, append_assoc]
      rfl
    have hlen := f.length_disks_le
    have hvalue : min (D : ℤ) (2 ^ 63 - 1) = D := by omega
    refine ⟨D, by rw [diskOf, if_neg (by omega), Int.toNat_natCast], ?_⟩
    rw [fuseHead_disk (numeral_decimal D) hdrop isDigit_head_slash, digitsValue_decimal, hvalue,
      slash, diskHead, if_neg (by omega), hsynth]
    rfl

theorem chainSplit_partName (hne : names ≠ []) (hslash : ∀ n ∈ names, slash ∉ n) :
    chainSplit (partName N ++ slash :: [slash].intercalate names) =
      ([slash].intercalate (partName N :: names.takeWhile isChainSeg),
        [slash].intercalate (names.dropWhile isChainSeg)) := by
  have hsplit : (partName N ++ slash :: [slash].intercalate names).splitOn slash =
      partName N :: names := by
    rw [splitOn_append_cons_self_of_not_mem slash_notMem_partName,
      splitOn_intercalate slash hslash hne]
  rw [chainSplit, hsplit, takeWhile_cons_of_pos isChainSeg_partName,
    dropWhile_cons_of_pos isChainSeg_partName]

theorem isChain_partName (hslash : ∀ n ∈ names, slash ∉ n) :
    IsChain (partName N :: names.takeWhile isChainSeg) := by
  refine ⟨cons_ne_nil _ _, fun seg hseg => ?_⟩
  rcases mem_cons.mp hseg with rfl | hseg
  · exact ⟨rfl, slash_notMem_partName⟩
  · exact ⟨head?_of_isChainSeg (mem_takeWhile_imp hseg),
      hslash seg ((takeWhile_sublist _).subset hseg)⟩

theorem parseComponents_partName (hN : N ≠ 0) {segs : List Bytes} {comp : List AnyfsPathComp}
    (h : parseComponents (partName N :: segs) = some comp) :
    ∃ rest, comp = ⟨N, none⟩ :: rest ∧ rest.length = segs.length := by
  rw [parseComponents, ite_none_left_eq_some, mapM_cons, partName, parseComponent_decimal hN] at h
  simp only [Option.bind_eq_bind, bind_some, bind_eq_some_iff, Option.pure_def, some.injEq] at h
  obtain ⟨-, rest, hrest, rfl⟩ := h
  exact ⟨rest, rfl, length_of_mapM_parseComponent hrest⟩

theorem length_partName_le : (partName N).length ≤ 11 := by
  rw [partName, length_cons]
  have hdigits : (decimal N.toNat).length ≤ 10 :=
    length_decimal_le (by decide) (N.toNat_lt.trans (by decide))
  omega

theorem anyfsPathParse_partName (hN : N ≠ 0) :
    anyfsPathParse (partName N) = some ⟨none, [⟨N, none⟩]⟩ := by
  have hchain : IsChain [partName N] :=
    ⟨cons_ne_nil _ _, by simpa using ⟨rfl, slash_notMem_partName⟩⟩
  have hparse := anyfsPathParse_intercalate hchain
  rw [intercalate_singleton] at hparse
  rw [hparse]
  simp [anyfsPathMaxComponents, parseComponents, partName, parseComponent_decimal hN]

theorem parseChain_of_chainSplit (hN : N ≠ 0) {d : ℤ} {p rest : Bytes} (hp : p.head? = some 112)
    (hsplit : chainSplit p = (partName N, rest)) :
    parseChain d p = if rest ≠ [] then
        some (.inPartition, ⟨diskOf d, some ⟨none, [⟨N, none⟩]⟩, slash :: snprintf 4095 rest⟩)
      else some (.partNode, ⟨diskOf d, some ⟨none, [⟨N, none⟩]⟩, []⟩) := by
  have hlen : (partName N).length ≤ 11 := length_partName_le
  have hpos : (partName N).length ≠ 0 := by simp [partName]
  have hidx : (if d < 0 then 0 else d) = (diskOf d : ℤ) := ofNat_diskOf d
  have hbuf : ¬ ((partName N).length = 0 ∨ 512 ≤ (partName N).length) := by omega
  simp only [parseChain, hidx, hsplit, anyfsPathParse_partName hN]
  rw [if_neg (not_not.mpr hp), if_neg hbuf]

theorem parseChain_partName (hN : N ≠ 0) {d : ℤ} {rest : Bytes} (hrest : rest ≠ [])
    (hsplit : chainSplit (partName N ++ slash :: q) = (partName N, rest)) :
    parseChain d (partName N ++ slash :: q) =
      some (.inPartition, ⟨diskOf d, some ⟨none, [⟨N, none⟩]⟩, slash :: snprintf 4095 rest⟩) := by
  rw [parseChain_of_chainSplit hN rfl hsplit, if_pos hrest]

end Chain

theorem intercalate_ne_nil {name : Bytes} (h : name ≠ []) (names : List Bytes) :
    [slash].intercalate (name :: names) ≠ [] := by
  cases names with
  | nil => rwa [intercalate_singleton]
  | cons name' names =>
    rw [intercalate_cons_cons]
    simp [h]

section Reach

variable {env : KernelEnv} {ce : CredEnv} {f : FuseFs} {D : ℕ} {s : Session} {N : UInt32} {i : ℕ}
  {r₀ : EnterRet} {root : Bytes} {names : List Bytes}

/-- **Names that look like partitions.** Let partition `N` of disk `D` be a filesystem that
mounts, and let a path inside it fit the buffers. Then `fuse_path_to_lkl` yields the mount point
followed by the path exactly when the first name of the path does not look like a partition
chain. -/
theorem fusePathToLkl_reaches_iff (hmode : f.modeA = none) (hroot : f.DiskRoot D root)
    (hs : f.disks[D]? = some s) (hi : s.disk.findSlotByPair none N = some i)
    (hkind : (s.disk.part i).kind = .fs)
    (hmount : enterFsSlot env s f.kernel i f.enterFlags = some r₀) (hrc : r₀.rc = 0)
    (hne : names ≠ []) (hnames : ∀ n ∈ names, n ≠ [] ∧ slash ∉ n)
    (hfits : ((s.disk.mountName i).point ++ slash :: [slash].intercalate names).length <
      lklPathBuf) :
    (∃ r, fusePathToLkl env ce f (root ++ (partName N ++ slash :: [slash].intercalate names))
        lklPathBuf = some r ∧ r.rc = 0 ∧
        r.out = (s.disk.mountName i).point ++ slash :: [slash].intercalate names) ↔
      isChainSeg (names.headD []) = false := by
  have hD : D < f.disks.length := (List.getElem?_eq_some_iff.mp hs).1
  obtain ⟨hlt, -, hindex⟩ := Disk.findSlotByPair_eq_some hi
  have hN : N ≠ 0 := hindex ▸ Disk.index_part_ne_zero hlt
  have hslash : ∀ n ∈ names, slash ∉ n := fun n hn => (hnames n hn).2
  obtain ⟨d, hd, hhead⟩ := fuseHead_root (N := N) (q := [slash].intercalate names) hroot hD
  have hsplit := chainSplit_partName (N := N) hne hslash
  obtain ⟨name, names, rfl⟩ := exists_cons_of_ne_nil hne
  rw [headD_cons]
  constructor
  · rintro ⟨r, hr, hrc', -⟩
    obtain ⟨mount, inner, hname, -⟩ := fusePathToLkl_out hr hrc'
    cases hname with
    | pinned hmode' => cases hmode.symm.trans hmode'
    | inPartition _ hhead' hdisk' hdsl' hleaf' =>
      obtain ⟨rfl, rfl⟩ := FuseHead.chain.inj (hhead.symm.trans hhead')
      rw [hd, hs, some.injEq] at hdisk'
      rw [hsplit, anyfsPathParse_intercalate (isChain_partName hslash),
        ite_none_left_eq_some, map_eq_some_iff] at hdsl'
      obtain ⟨-, comp, hcomp, rfl⟩ := hdsl'
      obtain ⟨rest, rfl, hlen⟩ := parseComponents_partName hN hcomp
      subst hdisk'
      -- a second component would have to be a partition inside the filesystem
      by_contra hlook
      rw [Bool.not_eq_false] at hlook
      rw [takeWhile_cons_of_pos hlook, length_cons] at hlen
      obtain ⟨c, rest, rfl⟩ := exists_cons_of_length_eq_add_one hlen
      simp [Disk.resolve, hi, Disk.findSlotByPair_eq_none_of_fs hkind] at hleaf'
  · intro hlook
    have htake : (name :: names).takeWhile isChainSeg = [] :=
      takeWhile_cons_of_neg (by simp [hlook])
    have hdrop : (name :: names).dropWhile isChainSeg = name :: names :=
      dropWhile_cons_of_neg (by simp [hlook])
    rw [htake, hdrop, intercalate_singleton] at hsplit
    set q := [slash].intercalate (name :: names)
    have hq : q ≠ [] := intercalate_ne_nil (hnames name mem_cons_self).1 names
    have hpath : r₀.lklPath = (s.disk.mountName i).point := by
      rw [enterFsSlot_lklPath hmount (by omega), Disk.snprintf_point hlt]
    have hwalk : anyfsSessionWalk env ce s f.kernel [⟨N, none⟩] f.enterFlags =
        some (r₀, some i) := by
      simp [anyfsSessionWalk, walkFrom, hi, enterLeaf, hkind, hmount]
    have hinner : snprintf 4095 q = q := by
      refine take_of_length_le ?_
      simp only [lklPathBuf, length_append, length_cons] at hfits
      omega
    have hnotneg : ¬ (D : ℤ) < 0 := by omega
    have hpoint : (s.disk.mountName i).point ≠ [] := cons_ne_nil _ _
    have hresolve : resolveWalk env ce f ⟨D, some ⟨none, [⟨N, none⟩]⟩, slash :: q⟩ =
        some ⟨0, (s.disk.mountName i).point, f.setDisk D r₀.session r₀.kernel⟩ := by
      simp [resolveWalk, hnotneg, hs, hwalk, hrc, hpath, Disk.snprintf_point hlt]
    refine ⟨⟨0, snprintf lklPathBuf ((s.disk.mountName i).point ++ slash :: q),
      f.setDisk D r₀.session r₀.kernel⟩, ?_, rfl, take_of_length_le (by omega)⟩
    rw [fusePathToLkl, hmode, parseFusePath, hhead]
    dsimp only
    rw [parseChain_partName hN hq hsplit, hd, hinner]
    simp [hresolve, hpoint]

end Reach

def FuseFs.oneDisk : FuseFs :=
  ⟨none, [(Session.opened Disk.single fun _ => []).setState 0 .mounted], .fresh,
    ⟨false, false, 0⟩, by decide⟩

/-- A file whose name does not look like a partition. -/
theorem fusePathToLkl_reaches_etc :
    ∃ r, fusePathToLkl .accepting .empty .oneDisk (ascii "/p1/etc") lklPathBuf = some r ∧
      r.rc = 0 ∧ r.out = ascii "/lklmnt/anyfs_d0_p1/etc" := by
  exact (@fusePathToLkl_reaches_iff .accepting .empty .oneDisk 0
    ((Session.opened Disk.single fun _ => []).setState 0 .mounted) 1 0
    ⟨0, ascii "/lklmnt/anyfs_d0_p1", (Session.opened Disk.single fun _ => []).setState 0 .mounted,
      .fresh⟩ [slash] [ascii "etc"] rfl (.inl ⟨rfl, rfl, rfl⟩) rfl rfl rfl rfl rfl
    (cons_ne_nil _ _) (by decide) (by decide)).mpr (by decide)

/-- A file named `p1` in partition 1: its path is taken for a partition inside the
partition. -/
theorem fusePathToLkl_misses_p1 :
    ¬ ∀ (env : KernelEnv) (ce : CredEnv) (f : FuseFs) (D : ℕ) (s : Session) (N : UInt32) (i : ℕ)
        (r₀ : EnterRet) (root : Bytes) (names : List Bytes),
      f.modeA = none → f.DiskRoot D root → f.disks[D]? = some s →
      s.disk.findSlotByPair none N = some i → (s.disk.part i).kind = .fs →
      enterFsSlot env s f.kernel i f.enterFlags = some r₀ → r₀.rc = 0 → names ≠ [] →
      (∀ n ∈ names, n ≠ [] ∧ slash ∉ n) →
      ((s.disk.mountName i).point ++ slash :: [slash].intercalate names).length < lklPathBuf →
      ∃ r, fusePathToLkl env ce f (root ++ (partName N ++ slash :: [slash].intercalate names))
        lklPathBuf = some r ∧ r.rc = 0 ∧
        r.out = (s.disk.mountName i).point ++ slash :: [slash].intercalate names := by
  intro hall
  obtain ⟨r, hr, hrc, -⟩ := hall .accepting .empty .oneDisk 0
    ((Session.opened Disk.single fun _ => []).setState 0 .mounted) 1 0
    ⟨0, ascii "/lklmnt/anyfs_d0_p1", (Session.opened Disk.single fun _ => []).setState 0 .mounted,
      .fresh⟩ [slash] [ascii "p1"] rfl (.inl ⟨rfl, rfl, rfl⟩) rfl rfl rfl rfl rfl
    (cons_ne_nil _ _) (by decide) (by decide)
  have hrun : (fusePathToLkl .accepting .empty .oneDisk
      ([slash] ++ (partName 1 ++ slash :: [slash].intercalate [ascii "p1"])) lklPathBuf).map
        FuseRet.rc = some (-ENOENT) := by decide +kernel
  rw [hr, map_some, hrc] at hrun
  exact absurd hrun (by decide)

end Anyfs
