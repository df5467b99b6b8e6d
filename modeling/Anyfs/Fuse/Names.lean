import Anyfs.Fuse.Listing

/-!
# Names in the FUSE root

In Mode B `readdir` prints the names of the synthetic directories and `parse_fuse_path` reads them.
A name that is printed for a node, appended to the path of the directory, is parsed as that node.
-/

namespace Anyfs

open List CString Option

/-- What `readdir` sees of the disks: the numbers of the top-level partitions of each. -/
structure FuseTables where
  tables : List (List UInt32)
  /-- `g_disks` is an array of `ANYFS_MAX_DISKS`. -/
  length_tables_le : tables.length ≤ 16
  /-- Partitions are numbered from one. -/
  number_ne_zero : ∀ t ∈ tables, ∀ N ∈ t, N ≠ 0

/-- The loop that lists the partitions of a disk goes through its array up to their number. -/
def fillNumbers (numbers : List UInt32) : Option (List Bytes) :=
  (readEntries numbers.length (numbers.take maxPartsPerDisk)).map fun ns =>
    ns.map fun N => snprintf 16 (112 :: decimal N.toNat)

variable (c : FuseTables)

/-- `anyfs_fuse_readdir` for the synthetic directories. -/
def FuseTables.readdir (didx : ℤ) (content : Bool) : Option (List Bytes) := do
  let names ←
    if didx < 0 ∧ c.tables.length = 1 then do
      let t ← c.tables[0]?
      fillNumbers t
    else if didx < 0 then some (fillDisks c.tables.length)
    else do
      let t ← c.tables[didx.toNat]?
      fillNumbers t
  return [ascii ".", ascii ".."] ++ names ++
    if content then [ascii ".partitions", ascii "partitions.txt"] else []

def FuseFs.tables (f : FuseFs) : FuseTables where
  tables := f.disks.map fun s => s.disk.topLevel.map PartInfo.index
  length_tables_le := by simpa using f.length_disks_le
  number_ne_zero := by
    intro t ht N hN
    obtain ⟨s, -, rfl⟩ := mem_map.mp ht
    obtain ⟨p, hp, rfl⟩ := mem_map.mp hN
    exact s.disk.index_ne_zero p (mem_filter.mp hp).1

theorem fillNumbers_eq (numbers : List UInt32) :
    fillNumbers numbers =
      if numbers.length ≤ maxPartsPerDisk then some (numbers.map partName) else none := by
  rw [fillNumbers, readEntries_eq, length_take]
  by_cases h : numbers.length ≤ maxPartsPerDisk
  · rw [if_pos (by omega), if_pos h, take_of_length_le h, take_length, map_some]
    exact congrArg some (map_congr_left fun N _ => snprintf_partName N)
  · rw [if_neg (by omega), if_neg h, map_none]

theorem readdirSynth_eq_readdir (f : FuseFs) (details : ℕ → ℕ → SlotDetails) (didx : ℤ)
    (content : Bool) : readdirSynth f details didx content = f.tables.readdir didx content := by
  have hfill : ∀ (s : Session) (details : ℕ → SlotDetails),
      fillParts s details = fillNumbers (s.disk.topLevel.map PartInfo.index) := by
    intro s details
    rw [fillParts_eq, fillNumbers_eq, length_map]
    have hindex : (s.children details none).map AnyfsPartInfo.index =
        s.disk.topLevel.map PartInfo.index := map_index_childrenFrom 0 _
    rw [hindex]
  have hlen : f.tables.tables.length = f.disks.length := length_map _
  have hget : ∀ D, f.tables.tables[D]? =
      f.disks[D]?.map fun s : Session => s.disk.topLevel.map PartInfo.index :=
    fun _ => List.getElem?_map
  rw [readdirSynth, FuseTables.readdir, hlen, hget, hget]
  simp only [hfill, bind_eq_bind, bind_map, Function.comp_def]

/-! ### Nodes -/

/-- The synthetic files of a table. -/
inductive SynthFile where
  | dotPartitions
  | partitionsTxt
  deriving DecidableEq

/-- `SYNTH_DOT_PARTITIONS` and `SYNTH_PARTITIONS_TXT`. -/
def SynthFile.name : SynthFile → Bytes
  | dotPartitions => ascii ".partitions"
  | partitionsTxt => ascii "partitions.txt"

/-- What a name in a synthetic directory is printed for. The file of a directory has the disk index
of the directory, `-1` for the root. -/
inductive FuseNode where
  | disk (i : ℕ)
  | part (D : ℕ) (N : UInt32)
  | file (didx : ℤ) (which : SynthFile)
  deriving DecidableEq

open FuseNode

/-- The name under which a node is listed. -/
def FuseNode.name : FuseNode → Bytes
  | disk i => ascii "disk" ++ decimal i
  | part _ N => partName N
  | file _ which => which.name

/-- A node as `parse_fuse_path` describes it. -/
def FuseNode.parsed : FuseNode → PathKind × FusePath
  | disk i => (.synthRoot, ⟨i, none, []⟩)
  | part D N => (.partNode, ⟨D, some ⟨none, [⟨N, none⟩]⟩, []⟩)
  | file didx _ => (.synthFile, ⟨didx, none, []⟩)

def FuseTables.numbers (didx : ℤ) : List UInt32 :=
  if didx < 0 ∧ c.tables.length ≠ 1 then [] else c.tables.getD (diskOf didx) []

def FuseTables.nodes (didx : ℤ) (content : Bool) : List FuseNode :=
  (if didx < 0 ∧ c.tables.length ≠ 1 then (range c.tables.length).map .disk
    else (c.numbers didx).map (.part (diskOf didx))) ++
  if content then [.file didx .dotPartitions, .file didx .partitionsTxt] else []

def joinName (path name : Bytes) : Bytes :=
  if dropSlash path = [] then slash :: name else path ++ slash :: name

/-! ### Paths of directories -/

variable {n : ℕ} {path name : Bytes} {N : UInt32} {d : ℤ}

theorem dropSlash_append (h : path ≠ []) (q : Bytes) :
    dropSlash (path ++ q) = dropSlash path ++ q := by
  obtain ⟨c, p, rfl⟩ := exists_cons_of_ne_nil h
  rw [cons_append]
  by_cases hc : c = slash
  · subst hc
    rfl
  · have hkeep : ∀ p, dropSlash (c :: p) = c :: p := by
      intro p
      rw [dropSlash]
      rintro q ⟨⟩
      exact hc rfl
    rw [hkeep, hkeep, cons_append]

theorem fuseHead_eq_root (hn : n ≤ 16) (h : fuseHead n path = .root d) :
    (dropSlash path = [] ∧ d = -1) ∨
      ∃ ds, Numeral ds ∧ dropSlash path = ascii "disk" ++ ds ∧ digitsValue ds < n ∧
        d = digitsValue ds := by
  by_cases hnil : dropSlash path = []
  · rw [fuseHead, hnil] at h
    exact .inl ⟨hnil, (FuseHead.root.inj h).symm⟩
  by_cases hdisk : (ascii "disk").isPrefixOf (dropSlash path) ∧
      (((dropSlash path).drop 4).head?.map isDigit).getD false
  · right
    obtain ⟨t, ht⟩ := isPrefixOf_iff_prefix.mp hdisk.1
    have hdigit : (t.head?.map isDigit).getD false = true := by
      rw [← ht] at hdisk
      exact hdisk.2
    have hds : Numeral (t.takeWhile isDigit) := by
      refine ⟨fun htake => ?_, fun c hc => mem_takeWhile_imp hc⟩
      cases t with
      | nil => cases hdigit
      | cons c t =>
        rw [takeWhile_cons_of_pos (by exact hdigit)] at htake
        cases htake
    have hrest : ∀ c ∈ (t.dropWhile isDigit).head?, isDigit c = false := by
      intro c hc
      have hstop := List.head?_dropWhile_not isDigit t
      rw [mem_def.mp hc] at hstop
      exact hstop
    have hsplit : dropSlash path =
        ascii "disk" ++ (t.takeWhile isDigit ++ t.dropWhile isDigit) := by
      rw [takeWhile_append_dropWhile, ht]
    rw [fuseHead_disk hds hsplit hrest] at h
    unfold diskHead at h
    split at h
    · rename_i hnil'
      rw [hnil', append_nil] at hsplit
      split_ifs at h with hout
      have hd := FuseHead.root.inj h
      exact ⟨_, hds, hsplit, by omega, by omega⟩
    · split_ifs at h
    · cases h
  · -- without a disk the path is an error or a chain
    rw [fuseHead] at h
    dsimp only at h
    rw [if_neg hnil, if_neg hdisk] at h
    split_ifs at h

theorem fuseHead_of_synthRoot {fp : FusePath}
    (h : parseFusePath n path = some (.synthRoot, fp)) : fuseHead n path = .root fp.diskIdx := by
  rw [parseFusePath] at h
  cases hhead : fuseHead n path with
  | error => rw [hhead] at h; cases h
  | root d => rw [hhead] at h; cases h; rfl
  | file d => rw [hhead] at h; cases h
  | chain d p =>
    rw [hhead] at h
    dsimp only [parseChain] at h
    cases hdsl : anyfsPathParse (chainSplit p).1 with
    | none =>
      rw [hdsl] at h
      split_ifs at h
    | some dsl =>
      rw [hdsl] at h
      dsimp only at h
      split_ifs at h <;> cases h

theorem fuseHead_joinName_disk {ds : Bytes} (hn : n ≤ 16) (hds : Numeral ds)
    (hpath : dropSlash path = ascii "disk" ++ ds) (hlt : digitsValue ds < n) (name : Bytes) :
    fuseHead n (joinName path name) =
      if isSynthFile name then .file (digitsValue ds) else .chain (digitsValue ds) name := by
  have hne : path ≠ [] := by
    rintro rfl
    cases hpath
  have hdrop : dropSlash (joinName path name) = ascii "disk" ++ (ds ++ slash :: name) := by
    rw [joinName, if_neg (by rw [hpath]; exact nofun), dropSlash_append hne, hpath, append_assoc]
  have hvalue : min (digitsValue ds : ℤ) (2 ^ 63 - 1) = digitsValue ds := by omega
  rw [fuseHead_disk hds hdrop isDigit_head_slash, hvalue, slash, diskHead, if_neg (by omega)]

/-! ### Names are parsed as their nodes -/

theorem parseChain_partNode (hN : N ≠ 0) (d : ℤ) :
    parseChain d (partName N) = some (part (diskOf d) N).parsed := by
  have hslash : ∀ l ∈ [partName N], slash ∉ l := by
    simpa using slash_notMem_partName
  have hsplit : (partName N).splitOn slash = [partName N] := by
    have h := splitOn_intercalate slash hslash (cons_ne_nil _ _)
    rwa [intercalate_singleton] at h
  have hchain : chainSplit (partName N) = (partName N, []) := by
    rw [chainSplit, hsplit, takeWhile_cons_of_pos isChainSeg_partName,
      dropWhile_cons_of_pos isChainSeg_partName, takeWhile_nil,
      intercalate_singleton]
    rfl
  rw [parseChain_of_chainSplit hN rfl hchain]
  rfl

theorem isSynthFile_eq_false (N : UInt32) : isSynthFile (partName N) = false := by
  have hfiles := (partName_notMem N).2
  rw [mem_cons, mem_singleton] at hfiles
  rw [isSynthFile, decide_eq_false_iff_not]
  exact hfiles

theorem isSynthFile_name (which : SynthFile) : isSynthFile which.name = true := by
  cases which <;> decide

theorem FuseTables.ne_zero_of_mem_numbers {c : FuseTables} (h : N ∈ c.numbers d) : N ≠ 0 := by
  rw [numbers] at h
  split_ifs at h with hroot
  · cases h
  · rw [getD_eq_getElem?_getD] at h
    cases hget : c.tables[diskOf d]? with
    | none =>
      rw [hget] at h
      cases h
    | some t =>
      rw [hget] at h
      exact c.number_ne_zero t (mem_of_getElem? hget) N h

variable {content : Bool} {node : FuseNode}

theorem exists_file_of_mem
    (h : node ∈ if content then [.file d .dotPartitions, .file d .partitionsTxt] else []) :
    ∃ which, node = .file d which := by
  cases content with
  | false => cases h
  | true =>
    rcases mem_cons.mp h with rfl | h
    · exact ⟨_, rfl⟩
    · exact ⟨_, mem_singleton.mp h⟩

theorem parseFusePath_root {c : FuseTables}
    (hpath : dropSlash path = []) (hnode : node ∈ c.nodes (-1) content) :
    parseFusePath c.tables.length (joinName path node.name) = some node.parsed := by
  have hle := c.length_tables_le
  rw [joinName, if_pos hpath, parseFusePath]
  rw [FuseTables.nodes, mem_append] at hnode
  rcases hnode with hnode | hnode
  · split_ifs at hnode with hroot
    · -- several disks: the number is read back
      obtain ⟨i, hi, rfl⟩ := mem_map.mp hnode
      have hlt := mem_range.mp hi
      have hvalue : min (i : ℤ) (2 ^ 63 - 1) = i := by omega
      have hdrop : dropSlash (slash :: (disk i).name) = ascii "disk" ++ (decimal i ++ []) := by
        rw [append_nil]
        rfl
      rw [fuseHead_disk (numeral_decimal i) hdrop (by rintro _ ⟨⟩), digitsValue_decimal, hvalue,
        diskHead, if_neg (by omega)]
      rfl
    · -- a single disk: the root is its directory
      obtain ⟨N, hN, rfl⟩ := mem_map.mp hnode
      have hone : ¬ 1 < c.tables.length := by omega
      have hhead : fuseHead c.tables.length (slash :: (part (diskOf (-1)) N).name) =
          .chain (-1) (partName N) := by
        have hdrop : dropSlash (slash :: (part (diskOf (-1)) N).name) = partName N := rfl
        have hdisk : (ascii "disk").isPrefixOf (partName N) = false := rfl
        have hne : partName N ≠ [] := cons_ne_nil _ _
        simp only [fuseHead, hdrop, hne, if_false, isSynthFile_eq_false, hdisk, hone,
          Bool.false_eq_true, false_and]
      rw [hhead]
      exact parseChain_partNode (FuseTables.ne_zero_of_mem_numbers hN) _
  · obtain ⟨which, rfl⟩ := exists_file_of_mem hnode
    cases which <;> rfl

theorem parseFusePath_diskDir {c : FuseTables} {ds : Bytes}
    (hds : Numeral ds) (hpath : dropSlash path = ascii "disk" ++ ds)
    (hlt : digitsValue ds < c.tables.length) (hnode : node ∈ c.nodes (digitsValue ds) content) :
    parseFusePath c.tables.length (joinName path node.name) = some node.parsed := by
  rw [parseFusePath, fuseHead_joinName_disk c.length_tables_le hds hpath hlt]
  rw [FuseTables.nodes, if_neg (by omega), mem_append] at hnode
  rcases hnode with hnode | hnode
  · obtain ⟨N, hN, rfl⟩ := mem_map.mp hnode
    rw [name, isSynthFile_eq_false]
    exact parseChain_partNode (FuseTables.ne_zero_of_mem_numbers hN) _
  · obtain ⟨which, rfl⟩ := exists_file_of_mem hnode
    rw [name, isSynthFile_name]
    rfl

/-! ### What a directory lists -/

theorem fillDisks_eq (h : n ≤ 16) :
    fillDisks n = ((range n).map FuseNode.disk).map FuseNode.name := by
  rw [fillDisks, List.map_map]
  refine map_congr_left fun i hi => ?_
  have hlt := mem_range.mp hi
  have hlen : (decimal i).length ≤ 2 := length_decimal_le (by decide) (by omega)
  refine (snprintf_eq_self_iff (.inl (by decide))).mpr ?_
  rw [length_append, show (ascii "disk").length = 4 from rfl]
  omega

theorem FuseTables.readdir_eq (hd : d < 0 ∨ d.toNat < c.tables.length)
    (content : Bool) :
    c.readdir d content =
      if (c.numbers d).length ≤ maxPartsPerDisk then
        some ([ascii ".", ascii ".."] ++ (c.nodes d content).map FuseNode.name)
      else none := by
  have hfiles : (if content then [ascii ".partitions", ascii "partitions.txt"] else []) =
      (if content then [file d .dotPartitions, .file d .partitionsTxt] else []).map
        name := by
    cases content <;> rfl
  rw [nodes, map_append, ← hfiles, ← append_assoc]
  by_cases hroot : d < 0 ∧ c.tables.length ≠ 1
  · rw [readdir, if_neg fun h => hroot.2 h.2, if_pos hroot.1, if_pos hroot, numbers, if_pos hroot,
      fillDisks_eq c.length_tables_le]
    rfl
  · have hlt : diskOf d < c.tables.length := by
      rw [diskOf]
      split_ifs <;> omega
    have hget : c.tables[diskOf d]? = some (c.numbers d) := by
      rw [numbers, if_neg hroot, getD_eq_getElem _ _ hlt, List.getElem?_eq_getElem hlt]
    have hread : c.readdir d content = (fillNumbers (c.numbers d)).map fun names =>
        [ascii ".", ascii ".."] ++ names ++
          if content then [ascii ".partitions", ascii "partitions.txt"] else [] := by
      rw [diskOf] at hget
      rw [readdir]
      by_cases hneg : d < 0
      · rw [if_pos hneg] at hget
        rw [if_pos ⟨hneg, by omega⟩, hget]
        exact (map_eq_bind ..).symm
      · rw [if_neg hneg] at hget
        rw [if_neg fun h => hneg h.1, if_neg hneg, hget]
        exact (map_eq_bind ..).symm
    rw [hread, if_neg hroot, fillNumbers_eq, List.map_map]
    by_cases hlen : (c.numbers d).length ≤ maxPartsPerDisk
    · rw [if_pos hlen, if_pos hlen]
      rfl
    · rw [if_neg hlen, if_neg hlen]
      rfl

theorem diskName_notMem (i : ℕ) :
    ascii "disk" ++ decimal i ∉ [ascii ".", ascii ".."] ∧
      ascii "disk" ++ decimal i ∉ [ascii ".partitions", ascii "partitions.txt"] := by
  have hhead : (ascii "disk" ++ decimal i).head? = some 100 := rfl
  constructor
  · intro h
    have hfirst : some (100 : UInt8) ∈ [ascii ".", ascii ".."].map List.head? :=
      hhead ▸ mem_map_of_mem h
    exact absurd hfirst (by decide)
  · intro h
    have hfirst : some (100 : UInt8) ∈
        [ascii ".partitions", ascii "partitions.txt"].map List.head? :=
      hhead ▸ mem_map_of_mem h
    exact absurd hfirst (by decide)

theorem FuseTables.nodup_names (d : ℤ) (content : Bool)
    (h : (c.numbers d).Nodup) :
    ([ascii ".", ascii ".."] ++ (c.nodes d content).map FuseNode.name).Nodup := by
  have hfiles : ((if content then [file d .dotPartitions, .file d .partitionsTxt]
      else []).map name) ⊆ [ascii ".partitions", ascii "partitions.txt"] := by
    cases content <;> simp [name, SynthFile.name]
  have hfilesNodup : ((if content then [file d .dotPartitions, .file d .partitionsTxt]
      else []).map name).Nodup := by
    cases content
    · exact nodup_nil
    · exact (by decide : [ascii ".partitions", ascii "partitions.txt"].Nodup)
  rw [nodes, map_append]
  generalize hbase : map name (if d < 0 ∧ c.tables.length ≠ 1 then _ else _) = base
  have hnodup : base.Nodup := by
    subst hbase
    split_ifs
    · rw [List.map_map]
      refine nodup_range.map fun i j hij => decimal_injective (append_cancel_left hij)
    · rw [List.map_map]
      exact h.map partName_injective
  have hother : ∀ name ∈ base, name ∉ [ascii ".", ascii ".."] ∧
      name ∉ [ascii ".partitions", ascii "partitions.txt"] := by
    subst hbase
    intro name hname
    split_ifs at hname
    · rw [List.map_map] at hname
      obtain ⟨i, -, rfl⟩ := mem_map.mp hname
      exact diskName_notMem i
    · rw [List.map_map] at hname
      obtain ⟨N, -, rfl⟩ := mem_map.mp hname
      exact partName_notMem N
  have hdots : ∀ a ∈ [ascii ".", ascii ".."],
      a ∉ [ascii ".partitions", ascii "partitions.txt"] := by decide
  refine nodup_append.mpr ⟨by decide, nodup_append.mpr ⟨hnodup, hfilesNodup, ?_⟩, ?_⟩
  · rintro a ha b hb rfl
    exact (hother a ha).2 (hfiles hb)
  · rintro a ha b hb rfl
    rcases mem_append.mp hb with hb | hb
    · exact (hother a hb).1 ha
    · exact hdots a ha (hfiles hb)

/-- What the names of a directory should be: each but the two dot entries is printed for a node and
parsed as that node, and they are told apart if the numbers of the partitions are. -/
structure NamesResolve (c : FuseTables) (path : Bytes) (didx : ℤ) (content : Bool)
    (names : List Bytes) : Prop where
  names_eq : names = [ascii ".", ascii ".."] ++ (c.nodes didx content).map FuseNode.name
  parsed : ∀ node ∈ c.nodes didx content,
    parseFusePath c.tables.length (joinName path node.name) = some node.parsed
  nodup : (c.numbers didx).Nodup → names.Nodup

/-- **Names in the FUSE root.** Whatever the numbers of the partitions are, `readdir` of the root or
of a disk directory prints names that are parsed as the nodes they are printed for, and different
ones if the numbers are different, exactly if it lists at most 64 partitions. -/
theorem readdir_namesResolve_iff (c : FuseTables) {path : Bytes} {fp : FusePath}
    (hpath : parseFusePath c.tables.length path = some (.synthRoot, fp)) (content : Bool) :
    (∃ names, c.readdir fp.diskIdx content = some names ∧
        NamesResolve c path fp.diskIdx content names) ↔
      (c.numbers fp.diskIdx).length ≤ 64 := by
  have hhead := fuseHead_of_synthRoot hpath
  have hdir := fuseHead_eq_root c.length_tables_le hhead
  have hexists : fp.diskIdx < 0 ∨ fp.diskIdx.toNat < c.tables.length := by
    rcases hdir with ⟨-, hd⟩ | ⟨ds, -, -, hlt, hd⟩ <;> omega
  have hparsed : ∀ node ∈ c.nodes fp.diskIdx content,
      parseFusePath c.tables.length (joinName path node.name) = some node.parsed := by
    intro node hnode
    rcases hdir with ⟨hroot, hd⟩ | ⟨ds, hds, hdisk, hlt, hd⟩
    · exact parseFusePath_root hroot (hd ▸ hnode)
    · exact parseFusePath_diskDir hds hdisk hlt (hd ▸ hnode)
  rw [c.readdir_eq hexists]
  constructor
  · rintro ⟨names, hnames, -⟩
    exact (ite_none_right_eq_some.mp hnames).1
  · intro hlen
    exact ⟨_, if_pos hlen, rfl, hparsed, c.nodup_names _ content⟩

def FuseTables.twoDisks : FuseTables := ⟨[[1, 4294967295], [5]], by decide, by simp⟩

/-- The directory of the first of them. -/
theorem readdir_namesResolve_twoDisks :
    ∃ names, FuseTables.twoDisks.readdir 0 true = some names ∧
      NamesResolve .twoDisks (ascii "/disk0") 0 true names := by
  have hpath : parseFusePath 2 (ascii "/disk0") = some (.synthRoot, ⟨0, none, []⟩) := by
    decide +kernel
  exact (readdir_namesResolve_iff .twoDisks hpath true).mpr (by decide)

/-- With 65 partitions `readdir` prints a name from an entry that was not written: `p0` if it is
zero. -/
theorem readdir_manyParts :
    parseFusePath 1 [slash] = some (.synthRoot, ⟨-1, none, []⟩) ∧
      (FuseFs.manyParts.tables.numbers (-1)).length = 65 ∧
      FuseFs.manyParts.tables.readdir (-1) true = none ∧
      parseFusePath 1 (joinName [slash] (partName 0)) = none := by
  have hmany : (FuseFs.manyParts.tables.numbers (-1)).length = 65 := by decide +kernel
  refine ⟨by decide +kernel, hmany, ?_, by decide +kernel⟩
  rw [FuseTables.readdir_eq _ (.inl (by decide)), hmany]
  rfl

end Anyfs
