import Anyfs.Fuse.Reach
import Anyfs.Json.Partitions

/-!
# Listing partitions

In Mode B `readdir` and the prefetch loop of `main` have an array of 64 entries and go through it up
to the total that `anyfs_session_list` counted, while a session holds up to 128 partitions.
-/

namespace Anyfs

open Option List

open List CString Utf16

def maxPartsPerDisk : ℕ := 64

def fillParts (s : Session) (details : ℕ → SlotDetails) : Option (List Bytes) :=
  let r := anyfsSessionList s details none maxPartsPerDisk
  (readEntries r.2 r.1).map fun infos =>
    infos.map fun p => snprintf 16 (112 :: decimal p.index.toNat)

def fillDisks (ndisks : ℕ) : List Bytes :=
  (range ndisks).map fun i => snprintf 16 (ascii "disk" ++ decimal i)

/-- `anyfs_fuse_readdir` for the synthetic directories: `content` says whether the table of
partitions could be built. -/
def readdirSynth (f : FuseFs) (details : ℕ → ℕ → SlotDetails) (didx : ℤ) (content : Bool) :
    Option (List Bytes) := do
  let names ←
    if didx < 0 ∧ f.disks.length = 1 then do
      let s ← f.disks[0]?
      fillParts s (details 0)
    else if didx < 0 then some (fillDisks f.disks.length)
    else do
      let s ← f.disks[didx.toNat]?
      fillParts s (details didx.toNat)
  return [ascii ".", ascii ".."] ++ names ++
    if content then [ascii ".partitions", ascii "partitions.txt"] else []

/-- The prefetch loop of `main` for a disk: the partitions it enters. -/
def prefetch (s : Session) (details : ℕ → SlotDetails) : Option (List UInt32) :=
  let r := anyfsSessionList s details none maxPartsPerDisk
  (readEntries r.2 r.1).map fun infos =>
    (infos.map AnyfsPartInfo.index).filter fun pn => ¬ (pn = 0 ∨ maxPartsPerDisk < pn.toNat)

def FuseFs.listedDisk (f : FuseFs) (didx : ℤ) : Option ℕ :=
  if didx < 0 then if f.disks.length = 1 then some 0 else none else some didx.toNat

/-! ### Names -/

variable {s : Session} {details : ℕ → SlotDetails}

theorem snprintf_partName (N : UInt32) : snprintf 16 (112 :: decimal N.toNat) = partName N := by
  have hlt := N.toNat_lt
  have hlen : (decimal N.toNat).length ≤ 10 := length_decimal_le (by decide) (by omega)
  refine (snprintf_eq_self_iff (.inl (by decide))).mpr ?_
  rw [length_cons]
  omega

theorem partName_injective : Function.Injective partName := by
  intro M N h
  have hdigits : decimal M.toNat = decimal N.toNat := (cons.inj h).2
  exact UInt32.toNat_inj.mp (decimal_injective hdigits)

theorem fillParts_eq :
    fillParts s details =
      if s.disk.topLevel.length ≤ maxPartsPerDisk then
        some (((s.children details none).map AnyfsPartInfo.index).map partName)
      else none := by
  rw [fillParts, readEntries_got, length_children_none]
  split_ifs with h
  · rw [Option.map_some, List.map_map]
    exact congrArg some (map_congr_left fun p _ => snprintf_partName p.index)
  · rfl

theorem isSome_prefetch_iff :
    (prefetch s details).isSome ↔ s.disk.topLevel.length ≤ maxPartsPerDisk := by
  rw [prefetch, readEntries_got, length_children_none]
  split_ifs with h <;> simp [h]

theorem readdirSynth_eq {f : FuseFs} {details : ℕ → ℕ → SlotDetails} {didx : ℤ} {D : ℕ}
    (hD : f.listedDisk didx = some D) (hs : f.disks[D]? = some s) (content : Bool) :
    readdirSynth f details didx content =
      (fillParts s (details D)).map fun names => [ascii ".", ascii ".."] ++ names ++
        if content then [ascii ".partitions", ascii "partitions.txt"] else [] := by
  rw [FuseFs.listedDisk] at hD
  rw [readdirSynth]
  split_ifs at hD with hneg hone
  · cases hD
    rw [if_pos ⟨hneg, hone⟩, hs]
    exact (map_eq_bind ..).symm
  · cases hD
    rw [if_neg fun h => hneg h.1, if_neg hneg, hs]
    exact (map_eq_bind ..).symm

/-- Each partition is listed once. -/
def ListsOnce (names : List Bytes) (s : Session) : Prop :=
  ∀ N, names.count (partName N) = if (s.disk.findSlotByPair none N).isSome then 1 else 0

theorem partName_notMem (N : UInt32) :
    partName N ∉ [ascii ".", ascii ".."] ∧
      partName N ∉ [ascii ".partitions", ascii "partitions.txt"] := by
  have hdot : ∀ t : Bytes, partName N ≠ 46 :: t := fun t h =>
    absurd (cons.inj h).1 (by decide)
  have htable : partName N ≠ ascii "partitions.txt" := by
    intro h
    have hmem : (97 : UInt8) ∈ decimal N.toNat := by
      rw [(cons.inj h).2]
      decide
    exact absurd (isDigit_of_mem_decimal hmem) (by decide)
  simp only [mem_cons, not_mem_nil, or_false, not_or]
  exact ⟨⟨hdot _, hdot _⟩, hdot _, htable⟩

theorem listsOnce_append (content : Bool) :
    ListsOnce ([ascii ".", ascii ".."] ++
      ((s.children details none).map AnyfsPartInfo.index).map partName ++
        if content then [ascii ".partitions", ascii "partitions.txt"] else []) s := by
  intro N
  obtain ⟨hdots, hfiles⟩ := partName_notMem N
  have hfiles' : partName N ∉
      if content then [ascii ".partitions", ascii "partitions.txt"] else [] := by
    cases content
    · exact not_mem_nil
    · exact hfiles
  rw [count_append, count_append, count_eq_zero_of_not_mem hdots,
    count_eq_zero_of_not_mem hfiles', count_map_of_injective _ _ partName_injective,
    Nat.zero_add, Nat.add_zero]
  split_ifs with h
  · exact count_eq_one_of_mem nodup_map_index_children (mem_map_index_children_iff.mpr h)
  · exact count_eq_zero_of_not_mem (mt mem_map_index_children_iff.mp h)

/-- A synthetic directory lists each partition of its disk once, with array entries that were
written, exactly if the disk has at most 64, and so does the prefetch loop. The JSON listing uses
written entries only, and has an object for each partition, in order, exactly if there are at most
32. -/
theorem listings_iff (s : Session) :
    (∀ (f : FuseFs) (details : ℕ → ℕ → SlotDetails) (path : Bytes) (fp : FusePath) (content : Bool)
        (D : ℕ),
      parseFusePath f.disks.length path = some (.synthRoot, fp) →
        f.listedDisk fp.diskIdx = some D → f.disks[D]? = some s →
          ((∃ names, readdirSynth f details fp.diskIdx content = some names ∧ ListsOnce names s) ↔
            s.disk.topLevel.length ≤ 64)) ∧
    (∀ details : ℕ → SlotDetails,
      (prefetch s details).isSome ↔ s.disk.topLevel.length ≤ 64) ∧
    ∀ (details : ℕ → SlotDetails) (t : Abi) (buf : Bytes), ∃ buf' n,
      anyfsTsSessionListJson t (some s) details buf = some (buf', n) ∧
      (2 ^ 21 ≤ buf.length → 0 ≤ n) ∧
      (0 ≤ n → ∃ text objs, ofUtf8 (buf'.take n.toNat) = some text ∧
        Json.parse text = some (.arr objs) ∧
        (objs = (s.children details none).map partValue ↔ s.disk.topLevel.length ≤ 32)) := by
  refine ⟨?_, fun details => isSome_prefetch_iff, ?_⟩
  · intro f details path fp content D _ hD hs
    rw [readdirSynth_eq hD hs, fillParts_eq]
    by_cases h : s.disk.topLevel.length ≤ maxPartsPerDisk
    · rw [if_pos h]
      exact iff_of_true ⟨_, rfl, listsOnce_append content⟩ h
    · -- the loop runs past the entries that were written
      rw [if_neg h]
      refine iff_of_false ?_ h
      rintro ⟨names, hnames, -⟩
      cases hnames
  · intro details t buf
    obtain ⟨buf', n, hop, hroom, hlisted⟩ := sessionListJson_spec s details t buf
    refine ⟨buf', n, hop, hroom, fun hn => ?_⟩
    obtain ⟨text, htext, hparse⟩ := hlisted hn
    refine ⟨text, _, htext, hparse, ?_⟩
    have hcount : (s.children details none).length = s.disk.topLevel.length := length_children_none
    rw [← hcount]
    constructor
    · intro heq
      have hlen := congrArg length heq
      rw [length_map, length_map, length_take] at hlen
      omega
    · intro hlen
      rw [take_of_length_le hlen]

def Disk.manyParts : Disk where
  diskId := 0
  readonly := false
  wholeFstypeHint := []
  wholeDev := 1
  parts := (range 65).map fun i => ⟨none, UInt32.ofNat (i + 1), .fs, []⟩
  diskId_lt := Disk.single.diskId_lt
  length_parts_le := by decide
  index_ne_zero := by decide +kernel
  nodup_pair := by decide +kernel
  parent_kind := by
    intro p hp q hq
    obtain ⟨i, -, rfl⟩ := mem_map.mp hp
    cases hq

def FuseFs.manyParts : FuseFs :=
  ⟨none, [.opened .manyParts fun _ => []], .fresh, ⟨false, false, 0⟩, by decide⟩

def SlotDetails.blank : SlotDetails := ⟨0, 0, ascii "?", [], [], by decide, by decide, by decide⟩

/-- With 65 partitions, `readdir` of the root and the prefetch loop use an entry that was not
written, and the JSON listing gets 32 entries. -/
theorem listings_manyParts :
    parseFusePath 1 [slash] = some (.synthRoot, ⟨-1, none, []⟩) ∧
      readdirSynth .manyParts (fun _ _ => .blank) (-1) true = none ∧
      prefetch (.opened .manyParts fun _ => []) (fun _ => .blank) = none ∧
      (anyfsSessionList (.opened .manyParts fun _ => []) (fun _ => .blank) none 32).1.length = 32 ∧
      Disk.manyParts.topLevel.length = 65 := by
  have hmany : ¬ Disk.manyParts.topLevel.length ≤ maxPartsPerDisk := by decide +kernel
  have hfill : fillParts (.opened .manyParts fun _ => []) (fun _ => .blank) = none := by
    rw [fillParts_eq]
    exact if_neg hmany
  refine ⟨by decide +kernel, ?_, ?_, by decide +kernel, by decide +kernel⟩
  · rw [readdirSynth_eq (D := 0) rfl rfl, hfill, map_none]
  · rw [← not_isSome_iff_eq_none, isSome_prefetch_iff]
    exact hmany

end Anyfs
