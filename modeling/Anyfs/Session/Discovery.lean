import Anyfs.Session.Sysfs
import Anyfs.Session.Types

/-!
# Discovery

`load_top_parts_locked` fills the slots of a new session with the partitions that sysfs has of the
disk. What a `Disk` says of its slots is established here, from the names of the partitions.
-/

namespace Anyfs

open List CString

/-- The slot of a partition; `kindOf` is `anyfs_probe_kind_blkdev`. -/
def slotOf (kindOf : Bytes → AnyfsPartKind) (p : SysfsPart) : PartInfo :=
  let blkdev := snprintf 80 (ascii "/dev/" ++ p.name)
  ⟨none, p.index, kindOf blkdev, blkdev⟩

/-- The slots that `load_top_parts_locked` allocates; `sbuf` is the array on its stack. -/
def loadTopParts (files : Bytes → Option Bytes) (kindOf : Bytes → AnyfsPartKind) (sysfsName : Bytes)
    (sbuf : List SysfsPart) (dir : Option (List Bytes)) : List PartInfo :=
  let (n, sbuf) := anyfsSysfsWalk files sysfsName sbuf dir
  (sbuf.take (min n.toInt.toNat 128)).map (slotOf kindOf)

/-- The directory of a disk: partitions are named after the disk and their number. -/
structure SysfsDir where
  files : Bytes → Option Bytes
  disk : Bytes
  names : List Bytes
  nodup : names.Nodup
  number : ∀ n ∈ names, (sysfsPart files disk n).isSome →
    ∃ N, 0 < N ∧ N < 2 ^ 31 ∧ n = disk ++ decimal N

def SysfsDir.parts (k : SysfsDir) : List SysfsPart := sysfsParts k.files k.disk k.names

variable {k : SysfsDir} {p : SysfsPart} {N : ℕ}

theorem index_sysfsPart (hN : N < 2 ^ 31)
    (h : sysfsPart k.files k.disk (k.disk ++ decimal N) = some p) : p.index.toNat = N := by
  obtain ⟨c, ds, hc⟩ := exists_cons_of_ne_nil (decimal_ne_nil N)
  have hne : c ≠ 112 := by
    rintro rfl
    have hdigit : isDigit 112 = true := isDigit_of_mem_decimal (n := N) (hc ▸ mem_cons_self)
    cases hdigit
  have hnum : strtoul (decimal N ++ []) = (UInt64.ofNat N, []) :=
    strtoul_decimal (by omega) (by simp)
  rw [append_nil] at hnum
  rw [sysfsPart] at h
  split_ifs at h
  rw [drop_left] at h
  split at h
  · next heq => exact absurd (cons.inj (hc.symm.trans heq)).1 hne
  · dsimp only at h
    rw [hnum] at h
    split_ifs at h
    obtain rfl := Option.some.inj h
    simp only [UInt64.toNat_toUInt32, UInt64.toNat_ofNat']
    omega

theorem index_ne_zero_of_mem (hp : p ∈ k.parts) : p.index ≠ 0 := by
  obtain ⟨n, hn, hsome⟩ := mem_filterMap.mp hp
  obtain ⟨N, hpos, hlt, rfl⟩ := k.number n hn (hsome ▸ rfl)
  intro heq
  have hN := index_sysfsPart hlt hsome
  rw [heq] at hN
  exact hpos.ne hN

theorem nodup_index (k : SysfsDir) : (k.parts.map (·.index)).Nodup := by
  refine pairwise_map.mpr (pairwise_filterMap.mpr ?_)
  refine k.nodup.imp_of_mem fun {n m} hn hm hne p hp q hq heq => hne ?_
  obtain ⟨N, -, hN, rfl⟩ := k.number n hn (hp ▸ rfl)
  obtain ⟨M, -, hM, rfl⟩ := k.number m hm (hq ▸ rfl)
  rw [← index_sysfsPart hN hp, ← index_sysfsPart hM hq, heq]

/-- The partitions that get slots: all of them if there is room, and some of them otherwise. -/
theorem exists_loadTopParts (k : SysfsDir) (kindOf : Bytes → AnyfsPartKind) {sbuf : List SysfsPart}
    (hbuf : sbuf.length = 128) :
    ∃ ps : List SysfsPart, (∃ l, ps.Sublist l ∧ l.Perm k.parts) ∧ ps.length ≤ 128 ∧
      (k.parts.length ≤ 128 → ps.Perm k.parts) ∧
      loadTopParts k.files kindOf k.disk sbuf (some k.names) = ps.map (slotOf kindOf) := by
  rw [loadTopParts]
  rcases Nat.lt_or_ge 128 k.parts.length with hfull | hroom
  · rw [anyfsSysfsWalk_full (hbuf.symm ▸ hfull)]
    refine ⟨_, ⟨_, (take_sublist _ _).trans (take_sublist _ _), .refl _⟩, ?_,
      fun h => by omega, rfl⟩
    rw [length_take]
    omega
  · obtain ⟨s, hperm, -, hwalk⟩ := exists_anyfsSysfsWalk (hbuf.symm ▸ hroom)
    have hroom' : s.length ≤ 128 := hperm.length_eq.trans_le hroom
    rw [hwalk, ← hperm.length_eq]
    dsimp only
    rw [Int32.toInt_ofNat_of_lt (by omega), Int.toNat_natCast, Nat.min_eq_left hroom', take_left]
    exact ⟨s, ⟨s, .refl _, hperm⟩, hroom', fun _ => hperm, rfl⟩

theorem Disk.findSlotByPair_part {d : Disk} {j : ℕ} (hj : j < d.parts.length) :
    d.findSlotByPair (d.part j).parent (d.part j).index = some j := by
  cases hfind : d.findSlotByPair (d.part j).parent (d.part j).index with
  | none =>
    have hnone := findIdx?_eq_none_iff.mp hfind _ (getElem_mem hj)
    simp [part, hj] at hnone
  | some i =>
    obtain ⟨hi, hparent, hindex⟩ := findSlotByPair_eq_some hfind
    rw [eq_of_pair_eq hi hj hparent hindex]

/-- **Discovery builds a disk.** The slots of a new session are those of a `Disk`; if there are no
more than 128 partitions, each of them is found by its number and has its device node. -/
theorem loadTopParts_disk (k : SysfsDir) (kindOf : Bytes → AnyfsPartKind)
    (sbuf : { l : List SysfsPart // l.length = 128 }) (diskId : Fin (2 ^ 31)) (readonly : Bool)
    (hint : Bytes) (dev : UInt32) :
    ∃ d : Disk, d.diskId = diskId ∧ d.readonly = readonly ∧ d.wholeFstypeHint = hint ∧
      d.wholeDev = dev ∧ d.parts = loadTopParts k.files kindOf k.disk sbuf (some k.names) ∧
      (k.parts.length ≤ 128 → ∀ p ∈ k.parts, ∃ i, d.findSlotByPair none p.index = some i ∧
        (d.part i).blkdev = snprintf 80 (ascii "/dev/" ++ p.name)) := by
  obtain ⟨ps, ⟨l, hsub, hl⟩, hlen, hall, hparts⟩ := exists_loadTopParts k kindOf sbuf.2
  have hnodup : (ps.map (·.index)).Nodup :=
    (hsub.map _).nodup ((hl.map _).nodup_iff.mpr (nodup_index k))
  rw [hparts]
  let d : Disk :=
    { diskId := diskId, readonly := readonly, wholeFstypeHint := hint, wholeDev := dev
      parts := ps.map (slotOf kindOf)
      diskId_lt := diskId.isLt
      length_parts_le := by rwa [length_map]
      index_ne_zero := forall_mem_map.mpr fun p hp =>
        index_ne_zero_of_mem (hl.mem_iff.mp (hsub.subset hp))
      nodup_pair := by
        rw [map_map]
        exact Nodup.of_map Prod.snd (by rwa [map_map])
      parent_kind := forall_mem_map.mpr fun _ _ _ => nofun }
  refine ⟨d, rfl, rfl, rfl, rfl, rfl, fun hroom p hp => ?_⟩
  obtain ⟨j, hj, hget⟩ := mem_iff_getElem.mp ((hall hroom).mem_iff.mpr hp)
  have hpart : d.part j = slotOf kindOf p := by
    rw [Disk.part, getD_eq_getElem _ _ (by simpa [d] using hj)]
    simp [d, hget]
  have hfind := Disk.findSlotByPair_part (d := d) (j := j) (by simpa [d] using hj)
  rw [hpart] at hfind
  exact ⟨j, hfind, by rw [hpart, slotOf]⟩

/-- A disk `vda` with two partitions, as `readdir` may give it. -/
def SysfsDir.twoParts : SysfsDir where
  files _ := some (ascii "2048\n")
  disk := ascii "vda"
  names := [ascii ".", ascii "..", ascii "queue", ascii "vda2", ascii "vda1"]
  nodup := by decide
  number := by
    simp only [forall_mem_cons]
    refine ⟨fun h => absurd h (by decide), fun h => absurd h (by decide), fun h =>
      absurd h (by decide), fun _ => ⟨2, by decide⟩, fun _ => ⟨1, by decide⟩, nofun⟩

/-- Both partitions of the disk are found by their numbers. -/
theorem loadTopParts_twoParts : ∃ d : Disk, d.parts.length = 2 ∧
    (∃ i, d.findSlotByPair none 1 = some i ∧ (d.part i).blkdev = ascii "/dev/vda1") ∧
    ∃ i, d.findSlotByPair none 2 = some i ∧ (d.part i).blkdev = ascii "/dev/vda2" := by
  obtain ⟨d, -, -, -, -, hparts, hfind⟩ := loadTopParts_disk .twoParts (fun _ => .fs)
    ⟨replicate 128 ⟨0, 0, 0, false, []⟩, length_replicate⟩ 0 false [] 0
  refine ⟨d, hparts ▸ by decide +kernel, ?_, ?_⟩
  · exact hfind (by decide) ⟨1, 2048 * 512, 2048 * 512, true, ascii "vda1"⟩ (by decide +kernel)
  · exact hfind (by decide) ⟨2, 2048 * 512, 2048 * 512, true, ascii "vda2"⟩ (by decide +kernel)

end Anyfs
