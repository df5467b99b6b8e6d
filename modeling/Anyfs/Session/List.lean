import Anyfs.Session.Types

/-!
# Listing the partitions of a session

`anyfs_session_list` writes the slots below a parent into the caller's array, as far as it has room,
and reports how many entries it wrote and how many slots there are.
-/

namespace Anyfs

open List

/-- What discovery finds out about a slot beside its `PartInfo`; the strings are in arrays. -/
structure SlotDetails where
  offsetBytes : UInt64
  sizeBytes : UInt64
  ptype : Bytes
  label : Bytes
  uuid : Bytes
  length_ptype_lt : ptype.length < 40
  length_label_lt : label.length < 64
  length_uuid_lt : uuid.length < 40

/-- `AnyfsPartInfo`. -/
structure AnyfsPartInfo where
  slotId : ℕ
  parent : ℤ
  index : UInt32
  offsetBytes : UInt64
  sizeBytes : UInt64
  ptype : Bytes
  kind : AnyfsPartKind
  fstype : Bytes
  label : Bytes
  uuid : Bytes
  deriving DecidableEq

section

variable (s : Session) (details : ℕ → SlotDetails)

def slotToInfo (i : ℕ) (p : PartInfo) : AnyfsPartInfo where
  slotId := i
  parent := p.parent.elim (-1) Int.ofNat
  index := p.index
  offsetBytes := (details i).offsetBytes
  sizeBytes := (details i).sizeBytes
  ptype := (details i).ptype
  kind := p.kind
  fstype := (s.slot i).fstypeCache.take 31
  label := (details i).label.take 63
  uuid := (details i).uuid.take 39

/-- The loop of `anyfs_session_list`, from slot `i` on. -/
def listLoop (parent : Option ℕ) (bufN : ℕ) :
    ℕ → List PartInfo → List AnyfsPartInfo → ℕ → List AnyfsPartInfo × ℕ
  | _, [], written, total => (written, total)
  | i, p :: parts, written, total =>
    if p.parent ≠ parent then listLoop parent bufN (i + 1) parts written total
    else if written.length < bufN then
      listLoop parent bufN (i + 1) parts (written ++ [slotToInfo s details i p]) (total + 1)
    else listLoop parent bufN (i + 1) parts written (total + 1)

/-- `anyfs_session_list` with an array of `bufN` entries: the entries it writes, and `*got`. -/
def anyfsSessionList (parent : Option ℕ) (bufN : ℕ) : List AnyfsPartInfo × ℕ :=
  listLoop s details parent bufN 0 s.disk.parts [] 0

def childrenFrom (parent : Option ℕ) : ℕ → List PartInfo → List AnyfsPartInfo
  | _, [] => []
  | i, p :: parts =>
    if p.parent = parent then slotToInfo s details i p :: childrenFrom parent (i + 1) parts
    else childrenFrom parent (i + 1) parts

def Session.children (parent : Option ℕ) : List AnyfsPartInfo :=
  childrenFrom s details parent 0 s.disk.parts

def Disk.topLevel (d : Disk) : List PartInfo := d.parts.filter fun p => p.parent = none

end

variable {s : Session} {details : ℕ → SlotDetails} {parent : Option ℕ} {bufN : ℕ}

theorem listLoop_eq (i : ℕ) (parts : List PartInfo) (written : List AnyfsPartInfo) (total : ℕ) :
    listLoop s details parent bufN i parts written total =
      (written ++ (childrenFrom s details parent i parts).take (bufN - written.length),
        total + (childrenFrom s details parent i parts).length) := by
  induction parts generalizing i written total with
  | nil => simp [listLoop, childrenFrom]
  | cons p parts ih =>
    rw [listLoop, childrenFrom]
    by_cases hp : p.parent = parent
    · rw [if_neg (not_not.mpr hp), if_pos hp, length_cons]
      split_ifs with hroom
      · obtain ⟨k, hk⟩ : ∃ k, bufN - written.length = k + 1 :=
          ⟨bufN - written.length - 1, by omega⟩
        rw [ih, hk, take_succ_cons, length_append, length_singleton,
          show bufN - (written.length + 1) = k by omega, append_assoc, singleton_append]
        congr 1
        omega
      · rw [ih, show bufN - written.length = 0 by omega, take_zero, take_zero]
        congr 1
        omega
    · rw [if_pos hp, if_neg hp, ih]

theorem anyfsSessionList_eq :
    anyfsSessionList s details parent bufN =
      ((s.children details parent).take bufN, (s.children details parent).length) := by
  rw [anyfsSessionList, listLoop_eq, nil_append, length_nil, Nat.sub_zero, Nat.zero_add]
  rfl

theorem mem_childrenFrom {i : ℕ} {parts : List PartInfo} {info : AnyfsPartInfo}
    (h : info ∈ childrenFrom s details parent i parts) :
    ∃ j p, j < i + parts.length ∧ p.parent = parent ∧ info = slotToInfo s details j p := by
  induction parts generalizing i with
  | nil => exact absurd h not_mem_nil
  | cons p parts ih =>
    have htail : info ∈ childrenFrom s details parent (i + 1) parts →
        ∃ j p', j < i + (p :: parts).length ∧ p'.parent = parent ∧
          info = slotToInfo s details j p' := by
      intro hmem
      obtain ⟨j, p', hj, hp'⟩ := ih hmem
      exact ⟨j, p', by rw [length_cons]; omega, hp'⟩
    rw [childrenFrom] at h
    split_ifs at h with hp
    · rcases mem_cons.mp h with rfl | h
      · exact ⟨i, p, by rw [length_cons]; omega, hp, rfl⟩
      · exact htail h
    · exact htail h

theorem mem_children {info : AnyfsPartInfo} (h : info ∈ s.children details parent) :
    ∃ j p, j < 128 ∧ p.parent = parent ∧ info = slotToInfo s details j p := by
  obtain ⟨j, p, hj, hp⟩ := mem_childrenFrom h
  have hlen := s.disk.length_parts_le
  exact ⟨j, p, by omega, hp⟩

theorem map_index_childrenFrom (i : ℕ) (parts : List PartInfo) :
    (childrenFrom s details parent i parts).map AnyfsPartInfo.index =
      (parts.filter fun p => p.parent = parent).map PartInfo.index := by
  induction parts generalizing i with
  | nil => rfl
  | cons p parts ih =>
    rw [childrenFrom, filter_cons]
    by_cases hp : p.parent = parent
    · rw [if_pos hp, if_pos (decide_eq_true hp), map_cons, ih, map_cons]
      rfl
    · rw [if_neg hp, if_neg (by simpa using hp), ih]

theorem length_children_none : (s.children details none).length = s.disk.topLevel.length := by
  have h : ((s.children details none).map AnyfsPartInfo.index).length =
      (s.disk.topLevel.map PartInfo.index).length :=
    congrArg length (map_index_childrenFrom 0 s.disk.parts)
  rwa [length_map, length_map] at h

theorem nodup_map_index_children : ((s.children details parent).map AnyfsPartInfo.index).Nodup := by
  rw [Session.children, map_index_childrenFrom]
  have hpairs := s.disk.nodup_pair
  rw [nodup_map_iff_inj_on (List.Nodup.of_map _ hpairs |>.filter _)]
  intro p hp q hq hpq
  obtain ⟨hp, hpp⟩ := mem_filter.mp hp
  obtain ⟨hq, hqq⟩ := mem_filter.mp hq
  have hpair : (p.parent, p.index) = (q.parent, q.index) := by
    rw [of_decide_eq_true hpp, of_decide_eq_true hqq, hpq]
  exact inj_on_of_nodup_map hpairs hp hq hpair

theorem mem_map_index_children_iff {N : UInt32} :
    N ∈ (s.children details parent).map AnyfsPartInfo.index ↔
      (s.disk.findSlotByPair parent N).isSome := by
  rw [Session.children, map_index_childrenFrom, Disk.findSlotByPair, List.findIdx?_isSome,
    any_eq_true]
  constructor
  · intro h
    obtain ⟨p, hp, rfl⟩ := mem_map.mp h
    obtain ⟨hp, hparent⟩ := mem_filter.mp hp
    exact ⟨p, hp, by simp [of_decide_eq_true hparent]⟩
  · rintro ⟨p, hp, hpair⟩
    simp only [Bool.and_eq_true, beq_iff_eq] at hpair
    exact mem_map.mpr ⟨p, mem_filter.mpr ⟨hp, decide_eq_true hpair.1⟩, hpair.2⟩

/-! ### Reading the array -/

/-- A loop that reads the first `n` entries of an array, or `none` if one of them was not written.
-/
def readEntries {α : Type*} : ℕ → List α → Option (List α)
  | 0, _ => some []
  | _ + 1, [] => none
  | n + 1, a :: written => (readEntries n written).map (a :: ·)

theorem readEntries_eq {α : Type*} (n : ℕ) (written : List α) :
    readEntries n written = if n ≤ written.length then some (written.take n) else none := by
  induction n generalizing written with
  | zero => rw [readEntries, if_pos (Nat.zero_le _), take_zero]
  | succ n ih =>
    cases written with
    | nil => rfl
    | cons a written =>
      rw [readEntries, ih, length_cons, take_succ_cons]
      by_cases h : n ≤ written.length
      · rw [if_pos h, if_pos (by omega), Option.map_some]
      · rw [if_neg h, if_neg (by omega), Option.map_none]

theorem readEntries_got :
    readEntries (anyfsSessionList s details parent bufN).2
        (anyfsSessionList s details parent bufN).1 =
      if (s.children details parent).length ≤ bufN then some (s.children details parent)
      else none := by
  rw [anyfsSessionList_eq, readEntries_eq, length_take]
  by_cases h : (s.children details parent).length ≤ bufN
  · rw [if_pos (by omega), if_pos h, take_of_length_le h, take_length]
  · rw [if_neg (by omega), if_neg h]

theorem readEntries_written :
    readEntries (anyfsSessionList s details parent bufN).1.length
        (anyfsSessionList s details parent bufN).1 =
      some ((s.children details parent).take bufN) := by
  rw [readEntries_eq, if_pos le_rfl, take_length, anyfsSessionList_eq]

end Anyfs
