import Anyfs.Json.Text
import Anyfs.Session.List

/-!
# Partitions in JSON

`anyfs_ts_session_list_json` lists the top-level partitions of a session through an array of 32
entries. It reads only what `anyfs_session_list` wrote, so further partitions are left out.
-/

namespace Anyfs

open List CString Utf16

def partCalls (p : AnyfsPartInfo) : List WriterCall :=
  [.putc 123, .kvInt (ascii "slot_id") (.ofNat p.slotId) true,
    .kvInt (ascii "parent") (.ofInt p.parent) true,
    .kvInt (ascii "index") (.ofNat p.index.toNat) true,
    .kvUint (ascii "offset") p.offsetBytes true, .kvUint (ascii "size") p.sizeBytes true,
    kvName (ascii "ptype") p.ptype true, .kvStr (ascii "kind") (anyfsPartkindName p.kind) true,
    kvName (ascii "fstype") p.fstype true, kvName (ascii "label") p.label true,
    kvName (ascii "uuid") p.uuid false, .putc 125]

def partsLoop : ℕ → List AnyfsPartInfo → List WriterCall
  | _, [] => []
  | i, p :: parts => (if i = 0 then [] else [.putc 44]) ++ partCalls p ++ partsLoop (i + 1) parts

def partsCalls (parts : List AnyfsPartInfo) : List WriterCall :=
  [.putc 91] ++ partsLoop 0 parts ++ [.putc 93]

/-- `anyfs_ts_session_list_json`; without a session the handle is not valid. -/
def anyfsTsSessionListJson (t : Abi) (d : Option Session) (details : ℕ → SlotDetails)
    (buf : Bytes) :
    Option (Bytes × ℤ) :=
  match d with
  | none => some (buf, -1)
  | some s => do
    let parts := (anyfsSessionList s details none 32).1
    let n := if 32 < parts.length then 32 else parts.length
    let parts ← readEntries n parts
    jsonOp t (partsCalls parts) 0 buf

/-! ### Objects -/

theorem anyfsPartkindName_ascii (k : AnyfsPartKind) :
    ∀ b ∈ anyfsPartkindName k, b.toNat < 0x80 := by
  cases k <;> decide +kernel

def partMembers (p : AnyfsPartInfo) : List Member :=
  [.int (ascii "slot_id") p.slotId (by decide +kernel),
    .int (ascii "parent") p.parent (by decide +kernel),
    .int (ascii "index") p.index.toNat (by decide +kernel),
    .uint (ascii "offset") p.offsetBytes.toNat (by decide +kernel),
    .uint (ascii "size") p.sizeBytes.toNat (by decide +kernel),
    .name (ascii "ptype") p.ptype (by decide +kernel),
    .str (ascii "kind") (anyfsPartkindName p.kind) Member.kind_ascii
      (anyfsPartkindName_ascii p.kind),
    .name (ascii "fstype") p.fstype (by decide +kernel),
    .name (ascii "label") p.label (by decide +kernel),
    .name (ascii "uuid") p.uuid (by decide +kernel)]

/-- What the fields of an entry hold: the numbers are of type `int`, and the strings are in
arrays. -/
structure AnyfsPartInfo.Fits (p : AnyfsPartInfo) : Prop where
  slotId_lt : p.slotId < 2 ^ 31
  parent_bounds : -2 ^ 31 ≤ p.parent ∧ p.parent < 2 ^ 31
  length_ptype_le : p.ptype.length ≤ 256
  length_fstype_le : p.fstype.length ≤ 256
  length_label_le : p.label.length ≤ 256
  length_uuid_le : p.uuid.length ≤ 256

variable {p : AnyfsPartInfo} {parts : List AnyfsPartInfo}

theorem document_partCalls (h : p.Fits) : document (partCalls p) = objectText (partMembers p) := by
  have hslot : (Int64.ofNat p.slotId).toInt = p.slotId := by
    have hlt := h.slotId_lt
    rw [Int64.toInt_ofNat_of_lt (by omega)]
  have hparent : (Int64.ofInt p.parent).toInt = p.parent := by
    obtain ⟨hlo, hhi⟩ := h.parent_bounds
    rw [Int64.toInt_ofInt_of_le (by omega) (by omega)]
  have hindex : (Int64.ofNat p.index.toNat).toInt = p.index.toNat := by
    have hlt := p.index.toNat_lt
    rw [Int64.toInt_ofNat_of_lt (by omega)]
  simp only [document, partCalls, kvName, nameOut_eq h.length_ptype_le,
    nameOut_eq h.length_fstype_le, nameOut_eq h.length_label_le, nameOut_eq h.length_uuid_le,
    flatMap_cons, flatMap_nil, WriterCall.text, append_nil, hslot, hparent, hindex]
  simp only [objectText, partMembers, membersText, Member.name, Member.uint, Member.int, Member.str,
    append_assoc]

theorem document_partsLoop_succ (h : ∀ p ∈ parts, p.Fits) (i : ℕ) :
    document (partsLoop (i + 1) parts) =
      parts.flatMap fun p => 44 :: objectText (partMembers p) := by
  induction parts generalizing i with
  | nil => rfl
  | cons p parts ih =>
    obtain ⟨hp, hparts⟩ := forall_mem_cons.mp h
    rw [partsLoop, if_neg (Nat.succ_ne_zero i), document_append, document_append,
      document_partCalls hp, ih hparts, flatMap_cons]
    rfl

theorem document_partsCalls (h : ∀ p ∈ parts, p.Fits) :
    document (partsCalls parts) = arrayText (parts.map partMembers) := by
  have hloop : document (partsLoop 0 parts) =
      [44].intercalate ((parts.map partMembers).map objectText) := by
    cases parts with
    | nil => rfl
    | cons p parts =>
      obtain ⟨hp, hparts⟩ := forall_mem_cons.mp h
      rw [partsLoop, if_pos rfl, nil_append, document_append, document_partCalls hp,
        document_partsLoop_succ hparts, intercalate_objectText]
  rw [partsCalls, document_append, document_append, hloop, arrayText]
  rfl

/-! ### The listing -/

variable {s : Session} {details : ℕ → SlotDetails}

theorem fits_of_mem_children (h : p ∈ s.children details none) : p.Fits := by
  obtain ⟨j, q, hj, hq, rfl⟩ := mem_children h
  have hptype := (details j).length_ptype_lt
  have hparent : (slotToInfo s details j q).parent = -1 := by
    rw [slotToInfo, hq]
    rfl
  constructor
  · exact hj.trans (by decide)
  · rw [hparent]
    decide
  · exact hptype.le.trans (by decide)
  · exact (length_take_le _ _).trans (by decide)
  · exact (length_take_le _ _).trans (by decide)
  · exact (length_take_le _ _).trans (by decide)

def partValue (p : AnyfsPartInfo) : Json.Value := objectValue (partMembers p)

theorem anyfsTsSessionListJson_eq (t : Abi) (buf : Bytes) :
    anyfsTsSessionListJson t (some s) details buf =
      jsonOp t (partsCalls ((s.children details none).take 32)) 0 buf := by
  have hlen : (anyfsSessionList s details none 32).1.length ≤ 32 := by
    rw [anyfsSessionList_eq]
    exact length_take_le _ _
  rw [anyfsTsSessionListJson, if_neg (Nat.not_lt.mpr hlen), readEntries_written]
  rfl

/-- The longest members are the names: each byte may become three, and each of these six. -/
theorem length_partMembers_le (h : p.Fits) :
    ∀ m ∈ partMembers p, m.key.length ≤ 7 ∧ m.text.length ≤ 4610 := by
  have hslot := h.slotId_lt
  have hparent := h.parent_bounds
  have hindex := p.index.toNat_lt
  have hoffset := p.offsetBytes.toNat_lt
  have hsize := p.sizeBytes.toNat_lt
  have hname : ∀ s : Bytes, s.length ≤ 256 → (jsonString (escaped s)).length ≤ 4610 := by
    intro s hs
    have hescaped : (escaped s).length ≤ 3 * s.length := (length_escapeText le_rfl).2
    have hstring := length_jsonString_le (escaped s)
    omega
  have hnumber : ∀ n : ℕ, n < 2 ^ 64 → (decimal n).length ≤ 4610 := fun n hn =>
    (length_decimal_lt hn.le).le.trans (by decide)
  have hkind : (jsonString (anyfsPartkindName p.kind)).length ≤ 4610 := by
    cases p.kind <;> decide +kernel
  have hint : ∀ n : ℤ, n.natAbs < 2 ^ 32 → (decimalInt n).length ≤ 4610 := by
    intro n hn
    have hdigits := length_decimal_le (n := n.natAbs) (m := 20) (by decide) (by omega)
    rw [decimalInt]
    split_ifs
    · rw [length_cons]
      omega
    · omega
  simp only [partMembers, Member.int, Member.uint, Member.name, Member.str, forall_mem_cons]
  exact ⟨⟨by decide, hint _ (by omega)⟩, ⟨by decide, hint _ (by omega)⟩,
    ⟨by decide, hint _ (by omega)⟩, ⟨by decide, hnumber _ hoffset⟩, ⟨by decide, hnumber _ hsize⟩,
    ⟨by decide, hname _ h.length_ptype_le⟩, ⟨by decide, hkind⟩,
    ⟨by decide, hname _ h.length_fstype_le⟩, ⟨by decide, hname _ h.length_label_le⟩,
    ⟨by decide, hname _ h.length_uuid_le⟩, nofun⟩

/-- 32 partitions fit into 2 MiB, whatever their strings. -/
theorem length_document_partsCalls (h : ∀ p ∈ parts, p.Fits)
    (hlen : parts.length ≤ 32) : (document (partsCalls parts)).length < 2 ^ 21 := by
  have hmembers : ∀ ms ∈ parts.map partMembers, (membersText ms).length ≤ 10 * 4656 := by
    intro ms hms
    obtain ⟨p, hp, rfl⟩ := mem_map.mp hms
    have hlen : (partMembers p).length = 10 := rfl
    have hms := length_membersText_le (length_partMembers_le (h p hp))
    rwa [hlen] at hms
  have htext := length_arrayText_le hmembers
  rw [length_map, ← document_partsCalls h] at htext
  omega

/-- The listing of a session with a buffer of any size: with room for it, the document lists the
first 32 top-level partitions. -/
theorem sessionListJson_spec (s : Session) (details : ℕ → SlotDetails) (t : Abi) (buf : Bytes) :
    ∃ buf' n, anyfsTsSessionListJson t (some s) details buf = some (buf', n) ∧
      (2 ^ 21 ≤ buf.length → 0 ≤ n) ∧
      (0 ≤ n → ∃ text, ofUtf8 (buf'.take n.toNat) = some text ∧
        Json.parse text = some (.arr (((s.children details none).take 32).map partValue))) := by
  have hfits : ∀ p ∈ (s.children details none).take 32, p.Fits := fun p hp =>
    fits_of_mem_children (mem_of_mem_take hp)
  have hlen := length_document_partsCalls hfits (length_take_le _ _)
  obtain ⟨text, htext, hparse⟩ :=
    parse_document (fun p => cons_ne_nil _ _) (document_partsCalls hfits)
  obtain ⟨buf', n, hop, hroom, hdoc⟩ := jsonOp_spec (t := t) 0 buf (hlen.trans (by decide))
  rw [anyfsTsSessionListJson_eq]
  refine ⟨buf', n, hop, fun hbuf => hroom.mpr (by omega), fun hn => ⟨text, ?_, hparse⟩⟩
  rw [hdoc hn, htext]

end Anyfs
