import Anyfs.Probe.Verdict

/-!
# Partition tables are read as they are written

A GPT and an MBR as they are meant (`Gpt`, `Mbr`), how they are laid out on a device (`HoldsGpt`,
`HoldsMbr`), and that `anyfs_probe_pt_buf` lists exactly their usable entries.
-/

namespace Anyfs

open List CString LittleEndian Hex

/-! ### Tables -/

/-- An entry of a GPT. -/
structure GptEntry where
  typeGuid : Bytes
  firstLba : UInt64
  lastLba : UInt64
  length_typeGuid : typeGuid.length = 16

namespace GptEntry

def Usable (e : GptEntry) : Prop :=
  e.typeGuid ≠ replicate 16 0 ∧ e.firstLba.toNat ≤ e.lastLba.toNat

instance : DecidablePred Usable := fun _ => inferInstanceAs (Decidable (_ ∧ _))

def start (e : GptEntry) : ℕ := e.firstLba.toNat * 512

def size (e : GptEntry) : ℕ := (e.lastLba.toNat - e.firstLba.toNat + 1) * 512

/-- The partition that an entry stands for. -/
def part (e : GptEntry) (i : ℕ) : AnyfsInnerPart := ⟨i + 1, e.start, e.size, guidText e.typeGuid⟩

end GptEntry

/-- A GPT, as far as the parser reads it. -/
structure Gpt where
  entLba : UInt64
  entSize : UInt32
  entries : List GptEntry
  entSize_ge : 128 ≤ entSize.toNat
  entries_le : entries.length ≤ 256
  /-- Byte offsets are below `2 ^ 64`. -/
  offsets_lt : ∀ e ∈ entries, e.Usable → e.start < 2 ^ 64 ∧ e.size < 2 ^ 64
  exists_usable : ∃ e ∈ entries, e.Usable

def Gpt.parts (g : Gpt) : List AnyfsInnerPart :=
  g.entries.zipIdx.filterMap fun (e, i) => if e.Usable then some (e.part i) else none

/-- An entry of an MBR. -/
structure MbrEntry where
  type : UInt8
  firstLba : UInt32
  sectors : UInt32
  deriving DecidableEq

namespace MbrEntry

def Usable (e : MbrEntry) : Prop :=
  e.firstLba ≠ 0 ∧ e.sectors ≠ 0 ∧ e.type ≠ 0x00 ∧ e.type ≠ 0x05 ∧ e.type ≠ 0x0F ∧ e.type ≠ 0xEE

instance : DecidablePred Usable := fun _ => inferInstanceAs (Decidable (_ ∧ _))

def part (e : MbrEntry) (i : ℕ) : AnyfsInnerPart :=
  ⟨i + 1, e.firstLba.toNat * 512, e.sectors.toNat * 512, ascii "0x" ++ digits 2 e.type.toNat⟩

end MbrEntry

/-- The table of an MBR. -/
structure Mbr where
  entries : List MbrEntry
  length_entries : entries.length = 4

def Mbr.parts (m : Mbr) : List AnyfsInnerPart :=
  m.entries.zipIdx.filterMap fun (e, i) => if e.Usable then some (e.part i) else none

/-! ### Their layout -/

namespace Snapshot

/-- The entry is at this offset. -/
structure HoldsGptEntry (buf : Snapshot) (off : ℕ) (e : GptEntry) : Prop where
  typeGuid : buf.slice off 16 = e.typeGuid
  firstLba : buf.slice (off + 32) 8 = encode 8 e.firstLba.toNat
  lastLba : buf.slice (off + 40) 8 = encode 8 e.lastLba.toNat

/-- A device with a GPT: the header in the second sector, and the entry array inside the buffer. -/
structure HoldsGpt (buf : Snapshot) (g : Gpt) : Prop where
  len_ge : 16 * 1024 ≤ buf.len
  signature : buf.slice 512 8 = ascii "EFI PART"
  entLba : buf.slice (512 + 72) 8 = encode 8 g.entLba.toNat
  nEntries : buf.slice (512 + 80) 4 = encode 4 g.entries.length
  entSize : buf.slice (512 + 84) 4 = encode 4 g.entSize.toNat
  inside : g.entLba.toNat * 512 + g.entries.length * g.entSize.toNat ≤ buf.len
  entry : ∀ i e, g.entries[i]? = some e →
    buf.HoldsGptEntry (g.entLba.toNat * 512 + i * g.entSize.toNat) e

/-- The entry is at this offset. -/
structure HoldsMbrEntry (buf : Snapshot) (off : ℕ) (e : MbrEntry) : Prop where
  type : buf.slice (off + 4) 1 = [e.type]
  firstLba : buf.slice (off + 8) 4 = encode 4 e.firstLba.toNat
  sectors : buf.slice (off + 12) 4 = encode 4 e.sectors.toNat

/-- The table is in the first sector. -/
structure HoldsMbr (buf : Snapshot) (m : Mbr) : Prop where
  hasMbr : buf.HasMbr
  entry : ∀ i e, m.entries[i]? = some e → buf.HoldsMbrEntry (446 + i * 16) e

end Snapshot

/-! ### Texts of types -/

def unhexPairs : Bytes → Bytes
  | a :: b :: rest => UInt8.ofNat (Hex.value [a, b]) :: unhexPairs rest
  | _ => []

def guidOfText (t : Bytes) : Bytes :=
  LittleEndian.encode 4 (Hex.value (t.take 8)) ++
    LittleEndian.encode 2 (Hex.value ((t.drop 9).take 4)) ++
    LittleEndian.encode 2 (Hex.value ((t.drop 14).take 4)) ++
    unhexPairs ((t.drop 19).take 4) ++ unhexPairs (t.drop 24)

def typeOfText (t : Bytes) : UInt8 := UInt8.ofNat (Hex.value (t.drop 2))

theorem unhexPairs_flatMap (bs : Bytes) :
    unhexPairs (bs.flatMap fun b => digits 2 b.toNat) = bs := by
  induction bs with
  | nil => rfl
  | cons b bs ih =>
    have hvalue : Hex.value (Hex.digits 2 b.toNat) = b.toNat := Hex.value_digits b.toNat_lt
    obtain ⟨c, d, hcd⟩ : ∃ c d, digits 2 b.toNat = [c, d] := ⟨_, _, rfl⟩
    rw [flatMap_cons, hcd, cons_append, cons_append, nil_append, unhexPairs, ih,
      ← hcd, hvalue, UInt8.ofNat_toNat]

theorem encode_value_digits {w : ℕ} {bs : Bytes} (h : bs.length = w) :
    LittleEndian.encode w (Hex.value (Hex.digits (2 * w) (LittleEndian.value bs))) = bs := by
  have hlt : LittleEndian.value bs < 16 ^ (2 * w) := by
    rw [pow_mul, ← h]
    exact value_lt bs
  rw [value_digits hlt, ← h, encode_value]

theorem guidOfText_groups {a b c d e : Bytes} (ha : a.length = 8) (hb : b.length = 4)
    (hc : c.length = 4) (hd : d.length = 4) :
    guidOfText (a ++ ascii "-" ++ b ++ ascii "-" ++ c ++ ascii "-" ++ d ++ ascii "-" ++ e) =
      LittleEndian.encode 4 (Hex.value a) ++ LittleEndian.encode 2 (Hex.value b) ++
        LittleEndian.encode 2 (Hex.value c) ++ unhexPairs d ++ unhexPairs e := by
  have hdash : (ascii "-").length = 1 := by decide
  simp [guidOfText, drop_append, drop_of_length_le, ha, hb, hc, hd, hdash]

theorem guidOfText_guidText {guid : Bytes} (h : guid.length = 16) :
    guidOfText (guidText guid) = guid := by
  have hlength : ∀ i n, i + n ≤ 16 → ((guid.drop i).take n).length = n := by
    intro i n hin
    rw [length_take, length_drop, h]
    omega
  have hpairs : (((guid.drop 8).take 2).flatMap fun b => digits 2 b.toNat).length = 4 := by
    simp [length_flatMap, h]
  have hgroup : ∀ i n, (guid.drop i).take n ++ guid.drop (i + n) = guid.drop i := by
    intro i n
    rw [← drop_drop, take_append_drop]
  have h4 := encode_value_digits (hlength 0 4 (by decide))
  have h6 := encode_value_digits (hlength 4 2 (by decide))
  have h8 := encode_value_digits (hlength 6 2 (by decide))
  rw [drop_zero] at h4
  rw [guidText, guidOfText_groups (length_digits _ _) (length_digits _ _)
    (length_digits _ _) hpairs, unhexPairs_flatMap, unhexPairs_flatMap, h4, h6, h8]
  rw [append_assoc, hgroup 8 2, append_assoc, hgroup 6 2, append_assoc, hgroup 4 2,
    take_append_drop]

theorem typeOfText_digits (type : UInt8) :
    typeOfText (ascii "0x" ++ digits 2 type.toNat) = type := by
  have hvalue : Hex.value (Hex.digits 2 type.toNat) = type.toNat := Hex.value_digits type.toNat_lt
  have hdrop : (ascii "0x" ++ digits 2 type.toNat).drop 2 = digits 2 type.toNat := rfl
  rw [typeOfText, hdrop, hvalue, UInt8.ofNat_toNat]

/-! ### The parts of a table -/

theorem pairwise_index_filterMap {α : Type} {l : List α} {f : α × ℕ → Option AnyfsInnerPart}
    (hf : ∀ e i p, f (e, i) = some p → p.index = i + 1) :
    ((l.zipIdx.filterMap f).map (·.index)).Pairwise (· < ·) := by
  have hidx : l.zipIdx.Pairwise fun x y => x.2 < y.2 := by
    rw [← pairwise_map (f := Prod.snd), zipIdx_map_snd, ← range_eq_range']
    exact pairwise_lt_range
  rw [pairwise_map, pairwise_filterMap]
  refine hidx.imp ?_
  rintro ⟨e, i⟩ ⟨e', j⟩ hij p hp q hq
  rw [hf e i p hp, hf e' j q hq]
  exact Nat.add_lt_add_right hij 1

theorem filterMap_range_eq {α : Type} {l : List α} {g : ℕ → Option AnyfsInnerPart}
    {f : α × ℕ → Option AnyfsInnerPart} (h : ∀ i e, l[i]? = some e → g i = f (e, i)) :
    (range l.length).filterMap g = l.zipIdx.filterMap f := by
  rw [range_eq_range', ← zipIdx_map_snd, filterMap_map]
  refine filterMap_congr ?_
  rintro ⟨e, i⟩ hmem
  exact h i e (mem_zipIdx_iff_getElem?.mp hmem)

namespace Snapshot

variable {buf : Snapshot}

theorem num_eq_of_slice {off w n : ℕ} (h : buf.slice off w = encode w n)
    (hn : n < 256 ^ w) : buf.num off w = n := by
  rw [num, h, value_encode hn]

namespace HoldsGpt

variable {g : Gpt}

section

variable (h : buf.HoldsGpt g)
include h

theorem arrOff_eq : buf.arrOff = g.entLba.toNat * 512 := by
  have hinside := h.inside
  have hlen := buf.len_lt
  rw [arrOff, Snapshot.entLba, num_eq_of_slice h.entLba g.entLba.toNat_lt]
  exact Nat.mod_eq_of_lt (by omega)

theorem entSize_eq : buf.entSize = g.entSize.toNat :=
  num_eq_of_slice h.entSize g.entSize.toNat_lt

theorem entCount_eq : buf.entCount = g.entries.length := by
  have hle := g.entries_le
  obtain ⟨e, he, -⟩ := g.exists_usable
  have hpos := length_pos_of_mem he
  rw [entCount, num_eq_of_slice h.nEntries (by omega), gptCount, if_neg (by omega)]

theorem hasGpt : buf.HasGpt :=
  ⟨h.len_ge, h.signature, h.entSize_eq ▸ g.entSize_ge⟩

theorem end_le {i : ℕ} (hi : i < g.entries.length) :
    buf.arrOff + i * buf.entSize + buf.entSize ≤ buf.len := by
  have hmul : (i + 1) * buf.entSize ≤ g.entries.length * buf.entSize :=
    Nat.mul_le_mul_right _ hi
  have hinside := h.inside
  rw [← h.arrOff_eq, ← h.entSize_eq] at hinside
  rw [Nat.succ_mul] at hmul
  omega

theorem not_wraps : ¬ buf.GptWraps := by
  rintro ⟨-, hwraps, -⟩
  obtain ⟨e, he, -⟩ := g.exists_usable
  have hend := h.end_le (length_pos_of_mem he)
  have hlen := buf.len_lt
  omega

theorem gptEntry_eq {i : ℕ} {e : GptEntry} (he : g.entries[i]? = some e) :
    buf.gptEntry i = if e.Usable then some (e.part i) else none := by
  obtain ⟨hi, rfl⟩ := List.getElem?_eq_some_iff.mp he
  obtain ⟨hguid, hfirst, hlast⟩ := h.entry i _ he
  have hend := h.end_le hi
  rw [← h.arrOff_eq, ← h.entSize_eq] at hguid hfirst hlast
  generalize g.entries[i] = e at *
  rw [gptEntry, hguid, num_eq_of_slice hfirst e.firstLba.toNat_lt,
    num_eq_of_slice hlast e.lastLba.toNat_lt]
  by_cases husable : e.Usable
  · obtain ⟨hstart, hsize⟩ := g.offsets_lt e (mem_of_getElem? he) husable
    rw [if_neg, if_pos husable, gptPart, snprintf_guidText e.length_typeGuid]
    · rw [GptEntry.start] at hstart
      rw [GptEntry.size] at hsize
      rw [Nat.mod_eq_of_lt hstart, Nat.mod_eq_of_lt hsize]
      rfl
    · rintro (hout | hzero | hless)
      · omega
      · exact husable.1 hzero
      · exact absurd husable.2 (by omega)
  · rw [if_pos, if_neg husable]
    by_contra hnot
    rw [not_or, not_or, Nat.not_lt, Nat.not_lt] at hnot
    exact husable ⟨hnot.2.1, hnot.2.2⟩

theorem gptParts_eq : buf.gptParts = g.parts := by
  rw [gptParts, if_pos h.hasGpt, h.entCount_eq]
  exact filterMap_range_eq fun i e he => h.gptEntry_eq he

end

end HoldsGpt

theorem HoldsMbr.mbrEntry_eq {m : Mbr} (h : buf.HoldsMbr m) {i : ℕ} {e : MbrEntry}
    (he : m.entries[i]? = some e) :
    buf.mbrEntry i = if e.Usable then some (e.part i) else none := by
  obtain ⟨htype, hfirst, hsectors⟩ := h.entry i e he
  have hnum : buf.num (446 + i * 16 + 4) 1 = e.type.toNat := by
    rw [num, htype]
    rfl
  have hfit : snprintf 40 (ascii "0x" ++ digits 2 e.type.toNat) =
      ascii "0x" ++ digits 2 e.type.toNat :=
    (snprintf_eq_self_iff (.inl (by decide))).mpr (by
      rw [length_append, length_digits]
      decide)
  have husable : e.Usable ↔ ¬ (mbrPassesOver e.type.toNat ∨ e.firstLba.toNat = 0 ∨
      e.sectors.toNat = 0) := by
    simp only [MbrEntry.Usable, mbrPassesOver, ne_eq, ← UInt8.toNat_inj, ← UInt32.toNat_inj]
    tauto
  rw [mbrEntry, hnum, num_eq_of_slice hfirst e.firstLba.toNat_lt,
    num_eq_of_slice hsectors e.sectors.toNat_lt]
  by_cases hu : e.Usable
  · rw [if_neg (husable.mp hu), if_pos hu, mbrPart, hfit]
    rfl
  · rw [if_pos (not_not.mp (mt husable.mpr hu)), if_neg hu]

theorem HoldsMbr.mbrParts_eq {m : Mbr} (h : buf.HoldsMbr m) : buf.mbrParts = m.parts := by
  rw [mbrParts, if_pos h.hasMbr, ← m.length_entries]
  exact filterMap_range_eq fun i e he => h.mbrEntry_eq he

end Snapshot

theorem Gpt.parts_ne_nil (g : Gpt) : g.parts ≠ [] := by
  obtain ⟨e, he, husable⟩ := g.exists_usable
  obtain ⟨i, hi, rfl⟩ := getElem_of_mem he
  refine ne_nil_of_mem (a := g.entries[i].part i) (mem_filterMap.mpr ⟨(g.entries[i], i), ?_, ?_⟩)
  · exact mem_zipIdx_iff_getElem?.mpr (List.getElem?_eq_getElem hi)
  · exact if_pos husable

/-! ### Exact decoding -/

/-- With enough room, `anyfs_probe_pt_buf` lists exactly the usable entries of a GPT, and of an MBR
without a GPT; the entries are listed by increasing number, and the text of a type determines the
type. -/
theorem anyfsProbePtBuf_exact (buf : Snapshot) (max : ℤ) :
    (∀ g : Gpt, buf.HoldsGpt g → g.parts.length ≤ max → anyfsProbePtBuf buf max = some g.parts) ∧
    (∀ m : Mbr, buf.HoldsMbr m → ¬ buf.HasEfi → m.parts.length ≤ max →
      anyfsProbePtBuf buf max = some m.parts) ∧
    (∀ g : Gpt, (g.parts.map (·.index)).Pairwise (· < ·)) ∧
    (∀ m : Mbr, (m.parts.map (·.index)).Pairwise (· < ·)) ∧
    (∀ (e : GptEntry) (i : ℕ), guidOfText (e.part i).ptype = e.typeGuid) ∧
    ∀ (e : MbrEntry) (i : ℕ), typeOfText (e.part i).ptype = e.type := by
  refine ⟨?_, ?_, ?_, ?_, ?_, ?_⟩
  · intro g h hroom
    have hpos := length_pos_iff.mpr g.parts_ne_nil
    rw [anyfsProbePtBuf_eq (by omega) h.not_wraps, h.gptParts_eq, if_neg g.parts_ne_nil,
      take_of_length_le (by omega)]
  · intro m h hefi hroom
    rcases lt_or_ge 0 max with hmax | hmax
    · rw [anyfsProbePtBuf_eq hmax fun hwraps => hefi hwraps.1.2.1,
        if_pos (Snapshot.gptParts_eq_nil_of_not_hasEfi hefi), h.mbrParts_eq,
        take_of_length_le (by omega)]
    · rw [length_eq_zero_iff.mp (show m.parts.length = 0 by omega)]
      exact if_pos hmax
  · refine fun g => pairwise_index_filterMap fun e i p hp => ?_
    dsimp only at hp
    split_ifs at hp
    exact (Option.some.inj hp) ▸ rfl
  · refine fun m => pairwise_index_filterMap fun e i p hp => ?_
    dsimp only at hp
    split_ifs at hp
    exact (Option.some.inj hp) ▸ rfl
  · exact fun e i => guidOfText_guidText e.length_typeGuid
  · exact fun e i => typeOfText_digits e.type

def linuxGpt : Gpt where
  entLba := 2
  entSize := 128
  entries := [⟨replicate 16 0, 0, 0, by decide⟩,
    ⟨[0xAF, 0x3D, 0xC6, 0x0F, 0x83, 0x84, 0x72, 0x47, 0x8E, 0x79, 0x3D, 0x69, 0xD8, 0x47, 0x7D,
      0xE4], 34, 2047, by decide⟩]
  entSize_ge := by decide
  entries_le := by decide
  offsets_lt := by decide +kernel
  exists_usable := by decide +kernel

def linuxDevice : Snapshot where
  bytes := replicate 512 0 ++ (gptHeader 2 2 128 ++ (replicate 552 0 ++
    ([0xAF, 0x3D, 0xC6, 0x0F, 0x83, 0x84, 0x72, 0x47, 0x8E, 0x79, 0x3D, 0x69, 0xD8, 0x47, 0x7D,
      0xE4] ++ (replicate 16 0 ++ (encode 8 34 ++ (encode 8 2047 ++
        replicate 15184 0))))))
  length_lt := by
    simp only [length_append, length_replicate, length_gptHeader,
      length_encode, length_cons, length_nil]
    decide

/-- The GPT of `linuxDevice` is listed, and so is the MBR of a device without a GPT. -/
theorem anyfsProbePtBuf_linuxDevice :
    anyfsProbePtBuf linuxDevice 1 =
      some [⟨2, 17408, 1031168, ascii "0fc63daf-8483-4772-8e79-3d69d8477de4"⟩] ∧
    anyfsProbePtBuf (mbrDevice 0x80 (replicate 88 0) (by decide)) 1 =
      some [⟨1, 512, 512, ascii "0x83"⟩] := by
  have hgpt : linuxDevice.HoldsGpt linuxGpt := by
    have hlen : linuxDevice.len = 16384 := by
      simp only [Snapshot.len, linuxDevice, length_append, length_replicate,
        length_gptHeader, length_encode, length_cons, length_nil]
    refine ⟨hlen.ge, by decide +kernel, by decide +kernel, by decide +kernel, by decide +kernel,
      by rw [hlen]; decide, ?_⟩
    rintro (_ | _ | i) e he
    · cases he
      exact ⟨by decide +kernel, by decide +kernel, by decide +kernel⟩
    · cases he
      exact ⟨by decide +kernel, by decide +kernel, by decide +kernel⟩
    · exact absurd he (by rintro ⟨⟩)
  have hmbr : (mbrDevice 0x80 (replicate 88 0) (by decide)).HoldsMbr
      ⟨[⟨0x83, 1, 1⟩, ⟨0, 0, 0⟩, ⟨0, 0, 0⟩, ⟨0, 0, 0⟩], rfl⟩ := by
    refine ⟨⟨(len_mbrDevice _ _ _).ge.trans' (by decide), by decide +kernel⟩, ?_⟩
    rintro (_ | _ | _ | _ | i) e he
    iterate 4
      · cases he
        exact ⟨by decide +kernel, by decide +kernel, by decide +kernel⟩
    · exact absurd he (by rintro ⟨⟩)
  have hlinux : linuxGpt.parts =
      [⟨2, 17408, 1031168, ascii "0fc63daf-8483-4772-8e79-3d69d8477de4"⟩] := by decide +kernel
  constructor
  · rw [(anyfsProbePtBuf_exact linuxDevice 1).1 linuxGpt hgpt (by rw [hlinux]; decide), hlinux]
  · exact (anyfsProbePtBuf_exact _ 1).2.1 _ hmbr (by decide +kernel) (by decide +kernel)

end Anyfs
