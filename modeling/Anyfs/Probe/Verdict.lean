import Anyfs.Probe.Table

/-!
# The flavour of a partition table

`anyfs_probe_pttype_buf` names the table of a device by tests of its own. `anyfs_probe_pt_buf` does
not look at the boot flag, and it falls back to the MBR when the GPT has no partition.
-/

namespace Anyfs

open List Option CString

/-- What `anyfs_probe_pttype_buf` returns. -/
inductive PtType where
  | empty
  | gpt
  | dos
  deriving DecidableEq

/-- The loop over the MBR entries. -/
def Snapshot.dosLoop (buf : Snapshot) : List ℕ → Option PtType
  | [] => some .empty
  | i :: is => do
    let e := 446 + i * 16
    let boot ← buf.bytes[e]?
    let type ← buf.bytes[e + 4]?
    if (boot = 0x00 ∨ boot = 0x80) ∧ type ≠ 0x00 ∧ type ≠ 0xEE then some .dos
    else buf.dosLoop is

open Snapshot

def anyfsProbePttypeBuf (buf : Snapshot) : Option PtType :=
  if buf.len < 512 then some .empty
  else do
    let signature ← if 520 ≤ buf.len then buf.read 512 8 else some []
    if signature = ascii "EFI PART" then some .gpt
    else do
      let b510 ← buf.bytes[510]?
      let b511 ← buf.bytes[511]?
      if b510 = 0x55 ∧ b511 = 0xAA then buf.dosLoop (range 4) else some .empty

namespace Snapshot

variable {buf : Snapshot}

/-! ### What the two look for -/

variable (buf)

def HasEfi : Prop := buf.slice 512 8 = ascii "EFI PART"

instance : Decidable buf.HasEfi := inferInstanceAs (Decidable (_ = _))

def PlainEntry (i : ℕ) : Prop :=
  (buf.num (446 + i * 16) 1 = 0x00 ∨ buf.num (446 + i * 16) 1 = 0x80) ∧
    buf.num (446 + i * 16 + 4) 1 ≠ 0x00 ∧ buf.num (446 + i * 16 + 4) 1 ≠ 0xEE

instance : DecidablePred buf.PlainEntry := fun _ =>
  inferInstanceAs (Decidable (_ ∧ _ ∧ _))

def MbrUsable (i : ℕ) : Prop :=
  buf.HasMbr ∧ i < 4 ∧ ¬ mbrPassesOver (buf.num (446 + i * 16 + 4) 1) ∧
    buf.num (446 + i * 16 + 8) 4 ≠ 0 ∧ buf.num (446 + i * 16 + 12) 4 ≠ 0

/-- A GPT entry that is listed: inside the buffer, with a type, and not ending before it starts. -/
def GptUsable (i : ℕ) : Prop :=
  let e := buf.arrOff + i * buf.entSize
  buf.HasGpt ∧ i < buf.entCount ∧ e + buf.entSize ≤ buf.len ∧
    buf.slice e 16 ≠ replicate 16 0 ∧ buf.num (e + 32) 8 ≤ buf.num (e + 40) 8

variable {buf}

theorem mbrEntry_isSome_iff {i : ℕ} :
    (buf.mbrEntry i).isSome ↔ ¬ mbrPassesOver (buf.num (446 + i * 16 + 4) 1) ∧
      buf.num (446 + i * 16 + 8) 4 ≠ 0 ∧ buf.num (446 + i * 16 + 12) 4 ≠ 0 := by
  rw [mbrEntry]
  split_ifs with h
  · simp only [isSome_none, Bool.false_eq_true, false_iff]
    tauto
  · simp only [isSome_some, true_iff]
    tauto

theorem mbrParts_ne_nil_iff : buf.mbrParts ≠ [] ↔ ∃ i, buf.MbrUsable i := by
  rw [mbrParts]
  split_ifs with hmbr
  · simp only [ne_eq, filterMap_eq_nil_iff, mem_range, not_forall, MbrUsable,
      ← mbrEntry_isSome_iff, hmbr, true_and, exists_prop, isSome_iff_ne_none]
  · simp only [ne_eq, not_true_eq_false, MbrUsable, hmbr, false_and, exists_const]

theorem gptParts_ne_nil_iff : buf.gptParts ≠ [] ↔ ∃ i, buf.GptUsable i := by
  rw [gptParts]
  split_ifs with hgpt
  · simp only [ne_eq, filterMap_eq_nil_iff, mem_range, not_forall, GptUsable, hgpt,
      true_and, exists_prop, gptEntry, ite_eq_left_iff, reduceCtorEq, imp_false, not_not, not_or,
      Nat.not_lt]
  · simp only [ne_eq, not_true_eq_false, GptUsable, hgpt, false_and, exists_const]

/-! ### The flavour in closed form -/

theorem dosLoop_eq (hlen : 512 ≤ buf.len) (is : List ℕ) (his : ∀ i ∈ is, i < 4) :
    buf.dosLoop is = some (if ∃ i ∈ is, buf.PlainEntry i then .dos else .empty) := by
  induction is with
  | nil => simp [dosLoop]
  | cons i is ih =>
    obtain ⟨hi, his⟩ := forall_mem_cons.mp his
    obtain ⟨boot, hboot, hbnum⟩ := getElem?_num (show 446 + i * 16 < buf.len by omega)
    obtain ⟨type, htype, htnum⟩ := getElem?_num (show 446 + i * 16 + 4 < buf.len by omega)
    have hplain : buf.PlainEntry i ↔ (boot = 0x00 ∨ boot = 0x80) ∧ type ≠ 0x00 ∧ type ≠ 0xEE := by
      simp [PlainEntry, ← hbnum, ← htnum, ← UInt8.toNat_inj]
    rw [dosLoop, hboot, htype]
    dsimp only [bind_eq_bind, bind_some]
    by_cases h : buf.PlainEntry i
    · rw [if_pos (hplain.mp h), if_pos ⟨i, mem_cons_self, h⟩]
    · rw [if_neg (mt hplain.mpr h), ih his]
      simp only [mem_cons, exists_eq_or_imp, h, false_or]

end Snapshot

theorem anyfsProbePttypeBuf_eq {buf : Snapshot} (hlen : 520 ≤ buf.len) :
    anyfsProbePttypeBuf buf = some (if buf.HasEfi then .gpt
      else if buf.HasMbr ∧ ∃ i ∈ range 4, buf.PlainEntry i then .dos else .empty) := by
  obtain ⟨b510, b511, h510, h511, hmbr⟩ := hasMbr_iff (show 512 ≤ buf.len by omega)
  rw [anyfsProbePttypeBuf, if_neg (by omega), if_pos hlen, read_eq (by omega), h510, h511]
  dsimp only [bind_eq_bind, bind_some]
  by_cases hefi : buf.HasEfi
  · rw [if_pos hefi]
    exact if_pos hefi
  have hsignature : ¬ buf.slice 512 8 = ascii "EFI PART" := hefi
  rw [if_neg hefi, if_neg hsignature, dosLoop_eq (by omega) _ fun i => mem_range.mp]
  by_cases hsig : buf.HasMbr
  · rw [if_pos (hmbr.mp hsig)]
    simp only [hsig, true_and]
  · rw [if_neg (mt hmbr.mpr hsig)]
    simp only [hsig, false_and, if_false]

/-! ### Agreement -/

def IsGuid (t : Bytes) : Prop := ∃ guid : Bytes, guid.length = 16 ∧ t = guidText guid

def Snapshot.FromGpt (buf : Snapshot) (p : AnyfsInnerPart) : Prop :=
  (∃ i < buf.entCount, buf.gptEntry i = some p) ∧ IsGuid p.ptype

def Snapshot.FromMbr (buf : Snapshot) (p : AnyfsInnerPart) : Prop :=
  ∃ i < 4, buf.mbrEntry i = some p

/-- The type and the list agree. -/
def ProbeAgrees (buf : Snapshot) (max : ℤ) : Prop :=
  ∃ pt parts, anyfsProbePttypeBuf buf = some pt ∧ anyfsProbePtBuf buf max = some parts ∧
    match pt with
    | .empty => parts = []
    | .gpt => ∀ p ∈ parts, buf.FromGpt p
    | .dos => ∀ p ∈ parts, buf.FromMbr p

namespace Snapshot

variable {buf : Snapshot} {p : AnyfsInnerPart}

theorem length_guidText {guid : Bytes} (h : guid.length = 16) : (guidText guid).length = 36 := by
  have hdash : (ascii "-").length = 1 := by decide
  have hflat : ∀ bs : Bytes, (bs.flatMap fun b => Hex.digits 2 b.toNat).length = 2 * bs.length := by
    intro bs
    simp [length_flatMap, Nat.mul_comm]
  simp only [guidText, length_append, Hex.length_digits, hdash, hflat, length_take, length_drop, h]
  decide

theorem snprintf_guidText {guid : Bytes} (h : guid.length = 16) :
    snprintf 40 (guidText guid) = guidText guid :=
  (snprintf_eq_self_iff (.inl (by decide))).mpr (by rw [length_guidText h]; decide)

theorem fromGpt_of_mem (h : p ∈ buf.gptParts) : buf.FromGpt p := by
  rw [gptParts] at h
  split_ifs at h with hgpt
  · obtain ⟨i, hi, hp⟩ := mem_filterMap.mp h
    refine ⟨⟨i, mem_range.mp hi, hp⟩, ?_⟩
    rw [gptEntry] at hp
    split_ifs at hp with hout
    have hsize := hgpt.2.2
    have hguid : (buf.slice (buf.arrOff + i * buf.entSize) 16).length = 16 :=
      length_slice (by omega)
    cases hp
    refine ⟨_, hguid, ?_⟩
    rw [gptPart, snprintf_guidText hguid]
  · exact absurd h not_mem_nil

theorem fromMbr_of_mem (h : p ∈ buf.mbrParts) : buf.FromMbr p := by
  rw [mbrParts] at h
  split_ifs at h with hmbr
  · obtain ⟨i, hi, hp⟩ := mem_filterMap.mp h
    exact ⟨i, mem_range.mp hi, hp⟩
  · exact absurd h not_mem_nil

theorem not_fromGpt_of_fromMbr (h : buf.FromMbr p) : ¬ buf.FromGpt p := by
  rintro ⟨-, guid, hguid, htext⟩
  obtain ⟨i, -, hp⟩ := h
  rw [mbrEntry] at hp
  split_ifs at hp
  cases hp
  have hlength := congrArg length htext
  rw [length_guidText hguid, mbrPart, snprintf, length_take, length_append,
    Hex.length_digits] at hlength
  exact absurd hlength (by decide)

theorem gptParts_eq_nil_of_not_hasEfi (h : ¬ buf.HasEfi) : buf.gptParts = [] :=
  if_neg fun hgpt => h hgpt.2.1

end Snapshot

theorem probeAgrees_of_hasEfi {buf : Snapshot} {max : ℤ} (hlen : 520 ≤ buf.len) (hmax : 0 < max)
    (hwraps : ¬ buf.GptWraps) (hefi : buf.HasEfi) :
    ProbeAgrees buf max ↔ (buf.mbrParts ≠ [] → buf.gptParts ≠ []) := by
  rw [ProbeAgrees, anyfsProbePttypeBuf_eq hlen, if_pos hefi, anyfsProbePtBuf_eq hmax hwraps]
  simp only [some.injEq, exists_eq_left', exists_and_left]
  constructor
  · intro hall hmbr hgpt
    rw [if_pos hgpt] at hall
    obtain ⟨p, ps, hcons⟩ := exists_cons_of_ne_nil hmbr
    obtain ⟨n, hn⟩ : ∃ n, max.toNat = n + 1 := Nat.exists_eq_succ_of_ne_zero (by omega)
    have hmem : p ∈ buf.mbrParts := by rw [hcons]; exact mem_cons_self
    refine not_fromGpt_of_fromMbr (fromMbr_of_mem hmem) (hall p ?_)
    rw [hcons, hn, take_succ_cons]
    exact mem_cons_self
  · intro himp p hp
    by_cases hgpt : buf.gptParts = []
    · have hmbr : buf.mbrParts = [] := by_contra fun h => himp h hgpt
      rw [if_pos hgpt, hmbr, take_nil] at hp
      exact absurd hp not_mem_nil
    · rw [if_neg hgpt] at hp
      exact fromGpt_of_mem (mem_of_mem_take hp)

theorem probeAgrees_of_not_hasEfi {buf : Snapshot} {max : ℤ} (hlen : 520 ≤ buf.len) (hmax : 0 < max)
    (hwraps : ¬ buf.GptWraps) (hefi : ¬ buf.HasEfi) :
    ProbeAgrees buf max ↔ (buf.mbrParts ≠ [] → ∃ i < 4, buf.PlainEntry i) := by
  rw [ProbeAgrees, anyfsProbePttypeBuf_eq hlen, if_neg hefi, anyfsProbePtBuf_eq hmax hwraps,
    if_pos (gptParts_eq_nil_of_not_hasEfi hefi)]
  simp only [some.injEq, exists_eq_left', exists_and_left]
  split_ifs with hdos
  · obtain ⟨-, i, hi, hplain⟩ := hdos
    exact iff_of_true (fun p hp => fromMbr_of_mem (mem_of_mem_take hp))
      fun _ => ⟨i, mem_range.mp hi, hplain⟩
  · have hnil : buf.mbrParts.take max.toNat = [] ↔ buf.mbrParts = [] := by
      rw [take_eq_nil_iff]
      exact or_iff_right (by omega)
    rw [hnil]
    constructor
    · exact fun h hne => absurd h hne
    · intro himp
      by_contra hne
      obtain ⟨i, hmbr, -⟩ := mbrParts_ne_nil_iff.mp hne
      obtain ⟨j, hj, hplain⟩ := himp hne
      exact hdos ⟨hmbr, j, mem_range.mpr hj, hplain⟩

/-- The two functions agree on a device of at least 64 KiB, unless the end of the first GPT entry
wraps around, or there is a GPT without a usable entry beside an MBR with one, or all usable entries
of an MBR have a bad boot flag. -/
theorem probe_agrees_iff (buf : Snapshot) (max : ℤ) (hlen : 64 * 1024 ≤ buf.len) :
    ProbeAgrees buf max ↔ (0 < max → ¬ buf.GptWraps ∧
      (buf.HasEfi → (∃ i, buf.MbrUsable i) → ∃ i, buf.GptUsable i) ∧
      (¬ buf.HasEfi → (∃ i, buf.MbrUsable i) → ∃ i < 4, buf.PlainEntry i)) := by
  have hlen : 520 ≤ buf.len := by omega
  by_cases hmax : 0 < max
  · by_cases hwraps : buf.GptWraps
    · simp [ProbeAgrees, anyfsProbePtBuf_of_wraps hmax hwraps, hmax, hwraps]
    · rw [← mbrParts_ne_nil_iff, ← gptParts_ne_nil_iff]
      by_cases hefi : buf.HasEfi
      · simp [probeAgrees_of_hasEfi hlen hmax hwraps hefi, hmax, hwraps, hefi]
      · simp [probeAgrees_of_not_hasEfi hlen hmax hwraps hefi, hmax, hwraps, hefi]
  · have hnone : anyfsProbePtBuf buf max = some [] := if_pos (by omega)
    simp only [hmax, false_imp_iff, iff_true]
    refine ⟨_, _, anyfsProbePttypeBuf_eq hlen, hnone, ?_⟩
    split <;> simp

/-- A first sector with one entry of type `0x83`, which starts at block 1 and has one block. -/
def mbrSector (boot : UInt8) : Bytes :=
  replicate 446 0 ++ ([boot, 0, 0, 0, 0x83, 0, 0, 0] ++ (LittleEndian.encode 4 1 ++
    (LittleEndian.encode 4 1 ++ (replicate 48 0 ++ [0x55, 0xAA]))))

theorem length_mbrSector (boot : UInt8) : (mbrSector boot).length = 512 := by
  simp only [mbrSector, length_append, length_replicate, LittleEndian.length_encode,
    length_cons, length_nil]

def mbrDevice (boot : UInt8) (header : Bytes) (h : header.length = 88) : Snapshot where
  bytes := mbrSector boot ++ (header ++ replicate 64936 0)
  length_lt := by
    rw [length_append, length_append, length_mbrSector, h, length_replicate]
    decide

theorem len_mbrDevice (boot : UInt8) (header : Bytes) (h : header.length = 88) :
    (mbrDevice boot header h).len = 65536 := by
  rw [len, mbrDevice, length_append, length_append, length_mbrSector, h, length_replicate]

/-- The two agree on a device with one active partition. -/
theorem probe_agrees_mbrDevice : ProbeAgrees (mbrDevice 0x80 (replicate 88 0) (by decide)) 4 := by
  have hefi : ¬ (mbrDevice 0x80 (replicate 88 0) (by decide)).HasEfi := by decide +kernel
  have hplain : (mbrDevice 0x80 (replicate 88 0) (by decide)).PlainEntry 0 := by decide +kernel
  refine (probe_agrees_iff _ 4 (len_mbrDevice _ _ _).ge).mpr fun _ => ⟨?_, ?_, ?_⟩
  · exact fun h => hefi h.1.2.1
  · exact fun h => absurd h hefi
  · exact fun _ _ => ⟨0, by decide, hplain⟩

/-- With the boot flag 1 the flavour is empty, and beside a GPT without entries it is `gpt`; the
partition of the MBR is listed. -/
theorem probe_disagrees_mbrDevice :
    ¬ ProbeAgrees (mbrDevice 0x01 (replicate 88 0) (by decide)) 4 ∧
      ¬ ProbeAgrees (mbrDevice 0x80 (gptHeader 2 1 128) (length_gptHeader 2 1 128)) 4 := by
  constructor
  · generalize hdev : mbrDevice 0x01 (replicate 88 0) (by decide) = dev
    have hlen : dev.len = 65536 := hdev ▸ len_mbrDevice _ _ _
    have hefi : ¬ dev.HasEfi := by rw [← hdev]; decide +kernel
    have husable : dev.MbrUsable 0 := by
      refine ⟨⟨by omega, ?_⟩, by decide, ?_⟩ <;> rw [← hdev] <;> decide +kernel
    rw [probeAgrees_of_not_hasEfi (by omega) (by decide) (fun h => hefi h.1.2.1) hefi]
    intro himp
    refine absurd (himp (mbrParts_ne_nil_iff.mpr ⟨0, husable⟩)) ?_
    rw [← hdev]
    decide +kernel
  · generalize hdev : mbrDevice 0x80 (gptHeader 2 1 128) (length_gptHeader 2 1 128) = dev
    have hlen : dev.len = 65536 := hdev ▸ len_mbrDevice _ _ _
    have hefi : dev.HasEfi := by rw [← hdev]; decide +kernel
    have hwraps : ¬ 2 ^ 64 ≤ dev.arrOff + dev.entSize := by rw [← hdev]; decide +kernel
    have husable : dev.MbrUsable 0 := by
      refine ⟨⟨by omega, ?_⟩, by decide, ?_⟩ <;> rw [← hdev] <;> decide +kernel
    have hcount : dev.entCount = 1 := by rw [← hdev]; decide +kernel
    have hempty : dev.slice (dev.arrOff + 0 * dev.entSize) 16 = replicate 16 0 := by
      rw [← hdev]
      decide +kernel
    rw [probeAgrees_of_hasEfi (by omega) (by decide) (fun h => hwraps h.2.1) hefi]
    intro himp
    obtain ⟨i, -, hi, -, hne, -⟩ := gptParts_ne_nil_iff.mp
      (himp (mbrParts_ne_nil_iff.mpr ⟨0, husable⟩))
    obtain rfl : i = 0 := by omega
    exact hne hempty

end Anyfs
