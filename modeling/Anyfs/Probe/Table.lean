import Anyfs.Lib.Fields

/-!
# Reading partition tables

`anyfs_probe_pt_buf` looks for a GPT and then for an MBR in the start of a block device, and lists
the partitions of the first table that has any. The offset of an entry and the check that it lies
inside the buffer are computed modulo `2 ^ 64`.
-/

namespace Anyfs

open List CString Option LittleEndian

/-- The bytes that were read of a device. -/
structure Snapshot where
  bytes : Bytes
  /-- No object has more than `PTRDIFF_MAX` bytes. -/
  length_lt : bytes.length < 2 ^ 63

/-- `AnyfsInnerPart`. -/
structure AnyfsInnerPart where
  index : ℕ
  startBytes : ℕ
  sizeBytes : ℕ
  ptype : Bytes
  deriving DecidableEq

namespace Snapshot

variable (buf : Snapshot)

def len : ℕ := buf.bytes.length

theorem len_lt : buf.len < 2 ^ 63 := buf.length_lt

def slice (off n : ℕ) : Bytes := (buf.bytes.drop off).take n

def num (off n : ℕ) : ℕ := value (buf.slice off n)

def read (off n : ℕ) : Option Bytes :=
  if off + n ≤ buf.len then some (buf.slice off n) else none

def le32 (p : ℕ) : Option ℕ := (buf.read p 4).map value

def le64 (p : ℕ) : Option ℕ := do
  let lo ← buf.le32 p
  let hi ← buf.le32 (p + 4)
  return lo + hi * 2 ^ 32

def isEmpty (buf : Snapshot) (e : ℕ) : List ℕ → Option Bool
  | [] => some true
  | j :: js => do
    let b ← buf.bytes[e + j]?
    if b ≠ 0 then some false else buf.isEmpty e js

end Snapshot

/-! ### The loop over a table -/

/-- What a slot of a table is for the loop: the end of the table, nothing, or a partition. -/
inductive Slot where
  | stop
  | skip
  | part (p : AnyfsInnerPart)
  deriving DecidableEq

def Slot.ofPart : Option AnyfsInnerPart → Slot
  | none => .skip
  | some p => .part p

/-- The loop of `parse_mbr` and `parse_gpt` from slot `i` on, with `todo` slots to look at. -/
def scanSlots (slot : ℕ → Option Slot) (i room : ℕ) : ℕ → Option (List AnyfsInnerPart)
  | 0 => some []
  | todo + 1 =>
    if room = 0 then some []
    else
      match slot i with
      | none => none
      | some .stop => some []
      | some .skip => scanSlots slot (i + 1) room todo
      | some (.part p) => (scanSlots slot (i + 1) (room - 1) todo).map (p :: ·)

/-- The loop lists the slots that hold partitions, as far as there is room. A slot has entry `f i`,
or it ends the table and no later slot has one. -/
theorem scanSlots_eq {slot : ℕ → Option Slot} {f : ℕ → Option AnyfsInnerPart} (Inv : ℕ → Prop)
    (bound : ℕ)
    (hstep : ∀ i < bound, Inv i → slot i = some (.ofPart (f i)) ∧ Inv (i + 1) ∨
      slot i = some .stop ∧ ∀ j, i ≤ j → f j = none)
    {i todo : ℕ} (room : ℕ) (hinv : Inv i) (hbound : i + todo ≤ bound) :
    scanSlots slot i room todo = some (((range' i todo).filterMap f).take room) := by
  induction todo generalizing i room with
  | zero => simp [scanSlots]
  | succ todo ih =>
    rw [scanSlots]
    split_ifs with hroom
    · rw [hroom, take_zero]
    rcases hstep i (by omega) hinv with ⟨hslot, hnext⟩ | ⟨hslot, hnone⟩
    · -- the slot is listed or passed over, and the loop goes on
      have hrest := fun room => ih (i := i + 1) room hnext (by omega)
      rw [hslot, range'_succ]
      cases hf : f i with
      | none =>
        rw [filterMap_cons_none hf]
        exact hrest room
      | some p =>
        obtain ⟨room, rfl⟩ := Nat.exists_eq_succ_of_ne_zero hroom
        rw [filterMap_cons_some hf, take_succ_cons]
        dsimp only [Slot.ofPart]
        rw [hrest, Nat.succ_sub_one]
        rfl
    · -- the table ends here, and no later slot has an entry
      have hnil : (range' i (todo + 1)).filterMap f = [] := by
        refine filterMap_eq_nil_iff.mpr fun j hj => hnone j ?_
        obtain ⟨k, -, rfl⟩ := mem_range'.mp hj
        omega
      rw [hslot, hnil, take_nil]

/-! ### MBR -/

variable (buf : Snapshot)

/-- What `parse_mbr` requires. -/
def Snapshot.HasMbr : Prop := 512 ≤ buf.len ∧ buf.slice 510 2 = [0x55, 0xAA]

instance : Decidable buf.HasMbr := inferInstanceAs (Decidable (_ ∧ _))

/-- The types `parse_mbr` passes over: empty, protective and the two extended ones. -/
def mbrPassesOver (type : ℕ) : Prop := type = 0x00 ∨ type = 0xEE ∨ type = 0x05 ∨ type = 0x0F

instance : DecidablePred mbrPassesOver := fun _ => inferInstanceAs (Decidable (_ ∨ _))

def mbrPart (i type firstLba sectors : ℕ) : AnyfsInnerPart :=
  ⟨i + 1, firstLba * 512, sectors * 512, snprintf 40 (ascii "0x" ++ Hex.digits 2 type)⟩

/-- The body of the loop of `parse_mbr`. -/
def Snapshot.mbrSlot (i : ℕ) : Option Slot := do
  let e := 446 + i * 16
  let type ← buf.bytes[e + 4]?
  if mbrPassesOver type.toNat then some .skip
  else do
    let firstLba ← buf.le32 (e + 8)
    let sectors ← buf.le32 (e + 12)
    if firstLba = 0 ∨ sectors = 0 then some .skip
    else some (.part (mbrPart i type.toNat firstLba sectors))

def Snapshot.parseMbr (max : ℕ) : Option (List AnyfsInnerPart) :=
  if buf.len < 512 then some []
  else do
    let b510 ← buf.bytes[510]?
    let b511 ← buf.bytes[511]?
    if b510 ≠ 0x55 ∨ b511 ≠ 0xAA then some []
    else scanSlots buf.mbrSlot 0 max 4

/-! ### GPT -/

def guidText (guid : Bytes) : Bytes :=
  Hex.digits 8 (value (guid.take 4)) ++ ascii "-" ++
    Hex.digits 4 (value ((guid.drop 4).take 2)) ++ ascii "-" ++
    Hex.digits 4 (value ((guid.drop 6).take 2)) ++ ascii "-" ++
    ((guid.drop 8).take 2).flatMap (fun b => Hex.digits 2 b.toNat) ++ ascii "-" ++
    (guid.drop 10).flatMap fun b => Hex.digits 2 b.toNat

/-- The partition that a GPT entry describes; offset and size are `uint64_t`. -/
def gptPart (i : ℕ) (guid : Bytes) (firstLba lastLba : ℕ) : AnyfsInnerPart :=
  ⟨i + 1, firstLba * 512 % 2 ^ 64, (lastLba - firstLba + 1) * 512 % 2 ^ 64,
    snprintf 40 (guidText guid)⟩

/-- The body of the loop of `parse_gpt`. The offset of the entry and its end are `uint64_t`. -/
def Snapshot.gptSlot (arrOff entSize i : ℕ) : Option Slot :=
  let eoff := (arrOff + i * entSize) % 2 ^ 64
  if buf.len < (eoff + entSize) % 2 ^ 64 then some .stop
  else do
    let empty ← buf.isEmpty eoff (range 16)
    if empty then some .skip
    else do
      let firstLba ← buf.le64 (eoff + 32)
      let lastLba ← buf.le64 (eoff + 40)
      if lastLba < firstLba then some .skip
      else do
        let guid ← buf.read eoff 16
        return .part (gptPart i guid firstLba lastLba)

/-- The number of entries `parse_gpt` looks at for the one in the header. -/
def gptCount (nEntries : ℕ) : ℕ := if nEntries = 0 ∨ 256 < nEntries then 128 else nEntries

/-- `parse_gpt`. The header is in the second sector. -/
def Snapshot.parseGpt (max : ℕ) : Option (List AnyfsInnerPart) :=
  if buf.len < 16 * 1024 then some []
  else do
    let signature ← buf.read 512 8
    if signature ≠ ascii "EFI PART" then some []
    else do
      let nEntries ← buf.le32 (512 + 80)
      let entSize ← buf.le32 (512 + 84)
      let entLba ← buf.le64 (512 + 72)
      if entSize < 128 then some []
      else scanSlots (buf.gptSlot (entLba * 512 % 2 ^ 64) entSize) 0 max (gptCount nEntries)

/-- `anyfs_probe_pt_buf`, for a buffer and an output array that are not null. -/
def anyfsProbePtBuf (max : ℤ) : Option (List AnyfsInnerPart) :=
  if max ≤ 0 then some []
  else
    match buf.parseGpt max.toNat with
    | none => none
    | some [] => buf.parseMbr max.toNat
    | some parts => some parts

namespace Snapshot

variable {buf : Snapshot} {off n p e i max : ℕ}

/-! ### Reads inside the buffer -/

theorem length_slice (h : off + n ≤ buf.len) : (buf.slice off n).length = n := by
  rw [slice, length_take, length_drop]
  exact Nat.min_eq_left (Nat.le_sub_of_add_le' h)

theorem num_lt (h : off + n ≤ buf.len) : buf.num off n < 256 ^ n := by
  have hlt := value_lt (buf.slice off n)
  rwa [length_slice h] at hlt

theorem read_eq (h : off + n ≤ buf.len) : buf.read off n = some (buf.slice off n) := if_pos h

theorem slice_add (buf : Snapshot) (off m n : ℕ) :
    buf.slice off (m + n) = buf.slice off m ++ buf.slice (off + m) n := by
  rw [slice, slice, slice, take_add, drop_drop]

theorem getElem?_eq (h : off < buf.len) :
    ∃ b, buf.bytes[off]? = some b ∧ buf.slice off 1 = [b] := by
  refine ⟨buf.bytes[off], List.getElem?_eq_getElem h, ?_⟩
  rw [slice, drop_eq_getElem_cons h, take_succ_cons, take_zero]

theorem getElem?_num (h : off < buf.len) :
    ∃ b, buf.bytes[off]? = some b ∧ b.toNat = buf.num off 1 := by
  obtain ⟨b, hb, hslice⟩ := getElem?_eq h
  refine ⟨b, hb, ?_⟩
  rw [num, hslice]
  rfl

theorem le32_eq (h : p + 4 ≤ buf.len) : buf.le32 p = some (buf.num p 4) := by
  rw [le32, read_eq h]
  rfl

theorem le64_eq (h : p + 8 ≤ buf.len) : buf.le64 p = some (buf.num p 8) := by
  have hvalue : ∀ xs ys : Bytes, value (xs ++ ys) = value xs + value ys * 256 ^ xs.length := by
    intro xs ys
    induction xs with
    | nil => simp [value]
    | cons x xs ih =>
      rw [cons_append, value, ih, value, length_cons, pow_succ]
      ring
  rw [le64, le32_eq (by omega), le32_eq (by omega), num, num, num,
    show (8 : ℕ) = 4 + 4 from rfl, slice_add, hvalue, length_slice (by omega)]
  rfl

theorem isEmpty_eq (js : List ℕ) (h : ∀ j ∈ js, e + j < buf.len) :
    buf.isEmpty e js = some (js.all fun j => buf.num (e + j) 1 = 0) := by
  induction js with
  | nil => rfl
  | cons j js ih =>
    obtain ⟨hj, hjs⟩ := forall_mem_cons.mp h
    obtain ⟨b, hb, hnum⟩ := getElem?_num hj
    rw [isEmpty, hb, bind_eq_bind, bind_some, ih hjs, all_cons, ← hnum]
    by_cases hzero : b = 0
    · simp [hzero]
    · have hne : b.toNat ≠ 0 := fun h0 => hzero (UInt8.toNat.inj h0)
      simp [hzero, hne]

/-! ### The MBR in closed form -/

def mbrEntry (buf : Snapshot) (i : ℕ) : Option AnyfsInnerPart :=
  let e := 446 + i * 16
  if mbrPassesOver (buf.num (e + 4) 1) ∨ buf.num (e + 8) 4 = 0 ∨ buf.num (e + 12) 4 = 0 then none
  else some (mbrPart i (buf.num (e + 4) 1) (buf.num (e + 8) 4) (buf.num (e + 12) 4))

def mbrParts (buf : Snapshot) : List AnyfsInnerPart :=
  if buf.HasMbr then (range 4).filterMap buf.mbrEntry else []

theorem mbrSlot_eq (hlen : 512 ≤ buf.len) (hi : i < 4) :
    buf.mbrSlot i = some (.ofPart (buf.mbrEntry i)) := by
  obtain ⟨type, htype, hnum⟩ := getElem?_num (show 446 + i * 16 + 4 < buf.len by omega)
  rw [mbrSlot, htype, bind_eq_bind, bind_some, mbrEntry, hnum, le32_eq (by omega),
    le32_eq (by omega)]
  by_cases hpass : mbrPassesOver (buf.num (446 + i * 16 + 4) 1)
  · rw [if_pos hpass, if_pos (Or.inl hpass)]
    rfl
  · rw [if_neg hpass]
    dsimp only [bind_eq_bind, bind_some]
    simp only [hpass, false_or]
    split_ifs <;> rfl

theorem hasMbr_iff (hlen : 512 ≤ buf.len) :
    ∃ b510 b511, buf.bytes[510]? = some b510 ∧ buf.bytes[511]? = some b511 ∧
      (buf.HasMbr ↔ b510 = 0x55 ∧ b511 = 0xAA) := by
  obtain ⟨b510, h510, hs510⟩ := getElem?_eq (show 510 < buf.len by omega)
  obtain ⟨b511, h511, hs511⟩ := getElem?_eq (show 510 + 1 < buf.len by omega)
  refine ⟨b510, b511, h510, h511, ?_⟩
  rw [HasMbr, slice_add buf 510 1 1, hs510, hs511]
  simp [hlen]

variable (buf)

theorem parseMbr_eq (max : ℕ) : buf.parseMbr max = some (buf.mbrParts.take max) := by
  rw [parseMbr, mbrParts]
  by_cases hlen : buf.len < 512
  · rw [if_pos hlen, if_neg fun h => absurd h.1 (by omega), take_nil]
  rw [if_neg hlen]
  obtain ⟨b510, b511, h510, h511, hmbr⟩ := hasMbr_iff (Nat.le_of_not_lt hlen)
  rw [h510, h511]
  dsimp only [bind_eq_bind, bind_some]
  by_cases hsig : buf.HasMbr
  · obtain ⟨rfl, rfl⟩ := hmbr.mp hsig
    rw [if_pos hsig, if_neg (by decide), range_eq_range']
    exact scanSlots_eq (fun _ => True) 4
      (fun i hi _ => .inl ⟨mbrSlot_eq (Nat.le_of_not_lt hlen) hi, trivial⟩) max trivial le_rfl
  · rw [if_neg hsig, if_pos (not_and_or.mp (mt hmbr.mpr hsig)), take_nil]

/-! ### The GPT in closed form -/

def entLba : ℕ := buf.num (512 + 72) 8

def entCount : ℕ := gptCount (buf.num (512 + 80) 4)

def entSize : ℕ := buf.num (512 + 84) 4

/-- The offset of the entry array, a `uint64_t`. -/
def arrOff : ℕ := buf.entLba * 512 % 2 ^ 64

/-- What `parse_gpt` requires. -/
def HasGpt : Prop :=
  16 * 1024 ≤ buf.len ∧ buf.slice 512 8 = ascii "EFI PART" ∧ 128 ≤ buf.entSize

instance : Decidable buf.HasGpt := inferInstanceAs (Decidable (_ ∧ _ ∧ _))

/-- The end of the first entry is past `2 ^ 64`, and what is left of it is inside the buffer. -/
def GptWraps : Prop :=
  buf.HasGpt ∧ 2 ^ 64 ≤ buf.arrOff + buf.entSize ∧ buf.arrOff + buf.entSize ≤ 2 ^ 64 + buf.len

/-- The partition in entry `i` of the GPT, if all of the entry is inside the buffer. -/
def gptEntry (i : ℕ) : Option AnyfsInnerPart :=
  let e := buf.arrOff + i * buf.entSize
  if buf.len < e + buf.entSize ∨ buf.slice e 16 = replicate 16 0 ∨
    buf.num (e + 40) 8 < buf.num (e + 32) 8 then none
  else some (gptPart i (buf.slice e 16) (buf.num (e + 32) 8) (buf.num (e + 40) 8))

def gptParts : List AnyfsInnerPart :=
  if buf.HasGpt then (range buf.entCount).filterMap buf.gptEntry else []

theorem arrOff_lt : buf.arrOff < 2 ^ 64 := Nat.mod_lt _ (by decide)

variable {buf}

theorem HasGpt.entSize_lt (h : buf.HasGpt) : buf.entSize < 2 ^ 32 := by
  have hlen := h.1
  exact num_lt (n := 4) (by omega)

theorem isEmpty_range (h : e + 16 ≤ buf.len) :
    buf.isEmpty e (List.range 16) = some (decide (buf.slice e 16 = List.replicate 16 0)) := by
  have hzero : ∀ n, e + n ≤ buf.len →
      (buf.slice e n = List.replicate n 0 ↔ ∀ j < n, buf.num (e + j) 1 = 0) := by
    intro n
    induction n with
    | zero => simp [slice]
    | succ n ih =>
      intro hn
      obtain ⟨b, -, hslice⟩ := getElem?_eq (show e + n < buf.len by omega)
      have hnum : buf.num (e + n) 1 = 0 ↔ b = 0 := by
        rw [num, hslice]
        exact UInt8.toNat_inj (b := 0)
      have happend : buf.slice e n ++ [b] = List.replicate n 0 ++ [0] ↔
          buf.slice e n = List.replicate n 0 ∧ b = 0 := by
        refine ⟨fun h => ?_, fun h => by rw [h.1, h.2]⟩
        obtain ⟨hinit, hlast⟩ := append_inj' h rfl
        exact ⟨hinit, singleton_inj.mp hlast⟩
      rw [slice_add, hslice, replicate_succ', happend, ih (by omega),
        Nat.forall_lt_succ_right, hnum]
  have hin : ∀ j ∈ List.range 16, e + j < buf.len := by
    intro j hj
    have := mem_range.mp hj
    omega
  rw [isEmpty_eq _ hin]
  congr 1
  rw [Bool.eq_iff_iff, decide_eq_true_eq, hzero 16 h, List.all_eq_true]
  simp

theorem gptSlot_of_lt (hsize : 128 ≤ buf.entSize)
    (hlt : buf.arrOff + i * buf.entSize + buf.entSize < 2 ^ 64) :
    buf.gptSlot buf.arrOff buf.entSize i =
      if buf.len < buf.arrOff + i * buf.entSize + buf.entSize then some .stop
      else some (.ofPart (buf.gptEntry i)) := by
  rw [gptSlot, gptEntry]
  generalize hoff : buf.arrOff + i * buf.entSize = off at hlt
  rw [Nat.mod_eq_of_lt (show off < 2 ^ 64 by omega), Nat.mod_eq_of_lt hlt]
  by_cases hin : buf.len < off + buf.entSize
  · rw [if_pos hin, if_pos hin]
  rw [if_neg hin, if_neg hin, isEmpty_range (by omega), le64_eq (by omega), le64_eq (by omega),
    read_eq (by omega)]
  dsimp only [bind_eq_bind, bind_some]
  simp only [hin, false_or, decide_eq_true_eq]
  by_cases hempty : buf.slice off 16 = replicate 16 0
  · rw [if_pos hempty, if_pos (Or.inl hempty)]
    rfl
  · rw [if_neg hempty]
    simp only [hempty, false_or]
    split_ifs <;> rfl

theorem gptEntry_eq_none {j : ℕ} (hout : buf.len < buf.arrOff + i * buf.entSize + buf.entSize)
    (hij : i ≤ j) : buf.gptEntry j = none := by
  have hmul : i * buf.entSize ≤ j * buf.entSize := Nat.mul_le_mul_right _ hij
  exact if_pos (Or.inl (by omega))

theorem scanSlots_gptSlot (hgpt : buf.HasGpt) (hwraps : ¬ buf.GptWraps) (max : ℕ) :
    scanSlots (buf.gptSlot buf.arrOff buf.entSize) 0 max buf.entCount =
      some (((range buf.entCount).filterMap buf.gptEntry).take max) := by
  have hlen := buf.len_lt
  have hsize := hgpt.entSize_lt
  have hoff := buf.arrOff_lt
  -- past the first slot the previous entry was inside the buffer, so nothing wraps any more
  rw [range_eq_range']
  refine scanSlots_eq (fun i => i = 0 ∨ buf.arrOff + i * buf.entSize ≤ buf.len)
    buf.entCount (fun i _ hinv => ?_) max (.inl rfl) (by omega)
  have hmul : (i + 1) * buf.entSize = i * buf.entSize + buf.entSize := Nat.succ_mul _ _
  by_cases hlt : buf.arrOff + i * buf.entSize + buf.entSize < 2 ^ 64
  · rw [gptSlot_of_lt hgpt.2.2 hlt]
    by_cases hout : buf.len < buf.arrOff + i * buf.entSize + buf.entSize
    · exact .inr ⟨if_pos hout, fun j hij => gptEntry_eq_none hout hij⟩
    · exact .inl ⟨if_neg hout, .inr (by omega)⟩
  · -- only the first entry can end past `2 ^ 64`, and then it is past the buffer, too
    obtain rfl : i = 0 := hinv.resolve_right (by omega)
    have hout : buf.len < (buf.arrOff + buf.entSize) % 2 ^ 64 := by
      by_contra hin
      exact hwraps ⟨hgpt, by omega, by omega⟩
    refine .inr ⟨?_, fun j hij => gptEntry_eq_none (by omega) hij⟩
    rw [gptSlot, Nat.zero_mul, Nat.add_zero, Nat.mod_eq_of_lt hoff]
    exact if_pos hout

theorem parseGpt_of_hasGpt (hgpt : buf.HasGpt) (max : ℕ) :
    buf.parseGpt max = scanSlots (buf.gptSlot buf.arrOff buf.entSize) 0 max buf.entCount := by
  obtain ⟨hlen, hsig, hsize⟩ := hgpt
  rw [parseGpt, if_neg (by omega), read_eq (by omega), le32_eq (by omega), le32_eq (by omega),
    le64_eq (by omega)]
  dsimp only [bind_eq_bind, bind_some]
  rw [if_neg (not_not.mpr hsig)]
  exact if_neg (Nat.not_lt.mpr hsize)

theorem parseGpt_of_not_hasGpt (hgpt : ¬ buf.HasGpt) (max : ℕ) : buf.parseGpt max = some [] := by
  rw [parseGpt]
  split_ifs with hlen
  · rfl
  rw [read_eq (by omega), le32_eq (by omega), le32_eq (by omega), le64_eq (by omega)]
  dsimp only [bind_eq_bind, bind_some]
  split_ifs with hsig hsize
  · rfl
  · rfl
  · exact absurd ⟨by omega, not_not.mp hsig, Nat.not_lt.mp hsize⟩ hgpt

theorem parseGpt_eq (hwraps : ¬ buf.GptWraps) (max : ℕ) :
    buf.parseGpt max = some (buf.gptParts.take max) := by
  rw [gptParts]
  split_ifs with hgpt
  · rw [parseGpt_of_hasGpt hgpt, scanSlots_gptSlot hgpt hwraps]
  · rw [parseGpt_of_not_hasGpt hgpt, take_nil]

theorem parseGpt_of_wraps (h : buf.GptWraps) (hmax : max ≠ 0) : buf.parseGpt max = none := by
  obtain ⟨hgpt, hlo, hhi⟩ := h
  have hlen := buf.len_lt
  have hsize := hgpt.entSize_lt
  have hoff := buf.arrOff_lt
  have hcount : buf.entCount ≠ 0 := by
    rw [entCount, gptCount]
    split_ifs with hbad
    · decide
    · exact fun h0 => hbad (.inl h0)
  obtain ⟨count, hcount⟩ := Nat.exists_eq_succ_of_ne_zero hcount
  have hread : buf.bytes[buf.arrOff + 0]? = none := by
    rw [List.getElem?_eq_none_iff]
    change buf.len ≤ _
    omega
  have hslot : buf.gptSlot buf.arrOff buf.entSize 0 = none := by
    rw [gptSlot, Nat.zero_mul, Nat.add_zero, Nat.mod_eq_of_lt hoff]
    rw [if_neg (by omega), range_succ_eq_map, Snapshot.isEmpty, hread]
    rfl
  rw [parseGpt_of_hasGpt hgpt, hcount, scanSlots, if_neg hmax, hslot]

end Snapshot

theorem anyfsProbePtBuf_eq {buf : Snapshot} {max : ℤ} (hmax : 0 < max) (hwraps : ¬ buf.GptWraps) :
    anyfsProbePtBuf buf max =
      some ((if buf.gptParts = [] then buf.mbrParts else buf.gptParts).take max.toNat) := by
  obtain ⟨n, hn⟩ : ∃ n, max.toNat = n + 1 := Nat.exists_eq_succ_of_ne_zero (by omega)
  rw [anyfsProbePtBuf, if_neg (by omega), Snapshot.parseGpt_eq hwraps, hn]
  cases hparts : buf.gptParts with
  | nil => exact Snapshot.parseMbr_eq buf _
  | cons p ps => rfl

theorem anyfsProbePtBuf_of_wraps {buf : Snapshot} {max : ℤ} (hmax : 0 < max)
    (hwraps : buf.GptWraps) : anyfsProbePtBuf buf max = none := by
  rw [anyfsProbePtBuf, if_neg (by omega), Snapshot.parseGpt_of_wraps hwraps (by omega)]

/-! ### Reads stay inside the buffer -/

/-- No byte outside of the buffer is read, unless there is room for a partition and the end of the
first GPT entry wraps around into the buffer. -/
theorem anyfsProbePtBuf_isSome_iff (buf : Snapshot) (max : ℤ) :
    (anyfsProbePtBuf buf max).isSome ↔ ¬ (0 < max ∧ buf.GptWraps) := by
  by_cases hmax : 0 < max
  · by_cases hwraps : buf.GptWraps
    · simp [anyfsProbePtBuf_of_wraps hmax hwraps, hmax, hwraps]
    · simp [anyfsProbePtBuf_eq hmax hwraps, hwraps]
  · simp [anyfsProbePtBuf, hmax, Int.not_lt.mp hmax]

def gptHeader (entLba nEntries entSize : ℕ) : Bytes :=
  ascii "EFI PART" ++ (replicate 64 0 ++ (encode 8 entLba ++
    (encode 4 nEntries ++ encode 4 entSize)))

theorem length_gptHeader (entLba nEntries entSize : ℕ) :
    (gptHeader entLba nEntries entSize).length = 88 := by
  have hsig : (ascii "EFI PART").length = 8 := by decide
  simp only [gptHeader, length_append, length_replicate, length_encode, hsig]

/-- A device of 16 KiB whose entry array is in the block before `2 ^ 64`. -/
def wrappingDevice : Snapshot where
  bytes := replicate 512 0 ++ (gptHeader (2 ^ 55 - 1) 1 512 ++ replicate 15784 0)
  length_lt := by
    rw [length_append, length_append, length_gptHeader, length_replicate, length_replicate]
    decide

/-- The first entry of `wrappingDevice` is read 512 bytes before the buffer. -/
theorem anyfsProbePtBuf_reads_outside : anyfsProbePtBuf wrappingDevice 1 = none := by
  have hlen : wrappingDevice.len = 16384 := by
    rw [Snapshot.len, wrappingDevice, length_append, length_append, length_gptHeader,
      length_replicate, length_replicate]
  have hsig : wrappingDevice.slice 512 8 = ascii "EFI PART" := by decide +kernel
  have hsize : wrappingDevice.entSize = 512 := by decide +kernel
  have hoff : wrappingDevice.arrOff = 2 ^ 64 - 512 := by decide +kernel
  refine anyfsProbePtBuf_of_wraps (by decide) ⟨⟨by omega, hsig, by omega⟩, ?_, ?_⟩
  · rw [hoff, hsize]
    decide
  · rw [hoff, hsize]
    omega

end Anyfs
