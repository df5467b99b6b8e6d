import Anyfs.Probe.Table

/-!
# The geometry of listed partitions

A partition is listed with its offset and size in bytes. `parse_gpt` multiplies 64-bit block numbers
without looking at the result: an entry past the first 2⁵⁵ sectors is listed at an offset it does
not have, and one that covers all of them is listed with size zero (`FitsBytes`).
-/

namespace Anyfs

open List CString Snapshot

/-- A range of sectors whose offset, size and end fit 64 bits when they are counted in bytes. -/
structure FitsBytes (first sectors : ℕ) : Prop where
  end_le : (first + sectors) * 512 ≤ 2 ^ 64
  size_lt : sectors * 512 < 2 ^ 64

namespace Snapshot

variable {buf : Snapshot} {i k : ℕ} {p : AnyfsInnerPart}

variable (buf)

def gptFirst (i : ℕ) : ℕ := buf.num (buf.arrOff + i * buf.entSize + 32) 8

def gptSectors (i : ℕ) : ℕ :=
  buf.num (buf.arrOff + i * buf.entSize + 40) 8 - buf.gptFirst i + 1

def mbrFirst (i : ℕ) : ℕ := buf.num (446 + i * 16 + 8) 4

def mbrSectors (i : ℕ) : ℕ := buf.num (446 + i * 16 + 12) 4

def entryFirst (i : ℕ) : ℕ :=
  if buf.gptParts = [] then buf.mbrFirst i else buf.gptFirst i

def entrySectors (i : ℕ) : ℕ :=
  if buf.gptParts = [] then buf.mbrSectors i else buf.gptSectors i

variable {buf}

/-- A partition is listed where its entry says it is, it is not empty, and its range fits 64 bits.
-/
structure ExactPart (buf : Snapshot) (p : AnyfsInnerPart) : Prop where
  start : p.startBytes = buf.entryFirst (p.index - 1) * 512
  size : p.sizeBytes = buf.entrySectors (p.index - 1) * 512
  size_pos : 0 < p.sizeBytes
  fits : FitsBytes (buf.entryFirst (p.index - 1)) (buf.entrySectors (p.index - 1))

def gptUsed (buf : Snapshot) : List ℕ :=
  if buf.HasGpt then (range buf.entCount).filter fun i => (buf.gptEntry i).isSome else []

/-! ### Listed partitions and their entries -/

theorem mem_take_filterMap {α β : Type} {f : α → Option β} {l : List α} {k : ℕ} {b : β} :
    b ∈ (l.filterMap f).take k ↔ ∃ a ∈ (l.filter fun a => (f a).isSome).take k, f a = some b := by
  induction l generalizing k with
  | nil => simp
  | cons a l ih =>
    cases hf : f a with
    | none =>
      rw [filterMap_cons_none hf, filter_cons_of_neg (by simp [hf]), ih]
    | some c =>
      rw [filterMap_cons_some hf, filter_cons_of_pos (by simp [hf])]
      cases k with
      | zero => simp
      | succ k => simp [ih, hf, eq_comm]

theorem mem_take_gptParts :
    p ∈ buf.gptParts.take k ↔ ∃ i ∈ buf.gptUsed.take k, buf.gptEntry i = some p := by
  rw [gptParts, gptUsed]
  split_ifs
  · exact mem_take_filterMap
  · simp

theorem gptEntry_spec (h : buf.gptEntry i = some p) :
    p.index - 1 = i ∧ p.startBytes = buf.gptFirst i * 512 % 2 ^ 64 ∧
      p.sizeBytes = buf.gptSectors i * 512 % 2 ^ 64 := by
  rw [gptEntry] at h
  split_ifs at h
  cases h
  exact ⟨rfl, rfl, rfl⟩

theorem mbrEntry_spec (h : buf.mbrEntry i = some p) :
    p.index - 1 = i ∧ p.startBytes = buf.mbrFirst i * 512 ∧
      p.sizeBytes = buf.mbrSectors i * 512 ∧ buf.mbrSectors i ≠ 0 := by
  rw [mbrEntry] at h
  split_ifs at h with hskip
  cases h
  exact ⟨rfl, rfl, rfl, fun h0 => hskip (.inr (.inr h0))⟩

theorem gptUsed_eq_nil (h : buf.gptParts = []) : buf.gptUsed = [] := by
  rw [gptParts] at h
  rw [gptUsed]
  split_ifs at h ⊢
  · simpa [filterMap_eq_nil_iff] using h
  · rfl

theorem exactPart_of_mbr (hgpt : buf.gptParts = []) (hp : p ∈ buf.mbrParts) : buf.ExactPart p := by
  rw [mbrParts] at hp
  split_ifs at hp with hmbr
  · obtain ⟨i, hi, hentry⟩ := mem_filterMap.mp hp
    obtain ⟨hindex, hstart, hsize, hpos⟩ := mbrEntry_spec hentry
    have hin : i < 4 := mem_range.mp hi
    have hlen := hmbr.1
    have hfirst : buf.mbrFirst i < 256 ^ 4 := num_lt (by omega)
    have hsectors : buf.mbrSectors i < 256 ^ 4 := num_lt (by omega)
    have hf : buf.entryFirst (p.index - 1) = buf.mbrFirst i := by
      rw [hindex, entryFirst, if_pos hgpt]
    have hs : buf.entrySectors (p.index - 1) = buf.mbrSectors i := by
      rw [hindex, entrySectors, if_pos hgpt]
    refine ⟨by rw [hf, hstart], by rw [hs, hsize], by omega, ?_⟩
    rw [hf, hs]
    exact ⟨by omega, by omega⟩
  · exact absurd hp not_mem_nil

theorem exactPart_iff_of_gpt (hgpt : buf.gptParts ≠ []) (hentry : buf.gptEntry i = some p) :
    buf.ExactPart p ↔ FitsBytes (buf.gptFirst i) (buf.gptSectors i) := by
  obtain ⟨hindex, hstart, hsize⟩ := gptEntry_spec hentry
  have hf : buf.entryFirst (p.index - 1) = buf.gptFirst i := by
    rw [hindex, entryFirst, if_neg hgpt]
  have hs : buf.entrySectors (p.index - 1) = buf.gptSectors i := by
    rw [hindex, entrySectors, if_neg hgpt]
  constructor
  · intro h
    rw [← hf, ← hs]
    exact h.fits
  · intro h
    have hpos : 0 < buf.gptSectors i := Nat.succ_pos _
    have hend := h.end_le
    rw [Nat.mod_eq_of_lt (by omega)] at hstart
    rw [Nat.mod_eq_of_lt h.size_lt] at hsize
    refine ⟨by rw [hf, hstart], by rw [hs, hsize], by omega, ?_⟩
    rw [hf, hs]
    exact h

end Snapshot

/-! ### Exact geometry -/

/-- `anyfs_probe_pt_buf` lists every partition where it is exactly when no read wraps around and
every GPT entry that is listed has a range that fits 64 bits. -/
theorem anyfsProbePtBuf_geometry (buf : Snapshot) (max : ℤ) :
    (∃ parts, anyfsProbePtBuf buf max = some parts ∧ ∀ p ∈ parts, buf.ExactPart p) ↔
      ¬ (0 < max ∧ buf.GptWraps) ∧
        ∀ i ∈ buf.gptUsed.take max.toNat, FitsBytes (buf.gptFirst i) (buf.gptSectors i) := by
  rcases le_or_gt max 0 with hmax | hmax
  · -- without room nothing is listed
    have hzero : max.toNat = 0 := by omega
    refine iff_of_true ⟨[], if_pos hmax, fun _ h => absurd h not_mem_nil⟩ ⟨fun h => by omega, ?_⟩
    rw [hzero, take_zero]
    exact fun _ h => absurd h not_mem_nil
  by_cases hwraps : buf.GptWraps
  · refine iff_of_false ?_ fun h => h.1 ⟨hmax, hwraps⟩
    rw [anyfsProbePtBuf_of_wraps hmax hwraps]
    rintro ⟨_, h, -⟩
    cases h
  rw [anyfsProbePtBuf_eq hmax hwraps]
  simp only [Option.some.injEq, exists_eq_left', hwraps, and_false, not_false_eq_true, true_and]
  by_cases hgpt : buf.gptParts = []
  · rw [if_pos hgpt, gptUsed_eq_nil hgpt, take_nil]
    refine iff_of_true (fun p hp => ?_) fun _ h => absurd h not_mem_nil
    exact exactPart_of_mbr hgpt (mem_of_mem_take hp)
  · rw [if_neg hgpt]
    constructor
    · intro h i hi
      have hsome : (buf.gptEntry i).isSome = true := by
        have hused := mem_of_mem_take hi
        rw [gptUsed] at hused
        split_ifs at hused
        · exact (mem_filter.mp hused).2
        · exact absurd hused not_mem_nil
      obtain ⟨p, hp⟩ := Option.isSome_iff_exists.mp hsome
      exact (exactPart_iff_of_gpt hgpt hp).mp (h p (mem_take_gptParts.mpr ⟨i, hi, hp⟩))
    · intro h p hp
      obtain ⟨i, hi, hentry⟩ := mem_take_gptParts.mp hp
      exact (exactPart_iff_of_gpt hgpt hentry).mpr (h i hi)

def farDevice : Snapshot where
  bytes := replicate 512 0 ++ (gptHeader 2 1 128 ++ (replicate 424 0 ++
    (replicate 16 1 ++ (replicate 16 0 ++ (LittleEndian.encode 8 (2 ^ 55) ++
      (LittleEndian.encode 8 (2 ^ 56 - 1) ++ replicate 15312 0))))))
  length_lt := by
    simp only [length_append, length_replicate, length_gptHeader, LittleEndian.length_encode]
    decide

/-- The partition of `farDevice` is listed as an empty one at the start of the device. -/
theorem anyfsProbePtBuf_farDevice :
    farDevice.gptFirst 0 = 2 ^ 55 ∧ farDevice.gptSectors 0 = 2 ^ 55 ∧
      ∃ p, anyfsProbePtBuf farDevice 1 = some [p] ∧ p.index = 1 ∧ p.startBytes = 0 ∧
        p.sizeBytes = 0 ∧ ¬ farDevice.ExactPart p := by
  have hlen : farDevice.len = 16384 := by
    simp only [len, farDevice, length_append, length_replicate,
      length_gptHeader, LittleEndian.length_encode]
  have hsig : farDevice.slice 512 8 = ascii "EFI PART" := by decide +kernel
  have hsize : farDevice.entSize = 128 := by decide +kernel
  have hoff : farDevice.arrOff = 1024 := by decide +kernel
  have hcount : farDevice.entCount = 1 := by decide +kernel
  have hgpt : farDevice.HasGpt := ⟨by omega, hsig, by omega⟩
  have hwraps : ¬ farDevice.GptWraps := by
    rintro ⟨-, h, -⟩
    omega
  have hentry : farDevice.gptEntry 0 = some (gptPart 0 (replicate 16 1) (2 ^ 55) (2 ^ 56 - 1)) := by
    rw [gptEntry, hoff, hsize, hlen]
    decide +kernel
  have hparts : farDevice.gptParts = [gptPart 0 (replicate 16 1) (2 ^ 55) (2 ^ 56 - 1)] := by
    rw [gptParts, if_pos hgpt, hcount, range_one, filterMap_cons_some hentry, filterMap_nil]
  refine ⟨by decide +kernel, by decide +kernel, gptPart 0 (replicate 16 1) (2 ^ 55)
    (2 ^ 56 - 1), ?_, rfl, by decide +kernel, by decide +kernel, fun h => ?_⟩
  · rw [anyfsProbePtBuf_eq (by decide) hwraps, hparts, if_neg (cons_ne_nil _ _)]
    rfl
  · exact absurd h.size_pos (by decide +kernel)

end Anyfs
