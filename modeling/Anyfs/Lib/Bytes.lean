import Mathlib.Data.List.GetD
import Mathlib.Tactic.Common

/-!
# Byte strings and byte stores

A byte string is a list of bytes; a byte store is a function from addresses to bytes. `slice` reads
a range of a store and `overwrite` replaces one.
-/

/-- Strings of bytes. -/
abbrev Bytes := List UInt8

instance : LawfulBEq Bytes := List.instLawfulBEq

theorem UInt8.forall_of_lt {P : UInt8 → Prop} (h : ∀ n < 256, P (UInt8.ofNat n)) (b : UInt8) :
    P b := by
  have hb := h b.toNat b.toNat_lt
  rwa [UInt8.ofNat_toNat] at hb

namespace ByteStore

variable (st : ℕ → UInt8)

def slice (off n : ℕ) : Bytes :=
  (List.range n).map fun i => st (off + i)

variable (off : ℕ)

def overwrite (data : Bytes) : ℕ → UInt8 := fun a =>
  if off ≤ a then data.getD (a - off) (st a) else st a

@[simp]
theorem length_slice (off n : ℕ) : (slice st off n).length = n := by
  simp [slice]

theorem getElem?_slice {n i : ℕ} (h : i < n) : (slice st off n)[i]? = some (st (off + i)) := by
  simp [slice, h]

theorem overwrite_of_notMem {off a : ℕ} {data : Bytes}
    (h : a < off ∨ off + data.length ≤ a) : overwrite st off data a = st a := by
  rw [overwrite]
  split_ifs with hle
  · exact List.getD_eq_default _ _ (by omega)
  · rfl

@[simp]
theorem slice_overwrite (data : Bytes) : slice (overwrite st off data) off data.length = data := by
  refine List.ext_getElem? fun i => ?_
  rcases Nat.lt_or_ge i data.length with hi | hi
  · rw [getElem?_slice _ _ hi, overwrite, if_pos (Nat.le_add_right _ _), Nat.add_sub_cancel_left,
      List.getElem?_eq_getElem hi, List.getD_eq_getElem _ _ hi]
  · rw [List.getElem?_eq_none (by simpa using hi), List.getElem?_eq_none hi]

@[simp]
theorem overwrite_nil : overwrite st off [] = st := by
  funext a
  simp [overwrite]

theorem overwrite_eq_self_iff (data : Bytes) :
    overwrite st off data = st ↔ slice st off data.length = data := by
  constructor
  · intro h
    rw [← h, slice_overwrite]
  · intro h
    funext a
    rcases Nat.lt_or_ge a off with ha | ha
    · exact overwrite_of_notMem st (.inl ha)
    · rcases Nat.lt_or_ge (a - off) data.length with hi | hi
      · have hget := getElem?_slice st off hi
        rw [h, Nat.add_sub_cancel' ha] at hget
        rw [overwrite, if_pos ha, List.getD_eq_getElem?_getD, hget, Option.getD_some]
      · exact overwrite_of_notMem st (.inr (by omega))

theorem take_slice {n k : ℕ} (h : k ≤ n) : (slice st off n).take k = slice st off k := by
  rw [slice, ← List.map_take, List.take_range, Nat.min_eq_left h, slice]

theorem overwrite_append (xs ys : Bytes) :
    overwrite (overwrite st off xs) (off + xs.length) ys = overwrite st off (xs ++ ys) := by
  funext a
  simp only [overwrite]
  rcases Nat.lt_or_ge a off with ha | ha
  · rw [if_neg (by omega), if_neg (by omega), if_neg (by omega)]
  · rw [if_pos ha, if_pos ha]
    rcases Nat.lt_or_ge (a - off) xs.length with hx | hx
    · rw [if_neg (by omega), List.getD_append _ _ _ _ hx]
    · rw [if_pos (by omega), List.getD_append_right _ _ _ _ hx,
        List.getD_eq_default (l := xs) _ hx, Nat.sub_add_eq]

end ByteStore
