import Anyfs.Lib.CString

/-!
# Numbers in fields of fixed width

Forms of a number that has a fixed number of digits: bytes in either order, and hexadecimal digits,
most significant first (`%0<w>x` of `printf` for a number below `16 ^ w`).
-/

namespace LittleEndian

def value : Bytes → ℕ
  | [] => 0
  | b :: bs => b.toNat + 256 * value bs

def encode : ℕ → ℕ → Bytes
  | 0, _ => []
  | w + 1, n => UInt8.ofNat n :: encode w (n / 256)

@[simp]
theorem length_encode (w n : ℕ) : (encode w n).length = w := by
  induction w generalizing n with
  | zero => rfl
  | succ w ih => rw [encode, List.length_cons, ih]

theorem value_encode {w n : ℕ} (h : n < 256 ^ w) : value (encode w n) = n := by
  induction w generalizing n with
  | zero =>
    rw [pow_zero, Nat.lt_one_iff] at h
    rw [h]
    rfl
  | succ w ih =>
    have hdiv : n / 256 < 256 ^ w := by
      rw [Nat.div_lt_iff_lt_mul (by decide), ← pow_succ]
      exact h
    rw [encode, value, ih hdiv, UInt8.toNat_ofNat', Nat.mod_add_div]

theorem value_lt (bs : Bytes) : value bs < 256 ^ bs.length := by
  induction bs with
  | nil => exact Nat.one_pos
  | cons b bs ih =>
    have hb := b.toNat_lt
    rw [value, List.length_cons, pow_succ]
    omega

theorem encode_value (bs : Bytes) : encode bs.length (value bs) = bs := by
  induction bs with
  | nil => rfl
  | cons b bs ih =>
    have hb : b.toNat < 256 := b.toNat_lt
    have hhead : UInt8.ofNat (b.toNat + 256 * value bs) = b := by
      refine UInt8.toNat.inj ?_
      rw [UInt8.toNat_ofNat', Nat.add_mul_mod_self_left, Nat.mod_eq_of_lt hb]
    have htail : (b.toNat + 256 * value bs) / 256 = value bs := by omega
    rw [List.length_cons, value, encode, hhead, htail, ih]

end LittleEndian

namespace BigEndian

def value (bs : Bytes) : ℕ := LittleEndian.value bs.reverse

def encode (w n : ℕ) : Bytes := (LittleEndian.encode w n).reverse

@[simp]
theorem length_encode (w n : ℕ) : (encode w n).length = w := by
  rw [encode, List.length_reverse, LittleEndian.length_encode]

theorem value_encode {w n : ℕ} (h : n < 256 ^ w) : value (encode w n) = n := by
  rw [value, encode, List.reverse_reverse, LittleEndian.value_encode h]

end BigEndian

namespace Hex

open CString

def digits : ℕ → ℕ → Bytes
  | 0, _ => []
  | w + 1, n => digits w (n / 16) ++ [hexChar (n % 16)]

def digitValue (c : UInt8) : ℕ := if c.toNat < 58 then c.toNat - 48 else c.toNat - 87

def value (ds : Bytes) : ℕ := ds.foldl (fun v c => v * 16 + digitValue c) 0

@[simp]
theorem length_digits (w n : ℕ) : (digits w n).length = w := by
  induction w generalizing n with
  | zero => rfl
  | succ w ih => rw [digits, List.length_append, ih, List.length_singleton]

theorem digitValue_hexChar {d : ℕ} (h : d < 16) : digitValue (hexChar d) = d := by
  revert d
  decide

theorem value_digits {w n : ℕ} (h : n < 16 ^ w) : value (digits w n) = n := by
  induction w generalizing n with
  | zero =>
    rw [pow_zero, Nat.lt_one_iff] at h
    rw [h]
    rfl
  | succ w ih =>
    have hdiv : n / 16 < 16 ^ w := by
      rw [Nat.div_lt_iff_lt_mul (by decide), ← pow_succ]
      exact h
    have happend : value (digits w (n / 16) ++ [hexChar (n % 16)]) =
        value (digits w (n / 16)) * 16 + digitValue (hexChar (n % 16)) := by
      rw [value, List.foldl_append]
      rfl
    rw [digits, happend, ih hdiv, digitValue_hexChar (Nat.mod_lt _ (by decide)), Nat.div_add_mod']

end Hex
