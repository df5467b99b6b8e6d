import Anyfs.Lib.Bytes

/-!
# UTF-8

The byte sequences of characters by the ranges of their bytes (`IsSeq`): no overlong forms, no
surrogates, nothing above `U+10FFFF` (`isSeq_iff`).
-/

namespace Utf8

def encode (cs : List Char) : Bytes := cs.flatMap String.utf8EncodeChar

def Valid (s : Bytes) : Prop := ∃ cs, s = encode cs

def IsTail (b : UInt8) : Prop := 0x80 ≤ b.toNat ∧ b.toNat ≤ 0xBF

/-- The well-formed sequences. -/
inductive IsSeq : Bytes → Prop
  | one {a : UInt8} (ha : a.toNat < 0x80) : IsSeq [a]
  | two {a b : UInt8} (ha : 0xC2 ≤ a.toNat ∧ a.toNat ≤ 0xDF) (hb : IsTail b) : IsSeq [a, b]
  | three {a b c : UInt8} (ha : 0xE0 ≤ a.toNat ∧ a.toNat ≤ 0xEF) (hb : IsTail b)
      (hlo : a.toNat = 0xE0 → 0xA0 ≤ b.toNat) (hhi : a.toNat = 0xED → b.toNat ≤ 0x9F)
      (hc : IsTail c) : IsSeq [a, b, c]
  | four {a b c d : UInt8} (ha : 0xF0 ≤ a.toNat ∧ a.toNat ≤ 0xF4) (hb : IsTail b)
      (hlo : a.toNat = 0xF0 → 0x90 ≤ b.toNat) (hhi : a.toNat = 0xF4 → b.toNat ≤ 0x8F)
      (hc : IsTail c) (hd : IsTail d) : IsSeq [a, b, c, d]

theorem IsSeq.length_pos {seq : Bytes} (h : IsSeq seq) : 0 < seq.length := by
  cases h <;> exact Nat.succ_pos _

@[simp]
theorem encode_nil : encode [] = [] := rfl

@[simp]
theorem encode_cons (c : Char) (cs : List Char) :
    encode (c :: cs) = String.utf8EncodeChar c ++ encode cs := rfl

theorem Valid.nil : Valid [] := ⟨[], rfl⟩

/-! ### Characters and their bytes -/

theorem encodeChar_eq {c : Char} {v : ℕ} (h : c.val.toNat = v) :
    String.utf8EncodeChar c =
      if v ≤ 0x7F then [UInt8.ofNat v]
      else if v ≤ 0x7FF then [UInt8.ofNat (v / 64 % 32 + 0xC0), UInt8.ofNat (v % 64 + 0x80)]
      else if v ≤ 0xFFFF then
        [UInt8.ofNat (v / 4096 % 16 + 0xE0), UInt8.ofNat (v / 64 % 64 + 0x80),
          UInt8.ofNat (v % 64 + 0x80)]
      else
        [UInt8.ofNat (v / 262144 % 8 + 0xF0), UInt8.ofNat (v / 4096 % 64 + 0x80),
          UInt8.ofNat (v / 64 % 64 + 0x80), UInt8.ofNat (v % 64 + 0x80)] := by
  subst h
  rfl

theorem val_cases (c : Char) :
    c.val.toNat < 0xD800 ∨ 0xDFFF < c.val.toNat ∧ c.val.toNat < 0x110000 := c.valid

theorem exists_char {v : ℕ} (h : v < 0xD800 ∨ 0xDFFF < v ∧ v < 0x110000) :
    ∃ c : Char, c.val.toNat = v :=
  ⟨Char.ofNatAux v h, rfl⟩

theorem isTail_ofNat (n : ℕ) : IsTail (UInt8.ofNat (n % 64 + 0x80)) := by
  rw [IsTail, UInt8.toNat_ofNat']
  omega

theorem isSeq_encodeChar (c : Char) : IsSeq (String.utf8EncodeChar c) := by
  have hval := val_cases c
  rw [encodeChar_eq rfl]
  split_ifs with h1 h2 h3
  · exact .one (by rw [UInt8.toNat_ofNat']; omega)
  · exact .two (by rw [UInt8.toNat_ofNat']; omega) (isTail_ofNat _)
  · refine .three ?_ (isTail_ofNat _) ?_ ?_ (isTail_ofNat _) <;>
      simp only [UInt8.toNat_ofNat'] <;> omega
  · refine .four ?_ (isTail_ofNat _) ?_ ?_ (isTail_ofNat _) (isTail_ofNat _) <;>
      simp only [UInt8.toNat_ofNat'] <;> omega

theorem ofNat_eq {b : UInt8} {n : ℕ} (h : n = b.toNat) : UInt8.ofNat n = b := by
  rw [h, UInt8.ofNat_toNat]

theorem exists_encodeChar {bs : Bytes} (h : IsSeq bs) : ∃ c, String.utf8EncodeChar c = bs := by
  cases h with
  | @one a ha =>
    obtain ⟨c, hc⟩ := exists_char (v := a.toNat) (by omega)
    refine ⟨c, ?_⟩
    rw [encodeChar_eq hc, if_pos (by omega), UInt8.ofNat_toNat]
  | @two a b ha hb =>
    obtain ⟨hb0, hb1⟩ := hb
    obtain ⟨c, hc⟩ := exists_char (v := (a.toNat - 0xC0) * 64 + (b.toNat - 0x80)) (by omega)
    refine ⟨c, ?_⟩
    rw [encodeChar_eq hc, if_neg (by omega), if_pos (by omega), ofNat_eq (b := a) (by omega),
      ofNat_eq (b := b) (by omega)]
  | @three a b c ha hb hlo hhi hc =>
    obtain ⟨hb0, hb1⟩ := hb
    obtain ⟨hc0, hc1⟩ := hc
    obtain ⟨ch, hch⟩ := exists_char
      (v := (a.toNat - 0xE0) * 4096 + (b.toNat - 0x80) * 64 + (c.toNat - 0x80)) (by omega)
    refine ⟨ch, ?_⟩
    rw [encodeChar_eq hch, if_neg (by omega), if_neg (by omega), if_pos (by omega),
      ofNat_eq (b := a) (by omega), ofNat_eq (b := b) (by omega), ofNat_eq (b := c) (by omega)]
  | @four a b c d ha hb hlo hhi hc hd =>
    obtain ⟨hb0, hb1⟩ := hb
    obtain ⟨hc0, hc1⟩ := hc
    obtain ⟨hd0, hd1⟩ := hd
    obtain ⟨ch, hch⟩ := exists_char (v := (a.toNat - 0xF0) * 262144 + (b.toNat - 0x80) * 4096 +
      (c.toNat - 0x80) * 64 + (d.toNat - 0x80)) (by omega)
    refine ⟨ch, ?_⟩
    rw [encodeChar_eq hch, if_neg (by omega), if_neg (by omega), if_neg (by omega),
      ofNat_eq (b := a) (by omega), ofNat_eq (b := b) (by omega), ofNat_eq (b := c) (by omega),
      ofNat_eq (b := d) (by omega)]

theorem isSeq_iff {bs : Bytes} : IsSeq bs ↔ ∃ c, String.utf8EncodeChar c = bs := by
  refine ⟨exists_encodeChar, ?_⟩
  rintro ⟨c, rfl⟩
  exact isSeq_encodeChar c

theorem IsSeq.append_valid {seq rest : Bytes} (h : IsSeq seq) (hrest : Valid rest) :
    Valid (seq ++ rest) := by
  obtain ⟨c, rfl⟩ := isSeq_iff.mp h
  obtain ⟨cs, rfl⟩ := hrest
  exact ⟨c :: cs, rfl⟩

/-! ### Decoding -/

def decode (s : Bytes) : Option (List Char) := s.toByteArray.utf8Decode?.map Array.toList

theorem decode_encode (cs : List Char) : decode (encode cs) = some cs := by
  have h := List.utf8Decode?_utf8Encode (l := cs)
  rw [decode, encode]
  exact congrArg (Option.map Array.toList) h

end Utf8
