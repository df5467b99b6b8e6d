import Anyfs.Lib.Utf8

/-!
# UTF-16

Strings of 16-bit code units, which need not be well formed: a high surrogate with a low surrogate
after it is one code point, and every other unit is a code point of its own (`codePoints`). In
UTF-8, a lone surrogate becomes the replacement character (`toUtf8`).
-/

namespace Utf16

open List

def encodeChar (c : Char) : List UInt16 :=
  let v := c.val.toNat
  if v < 0x10000 then [UInt16.ofNat v]
  else [UInt16.ofNat (0xD800 + (v - 0x10000) / 1024), UInt16.ofNat (0xDC00 + (v - 0x10000) % 1024)]

def encode (cs : List Char) : List UInt16 := cs.flatMap encodeChar

def IsHigh (u : UInt16) : Prop := 0xD800 ≤ u.toNat ∧ u.toNat ≤ 0xDBFF

def IsLow (u : UInt16) : Prop := 0xDC00 ≤ u.toNat ∧ u.toNat ≤ 0xDFFF

instance (u : UInt16) : Decidable (IsHigh u) := inferInstanceAs (Decidable (_ ∧ _))

instance (u : UInt16) : Decidable (IsLow u) := inferInstanceAs (Decidable (_ ∧ _))

def pairValue (u l : UInt16) : ℕ := 0x10000 + (u.toNat - 0xD800) * 1024 + (l.toNat - 0xDC00)

def codePoints : List UInt16 → List ℕ
  | [] => []
  | [u] => [u.toNat]
  | u :: l :: t =>
    if IsHigh u ∧ IsLow l then pairValue u l :: codePoints t else u.toNat :: codePoints (l :: t)

def IsScalar (v : ℕ) : Prop := v < 0xD800 ∨ 0xDFFF < v ∧ v < 0x110000

instance (v : ℕ) : Decidable (IsScalar v) := inferInstanceAs (Decidable (_ ∨ _))

def WellFormed (t : List UInt16) : Prop := ∀ v ∈ codePoints t, IsScalar v

def scalar (v : ℕ) : Char := if h : IsScalar v then Char.ofNatAux v h else Char.ofNat 0xFFFD

def toUtf8 (t : List UInt16) : Bytes :=
  (codePoints t).flatMap fun v => String.utf8EncodeChar (scalar v)

def ofUtf8 (s : Bytes) : Option (List UInt16) := (Utf8.decode s).map encode

@[simp]
theorem encode_nil : encode [] = [] := rfl

@[simp]
theorem encode_cons (c : Char) (cs : List Char) : encode (c :: cs) = encodeChar c ++ encode cs :=
  rfl

/-! ### Characters and code points -/

theorem scalar_val (c : Char) : scalar c.val.toNat = c := by
  have h : IsScalar c.val.toNat := Utf8.val_cases c
  rw [scalar, dif_pos h]
  rfl

theorem codePoints_cons {u : UInt16} (h : ¬ IsHigh u) (t : List UInt16) :
    codePoints (u :: t) = u.toNat :: codePoints t := by
  cases t with
  | nil => rfl
  | cons l t => rw [codePoints, if_neg fun hu => h hu.1]

theorem encodeChar_eq {c : Char} {v : ℕ} (h : c.val.toNat = v) :
    encodeChar c =
      if v < 0x10000 then [UInt16.ofNat v]
      else
        [UInt16.ofNat (0xD800 + (v - 0x10000) / 1024),
          UInt16.ofNat (0xDC00 + (v - 0x10000) % 1024)] := by
  subst h
  rfl

theorem ofNat_eq {u : UInt16} {n : ℕ} (h : n = u.toNat) : UInt16.ofNat n = u := by
  rw [h, UInt16.ofNat_toNat]

theorem codePoints_encodeChar_append (c : Char) (t : List UInt16) :
    codePoints (encodeChar c ++ t) = c.val.toNat :: codePoints t := by
  have hval := Utf8.val_cases c
  rw [encodeChar_eq rfl]
  split_ifs with h
  · have hunit : (UInt16.ofNat c.val.toNat).toNat = c.val.toNat := by
      rw [UInt16.toNat_ofNat']
      omega
    have hhigh : ¬ IsHigh (UInt16.ofNat c.val.toNat) := by
      rw [IsHigh, hunit]
      omega
    rw [singleton_append, codePoints_cons hhigh, hunit]
  · obtain ⟨u, hu⟩ : ∃ u, u = UInt16.ofNat (0xD800 + (c.val.toNat - 0x10000) / 1024) := ⟨_, rfl⟩
    obtain ⟨l, hl⟩ : ∃ l, l = UInt16.ofNat (0xDC00 + (c.val.toNat - 0x10000) % 1024) := ⟨_, rfl⟩
    have hu' : u.toNat = 0xD800 + (c.val.toNat - 0x10000) / 1024 := by
      rw [hu, UInt16.toNat_ofNat']
      omega
    have hl' : l.toNat = 0xDC00 + (c.val.toNat - 0x10000) % 1024 := by
      rw [hl, UInt16.toNat_ofNat']
      omega
    have hpair : IsHigh u ∧ IsLow l := by
      rw [IsHigh, IsLow]
      omega
    have hvalue : pairValue u l = c.val.toNat := by
      unfold pairValue
      omega
    rw [← hu, ← hl, cons_append, singleton_append, codePoints, if_pos hpair, hvalue]

theorem codePoints_encode (cs : List Char) :
    codePoints (encode cs) = cs.map fun c => c.val.toNat := by
  induction cs with
  | nil => rfl
  | cons c cs ih => rw [encode_cons, codePoints_encodeChar_append, ih, map_cons]

theorem exists_encodeChar_unit {u : UInt16} (h : IsScalar u.toNat) : ∃ c, encodeChar c = [u] := by
  have hlt : u.toNat < 0x10000 := u.toNat_lt
  obtain ⟨c, hc⟩ := Utf8.exists_char h
  refine ⟨c, ?_⟩
  rw [encodeChar_eq hc, if_pos hlt, UInt16.ofNat_toNat]

theorem exists_encodeChar_pair {u l : UInt16} (hu : IsHigh u) (hl : IsLow l) :
    ∃ c, encodeChar c = [u, l] := by
  obtain ⟨hu0, hu1⟩ := hu
  obtain ⟨hl0, hl1⟩ := hl
  have hval : pairValue u l = 0x10000 + (u.toNat - 0xD800) * 1024 + (l.toNat - 0xDC00) := rfl
  obtain ⟨c, hc⟩ := Utf8.exists_char (v := pairValue u l) (by omega)
  refine ⟨c, ?_⟩
  rw [encodeChar_eq hc, if_neg (by omega), ofNat_eq (u := u) (by omega),
    ofNat_eq (u := l) (by omega)]

theorem exists_encode {t : List UInt16} (h : WellFormed t) : ∃ cs, t = encode cs := by
  induction t using codePoints.induct with
  | case1 => exact ⟨[], rfl⟩
  | case2 u =>
    obtain ⟨c, hc⟩ := exists_encodeChar_unit (h u.toNat (mem_singleton_self _))
    exact ⟨[c], by rw [encode_cons, hc]; rfl⟩
  | case3 u l t hpair ih =>
    rw [WellFormed, codePoints, if_pos hpair, forall_mem_cons] at h
    obtain ⟨c, hc⟩ := exists_encodeChar_pair hpair.1 hpair.2
    obtain ⟨cs, hcs⟩ := ih h.2
    exact ⟨c :: cs, by rw [encode_cons, hc, hcs]; rfl⟩
  | case4 u l t hpair ih =>
    rw [WellFormed, codePoints, if_neg hpair, forall_mem_cons] at h
    obtain ⟨c, hc⟩ := exists_encodeChar_unit h.1
    obtain ⟨cs, hcs⟩ := ih h.2
    exact ⟨c :: cs, by rw [encode_cons, hc, hcs]; rfl⟩

theorem toUtf8_encode (cs : List Char) : toUtf8 (encode cs) = Utf8.encode cs := by
  rw [toUtf8, codePoints_encode, flatMap_map, Utf8.encode]
  exact congrArg (cs.flatMap ·) (funext fun c => by rw [scalar_val])

theorem ofUtf8_encode (cs : List Char) : ofUtf8 (Utf8.encode cs) = some (encode cs) := by
  rw [ofUtf8, Utf8.decode_encode, Option.map_some]

/-! ### Two encodings of one text -/

def Transcodes (bs : Bytes) (us : List UInt16) : Prop :=
  ∃ cs, bs = Utf8.encode cs ∧ us = encode cs

namespace Transcodes

variable {bs bs' : Bytes} {us us' : List UInt16}

theorem ofUtf8 (h : Transcodes bs us) : ofUtf8 bs = some us := by
  obtain ⟨cs, rfl, rfl⟩ := h
  exact ofUtf8_encode cs

theorem toUtf8 (h : Transcodes bs us) : toUtf8 us = bs := by
  obtain ⟨cs, rfl, rfl⟩ := h
  exact toUtf8_encode cs

theorem nil : Transcodes [] [] := ⟨[], rfl, rfl⟩

theorem append (h : Transcodes bs us) (h' : Transcodes bs' us') :
    Transcodes (bs ++ bs') (us ++ us') := by
  obtain ⟨cs, rfl, rfl⟩ := h
  obtain ⟨cs', rfl, rfl⟩ := h'
  exact ⟨cs ++ cs', by simp [Utf8.encode], by simp [encode]⟩

theorem ascii (h : ∀ b ∈ bs, b.toNat < 0x80) : Transcodes bs (bs.map UInt8.toUInt16) := by
  induction bs with
  | nil => exact nil
  | cons b bs ih =>
    obtain ⟨hb, hbs⟩ := forall_mem_cons.mp h
    obtain ⟨c, hc⟩ := Utf8.exists_char (v := b.toNat) (by omega)
    have hbyte : Transcodes [b] [b.toUInt16] := by
      refine ⟨[c], ?_, ?_⟩
      · rw [Utf8.encode_cons, Utf8.encodeChar_eq hc, if_pos (by omega), UInt8.ofNat_toNat]
        rfl
      · rw [encode_cons, encodeChar_eq hc, if_pos (by omega),
          ofNat_eq (u := b.toUInt16) b.toNat_toUInt16.symm]
        rfl
    exact hbyte.append (ih hbs)

end Transcodes

end Utf16
