import Anyfs.Lib.Utf16
import Anyfs.Name.Escape

/-!
# Names in JavaScript

`nameToBytes` goes over the code points of a UTF-16 string, where `anyfs_name_unescape` looks for
three bytes of its UTF-8 encoding; a character is an escape if and only if its encoding is.
-/

namespace Anyfs

open List

open Utf8

/-- `isEscape`, with `ESC_FIRST` and `ESC_LAST`. -/
def isEscape (cp : ℕ) : Bool := 0xEF80 ≤ cp ∧ cp ≤ 0xEFFF

/-- `nameToBytes`; the encoder puts the replacement character for a lone surrogate. -/
def nameToBytes (name : List UInt16) : Bytes :=
  (Utf16.codePoints name).flatMap fun cp =>
    if isEscape cp then [UInt8.ofNat (cp - 0xEF00)] else String.utf8EncodeChar (Utf16.scalar cp)

theorem isEscape_val_iff (c : Char) : isEscape c.val.toNat = true ↔ IsEscapeRange c :=
  decide_eq_true_iff

theorem unescaped_encodeChar_append {c : Char} (h : IsEscapeRange c) (rest : Bytes) :
    unescaped (String.utf8EncodeChar c ++ rest) =
      UInt8.ofNat (c.val.toNat - 0xEF00) :: unescaped rest := by
  have hescape := (isEscape_encodeChar_iff c).mpr h
  have hchar := (isEscapeChar_append hescape.length_eq []).mpr hescape
  have hbyte : ∀ n < 0x100, 0x80 ≤ n → unescapeByte (UInt8.ofNat ((0xEF00 + n) / 64 % 64 + 0x80))
        (UInt8.ofNat ((0xEF00 + n) % 64 + 0x80)) = UInt8.ofNat n := by decide +kernel
  obtain ⟨hlo, hhi⟩ := h
  obtain ⟨n, hn⟩ : ∃ n, c.val.toNat = 0xEF00 + n := ⟨c.val.toNat - 0xEF00, by omega⟩
  rw [encodeChar_eq hn, if_neg (by omega), if_neg (by omega), if_pos (by omega)] at hchar ⊢
  rw [append_nil] at hchar
  rw [cons_append, cons_append, singleton_append, unescaped, if_pos hchar,
    hbyte n (by omega) (by omega), hn, Nat.add_sub_cancel_left]

theorem nameToBytes_encode (cs : List Char) :
    nameToBytes (Utf16.encode cs) = unescaped (encode cs) := by
  rw [nameToBytes, Utf16.codePoints_encode, flatMap_map]
  induction cs with
  | nil => rfl
  | cons c cs ih =>
    rw [flatMap_cons, ih, encode_cons]
    by_cases h : IsEscapeRange c
    · rw [if_pos ((isEscape_val_iff c).mpr h), unescaped_encodeChar_append h, singleton_append]
    · rw [if_neg (mt (isEscape_val_iff c).mp h), Utf16.scalar_val,
        unescaped_append (isSeq_encodeChar c) (mt (isEscape_encodeChar_iff c).mp h)]

/-- JavaScript and C agree on names. What `anyfs_name_escape` writes is decoded to a string, and
`nameToBytes` gives back the name from it. For a string without lone surrogates, `nameToBytes` gives
what `anyfs_name_unescape` makes of its UTF-8 encoding. -/
theorem nameToBytes_agrees :
    (∀ (s : Bytes) (cap : ℕ), 3 * s.length < cap →
      ∃ e, anyfsNameEscape s cap = .ofOut (some e)) ∧
    (∀ s e : Bytes, EscapedTo s e → ∃ t, Utf16.ofUtf8 e = some t ∧ nameToBytes t = s) ∧
    ∀ (t : List UInt16) (cap : ℕ), Utf16.WellFormed t → 0 ∉ t → (nameToBytes t).length < cap →
      anyfsNameUnescape (Utf16.toUtf8 t) cap = .ofOut (some (nameToBytes t)) := by
  refine ⟨fun s cap => exists_anyfsNameEscape, ?_, ?_⟩
  · intro s e h
    obtain ⟨cs, hcs⟩ := valid_escapeText s.length s
    refine ⟨Utf16.encode cs, ?_, ?_⟩
    · rw [h.eq, escaped, hcs, Utf16.ofUtf8_encode]
    · rw [nameToBytes_encode, ← hcs]
      exact unescaped_escaped s
  · intro t cap ht _ hcap
    obtain ⟨cs, rfl⟩ := Utf16.exists_encode ht
    rw [nameToBytes_encode] at hcap ⊢
    rw [Utf16.toUtf8_encode, anyfsNameUnescape_eq, if_pos hcap]

/-- A string with an escape and a character outside the basic plane. -/
theorem nameToBytes_agrees_pair :
    (anyfsNameUnescape (Utf16.toUtf8 [0xEFE9, 0xD83D, 0xDE00]) 8).out =
      [0xE9, 0xF0, 0x9F, 0x98, 0x80] := by
  have hwf : Utf16.WellFormed [0xEFE9, 0xD83D, 0xDE00] := by
    unfold Utf16.WellFormed
    decide +kernel
  rw [nameToBytes_agrees.2.2 [0xEFE9, 0xD83D, 0xDE00] 8 hwf (by decide) (by decide +kernel)]
  decide +kernel

end Anyfs
