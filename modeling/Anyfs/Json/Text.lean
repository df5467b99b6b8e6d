import Anyfs.Json.Retry
import Anyfs.Lib.Json
import Anyfs.Name.Escape

/-!
# What JavaScript reads

A document is followed in two encodings at once, the bytes that are written and the code units that
JavaScript parses (`Utf16.Transcodes`, `Json.Reads`).
-/

namespace Anyfs

open List Json

open List CString Utf16

/-! ### Strings in two encodings -/

def units (s : Bytes) : List UInt16 := s.map UInt8.toUInt16

def jsonUnit (u : UInt16) : List UInt16 :=
  if u.toNat < 0x80 then units (jsonByte u.toUInt8) else [u]

def quoted (s : List UInt16) : List UInt16 := 34 :: (s.flatMap jsonUnit ++ [34])

theorem readChar_jsonUnit (u : UInt16) : readChar (jsonUnit u) = some (u, []) := by
  have hascii : ∀ n < 0x80, readChar (units (jsonByte (UInt16.ofNat n).toUInt8)) =
      some (UInt16.ofNat n, []) := by decide +kernel
  rw [jsonUnit]
  split_ifs with hu
  · have h := hascii u.toNat hu
    rwa [UInt16.ofNat_toNat] at h
  · have hne : ∀ v : UInt16, v.toNat < 0x80 → u ≠ v := by
      rintro v hv rfl
      exact hu hv
    have hge : ¬ u < 32 := fun h => hu (lt_trans (UInt16.lt_iff_toNat_lt.mp h) (by decide))
    rw [readChar, if_neg (hne _ (by decide)), if_neg (not_or.mpr ⟨hne _ (by decide), hge⟩)]

theorem flatMap_eq_self {α : Type*} {f : α → List α} {l : List α} (h : ∀ a ∈ l, f a = [a]) :
    l.flatMap f = l := by
  rw [flatMap_congr h, flatMap_singleton']

theorem jsonByte_of_ge {b : UInt8} (h : 0x80 ≤ b.toNat) : jsonByte b = [b] := by
  revert h
  exact UInt8.forall_of_lt (P := fun b => 0x80 ≤ b.toNat → jsonByte b = [b]) (by decide +kernel) b

theorem jsonByte_ascii {b : UInt8} (h : b.toNat < 0x80) : ∀ c ∈ jsonByte b, c.toNat < 0x80 := by
  -- by `List.all`: the quantifier over bytes would be decided by trying all of them
  have hall : ∀ b : UInt8, b.toNat < 0x80 → (jsonByte b).all (·.toNat < 0x80) = true :=
    UInt8.forall_of_lt (by decide +kernel)
  intro c hc
  exact of_decide_eq_true (all_eq_true.mp (hall b h) c hc)

theorem le_of_mem_encodeChar {c : Char} (h : 0x80 ≤ c.val.toNat) :
    ∀ b ∈ String.utf8EncodeChar c, 0x80 ≤ b.toNat := by
  have hval := Utf8.val_cases c
  rw [Utf8.encodeChar_eq rfl, if_neg (by omega)]
  split_ifs <;>
    simp only [forall_mem_cons, UInt8.toNat_ofNat', not_mem_nil, IsEmpty.forall_iff,
      implies_true, and_true] <;>
    omega

theorem jsonUnit_of_mem_encodeChar {c : Char} (h : 0x80 ≤ c.val.toNat) :
    ∀ u ∈ encodeChar c, jsonUnit u = [u] := by
  have hval := Utf8.val_cases c
  have hge : ∀ u ∈ encodeChar c, 0x80 ≤ u.toNat := by
    rw [encodeChar_eq rfl]
    split_ifs <;>
      simp only [forall_mem_cons, UInt16.toNat_ofNat', not_mem_nil, IsEmpty.forall_iff,
        implies_true, and_true] <;>
      omega
  intro u hu
  rw [jsonUnit, if_neg (Nat.not_lt.mpr (hge u hu))]

theorem transcodes_encodeChar (c : Char) :
    Transcodes ((String.utf8EncodeChar c).flatMap jsonByte) ((encodeChar c).flatMap jsonUnit) := by
  by_cases h : c.val.toNat < 0x80
  · have hbyte : (UInt8.ofNat c.val.toNat).toNat = c.val.toNat := by
      rw [UInt8.toNat_ofNat']
      omega
    have hunit : (UInt16.ofNat c.val.toNat).toNat = c.val.toNat := by
      rw [UInt16.toNat_ofNat']
      omega
    have hcast : (UInt16.ofNat c.val.toNat).toUInt8 = UInt8.ofNat c.val.toNat := by
      rw [← UInt8.toNat_inj, UInt16.toNat_toUInt8, hunit, hbyte]
      omega
    rw [Utf8.encodeChar_eq rfl, if_pos (by omega), encodeChar_eq rfl, if_pos (by omega),
      flatMap_singleton, flatMap_singleton, jsonUnit, if_pos (by omega), hcast]
    exact .ascii (jsonByte_ascii (by omega))
  · have hge : 0x80 ≤ c.val.toNat := Nat.le_of_not_lt h
    rw [flatMap_eq_self fun b hb => jsonByte_of_ge (le_of_mem_encodeChar hge b hb),
      flatMap_eq_self (jsonUnit_of_mem_encodeChar hge)]
    exact ⟨[c], by simp, by simp⟩

theorem transcodes_flatMap {e : Bytes} {s : List UInt16} (h : Transcodes e s) :
    Transcodes (e.flatMap jsonByte) (s.flatMap jsonUnit) := by
  obtain ⟨cs, rfl, rfl⟩ := h
  induction cs with
  | nil => exact .nil
  | cons c cs ih =>
    rw [Utf8.encode_cons, encode_cons, flatMap_append, flatMap_append]
    exact (transcodes_encodeChar c).append ih

theorem transcodes_jsonString {e : Bytes} {s : List UInt16} (h : Transcodes e s) :
    Transcodes (jsonString e) (quoted s) := by
  have hquote : Transcodes [34] [34] := .ascii (by decide +kernel)
  rw [jsonString, append_assoc]
  exact hquote.append ((transcodes_flatMap h).append hquote)

theorem transcodes_jsonMember {k v : Bytes} {k' v' : List UInt16} (hk : Transcodes k k')
    (hv : Transcodes v v') (comma : Bool) :
    Transcodes (jsonMember k v comma)
      (memberText jsonUnit k' v' ++ if comma then [44] else []) := by
  have hcolon : Transcodes [58] [58] := .ascii (by decide +kernel)
  have hcomma : Transcodes (if comma then [44] else []) (if comma then [44] else []) := by
    cases comma
    · exact .nil
    · exact .ascii (by decide +kernel)
  have h := (((transcodes_jsonString hk).append hcolon).append hv).append hcomma
  have htext : memberText jsonUnit k' v' = quoted k' ++ [58] ++ v' := by
    simp [memberText, quoted]
  rw [htext]
  exact h

/-! ### Values -/

theorem transcodes_units {s : Bytes} (h : ∀ b ∈ s, b.toNat < 0x80) : Transcodes s (units s) :=
  .ascii h

theorem reads_quoted (s : List UInt16) : Reads (quoted s) (.str s) :=
  .str fun u _ => readChar_jsonUnit u

theorem decimal_ascii (n : ℕ) : ∀ b ∈ decimal n, b.toNat < 0x80 := by
  intro b hb
  have hbounds := isDigit_bounds (isDigit_of_mem_decimal hb)
  omega

theorem isDecimal_units_decimal (n : ℕ) : IsDecimal (units (decimal n)) := by
  refine ⟨?_, ?_, ?_⟩
  · intro u hu
    obtain ⟨b, hb, rfl⟩ := mem_map.mp hu
    have hbounds := isDigit_bounds (isDigit_of_mem_decimal hb)
    rw [Json.isDigit, decide_eq_true_iff, UInt16.le_iff_toNat_le, UInt16.le_iff_toNat_le,
      UInt8.toNat_toUInt16]
    exact hbounds
  · exact fun h => decimal_ne_nil n (map_eq_nil_iff.mp h)
  · intro h
    rw [units, List.head?_map, Option.map_eq_some_iff] at h
    obtain ⟨b, hb, hb48⟩ := h
    obtain rfl : b = 48 := by
      rw [← UInt8.toNat_inj, ← UInt8.toNat_toUInt16, hb48]
      rfl
    rw [decimal_of_head_eq hb]
    rfl

theorem decimalInt_ascii (n : ℤ) : ∀ b ∈ decimalInt n, b.toNat < 0x80 := by
  rw [decimalInt]
  split_ifs
  · exact forall_mem_cons.mpr ⟨by decide, decimal_ascii _⟩
  · exact decimal_ascii _

theorem isInteger_units_decimalInt (n : ℤ) : IsInteger (units (decimalInt n)) := by
  rw [decimalInt]
  split_ifs
  · exact .inr ⟨_, rfl, isDecimal_units_decimal _⟩
  · exact .inl (isDecimal_units_decimal _)

def nameString (s : Bytes) : List UInt16 := (ofUtf8 (escaped s)).getD []

theorem transcodes_nameString (s : Bytes) : Transcodes (escaped s) (nameString s) := by
  obtain ⟨cs, hcs⟩ := valid_escapeText s.length s
  refine ⟨cs, hcs, ?_⟩
  rw [nameString, escaped, hcs, ofUtf8_encode, Option.getD_some]

/-! ### Objects and arrays -/

/-- A member of an object: its key, and its value as it is written, decoded and parsed. -/
structure Member where
  key : Bytes
  text : Bytes
  decoded : List UInt16
  value : Value
  key_ascii : ∀ b ∈ key, b.toNat < 0x80
  transcodes : Transcodes text decoded
  reads : Reads decoded value

namespace Member

def name (key s : Bytes) (hkey : ∀ b ∈ key, b.toNat < 0x80) : Member where
  key := key
  text := jsonString (escaped s)
  decoded := quoted (nameString s)
  value := .str (nameString s)
  key_ascii := hkey
  transcodes := transcodes_jsonString (transcodes_nameString s)
  reads := reads_quoted _

def str (key s : Bytes) (hkey : ∀ b ∈ key, b.toNat < 0x80) (hs : ∀ b ∈ s, b.toNat < 0x80) :
    Member where
  key := key
  text := jsonString s
  decoded := quoted (units s)
  value := .str (units s)
  key_ascii := hkey
  transcodes := transcodes_jsonString (transcodes_units hs)
  reads := reads_quoted _

def int (key : Bytes) (n : ℤ) (hkey : ∀ b ∈ key, b.toNat < 0x80) : Member where
  key := key
  text := decimalInt n
  decoded := units (decimalInt n)
  value := .num (units (decimalInt n))
  key_ascii := hkey
  transcodes := transcodes_units (decimalInt_ascii n)
  reads := .num (isInteger_units_decimalInt n)

def uint (key : Bytes) (n : ℕ) (hkey : ∀ b ∈ key, b.toNat < 0x80) : Member where
  key := key
  text := decimal n
  decoded := units (decimal n)
  value := .num (units (decimal n))
  key_ascii := hkey
  transcodes := transcodes_units (decimal_ascii n)
  reads := .num (.inl (isDecimal_units_decimal n))

theorem kind_ascii : ∀ b ∈ ascii "kind", b.toNat < 0x80 := by decide +kernel

end Member

def membersText : List Member → Bytes
  | [] => []
  | [m] => jsonMember m.key m.text false
  | m :: ms => jsonMember m.key m.text true ++ membersText ms

variable (ms : List Member)

def objectText : Bytes := [123] ++ membersText ms ++ [125]

def objectUnits : List UInt16 :=
  123 :: (commas (ms.map fun m => memberText jsonUnit (units m.key) m.decoded) ++ [125])

def objectValue : Value :=
  .obj (ms.map fun m => (units m.key, m.value))

theorem transcodes_membersText : Transcodes (membersText ms)
      (commas (ms.map fun m => memberText jsonUnit (units m.key) m.decoded)) := by
  induction ms with
  | nil => exact .nil
  | cons m ms ih =>
    have hmember := transcodes_jsonMember (transcodes_units m.key_ascii) m.transcodes
    cases ms with
    | nil =>
      rw [map_singleton, commas_singleton, membersText]
      simpa using hmember false
    | cons m' ms =>
      rw [map_cons, commas_cons _ (by simp), append_cons]
      exact (hmember true).append ih

theorem transcodes_objectText : Transcodes (objectText ms) (objectUnits ms) := by
  have hopen : Transcodes [123] [123] := .ascii (by decide +kernel)
  have hclose : Transcodes [125] [125] := .ascii (by decide +kernel)
  rw [objectText, append_assoc]
  exact hopen.append ((transcodes_membersText ms).append hclose)

theorem reads_objectUnits {ms : List Member} (h : ms ≠ []) :
    Reads (objectUnits ms) (objectValue ms) := by
  have hitems : ∀ i ∈ ms.map fun m => (units m.key, m.decoded, m.value),
      (∀ u ∈ i.1, readChar (jsonUnit u) = some (u, [])) ∧ Reads i.2.1 i.2.2 := by
    intro i hi
    obtain ⟨m, -, rfl⟩ := mem_map.mp hi
    exact ⟨fun u _ => readChar_jsonUnit u, m.reads⟩
  have hobj := Reads.obj (by simpa using h) hitems
  rw [map_map, map_map] at hobj
  exact hobj

def arrayText (objs : List (List Member)) : Bytes :=
  [91] ++ [44].intercalate (objs.map objectText) ++ [93]

theorem transcodes_intercalate (objs : List (List Member)) :
    Transcodes ([44].intercalate (objs.map objectText)) (commas (objs.map objectUnits)) := by
  have hcomma : Transcodes [44] [44] := .ascii (by decide +kernel)
  induction objs with
  | nil => exact .nil
  | cons ms objs ih =>
    have hobj := transcodes_objectText ms
    cases objs with
    | nil =>
      rw [map_singleton, map_singleton, intercalate_singleton, commas_singleton]
      exact hobj
    | cons ms' objs =>
      have hunits : commas ((ms :: ms' :: objs).map objectUnits) =
          objectUnits ms ++ [44] ++ commas ((ms' :: objs).map objectUnits) := by
        rw [map_cons, commas_cons _ (by simp), append_cons]
      rw [hunits, map_cons, map_cons, intercalate_cons_cons]
      exact (hobj.append hcomma).append ih

theorem parse_arrayText {objs : List (List Member)} (h : ∀ ms ∈ objs, ms ≠ []) :
    ∃ text, ofUtf8 (arrayText objs) = some text ∧
      parse text = some (.arr (objs.map objectValue)) := by
  have hopen : Transcodes [91] [91] := .ascii (by decide +kernel)
  have hclose : Transcodes [93] [93] := .ascii (by decide +kernel)
  have htext : Transcodes (arrayText objs) ([91] ++ (commas (objs.map objectUnits) ++ [93])) := by
    rw [arrayText, append_assoc]
    exact hopen.append ((transcodes_intercalate objs).append hclose)
  have hitems : ∀ i ∈ objs.map fun ms => (objectUnits ms, objectValue ms), Reads i.1 i.2 := by
    intro i hi
    obtain ⟨ms, hms, rfl⟩ := mem_map.mp hi
    exact reads_objectUnits (h ms hms)
  have harr := Reads.arr hitems
  rw [map_map, map_map] at harr
  exact ⟨_, htext.ofUtf8, harr.parse⟩

/-! ### Documents -/

theorem document_append (a b : List WriterCall) : document (a ++ b) = document a ++ document b :=
  flatMap_append

theorem intercalate_objectText {α : Type*} (f : α → List Member) (a : α) (l : List α) :
    [44].intercalate (((a :: l).map f).map objectText) =
      objectText (f a) ++ l.flatMap fun b => 44 :: objectText (f b) := by
  rw [map_cons, map_cons, intercalate_cons_eq_flatMap, map_map, flatMap_map]
  rfl

/-- A document that is an array of objects parses to it. -/
theorem parse_document {α : Type*} {calls : List WriterCall} {f : α → List Member} {l : List α}
    (hf : ∀ a, f a ≠ []) (h : document calls = arrayText (l.map f)) :
    ∃ text, ofUtf8 (document calls) = some text ∧
      parse text = some (.arr (l.map fun a => objectValue (f a))) := by
  have hobjs : ∀ ms ∈ l.map f, ms ≠ [] := by
    intro ms hms
    obtain ⟨a, -, rfl⟩ := mem_map.mp hms
    exact hf a
  obtain ⟨text, htext, hparse⟩ := parse_arrayText hobjs
  rw [← h] at htext
  rw [map_map] at hparse
  exact ⟨text, htext, hparse⟩

/-! ### How long a document gets -/

theorem length_jsonByte_le (c : UInt8) : (jsonByte c).length ≤ 6 := by
  rw [jsonByte]
  split_ifs <;> simp

theorem length_jsonString_le (s : Bytes) : (jsonString s).length ≤ 6 * s.length + 2 := by
  have hbody : (s.flatMap jsonByte).length ≤ 6 * s.length := by
    induction s with
    | nil => exact Nat.le_refl 0
    | cons c s ih =>
      have hc := length_jsonByte_le c
      rw [flatMap_cons, length_append, length_cons]
      omega
  simp only [jsonString, length_append, length_singleton]
  omega

theorem length_jsonMember_le (k v : Bytes) (comma : Bool) :
    (jsonMember k v comma).length ≤ 6 * k.length + v.length + 4 := by
  have hk := length_jsonString_le k
  have hcomma : (if comma then [44] else [] : Bytes).length ≤ 1 := by cases comma <;> decide
  simp only [jsonMember, length_append, length_singleton]
  omega

theorem length_membersText_le {ms : List Member} {k n : ℕ}
    (h : ∀ m ∈ ms, m.key.length ≤ k ∧ m.text.length ≤ n) :
    (membersText ms).length ≤ ms.length * (6 * k + n + 4) := by
  induction ms with
  | nil => exact Nat.zero_le _
  | cons m ms ih =>
    obtain ⟨hm, hms⟩ := forall_mem_cons.mp h
    have hmember := length_jsonMember_le m.key m.text
    have htail := ih hms
    rw [length_cons, Nat.succ_mul]
    cases ms with
    | nil =>
      have := hmember false
      rw [membersText]
      omega
    | cons m' ms =>
      have := hmember true
      rw [membersText, length_append]
      · omega
      · nofun

/-- An array of `l` objects, each with a text of at most `n` bytes. -/
theorem length_arrayText_le {objs : List (List Member)} {n : ℕ}
    (h : ∀ ms ∈ objs, (membersText ms).length ≤ n) :
    (arrayText objs).length ≤ objs.length * (n + 3) + 2 := by
  have hitems : ([44].intercalate (objs.map objectText)).length ≤ objs.length * (n + 3) := by
    induction objs with
    | nil => exact Nat.zero_le _
    | cons ms objs ih =>
      obtain ⟨hms, hobjs⟩ := forall_mem_cons.mp h
      have htail := ih hobjs
      have hobject : (objectText ms).length ≤ n + 2 := by
        simp only [objectText, length_append, length_singleton]
        omega
      rw [length_cons, Nat.succ_mul]
      cases objs with
      | nil =>
        rw [map_singleton, intercalate_singleton]
        omega
      | cons ms' objs =>
        rw [map_cons, map_cons, intercalate_cons_cons, length_append, length_append]
        simp only [map_cons, length_singleton] at htail ⊢
        omega
  simp only [arrayText, length_append, length_singleton]
  omega

/-! ### Names -/

/-- What `jw_kv_name` makes of a name, with its buffer of `NAME_ESC_CAP` bytes. -/
def nameOut (v : Bytes) : Bytes :=
  let r := anyfsNameEscape v 769
  if r.rc < 0 then [] else r.out

/-- `jw_kv_name`. -/
def kvName (k v : Bytes) (trailingComma : Bool) : WriterCall := .kvStr k (nameOut v) trailingComma

theorem nameOut_eq {v : Bytes} (h : v.length ≤ 256) : nameOut v = escaped v := by
  have hlen : (escaped v).length ≤ 3 * v.length := (length_escapeText le_rfl).2
  have hescape : anyfsNameEscape v 769 = .ofOut (some (escaped v)) := by
    rw [anyfsNameEscape_eq, if_pos (by omega)]
  rw [nameOut, hescape, NameRet.rc_ofOut (by omega)]
  exact if_neg (Int.not_lt.mpr (Int.natCast_nonneg _))

end Anyfs
