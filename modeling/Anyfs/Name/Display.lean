import Anyfs.Name.Js

/-!
# Names for display

A name that is not UTF-8 is shown with `\xNN` for the bytes that are not, or decoded in a legacy
encoding. `displayName` works on the escaped name and keeps the well-formed sequences
(`exists_shown`). `anyfs_legacy_decode` tests the bytes of an invalid name one at a time, so that
the bytes of well-formed characters are shown as `\xNN`, too.
-/

namespace Anyfs

open List

open List CString Utf8

/-- The settings of the legacy encoding. -/
inductive LegacyEncoding where
  | off
  | gb18030
  | big5
  | shiftJis
  | eucKr
  | windows1252
  deriving DecidableEq

def upperHex (d : ℕ) : UInt8 := if d < 10 then UInt8.ofNat (48 + d) else UInt8.ofNat (55 + d)

def hexByte (b : UInt8) : Bytes := [92, 120, upperHex (b.toNat / 16), upperHex (b.toNat % 16)]

/-! ### The tools -/

/-- One round of `valid_utf8`: the length of the sequence it passes, or zero when it returns. -/
def validUtf8Round (a : UInt8) (t : Bytes) : ℕ :=
  let c := a.toNat
  let b := (t.getD 0 0).toNat
  let n :=
    if c < 0x80 then 1
    else if 0xC2 ≤ c ∧ c ≤ 0xDF then 2
    else if 0xE0 ≤ c ∧ c ≤ 0xEF then 3
    else if 0xF0 ≤ c ∧ c ≤ 0xF4 then 4
    else 0
  let lo := if c = 0xE0 then 0xA0 else if c = 0xF0 then 0x90 else 0x80
  let hi := if c = 0xED then 0x9F else if c = 0xF4 then 0x8F else 0xBF
  if n = 0 then 0
  else if 3 ≤ n ∧ (b < lo ∨ hi < b) then 0
  else if (range (n - 1)).all fun k => isCont (t.getD k 0) then n
  else 0

/-- The loop of `valid_utf8`, with a bound for the number of rounds. -/
def validUtf8Loop : ℕ → Bytes → Bool
  | 0, _ => true
  | _ + 1, [] => true
  | fuel + 1, a :: t =>
    if validUtf8Round a t = 0 then false
    else validUtf8Loop fuel ((a :: t).drop (validUtf8Round a t))

def validUtf8 (s : Bytes) : Bool := validUtf8Loop s.length s

/-- The loop of `anyfs_legacy_decode`, with `o` bytes written; `none` is the jump to `overflow`. -/
def legacyLoop (cap : ℕ) : ℕ → Bytes → Option Bytes
  | _, [] => some []
  | o, b :: bs =>
    let keep := b < 0x80 || validUtf8 [b]
    let out := if keep then [b] else hexByte b
    if cap ≤ o + out.length then none
    else (legacyLoop cap (o + out.length) bs).map (out ++ ·)

/-- `anyfs_legacy_decode`. The converter of the host gives a text if it can and the text fits. -/
def anyfsLegacyDecode (hostDecode : LegacyEncoding → Bytes → ℕ → Option Bytes)
    (enc : LegacyEncoding) (s : Bytes) (cap : ℕ) : NameRet :=
  .ofOut <|
    if cap = 0 then none
    else if validUtf8 s then if cap ≤ s.length then none else some s
    else
      match if enc = .off then none else hostDecode enc s cap with
      | some text => some text
      | none => legacyLoop cap 0 s

/-! ### The user interface -/

def codePointUnits (cp : ℕ) : List UInt16 :=
  if cp < 0x10000 then [UInt16.ofNat cp]
  else [UInt16.ofNat (0xD800 + (cp - 0x10000) / 1024),
    UInt16.ofNat (0xDC00 + (cp - 0x10000) % 1024)]

def hasEscapedBytes (name : List UInt16) : Bool := (Utf16.codePoints name).any isEscape

/-- The name with its escaped bytes in hex. -/
def hexEscaped (name : List UInt16) : List UInt16 :=
  (Utf16.codePoints name).flatMap fun cp =>
    if isEscape cp then (hexByte (UInt8.ofNat (cp - 0xEF00))).map UInt8.toUInt16
    else codePointUnits cp

/-- `displayName`, with the decoder of the browser. -/
def displayName (textDecoder : LegacyEncoding → Bytes → Option (List UInt16))
    (name : List UInt16) (enc : LegacyEncoding) : List UInt16 :=
  if ¬ hasEscapedBytes name then name
  else
    match if enc = .off then none else textDecoder enc (nameToBytes name) with
    | some text => text
    | none => hexEscaped name

/-! ### The name as it should be shown -/

/-- A name as it should be shown: well-formed sequences are kept, and a byte at which none starts is
shown as `\xNN`. -/
inductive Shown : Bytes → Bytes → Prop
  | nil : Shown [] []
  | seq {seq rest out : Bytes} : IsSeq seq → Shown rest out → Shown (seq ++ rest) (seq ++ out)
  | byte {b : UInt8} {rest out : Bytes} :
      (∀ seq tail, b :: rest = seq ++ tail → ¬ IsSeq seq) → Shown rest out →
      Shown (b :: rest) (hexByte b ++ out)

def HasMultibyte (s : Bytes) : Prop :=
  ∃ u seq v, s = u ++ (seq ++ v) ∧ IsSeq seq ∧ 2 ≤ seq.length

def NoEscapes (s : Bytes) : Prop := ∀ u seq v, s = u ++ (seq ++ v) → ¬ IsEscape seq

def allHex (s : Bytes) : Bytes := s.flatMap fun b => if b < 0x80 then [b] else hexByte b

/-- What the tools show of a name when the encoding is off. -/
def legacyText (s : Bytes) : Bytes := if validUtf8 s then s else allHex s

/-! ### Validity -/

theorem validUtf8Round_eq (a : UInt8) (t : Bytes) : validUtf8Round a t = utf8Seq (a :: t) := by
  have htail : isCont (t.getD 0 0) = true ↔ 0x80 ≤ (t.getD 0 0).toNat ∧ (t.getD 0 0).toNat ≤ 0xBF :=
    isCont_iff
  have hone : ∀ f : ℕ → Bool, (range 1).all f = f 0 := fun f => by simp [range_succ]
  have htwo : ∀ f : ℕ → Bool, (range 2).all f = (f 0 && f 1) := fun f => by
    simp [range_succ]
  have hthree : ∀ f : ℕ → Bool, (range 3).all f = (f 0 && f 1 && f 2) := fun f => by
    simp [range_succ, Bool.and_assoc]
  simp only [validUtf8Round, utf8Seq, getD_cons_zero, getD_cons_succ]
  -- the ranges of the first byte, in the order both functions test them
  by_cases h1 : a.toNat < 0x80
  · simp [h1]
  by_cases h2 : 0xC2 ≤ a.toNat ∧ a.toNat ≤ 0xDF
  · rw [if_neg h1, if_pos h2, if_neg h1, if_pos h2, if_neg (by decide), if_neg (by omega), hone]
  by_cases h3 : 0xE0 ≤ a.toNat ∧ a.toNat ≤ 0xEF
  · rw [if_neg h1, if_neg h2, if_pos h3, if_neg h1, if_neg h2, if_pos h3, if_neg (by decide), htwo,
      if_neg (show a.toNat ≠ 0xF0 by omega), if_neg (show a.toNat ≠ 0xF4 by omega)]
    cases isCont (t.getD 1 0) <;> simp only [Bool.and_eq_true, htail, and_true, and_false,
      reduceCtorEq] <;> split_ifs <;> first | rfl | omega
  by_cases h4 : 0xF0 ≤ a.toNat ∧ a.toNat ≤ 0xF4
  · rw [if_neg h1, if_neg h2, if_neg h3, if_pos h4, if_neg h1, if_neg h2, if_neg h3, if_pos h4,
      if_neg (by decide), hthree, if_neg (show a.toNat ≠ 0xE0 by omega),
      if_neg (show a.toNat ≠ 0xED by omega)]
    cases isCont (t.getD 1 0) <;> cases isCont (t.getD 2 0) <;>
      simp only [Bool.and_eq_true, htail, and_true, and_false, reduceCtorEq] <;>
      split_ifs <;> first | rfl | omega
  · rw [if_neg h1, if_neg h2, if_neg h3, if_neg h4, if_neg h1, if_neg h2, if_neg h3, if_neg h4,
      if_pos rfl]

theorem isSeq_append_inj {seq seq' rest rest' : Bytes} (h : IsSeq seq) (h' : IsSeq seq')
    (heq : seq ++ rest = seq' ++ rest') : seq = seq' ∧ rest = rest' := by
  refine append_inj heq ?_
  rw [← utf8Seq_append h rest, heq, utf8Seq_append h']

theorem exists_of_valid_cons {a : UInt8} {t : Bytes} (h : Valid (a :: t)) :
    ∃ seq rest, a :: t = seq ++ rest ∧ IsSeq seq ∧ Valid rest := by
  obtain ⟨cs, hcs⟩ := h
  cases cs with
  | nil => exact absurd hcs (cons_ne_nil _ _)
  | cons c cs => exact ⟨_, _, hcs, isSeq_encodeChar c, cs, rfl⟩

theorem valid_of_append {seq rest : Bytes} (hseq : IsSeq seq) (h : Valid (seq ++ rest)) :
    Valid rest := by
  obtain ⟨a, t, hat⟩ : ∃ a t, seq ++ rest = a :: t := by cases hseq <;> exact ⟨_, _, rfl⟩
  obtain ⟨seq', rest', heq, hseq', hrest'⟩ := exists_of_valid_cons (hat ▸ h)
  obtain ⟨-, rfl⟩ := isSeq_append_inj hseq hseq' (hat.trans heq)
  exact hrest'

theorem validUtf8Loop_iff {fuel : ℕ} {s : Bytes} (h : s.length ≤ fuel) :
    validUtf8Loop fuel s = true ↔ Valid s := by
  induction fuel generalizing s with
  | zero =>
    rw [length_eq_zero_iff.mp (Nat.le_zero.mp h)]
    exact iff_of_true rfl .nil
  | succ fuel ih =>
    cases s with
    | nil => exact iff_of_true rfl .nil
    | cons a t =>
      rw [validUtf8Loop, validUtf8Round_eq]
      rcases utf8Seq_cases a t with ⟨seq, rest, hs, hseq⟩ | ⟨hzero, -⟩
      · have hpos := hseq.length_pos
        rw [hs, length_append] at h
        rw [hs, utf8Seq_append hseq, if_neg (by omega), drop_left, ih (by omega)]
        exact ⟨hseq.append_valid, valid_of_append hseq⟩
      · rw [if_pos hzero]
        refine iff_of_false Bool.false_ne_true fun hvalid => ?_
        obtain ⟨seq, rest, heq, hseq, -⟩ := exists_of_valid_cons hvalid
        have hpos := hseq.length_pos
        rw [heq, utf8Seq_append hseq] at hzero
        omega

theorem validUtf8_iff {s : Bytes} : validUtf8 s = true ↔ Valid s := validUtf8Loop_iff le_rfl

/-! ### What the tools show -/

@[simp]
theorem length_hexByte (b : UInt8) : (hexByte b).length = 4 := rfl

theorem not_valid_singleton {b : UInt8} (h : ¬ b < 0x80) : validUtf8 [b] = false := by
  have hall : ∀ b : UInt8, ¬ b < 0x80 → validUtf8 [b] = false :=
    UInt8.forall_of_lt (by decide +kernel)
  exact hall b h

theorem allHex_cons (b : UInt8) (s : Bytes) :
    allHex (b :: s) = (if b < 0x80 then [b] else hexByte b) ++ allHex s := rfl

theorem allHex_append (s s' : Bytes) : allHex (s ++ s') = allHex s ++ allHex s' :=
  flatMap_append

theorem legacyLoop_eq {cap o : ℕ} {s : Bytes} (h : o + (allHex s).length < cap) :
    legacyLoop cap o s = some (allHex s) := by
  induction s generalizing o with
  | nil => rfl
  | cons b s ih =>
    rw [allHex_cons, length_append] at h
    rw [legacyLoop, allHex_cons]
    by_cases hb : b < 0x80
    · simp only [hb, decide_true, Bool.true_or, if_true, length_singleton] at h ⊢
      rw [if_neg (by omega), ih (by omega), Option.map_some]
    · simp only [hb, decide_false, Bool.false_or, not_valid_singleton hb, if_false,
        Bool.false_eq_true, length_hexByte] at h ⊢
      rw [if_neg (by omega), ih (by omega), Option.map_some]

theorem anyfsLegacyDecode_off (host : LegacyEncoding → Bytes → ℕ → Option Bytes) {s : Bytes}
    {cap : ℕ} (h : (legacyText s).length < cap) :
    anyfsLegacyDecode host .off s cap = .ofOut (some (legacyText s)) := by
  rw [anyfsLegacyDecode, if_neg (by omega), if_pos (rfl : LegacyEncoding.off = .off)]
  rw [legacyText] at h ⊢
  split_ifs at h ⊢ with hvalid hcap
  · omega
  · rfl
  · rw [legacyLoop_eq (by omega)]

/-! ### What the user interface shows -/

/-- The text of an escaped name in which every escape is shown as `\xNN`. -/
def shownChars (cs : List Char) : Bytes :=
  cs.flatMap fun c =>
    if isEscape c.val.toNat then hexByte (UInt8.ofNat (c.val.toNat - 0xEF00))
    else String.utf8EncodeChar c

theorem transcodes_hexByte (b : UInt8) :
    Utf16.Transcodes (hexByte b) ((hexByte b).map UInt8.toUInt16) := by
  refine Utf16.Transcodes.ascii fun c hc => ?_
  have hall : ∀ b : UInt8, (hexByte b).all (·.toNat < 0x80) = true :=
    UInt8.forall_of_lt (by decide +kernel)
  exact of_decide_eq_true (all_eq_true.mp (hall b) c hc)

theorem transcodes_hexEscaped (cs : List Char) :
    Utf16.Transcodes (shownChars cs) (hexEscaped (Utf16.encode cs)) := by
  rw [hexEscaped, Utf16.codePoints_encode, flatMap_map, shownChars]
  induction cs with
  | nil => exact .nil
  | cons c cs ih =>
    rw [flatMap_cons, flatMap_cons]
    refine Utf16.Transcodes.append ?_ ih
    split_ifs
    · exact transcodes_hexByte _
    · exact ⟨[c], (append_nil _).symm, (append_nil _).symm⟩

theorem toUtf8_displayName (td : LegacyEncoding → Bytes → Option (List UInt16)) (cs : List Char) :
    Utf16.toUtf8 (displayName td (Utf16.encode cs) .off) = shownChars cs := by
  rw [displayName, if_pos (rfl : LegacyEncoding.off = .off)]
  split_ifs with hnone
  · exact (transcodes_hexEscaped cs).toUtf8
  · -- without escapes both are the text itself
    rw [Utf16.toUtf8_encode, shownChars, encode]
    refine flatMap_congr fun c hc => ?_
    have hc' : isEscape c.val.toNat = false := by
      rw [hasEscapedBytes, Utf16.codePoints_encode, any_map, any_eq_true] at hnone
      rw [Bool.eq_false_iff]
      exact fun h => hnone ⟨c, hc, h⟩
    rw [hc', if_neg Bool.false_ne_true]

theorem exists_escapeChar {b : UInt8} (h : 0x80 ≤ b.toNat) :
    ∃ c : Char, c.val.toNat = 0xEF00 + b.toNat ∧ String.utf8EncodeChar c = escapeByte b := by
  have hlt : b.toNat < 256 := b.toNat_lt
  obtain ⟨c, hc⟩ := exists_char (v := 0xEF00 + b.toNat) (by omega)
  have hbytes : ∀ b : UInt8, 0x80 ≤ b.toNat → [UInt8.ofNat ((0xEF00 + b.toNat) / 4096 % 16 + 0xE0),
        UInt8.ofNat ((0xEF00 + b.toNat) / 64 % 64 + 0x80),
        UInt8.ofNat ((0xEF00 + b.toNat) % 64 + 0x80)] = escapeByte b :=
    UInt8.forall_of_lt (by decide +kernel)
  refine ⟨c, hc, ?_⟩
  rw [encodeChar_eq hc, if_neg (by omega), if_neg (by omega), if_pos (by omega), hbytes b h]

theorem NoEscapes.of_append {u s : Bytes} (h : NoEscapes (u ++ s)) : NoEscapes s := by
  intro u' seq v heq
  exact h (u ++ u') seq v (by rw [heq, append_assoc])

theorem exists_shown {fuel : ℕ} {s : Bytes} (hfuel : s.length ≤ fuel) (h : NoEscapes s) :
    ∃ cs, escapeText fuel s = encode cs ∧ Shown s (shownChars cs) := by
  induction fuel generalizing s with
  | zero =>
    rw [length_eq_zero_iff.mp (Nat.le_zero.mp hfuel)]
    exact ⟨[], rfl, .nil⟩
  | succ fuel ih =>
    cases s with
    | nil => exact ⟨[], rfl, .nil⟩
    | cons a t =>
      rcases utf8Seq_cases a t with ⟨seq, rest, hs, hseq⟩ | ⟨hzero, ha⟩
      · have hesc : ¬ IsEscape seq := h [] seq rest hs
        have hpos := hseq.length_pos
        rw [hs] at hfuel h ⊢
        rw [length_append] at hfuel
        obtain ⟨cs, hcs, hshown⟩ := ih (s := rest) (by omega) h.of_append
        obtain ⟨c, rfl⟩ := isSeq_iff.mp hseq
        have hc : isEscape c.val.toNat = false := by
          rw [Bool.eq_false_iff, Ne, isEscape_val_iff, ← isEscape_encodeChar_iff]
          exact hesc
        refine ⟨c :: cs, ?_, ?_⟩
        · rw [escapeText_copy fuel hseq hesc, hcs, encode_cons]
        · have hfirst : shownChars (c :: cs) = String.utf8EncodeChar c ++ shownChars cs := by
            rw [shownChars, flatMap_cons, hc, if_neg Bool.false_ne_true]
            rfl
          rw [hfirst]
          exact .seq hseq hshown
      · rw [length_cons] at hfuel
        obtain ⟨cs, hcs, hshown⟩ := ih (s := t) (by omega) (h.of_append (u := [a]))
        obtain ⟨c, hc, hbytes⟩ := exists_escapeChar ha
        have hlt : a.toNat < 256 := a.toNat_lt
        have hnoseq : ∀ seq tail, a :: t = seq ++ tail → ¬ IsSeq seq := by
          intro seq tail heq hseq
          have hpos := hseq.length_pos
          rw [heq, utf8Seq_append hseq] at hzero
          omega
        have hrange : isEscape c.val.toNat = true := by
          rw [isEscape_val_iff, IsEscapeRange]
          omega
        refine ⟨c :: cs, ?_, ?_⟩
        · rw [escapeText_byte fuel hzero, hcs, encode_cons, hbytes]
        · have hfirst : shownChars (c :: cs) = hexByte a ++ shownChars cs := by
            rw [shownChars, flatMap_cons, hrange, if_pos rfl, hc, Nat.add_sub_cancel_left,
              UInt8.ofNat_toNat]
            rfl
          rw [hfirst]
          exact .byte hnoseq hshown

/-! ### The two compared -/

namespace Shown

variable {s d : Bytes}

theorem eq_of_valid (h : Shown s d) (hvalid : Valid s) : d = s := by
  induction h with
  | nil => rfl
  | seq hseq _ ih => rw [ih (valid_of_append hseq hvalid)]
  | byte hno _ _ =>
    obtain ⟨seq, rest, heq, hseq, -⟩ := exists_of_valid_cons hvalid
    exact absurd hseq (hno seq rest heq)

theorem not_ascii_of_no_seq {b : UInt8} {rest : Bytes}
    (h : ∀ seq tail, b :: rest = seq ++ tail → ¬ IsSeq seq) : ¬ b < 0x80 := fun hb =>
  h [b] rest rfl (.one hb)

theorem isSeq_cases {seq : Bytes} (h : IsSeq seq) :
    (∃ a, seq = [a] ∧ a < 0x80) ∨ 2 ≤ seq.length ∧ ∀ b ∈ seq, ¬ b < 0x80 := by
  have hhigh : ∀ {b : UInt8}, 0x80 ≤ b.toNat → ¬ b < 0x80 := fun hb h =>
    absurd (UInt8.lt_iff_toNat_lt.mp h) (Nat.not_lt.mpr hb)
  cases h with
  | @one a ha => exact .inl ⟨a, rfl, UInt8.lt_iff_toNat_lt.mpr ha⟩
  | two ha hb =>
    refine .inr ⟨by simp, ?_⟩
    simp only [mem_cons, not_mem_nil, or_false, forall_eq_or_imp, forall_eq]
    exact ⟨hhigh (by omega), hhigh hb.1⟩
  | three ha hb _ _ hc =>
    refine .inr ⟨by simp, ?_⟩
    simp only [mem_cons, not_mem_nil, or_false, forall_eq_or_imp, forall_eq]
    exact ⟨hhigh (by omega), hhigh hb.1, hhigh hc.1⟩
  | four ha hb _ _ hc hd =>
    refine .inr ⟨by simp, ?_⟩
    simp only [mem_cons, not_mem_nil, or_false, forall_eq_or_imp, forall_eq]
    exact ⟨hhigh (by omega), hhigh hb.1, hhigh hc.1, hhigh hd.1⟩

theorem length_allHex {seq : Bytes} (h : ∀ b ∈ seq, ¬ b < 0x80) :
    (allHex seq).length = 4 * seq.length := by
  induction seq with
  | nil => rfl
  | cons b seq ih =>
    obtain ⟨hb, hseq⟩ := forall_mem_cons.mp h
    rw [allHex_cons, if_neg hb, length_append, ih hseq, length_hexByte, length_cons]
    omega

theorem allHex_ascii {a : UInt8} (ha : a < 0x80) : allHex [a] = [a] := by
  rw [allHex_cons, if_pos ha]
  rfl

theorem length_le (h : Shown s d) : d.length ≤ (allHex s).length := by
  induction h with
  | nil => exact le_rfl
  | seq hseq _ ih =>
    rw [allHex_append, length_append, length_append]
    rcases isSeq_cases hseq with ⟨a, rfl, ha⟩ | ⟨-, hhigh⟩
    · rw [allHex_ascii ha]
      omega
    · rw [length_allHex hhigh]
      omega
  | byte hno _ ih =>
    rw [allHex_cons, if_neg (not_ascii_of_no_seq hno), length_append, length_append]
    omega

theorem eq_allHex (h : Shown s d) (hsingle : ¬ HasMultibyte s) : d = allHex s := by
  induction h with
  | nil => rfl
  | @seq seq rest out hseq _ ih =>
    have hrest : ¬ HasMultibyte rest := fun ⟨u, seq', v, heq, hseq'⟩ =>
      hsingle ⟨seq ++ u, seq', v, by rw [heq, append_assoc], hseq'⟩
    rcases isSeq_cases hseq with ⟨a, rfl, ha⟩ | ⟨htwo, -⟩
    · rw [allHex_append, allHex_ascii ha, ih hrest]
    · exact absurd ⟨[], seq, rest, rfl, hseq, htwo⟩ hsingle
  | @byte b rest out hno _ ih =>
    have hrest : ¬ HasMultibyte rest := fun ⟨u, seq', v, heq, hseq'⟩ =>
      hsingle ⟨b :: u, seq', v, by rw [heq, cons_append], hseq'⟩
    rw [allHex_cons, if_neg (not_ascii_of_no_seq hno), ih hrest]

theorem not_hasMultibyte (h : Shown s d) (heq : d = allHex s) : ¬ HasMultibyte s := by
  induction h with
  | nil =>
    rintro ⟨u, seq, v, hs, hseq, hlen⟩
    have := congrArg length hs
    simp only [length_nil, length_append] at this
    omega
  | @seq seq rest out hseq hrest ih =>
    have hle := hrest.length_le
    rw [allHex_append] at heq
    have hlen := congrArg length heq
    rw [length_append, length_append] at hlen
    rcases isSeq_cases hseq with ⟨a, rfl, ha⟩ | ⟨htwo, hhigh⟩
    · rw [allHex_ascii ha] at heq
      have hsingle := ih (append_cancel_left heq)
      rintro ⟨u, seq', v, hs, hseq', hlen'⟩
      cases u with
      | nil =>
        -- a character that begins with this byte is the byte alone
        obtain ⟨rfl, -⟩ := isSeq_append_inj hseq hseq' hs
        simp at hlen'
      | cons x u => exact hsingle ⟨u, seq', v, (cons.inj hs).2, hseq', hlen'⟩
    · rw [length_allHex hhigh] at hlen
      omega
  | @byte b rest out hno hrest ih =>
    rw [allHex_cons, if_neg (not_ascii_of_no_seq hno)] at heq
    have hsingle := ih (append_cancel_left heq)
    rintro ⟨u, seq, v, hs, hseq, hlen⟩
    cases u with
    | nil => exact hno seq v hs hseq
    | cons x u => exact hsingle ⟨u, seq, v, (cons.inj hs).2, hseq, hlen⟩

end Shown

/-- With the encoding off, the user interface shows every name as it should be, and the tools show
it alike exactly when the name is valid or has no character of more than one byte. -/
theorem anyfsLegacyDecode_eq_displayName (hostDecode : LegacyEncoding → Bytes → ℕ → Option Bytes)
    (textDecoder : LegacyEncoding → Bytes → Option (List UInt16)) {s e : Bytes} {name : List UInt16}
    {cap : ℕ} (hesc : NoEscapes s) (he : EscapedTo s e) (hname : Utf16.ofUtf8 e = some name)
    (hcap : (legacyText s).length < cap) :
    Shown s (Utf16.toUtf8 (displayName textDecoder name .off)) ∧
      (anyfsLegacyDecode hostDecode .off s cap =
          .ofOut (some (Utf16.toUtf8 (displayName textDecoder name .off))) ↔
        Valid s ∨ ¬ HasMultibyte s) := by
  obtain ⟨cs, hcs, hshown⟩ := exists_shown le_rfl hesc
  obtain rfl : Utf16.encode cs = name := by
    rw [he.eq, escaped, hcs, Utf16.ofUtf8_encode] at hname
    exact Option.some.inj hname
  rw [toUtf8_displayName, anyfsLegacyDecode_off hostDecode hcap]
  refine ⟨hshown, ?_⟩
  constructor
  · intro h
    have hout : legacyText s = shownChars cs := congrArg NameRet.out h
    rw [legacyText] at hout
    by_cases hvalid : Valid s
    · exact .inl hvalid
    · rw [if_neg (mt validUtf8_iff.mp hvalid)] at hout
      exact .inr (hshown.not_hasMultibyte hout.symm)
  · intro h
    rw [legacyText]
    by_cases hvalid : Valid s
    · rw [if_pos (validUtf8_iff.mpr hvalid), hshown.eq_of_valid hvalid]
    · rw [if_neg (mt validUtf8_iff.mp hvalid), hshown.eq_allHex (h.resolve_left hvalid)]

/-- The byte `FF` alone. -/
theorem anyfsLegacyDecode_eq_displayName_byte :
    NoEscapes [0xFF] ∧ EscapedTo [0xFF] [0xEE, 0xBF, 0xBF] ∧
      Utf16.ofUtf8 [0xEE, 0xBF, 0xBF] = some [0xEFFF] ∧
      Shown [0xFF] (Utf16.toUtf8 (displayName (fun _ _ => none) [0xEFFF] .off)) ∧
      (anyfsLegacyDecode (fun _ _ _ => none) .off [0xFF] 5 =
          .ofOut (some (Utf16.toUtf8 (displayName (fun _ _ => none) [0xEFFF] .off))) ↔
        Valid [0xFF] ∨ ¬ HasMultibyte [0xFF]) := by
  have hesc : NoEscapes [0xFF] := by
    rintro u seq v heq hseq
    have hlen := congrArg length heq
    have := hseq.length_eq
    simp only [length_cons, length_nil, length_append] at hlen
    omega
  have he : EscapedTo [0xFF] [0xEE, 0xBF, 0xBF] := ⟨4, by decide +kernel⟩
  have hname : Utf16.ofUtf8 [0xEE, 0xBF, 0xBF] = some [0xEFFF] := by
    exact Utf16.ofUtf8_encode [Char.ofNat 0xEFFF]
  exact ⟨hesc, he, hname,
    anyfsLegacyDecode_eq_displayName (fun _ _ _ => none) (fun _ _ => none) hesc he hname
    (by decide)⟩

/-- The character `é` before the byte `FF` is shown as two bytes by the tools. -/
theorem anyfsLegacyDecode_mixed :
    NoEscapes [0xC3, 0xA9, 0xFF] ∧ EscapedTo [0xC3, 0xA9, 0xFF] [0xC3, 0xA9, 0xEE, 0xBF, 0xBF] ∧
      Utf16.ofUtf8 [0xC3, 0xA9, 0xEE, 0xBF, 0xBF] = some [0xE9, 0xEFFF] ∧
      Utf16.toUtf8 (displayName (fun _ _ => none) [0xE9, 0xEFFF] .off) =
        [0xC3, 0xA9] ++ hexByte 0xFF ∧
      anyfsLegacyDecode (fun _ _ _ => none) .off [0xC3, 0xA9, 0xFF] 13 =
        ⟨12, hexByte 0xC3 ++ hexByte 0xA9 ++ hexByte 0xFF⟩ := by
  refine ⟨?_, ⟨6, by decide +kernel⟩, ?_, by decide +kernel, by decide +kernel⟩
  · rintro u seq v heq ⟨b, c, rfl, -⟩
    have hmem : (0xEE : UInt8) ∈ u ++ ([0xEE, b, c] ++ v) := by simp
    rw [← heq] at hmem
    exact absurd hmem (by decide)
  · exact Utf16.ofUtf8_encode [Char.ofNat 0xE9, Char.ofNat 0xEFFF]

end Anyfs
