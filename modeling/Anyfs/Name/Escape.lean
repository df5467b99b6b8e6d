import Anyfs.Lib.Utf8
import Anyfs.Path.Dsl

/-!
# Names on their way to JavaScript

`anyfs_name_escape` copies strict UTF-8 and replaces every other byte by a private character
`U+EF80` to `U+EFFF`; characters in this range are replaced byte by byte. `anyfs_name_unescape` goes
back.
-/

namespace Anyfs

open List

open List Utf8

/-- `(b & 0xC0) == 0x80`. -/
def isCont (b : UInt8) : Bool := b &&& 0xC0 == 0x80

/-- `utf8_seq`; behind the end of the string is a zero byte. -/
def utf8Seq (s : Bytes) : ℕ :=
  let c := (s.getD 0 0).toNat
  let b := (s.getD 1 0).toNat
  if c < 0x80 then 1
  else if 0xC2 ≤ c ∧ c ≤ 0xDF then if isCont (s.getD 1 0) then 2 else 0
  else if 0xE0 ≤ c ∧ c ≤ 0xEF then
    let lo := if c = 0xE0 then 0xA0 else 0x80
    let hi := if c = 0xED then 0x9F else 0xBF
    if lo ≤ b ∧ b ≤ hi ∧ isCont (s.getD 2 0) then 3 else 0
  else if 0xF0 ≤ c ∧ c ≤ 0xF4 then
    let lo := if c = 0xF0 then 0x90 else 0x80
    let hi := if c = 0xF4 then 0x8F else 0xBF
    if lo ≤ b ∧ b ≤ hi ∧ isCont (s.getD 2 0) ∧ isCont (s.getD 3 0) then 4 else 0
  else 0

/-- `is_escape_char`: `U+EF80` to `U+EFFF` is `EE BE 80` to `EE BF BF`. -/
def isEscapeChar (s : Bytes) : Bool :=
  s.getD 0 0 = 0xEE ∧ (s.getD 1 0 = 0xBE ∨ s.getD 1 0 = 0xBF) ∧ isCont (s.getD 2 0)

/-- The three bytes for a byte. -/
def escapeByte (b : UInt8) : Bytes :=
  [0xEE, if 0xC0 ≤ b then 0xBF else 0xBE, 0x80 ||| (b &&& 0x3F)]

/-- The byte of an escape. -/
def unescapeByte (b c : UInt8) : UInt8 := (if b = 0xBF then 0xC0 else 0x80) ||| (c &&& 0x3F)

/-! ### Escaping -/

/-- The loop that escapes single bytes, with `o` bytes written; `none` is the jump to `overflow`. -/
def escapeBytes (cap o : ℕ) : Bytes → Option Bytes
  | [] => some []
  | b :: bs =>
    if cap ≤ o + 3 then none else (escapeBytes cap (o + 3) bs).map (escapeByte b ++ ·)

/-- The loop of `anyfs_name_escape`. The first argument bounds the number of rounds. -/
def escapeLoop (cap : ℕ) : ℕ → ℕ → Bytes → Option Bytes
  | 0, _, _ => some []
  | _ + 1, _, [] => some []
  | fuel + 1, o, b :: t =>
    let s := b :: t
    let n := utf8Seq s
    if n ≠ 0 ∧ ¬ (n = 3 ∧ isEscapeChar s) then
      if cap ≤ o + n then none
      else (escapeLoop cap fuel (o + n) (s.drop n)).map (s.take n ++ ·)
    else do
      let n := if n ≠ 0 then n else 1
      let out ← escapeBytes cap o (s.take n)
      let rest ← escapeLoop cap fuel (o + out.length) (s.drop n)
      return out ++ rest

/-- The return value, an `int`, and the string in the output buffer. -/
structure NameRet where
  rc : ℤ
  out : Bytes
  deriving DecidableEq

def NameRet.ofOut : Option Bytes → NameRet
  | some out => ⟨Int.bmod out.length (2 ^ 32), out⟩
  | none => ⟨-1, []⟩

theorem NameRet.rc_ofOut {out : Bytes} (h : out.length < 2 ^ 31) :
    (NameRet.ofOut (some out)).rc = out.length := by
  have hbmod : ∀ n : ℕ, n < 2 ^ 31 → Int.bmod n (2 ^ 32) = n := fun n hn ↦
    Int.bmod_eq_of_le (by omega) (by omega)
  unfold NameRet.ofOut
  dsimp only
  exact hbmod _ h

def anyfsNameEscape (s : Bytes) (cap : ℕ) : NameRet :=
  .ofOut (if cap = 0 then none else escapeLoop cap s.length 0 s)

/-! ### Unescaping -/

/-- The loop of `anyfs_name_unescape`, with `o` bytes written. -/
def unescapeLoop (cap : ℕ) : ℕ → Bytes → Option Bytes
  | _, [] => some []
  | o, a :: b :: c :: t =>
    if cap ≤ o + 1 then none
    else if isEscapeChar [a, b, c] then (unescapeLoop cap (o + 1) t).map (unescapeByte b c :: ·)
    else (unescapeLoop cap (o + 1) (b :: c :: t)).map (a :: ·)
  | o, a :: t => if cap ≤ o + 1 then none else (unescapeLoop cap (o + 1) t).map (a :: ·)

def anyfsNameUnescape (s : Bytes) (cap : ℕ) : NameRet :=
  .ofOut (if cap = 0 then none else unescapeLoop cap 0 s)

/-! ### The complete texts -/

/-- What `escapeLoop` writes when there is room. -/
def escapeText : ℕ → Bytes → Bytes
  | 0, _ => []
  | _ + 1, [] => []
  | fuel + 1, b :: t =>
    let s := b :: t
    let n := utf8Seq s
    if n ≠ 0 ∧ ¬ (n = 3 ∧ isEscapeChar s) then s.take n ++ escapeText fuel (s.drop n)
    else
      let n := if n ≠ 0 then n else 1
      (s.take n).flatMap escapeByte ++ escapeText fuel (s.drop n)

def escaped (s : Bytes) : Bytes := escapeText s.length s

def unescaped : Bytes → Bytes
  | [] => []
  | a :: b :: c :: t =>
    if isEscapeChar [a, b, c] then unescapeByte b c :: unescaped t else a :: unescaped (b :: c :: t)
  | a :: t => a :: unescaped t

/-! ### Sequences -/

variable {b : UInt8} {seq : Bytes}

theorem isCont_iff : isCont b = true ↔ IsTail b := by
  refine UInt8.forall_of_lt (P := fun b => isCont b = true ↔ IsTail b) ?_ b
  unfold IsTail
  decide +kernel

theorem utf8Seq_append (h : IsSeq seq) (rest : Bytes) : utf8Seq (seq ++ rest) = seq.length := by
  cases h with
  | one ha => simp [utf8Seq, ha]
  | two ha hb =>
    have hcont := isCont_iff.mpr hb
    simp only [utf8Seq, cons_append, nil_append, getD_cons_zero, getD_cons_succ,
      length_cons, length_nil]
    rw [if_neg (by omega), if_pos ha, if_pos hcont]
  | three ha hb hlo hhi hc =>
    have hcont := isCont_iff.mpr hc
    obtain ⟨hb0, hb1⟩ := hb
    simp only [utf8Seq, cons_append, nil_append, getD_cons_zero, getD_cons_succ,
      length_cons, length_nil]
    rw [if_neg (by omega), if_neg (by omega), if_pos ha, if_pos]
    refine ⟨?_, ?_, hcont⟩ <;> split_ifs <;> omega
  | four ha hb hlo hhi hc hd =>
    have hcont := isCont_iff.mpr hc
    have hcont' := isCont_iff.mpr hd
    obtain ⟨hb0, hb1⟩ := hb
    simp only [utf8Seq, cons_append, nil_append, getD_cons_zero, getD_cons_succ,
      length_cons, length_nil]
    rw [if_neg (by omega), if_neg (by omega), if_neg (by omega), if_pos ha, if_pos]
    refine ⟨?_, ?_, hcont, hcont'⟩ <;> split_ifs <;> omega

theorem lt_length_of_isCont {t : Bytes} {i : ℕ} (h : isCont (t.getD i 0) = true) :
    i < t.length := by
  by_contra hi
  rw [getD_eq_default _ _ (Nat.le_of_not_lt hi)] at h
  exact absurd h (by decide)

theorem utf8Seq_cases (a : UInt8) (t : Bytes) :
    (∃ seq rest, a :: t = seq ++ rest ∧ IsSeq seq) ∨ utf8Seq (a :: t) = 0 ∧ 0x80 ≤ a.toNat := by
  simp only [utf8Seq, getD_cons_zero, getD_cons_succ]
  by_cases h1 : a.toNat < 0x80
  · exact .inl ⟨[a], t, rfl, .one h1⟩
  rw [if_neg h1]
  have ha : 0x80 ≤ a.toNat := Nat.le_of_not_lt h1
  -- the ranges of the first byte, in the order the function tests them
  by_cases h2 : 0xC2 ≤ a.toNat ∧ a.toNat ≤ 0xDF
  · rw [if_pos h2]
    by_cases hb : isCont (t.getD 0 0) = true
    · obtain ⟨b, t, rfl⟩ := exists_cons_of_length_pos (lt_length_of_isCont hb)
      exact .inl ⟨[a, b], t, rfl, .two h2 (isCont_iff.mp hb)⟩
    · exact .inr ⟨if_neg hb, ha⟩
  rw [if_neg h2]
  by_cases h3 : 0xE0 ≤ a.toNat ∧ a.toNat ≤ 0xEF
  · rw [if_pos h3]
    by_cases hbc : (if a.toNat = 0xE0 then 0xA0 else 0x80) ≤ (t.getD 0 0).toNat ∧
        (t.getD 0 0).toNat ≤ (if a.toNat = 0xED then 0x9F else 0xBF) ∧ isCont (t.getD 1 0) = true
    · -- a continuation byte is not zero, so the text is long enough
      obtain ⟨hlo, hhi, hc⟩ := hbc
      obtain ⟨b, c, t, rfl⟩ : ∃ b c u, t = b :: c :: u := by
        match t, lt_length_of_isCont hc with
        | b :: c :: u, _ => exact ⟨b, c, u, rfl⟩
      rw [getD_cons_zero] at hlo hhi
      refine .inl ⟨[a, b, c], t, rfl, .three h3 ⟨?_, ?_⟩ ?_ ?_ (isCont_iff.mp hc)⟩ <;>
        split_ifs at hlo hhi <;> omega
    · exact .inr ⟨if_neg hbc, ha⟩
  rw [if_neg h3]
  by_cases h4 : 0xF0 ≤ a.toNat ∧ a.toNat ≤ 0xF4
  · rw [if_pos h4]
    by_cases hbcd : (if a.toNat = 0xF0 then 0x90 else 0x80) ≤ (t.getD 0 0).toNat ∧
        (t.getD 0 0).toNat ≤ (if a.toNat = 0xF4 then 0x8F else 0xBF) ∧
          isCont (t.getD 1 0) = true ∧ isCont (t.getD 2 0) = true
    · obtain ⟨hlo, hhi, hc, hd⟩ := hbcd
      obtain ⟨b, c, d, t, rfl⟩ : ∃ b c d u, t = b :: c :: d :: u := by
        match t, lt_length_of_isCont hd with
        | b :: c :: d :: u, _ => exact ⟨b, c, d, u, rfl⟩
      rw [getD_cons_zero] at hlo hhi
      refine .inl ⟨[a, b, c, d], t, rfl, .four h4 ⟨?_, ?_⟩ ?_ ?_ (isCont_iff.mp hc)
        (isCont_iff.mp hd)⟩ <;> split_ifs at hlo hhi <;> omega
    · exact .inr ⟨if_neg hbcd, ha⟩
  · exact .inr ⟨if_neg h4, ha⟩

theorem utf8Seq_le_length (a : UInt8) (t : Bytes) : utf8Seq (a :: t) ≤ (a :: t).length := by
  rcases utf8Seq_cases a t with ⟨seq, rest, hs, hseq⟩ | ⟨hzero, -⟩
  · rw [hs, utf8Seq_append hseq, length_append]
    exact Nat.le_add_right _ _
  · rw [hzero]
    exact Nat.zero_le _

/-! ### Escapes -/

def IsEscape (seq : Bytes) : Prop :=
  ∃ b c, seq = [0xEE, b, c] ∧ (b = 0xBE ∨ b = 0xBF) ∧ IsTail c

theorem isEscapeChar_append (h : seq.length = 3) (rest : Bytes) :
    isEscapeChar (seq ++ rest) = true ↔ IsEscape seq := by
  match seq, h with
  | [a, b, c], _ =>
    rw [isEscapeChar, decide_eq_true_iff]
    constructor
    · rintro ⟨ha, hb, hc⟩
      obtain rfl : a = 0xEE := ha
      exact ⟨b, c, rfl, hb, isCont_iff.mp hc⟩
    · rintro ⟨b', c', heq, hb, hc⟩
      obtain ⟨rfl, rfl, rfl⟩ : a = 0xEE ∧ b = b' ∧ c = c' := by simpa using heq
      exact ⟨rfl, hb, isCont_iff.mpr hc⟩

theorem IsEscape.isSeq (h : IsEscape seq) : IsSeq seq := by
  obtain ⟨b, c, rfl, hb, hc⟩ := h
  have hb' : IsTail b := by rcases hb with rfl | rfl <;> exact ⟨by decide, by decide⟩
  exact .three ⟨by decide, by decide⟩ hb' nofun nofun hc

theorem isEscape_escapeByte (b : UInt8) : IsEscape (escapeByte b) := by
  have htail : ∀ b : UInt8, isCont (0x80 ||| (b &&& 0x3F)) = true :=
    UInt8.forall_of_lt (by decide +kernel)
  refine ⟨_, _, rfl, ?_, isCont_iff.mp (htail b)⟩
  split_ifs
  · exact .inr rfl
  · exact .inl rfl

theorem unescaped_escapeByte (hb : 0x80 ≤ b.toNat) (rest : Bytes) :
    unescaped (escapeByte b ++ rest) = b :: unescaped rest := by
  have hback : ∀ b : UInt8, 0x80 ≤ b.toNat →
      unescapeByte (if 0xC0 ≤ b then 0xBF else 0xBE) (0x80 ||| (b &&& 0x3F)) = b :=
    UInt8.forall_of_lt (by decide +kernel)
  have hescape := (isEscapeChar_append rfl []).mpr (isEscape_escapeByte b)
  rw [escapeByte, append_nil] at hescape
  rw [escapeByte]
  rw [cons_append, cons_append, cons_append, nil_append, unescaped, if_pos hescape, hback b hb]

theorem unescaped_cons {a : UInt8} {t : Bytes} (h : isEscapeChar (a :: t) = false) :
    unescaped (a :: t) = a :: unescaped t := by
  match t, h with
  | [], _ => rfl
  | [b], _ => rfl
  | b :: c :: t, h => rw [unescaped, if_neg (by rw [Bool.not_eq_true]; exact h)]

theorem unescaped_cons_of_ne {a : UInt8} (h : a ≠ 0xEE) (t : Bytes) :
    unescaped (a :: t) = a :: unescaped t := by
  refine unescaped_cons ?_
  rw [isEscapeChar, decide_eq_false_iff_not]
  exact fun ha => h ha.1

theorem ne_of_isTail (h : IsTail b) : b ≠ 0xEE := by
  rintro rfl
  exact absurd h.2 (by decide)

theorem unescaped_append (h : IsSeq seq) (hesc : ¬ IsEscape seq) (rest : Bytes) :
    unescaped (seq ++ rest) = seq ++ unescaped rest := by
  have hne : ∀ {a : UInt8}, a.toNat ≠ 0xEE → a ≠ 0xEE := fun h ha => h (congrArg UInt8.toNat ha)
  cases h with
  | one ha => exact unescaped_cons_of_ne (hne (by omega)) _
  | two ha hb =>
    simp only [cons_append, nil_append]
    rw [unescaped_cons_of_ne (hne (by omega)), unescaped_cons_of_ne (ne_of_isTail hb)]
  | @three a b c ha hb hlo hhi hc =>
    have hno : isEscapeChar ([a, b, c] ++ rest) = false :=
      Bool.eq_false_iff.mpr (mt (isEscapeChar_append rfl rest).mp hesc)
    simp only [cons_append, nil_append] at hno ⊢
    rw [unescaped_cons hno, unescaped_cons_of_ne (ne_of_isTail hb),
      unescaped_cons_of_ne (ne_of_isTail hc)]
  | four ha hb hlo hhi hc hd =>
    simp only [cons_append, nil_append]
    rw [unescaped_cons_of_ne (hne (by omega)), unescaped_cons_of_ne (ne_of_isTail hb),
      unescaped_cons_of_ne (ne_of_isTail hc), unescaped_cons_of_ne (ne_of_isTail hd)]

/-! ### One round of the loop -/

/-- What one round of `anyfs_name_escape` takes and writes. -/
inductive Round : Bytes → Bytes → Prop
  | copy {seq : Bytes} (h : IsSeq seq) (hesc : ¬ IsEscape seq) : Round seq seq
  | escape {seq : Bytes} (h : IsEscape seq) : Round seq (seq.flatMap escapeByte)
  | byte {b : UInt8} (hb : 0x80 ≤ b.toNat) : Round [b] (escapeByte b)

theorem IsEscape.length_eq (h : IsEscape seq) : seq.length = 3 := by
  obtain ⟨b, c, rfl, -⟩ := h
  rfl

theorem escapeText_copy (fuel : ℕ) (h : IsSeq seq) (hesc : ¬ IsEscape seq)
    (rest : Bytes) : escapeText (fuel + 1) (seq ++ rest) = seq ++ escapeText fuel rest := by
  obtain ⟨b, t, hbt⟩ : ∃ b t, seq ++ rest = b :: t := by cases h <;> exact ⟨_, _, rfl⟩
  rw [hbt, escapeText, ← hbt, utf8Seq_append h]
  dsimp only
  rw [if_pos ⟨h.length_pos.ne', fun h => hesc ((isEscapeChar_append h.1 rest).mp h.2)⟩,
    take_left, drop_left]

theorem escapeText_escape (fuel : ℕ) (h : IsEscape seq) (rest : Bytes) :
    escapeText (fuel + 1) (seq ++ rest) = seq.flatMap escapeByte ++ escapeText fuel rest := by
  have hlen := h.length_eq
  obtain ⟨b, t, hbt⟩ : ∃ b t, seq ++ rest = b :: t := by
    obtain ⟨b, c, rfl, -⟩ := h
    exact ⟨_, _, rfl⟩
  rw [hbt, escapeText, ← hbt, utf8Seq_append h.isSeq]
  dsimp only
  rw [if_neg fun hcopy => hcopy.2 ⟨hlen, (isEscapeChar_append hlen rest).mpr h⟩,
    if_pos h.isSeq.length_pos.ne', take_left, drop_left]

theorem escapeText_byte (fuel : ℕ) {t : Bytes} (h : utf8Seq (b :: t) = 0) :
    escapeText (fuel + 1) (b :: t) = escapeByte b ++ escapeText fuel t := by
  rw [escapeText, h, if_neg fun h => h.1 rfl]
  simp

theorem escapeText_succ (fuel : ℕ) (b : UInt8) (t : Bytes) :
    ∃ seq out rest, b :: t = seq ++ rest ∧ Round seq out ∧
      escapeText (fuel + 1) (b :: t) = out ++ escapeText fuel rest := by
  rcases utf8Seq_cases b t with ⟨seq, rest, hs, hseq⟩ | ⟨hzero, hb⟩
  · rw [hs]
    by_cases hesc : IsEscape seq
    · exact ⟨_, _, _, rfl, .escape hesc, escapeText_escape fuel hesc rest⟩
    · exact ⟨_, _, _, rfl, .copy hseq hesc, escapeText_copy fuel hseq hesc rest⟩
  · exact ⟨[b], _, t, rfl, .byte hb, escapeText_byte fuel hzero⟩

namespace Round

variable {seq out : Bytes}

theorem le_of_mem_escape (h : IsEscape seq) : ∀ b ∈ seq, 0x80 ≤ b.toNat := by
  obtain ⟨b, c, rfl, hb, hc⟩ := h
  have hb' : 0x80 ≤ b.toNat := by rcases hb with rfl | rfl <;> decide
  simpa using ⟨hb', hc.1⟩

theorem unescaped_flatMap (bs : Bytes) (h : ∀ b ∈ bs, 0x80 ≤ b.toNat) (u : Bytes) :
    unescaped (bs.flatMap escapeByte ++ u) = bs ++ unescaped u := by
  induction bs with
  | nil => rfl
  | cons b bs ih =>
    obtain ⟨hb, hbs⟩ := forall_mem_cons.mp h
    rw [flatMap_cons, append_assoc, unescaped_escapeByte hb, ih hbs, cons_append]

theorem unescaped_eq (h : Round seq out) (u : Bytes) :
    unescaped (out ++ u) = seq ++ unescaped u := by
  cases h with
  | copy hseq hesc => exact unescaped_append hseq hesc u
  | escape hesc => exact unescaped_flatMap seq (le_of_mem_escape hesc) u
  | byte hb => exact unescaped_escapeByte hb u

theorem valid_flatMap (bs : Bytes) {u : Bytes} (hu : Valid u) :
    Valid (bs.flatMap escapeByte ++ u) := by
  induction bs with
  | nil => exact hu
  | cons b bs ih =>
    rw [flatMap_cons, append_assoc]
    exact (isEscape_escapeByte b).isSeq.append_valid ih

theorem valid (h : Round seq out) {u : Bytes} (hu : Valid u) : Valid (out ++ u) := by
  cases h with
  | copy hseq _ => exact hseq.append_valid hu
  | escape _ => exact valid_flatMap seq hu
  | byte _ => exact (isEscape_escapeByte _).isSeq.append_valid hu

theorem length_flatMap_escapeByte (bs : Bytes) :
    (bs.flatMap escapeByte).length = 3 * bs.length := by
  induction bs with
  | nil => rfl
  | cons b bs ih =>
    rw [flatMap_cons, length_append, ih, length_cons, escapeByte]
    simp only [length_cons, length_nil]
    omega

theorem length_le (h : Round seq out) : 0 < seq.length ∧ out.length ≤ 3 * seq.length ∧
    (out = seq ∧ IsSeq seq ∧ ¬ IsEscape seq ∨ seq.length < out.length) := by
  cases h with
  | copy hseq hesc => exact ⟨hseq.length_pos, by omega, .inl ⟨rfl, hseq, hesc⟩⟩
  | escape hesc =>
    have hlen := hesc.length_eq
    rw [length_flatMap_escapeByte]
    exact ⟨by omega, le_rfl, .inr (by omega)⟩
  | byte _ => exact ⟨Nat.one_pos, by simp [escapeByte], .inr (by simp [escapeByte])⟩

end Round

/-! ### Complete texts -/

variable {fuel cap : ℕ} {s : Bytes}

theorem unescaped_escapeText (h : s.length ≤ fuel) (u : Bytes) :
    unescaped (escapeText fuel s ++ u) = s ++ unescaped u := by
  induction fuel generalizing s with
  | zero =>
    rw [length_eq_zero_iff.mp (Nat.le_zero.mp h)]
    rfl
  | succ fuel ih =>
    cases s with
    | nil => rfl
    | cons b t =>
      obtain ⟨seq, out, rest, hs, hround, heq⟩ := escapeText_succ fuel b t
      have hlen := congrArg length hs
      have hpos := hround.length_le.1
      rw [length_append] at hlen
      rw [heq, append_assoc, hround.unescaped_eq, ih (by omega), hs, append_assoc]

theorem valid_escapeText (fuel : ℕ) (s : Bytes) : Valid (escapeText fuel s) := by
  induction fuel generalizing s with
  | zero => exact .nil
  | succ fuel ih =>
    cases s with
    | nil => exact .nil
    | cons b t =>
      obtain ⟨seq, out, rest, -, hround, heq⟩ := escapeText_succ fuel b t
      rw [heq]
      exact hround.valid (ih rest)

theorem length_escapeText (h : s.length ≤ fuel) :
    s.length ≤ (escapeText fuel s).length ∧ (escapeText fuel s).length ≤ 3 * s.length := by
  induction fuel generalizing s with
  | zero =>
    rw [length_eq_zero_iff.mp (Nat.le_zero.mp h)]
    exact ⟨le_rfl, le_rfl⟩
  | succ fuel ih =>
    cases s with
    | nil => exact ⟨le_rfl, le_rfl⟩
    | cons b t =>
      obtain ⟨seq, out, rest, hs, hround, heq⟩ := escapeText_succ fuel b t
      obtain ⟨hpos, hle, hor⟩ := hround.length_le
      have hlen := congrArg length hs
      rw [length_append] at hlen
      obtain ⟨hlo, hhi⟩ := ih (s := rest) (by omega)
      have hout : seq.length ≤ out.length := by
        rcases hor with ⟨rfl, -⟩ | hlt
        · exact le_rfl
        · exact hlt.le
      rw [heq, hlen, length_append]
      omega

def IsEscapeRange (c : Char) : Prop := 0xEF80 ≤ c.val.toNat ∧ c.val.toNat ≤ 0xEFFF

theorem isEscape_encodeChar_iff (c : Char) :
    IsEscape (String.utf8EncodeChar c) ↔ IsEscapeRange c := by
  have hval := val_cases c
  rw [encodeChar_eq rfl, IsEscapeRange]
  generalize c.val.toNat = v at hval
  constructor
  · rintro ⟨x, y, heq, hx, -⟩
    have hx' : x.toNat = 0xBE ∨ x.toNat = 0xBF := by rcases hx with rfl | rfl <;> decide
    split_ifs at heq with h1 h2 h3
    · exact absurd heq (by simp)
    · exact absurd heq (by simp)
    · simp only [cons.injEq, and_true] at heq
      obtain ⟨ha, hb, -⟩ := heq
      have ha := congrArg UInt8.toNat ha
      have hb := congrArg UInt8.toNat hb
      rw [UInt8.toNat_ofNat'] at ha hb
      change _ = 0xEE at ha
      omega
    · exact absurd heq (by simp)
  · intro h
    rw [if_neg (by omega), if_neg (by omega), if_pos (by omega)]
    refine ⟨UInt8.ofNat (v / 64 % 64 + 0x80), UInt8.ofNat (v % 64 + 0x80), ?_, ?_, isTail_ofNat v⟩
    · rw [show v / 4096 % 16 + 0xE0 = 0xEE by omega]
      rfl
    · rcases Nat.lt_or_ge v 0xEFC0 with hlt | hge
      · exact .inl (by rw [show v / 64 % 64 + 0x80 = 0xBE by omega]; rfl)
      · exact .inr (by rw [show v / 64 % 64 + 0x80 = 0xBF by omega]; rfl)

theorem chars_of_escapeText_eq (h : s.length ≤ fuel)
    (heq : escapeText fuel s = s) : ∃ cs, s = encode cs ∧ ∀ c ∈ cs, ¬ IsEscapeRange c := by
  induction fuel generalizing s with
  | zero =>
    rw [length_eq_zero_iff.mp (Nat.le_zero.mp h)]
    exact ⟨[], rfl, by simp⟩
  | succ fuel ih =>
    cases s with
    | nil => exact ⟨[], rfl, by simp⟩
    | cons b t =>
      obtain ⟨seq, out, rest, hs, hround, htext⟩ := escapeText_succ fuel b t
      obtain ⟨hpos, -, hor⟩ := hround.length_le
      have hlen := congrArg length hs
      rw [length_append] at hlen
      obtain ⟨hlo, -⟩ := length_escapeText (show rest.length ≤ fuel by omega)
      rw [htext, hs] at heq
      rcases hor with ⟨rfl, hseq, hesc⟩ | hlt
      · obtain ⟨cs, hrest, hcs⟩ := ih (by omega) (append_cancel_left heq)
        obtain ⟨c, rfl⟩ := isSeq_iff.mp hseq
        refine ⟨c :: cs, by rw [hs, hrest, encode_cons], ?_⟩
        rw [forall_mem_cons]
        exact ⟨mt (isEscape_encodeChar_iff c).mpr hesc, hcs⟩
      · have hlength := congrArg length heq
        rw [length_append, length_append] at hlength
        omega

theorem escapeText_encode {cs : List Char} (h : (encode cs).length ≤ fuel)
    (hcs : ∀ c ∈ cs, ¬ IsEscapeRange c) : escapeText fuel (encode cs) = encode cs := by
  induction cs generalizing fuel with
  | nil => cases fuel <;> rfl
  | cons c cs ih =>
    obtain ⟨hc, hcs⟩ := forall_mem_cons.mp hcs
    have hseq := isSeq_encodeChar c
    have hpos := hseq.length_pos
    rw [encode_cons, length_append] at h
    obtain ⟨fuel, rfl⟩ := Nat.exists_eq_succ_of_ne_zero (show fuel ≠ 0 by omega)
    rw [encode_cons, escapeText_copy fuel hseq (mt (isEscape_encodeChar_iff c).mp hc),
      ih (by omega) hcs]

/-! ### Room -/

theorem round_eq {o : ℕ} {rest : Bytes} {next : Option Bytes} (out : Bytes)
    (hnext : o + out.length < cap →
      next = if o + out.length + rest.length < cap then some rest else none) :
    (if cap ≤ o + out.length then none else next.map (out ++ ·)) =
      if o + (out ++ rest).length < cap then some (out ++ rest) else none := by
  rw [length_append]
  split_ifs with hcap hfit hfit
  · omega
  · rfl
  · rw [hnext (by omega), if_pos (by omega)]
    rfl
  · rw [hnext (by omega), if_neg (by omega)]
    rfl

theorem escapeBytes_eq {o : ℕ} (ho : o < cap) (bs : Bytes) :
    escapeBytes cap o bs =
      if o + (bs.flatMap escapeByte).length < cap then some (bs.flatMap escapeByte) else none := by
  induction bs generalizing o with
  | nil => rw [escapeBytes, if_pos (by simpa using ho)]; rfl
  | cons b bs ih =>
    rw [escapeBytes, flatMap_cons]
    exact round_eq (escapeByte b) fun hfit => ih hfit

theorem escapeLoop_eq {o : ℕ} (ho : o < cap) (s : Bytes) :
    escapeLoop cap fuel o s =
      if o + (escapeText fuel s).length < cap then some (escapeText fuel s) else none := by
  induction fuel generalizing o s with
  | zero => rw [escapeLoop, escapeText, if_pos (by simpa using ho)]
  | succ fuel ih =>
    cases s with
    | nil => rw [escapeLoop, escapeText, if_pos (by simpa using ho)]
    | cons b t =>
      have hle := utf8Seq_le_length b t
      rw [escapeLoop, escapeText]
      dsimp only
      by_cases hcopy : utf8Seq (b :: t) ≠ 0 ∧
        ¬ (utf8Seq (b :: t) = 3 ∧ isEscapeChar (b :: t) = true)
      · -- a sequence that is copied
        have hlen : ((b :: t).take (utf8Seq (b :: t))).length = utf8Seq (b :: t) := by
          rw [length_take, Nat.min_eq_left hle]
        have hround := round_eq (o := o) ((b :: t).take (utf8Seq (b :: t))) fun hfit =>
          ih hfit ((b :: t).drop (utf8Seq (b :: t)))
        rw [hlen] at hround
        rw [if_pos hcopy, if_pos hcopy]
        exact hround
      · -- bytes that are escaped one by one
        rw [if_neg hcopy, if_neg hcopy, escapeBytes_eq ho]
        generalize (if utf8Seq (b :: t) ≠ 0 then utf8Seq (b :: t) else 1) = n
        generalize ((b :: t).take n).flatMap escapeByte = out
        rw [length_append]
        by_cases hout : o + out.length < cap
        · rw [if_pos hout, Option.bind_eq_bind, Option.bind_some, ih hout, Nat.add_assoc]
          split_ifs <;> rfl
        · rw [if_neg hout, if_neg (by omega)]
          rfl

theorem anyfsNameEscape_eq (s : Bytes) (cap : ℕ) :
    anyfsNameEscape s cap =
      .ofOut (if (escaped s).length < cap then some (escaped s) else none) := by
  rw [anyfsNameEscape]
  split_ifs with hcap hfit hfit
  · omega
  · rfl
  · rw [escapeLoop_eq (Nat.pos_of_ne_zero hcap), Nat.zero_add]
    exact congrArg NameRet.ofOut (if_pos hfit)
  · rw [escapeLoop_eq (Nat.pos_of_ne_zero hcap), Nat.zero_add]
    exact congrArg NameRet.ofOut (if_neg hfit)

theorem unescapeLoop_eq {o : ℕ} (ho : o < cap) (s : Bytes) :
    unescapeLoop cap o s =
      if o + (unescaped s).length < cap then some (unescaped s) else none := by
  induction s using unescaped.induct generalizing o with
  | case1 => rw [unescapeLoop, unescaped, if_pos (by simpa using ho)]
  | case2 a b c t hesc ih =>
    rw [unescapeLoop, unescaped, if_pos hesc, if_pos hesc]
    exact round_eq [unescapeByte b c] fun hfit => ih hfit
  | case3 a b c t hesc ih =>
    rw [unescapeLoop, unescaped, if_neg hesc, if_neg hesc]
    exact round_eq [a] fun hfit => ih hfit
  | case4 a t hshort ih =>
    -- fewer than three bytes are left, so there is no escape
    rw [unescapeLoop.eq_3 _ _ _ _ hshort, unescaped.eq_3 _ _ hshort]
    exact round_eq [a] fun hfit => ih hfit

theorem anyfsNameUnescape_eq (s : Bytes) (cap : ℕ) :
    anyfsNameUnescape s cap =
      .ofOut (if (unescaped s).length < cap then some (unescaped s) else none) := by
  rw [anyfsNameUnescape]
  split_ifs with hcap hfit hfit
  · omega
  · rfl
  · rw [unescapeLoop_eq (Nat.pos_of_ne_zero hcap), Nat.zero_add, if_pos hfit]
  · rw [unescapeLoop_eq (Nat.pos_of_ne_zero hcap), Nat.zero_add, if_neg hfit]

/-! ### Round trip -/

def EscapedTo (s e : Bytes) : Prop := ∃ cap, anyfsNameEscape s cap = .ofOut (some e)

theorem EscapedTo.eq {e : Bytes} (h : EscapedTo s e) : e = escaped s := by
  obtain ⟨cap, heq⟩ := h
  rw [anyfsNameEscape_eq] at heq
  split_ifs at heq with hcap
  · exact (congrArg NameRet.out heq).symm
  · -- a failure leaves no text, and no text has length -1
    obtain rfl : e = [] := (congrArg NameRet.out heq).symm
    exact absurd (congrArg NameRet.rc heq) (by decide)

theorem exists_anyfsNameEscape (h : 3 * s.length < cap) :
    ∃ e, anyfsNameEscape s cap = .ofOut (some e) := by
  have hlt : (escaped s).length < cap := (length_escapeText le_rfl).2.trans_lt h
  exact ⟨escaped s, by rw [anyfsNameEscape_eq, if_pos hlt]⟩

theorem eq_map_of_escapedTo {names es : List Bytes} (h : Forall₂ EscapedTo names es) :
    es = names.map escaped := by
  induction h with
  | nil => rfl
  | cons h _ ih => rw [map_cons, h.eq, ih]

theorem unescaped_escaped (s : Bytes) : unescaped (escaped s) = s := by
  have h := unescaped_escapeText (le_refl s.length) []
  rw [append_nil, unescaped, append_nil] at h
  exact h

theorem unescaped_join (names : List Bytes) :
    unescaped ([slash].intercalate (names.map escaped)) = [slash].intercalate names := by
  induction names with
  | nil => rfl
  | cons s names ih =>
    cases names with
    | nil =>
      rw [map_singleton, intercalate_singleton, intercalate_singleton, unescaped_escaped]
    | cons s' names =>
      rw [map_cons, map_cons, intercalate_cons_cons, intercalate_cons_cons,
        escaped, append_assoc, unescaped_escapeText le_rfl, singleton_append,
        unescaped_cons_of_ne (by decide), ← map_cons, ih, append_assoc,
        singleton_append]

/-- `path_in`, with its buffer of `PATH_IN_CAP` bytes. -/
def pathIn (path : Bytes) : Option Bytes :=
  let r := anyfsNameUnescape path 16384
  if r.rc < 0 then none else some r.out

theorem pathIn_eq {path : Bytes} (h : (unescaped path).length < 16384) :
    pathIn path = some (unescaped path) := by
  rw [pathIn, anyfsNameUnescape_eq, if_pos h, NameRet.rc_ofOut (by omega)]
  exact if_neg (Int.not_lt.mpr (Int.natCast_nonneg _))

/-- Names are escaped wherever there is room. Unescaping a path of escaped names gives the path of
the names, for any number of names and any bytes in them, and `path_in` does so for paths that fit
its buffer; no two names are escaped to the same text. -/
theorem anyfsNameUnescape_join :
    (∀ (s : Bytes) (cap : ℕ), 3 * s.length < cap →
      ∃ e, anyfsNameEscape s cap = .ofOut (some e)) ∧
    (∀ (names es : List Bytes) (cap : ℕ), Forall₂ EscapedTo names es →
      ([slash].intercalate names).length < cap →
        anyfsNameUnescape ([slash].intercalate es) cap =
          .ofOut (some ([slash].intercalate names))) ∧
    (∀ names es : List Bytes, Forall₂ EscapedTo names es →
      ([slash].intercalate names).length < 16384 →
        pathIn ([slash].intercalate es) = some ([slash].intercalate names)) ∧
    ∀ s t e : Bytes, EscapedTo s e → EscapedTo t e → s = t := by
  refine ⟨fun s cap => exists_anyfsNameEscape, ?_, ?_, ?_⟩
  · intro names es cap hes hcap
    rw [eq_map_of_escapedTo hes, anyfsNameUnescape_eq, unescaped_join, if_pos hcap]
  · intro names es hes hcap
    rw [eq_map_of_escapedTo hes, pathIn_eq (by rw [unescaped_join]; exact hcap), unescaped_join]
  · intro s t e hs ht
    rw [← unescaped_escaped s, ← unescaped_escaped t, ← hs.eq, ← ht.eq]

/-- Two names that are not UTF-8, one of them cut inside a character. -/
theorem anyfsNameUnescape_join_cut :
    pathIn ([slash].intercalate [escaped [0xFF], escaped [0xE2, 0x82]]) =
      some [0xFF, 0x2F, 0xE2, 0x82] := by
  have hescaped : ∀ s, EscapedTo s (escaped s) := fun s =>
    ⟨_, by rw [anyfsNameEscape_eq, if_pos (Nat.lt_succ_self _)]⟩
  exact anyfsNameUnescape_join.2.2.1 [[0xFF], [0xE2, 0x82]] _
    (.cons (hescaped _) (.cons (hescaped _) .nil)) (by decide +kernel)

/-! ### Clean text -/

/-- What `anyfs_name_escape` writes, and it writes wherever there is room, is strictly valid UTF-8
and at most three times as long as the name, and it is the name exactly if this is strictly valid
UTF-8 without characters of escapes. -/
theorem anyfsNameEscape_clean (s : Bytes) :
    (∀ cap, 3 * s.length < cap → ∃ e, anyfsNameEscape s cap = .ofOut (some e)) ∧
    ∀ e, EscapedTo s e →
      Valid e ∧ e.length ≤ 3 * s.length ∧
        (e = s ↔ ∃ cs, s = encode cs ∧ ∀ c ∈ cs, ¬ IsEscapeRange c) := by
  refine ⟨fun cap => exists_anyfsNameEscape, ?_⟩
  intro e h
  rw [h.eq]
  refine ⟨valid_escapeText _ s, (length_escapeText le_rfl).2, chars_of_escapeText_eq le_rfl, ?_⟩
  rintro ⟨cs, rfl, hcs⟩
  exact escapeText_encode le_rfl hcs

/-- A name in Latin-1. -/
theorem anyfsNameEscape_clean_latin1 :
    Valid (escaped [0x61, 0xE9]) ∧ (escaped [0x61, 0xE9]).length ≤ 6 := by
  obtain ⟨hvalid, hlength, -⟩ := (anyfsNameEscape_clean [0x61, 0xE9]).2 (escaped [0x61, 0xE9])
    ⟨7, by decide +kernel⟩
  exact ⟨hvalid, hlength⟩

end Anyfs
