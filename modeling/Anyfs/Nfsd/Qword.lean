import Anyfs.Path.Dsl

/-!
# The words of a cache upcall

The kernel sends a query as a line of words: `qword_add` writes blank, tab, newline and backslash as
octal escapes, `qword_addhex` writes bytes as `\x` and hexadecimal digits. `qword_get_user` reads
one word a call, does not undo the octal escapes, and skips blanks in any number.
-/

namespace Anyfs

open List CString

/-! ### The kernel's side -/

/-- A character of `qword_add`. Four of them are written as a backslash and three octal digits. -/
def octalEscape (c : UInt8) : Bytes :=
  if c = 92 ∨ c = 32 ∨ c = 10 ∨ c = 9 then [92, 48 + c / 64, 48 + c / 8 % 8, 48 + c % 8] else [c]

/-- How the kernel writes a word. -/
def qwordAdd (s : Bytes) : Bytes := s.flatMap octalEscape

def hexPair (c : UInt8) : Bytes := [hexChar (c.toNat / 16), hexChar (c.toNat % 16)]

/-- How the kernel writes bytes in hex. -/
def qwordAddhex (s : Bytes) : Bytes := [92, 120] ++ s.flatMap hexPair

/-- A field of an upcall: a C string, or bytes that are written in hexadecimal. -/
inductive Qword where
  | text (s : Bytes) (h : 0 ∉ s)
  | hex (s : Bytes)

open Qword

def Qword.bytes : Qword → Bytes
  | .text s _ => s
  | .hex s => s

def Qword.encode : Qword → Bytes
  | .text s _ => qwordAdd s
  | .hex s => qwordAddhex s

/-- A line with these words. -/
def upcallLine (ws : List Qword) (newline : Bool) : Bytes :=
  [32].intercalate (ws.map encode) ++ if newline then [10] else []

/-! ### The reader -/

/-- The loop that reads pairs of digits: what is read and what is left. -/
def qwordHex : ℕ → Bytes → Bytes × Bytes
  | 0, bp => ([], bp)
  | _ + 1, [] => ([], [])
  | n + 1, a :: bp =>
    match hexNyb a, bp with
    | none, _ => ([], a :: bp)
    | some _, [] => ([], [])
    | some hi, b :: rest =>
      match hexNyb b with
      | none => ([], b :: rest)
      | some lo =>
        let r := qwordHex n rest
        (UInt8.ofNat (hi * 16 + lo) :: r.1, r.2)

def isSep (c : UInt8) : Bool := c == 32 || c == 10 || c == 0

/-- `qword_get_user`: the word, or `none` for -1, and the text it leaves behind. -/
def qwordGetUser (bp : Bytes) (bufsize : ℕ) : Option Bytes × Bytes :=
  let bp := bp.dropWhile (· == 32)
  if (bp.head?.map fun c => c == 0 || c == 10).getD true then (none, bp)
  else
    let r :=
      if [92, 120].isPrefixOf bp then qwordHex (bufsize - 1) (bp.drop 2)
      else
        let word := (bp.takeWhile fun c => !isSep c).take (bufsize - 1)
        (word, bp.drop word.length)
    (some r.1, r.2.dropWhile (· == 32))

def qwordGetAll : Bytes → List ℕ → List (Option Bytes) × Bytes
  | bp, [] => ([], bp)
  | bp, n :: ns =>
    let r := qwordGetUser bp n
    let rest := qwordGetAll r.2 ns
    (r.1 :: rest.1, rest.2)

/-! ### Tokens -/

/-- What a call can find at the front of the line: text that it copies, or bytes in
hexadecimal. -/
inductive Tok where
  | raw (e : Bytes)
  | hex (s : Bytes)
  deriving DecidableEq

def Tok.text : Tok → Bytes
  | .raw e => e
  | .hex s => qwordAddhex s

def Tok.value : Tok → Bytes
  | .raw e => e
  | .hex s => s

/-- Text that is copied has no separator and nothing in it that starts a hexadecimal word. -/
structure IsRaw (e : Bytes) : Prop where
  ne_nil : e ≠ []
  noSep : ∀ c ∈ e, isSep c = false
  noHex : ¬ [92, 120] <:+: e

/-- A line and the words on it. -/
inductive Line : Bytes → List Tok → Prop
  | newline : Line [10] []
  | nil : Line [] []
  | blank {l : Bytes} {ts : List Tok} : Line l ts → Line (32 :: l) ts
  | raw {e l : Bytes} {ts : List Tok} : IsRaw e → (∀ c ∈ l.head?, isSep c = true) → Line l ts →
      Line (e ++ l) (.raw e :: ts)
  | hex {s l : Bytes} {ts : List Tok} : (∀ c ∈ l.head?, isSep c = true) → Line l ts →
      Line (qwordAddhex s ++ l) (.hex s :: ts)

def leftover (e : Bytes) : List Tok := if e = [] then [] else [.raw e]

def Tok.get (t : Tok) (bufsize : ℕ) : Bytes × List Tok :=
  match t with
  | .raw e => (e.take (bufsize - 1), leftover (e.drop (bufsize - 1)))
  | .hex s => (s.take (bufsize - 1), leftover ((s.drop (bufsize - 1)).flatMap hexPair))

/-! ### One call -/

theorem hexNyb_hexChar {d : ℕ} (h : d < 16) : hexNyb (hexChar d) = some d := by
  revert d
  decide

theorem hexChar_plain {d : ℕ} (h : d < 16) : isSep (hexChar d) = false ∧ hexChar d ≠ 92 := by
  revert d
  decide

theorem hexNyb_of_isSep {c : UInt8} (h : isSep c = true) : hexNyb c = none := by
  simp only [isSep, Bool.or_eq_true, beq_iff_eq] at h
  rcases h with (rfl | rfl) | rfl <;> decide

variable {l s : Bytes} {ts : List Tok} {t : Tok} {ns : List ℕ} {ws : List Qword}

theorem qwordHex_flatMap (n : ℕ) (s : Bytes) (hl : ∀ c ∈ l.head?, isSep c = true) :
    qwordHex n (s.flatMap hexPair ++ l) = (s.take n, (s.drop n).flatMap hexPair ++ l) := by
  induction n generalizing s with
  | zero => simp [qwordHex]
  | succ n ih =>
    cases s with
    | nil =>
      cases l with
      | nil => simp [qwordHex]
      | cons c l => simp [qwordHex, hexNyb_of_isSep (hl c rfl)]
    | cons c s =>
      have hhi : c.toNat / 16 < 16 := by
        have := c.toNat_lt
        omega
      have hlo : c.toNat % 16 < 16 := Nat.mod_lt _ (by decide)
      have hbyte : c.toNat / 16 * 16 + c.toNat % 16 = c.toNat := by omega
      simp only [flatMap_cons, hexPair, cons_append, nil_append, qwordHex,
        hexNyb_hexChar hhi, hexNyb_hexChar hlo, ih, hbyte, UInt8.ofNat_toNat, take_succ_cons,
        drop_succ_cons]

theorem isRaw_flatMap_hexPair (h : s ≠ []) : IsRaw (s.flatMap hexPair) := by
  have hdigit : ∀ c ∈ s.flatMap hexPair, isSep c = false ∧ c ≠ 92 := by
    intro c hc
    obtain ⟨b, -, hb⟩ := mem_flatMap.mp hc
    have hlt := b.toNat_lt
    simp only [hexPair, mem_cons, not_mem_nil, or_false] at hb
    rcases hb with rfl | rfl
    · exact hexChar_plain (by omega)
    · exact hexChar_plain (by omega)
  refine ⟨?_, fun c hc => (hdigit c hc).1, fun hsub => ?_⟩
  · obtain ⟨c, s, rfl⟩ := exists_cons_of_ne_nil h
    exact cons_ne_nil _ _
  · exact (hdigit 92 (hsub.subset (by simp))).2 rfl

theorem IsRaw.drop {e : Bytes} (h : IsRaw e) {n : ℕ} (hne : e.drop n ≠ []) : IsRaw (e.drop n) where
  ne_nil := hne
  noSep c hc := h.noSep c (mem_of_mem_drop hc)
  noHex hsub := h.noHex (hsub.trans (drop_suffix n e).isInfix)

theorem Line.dropWhile (h : Line l ts) : Line (l.dropWhile (· == 32)) ts := by
  induction h with
  | newline => exact .newline
  | nil => exact .nil
  | blank _ ih => exact ih
  | @raw e l ts he hl hline _ =>
    obtain ⟨c, e, rfl⟩ := exists_cons_of_ne_nil he.ne_nil
    have hc : c ≠ 32 := by
      rintro rfl
      exact absurd (he.noSep 32 mem_cons_self) (by decide)
    rw [cons_append, dropWhile_cons_of_neg (by simpa using hc), ← cons_append]
    exact .raw he hl hline
  | @hex s l ts hl hline _ =>
    rw [qwordAddhex, append_assoc, cons_append, dropWhile_cons_of_neg (by decide),
      ← cons_append, ← append_assoc]
    exact .hex hl hline

theorem line_leftover {e : Bytes} (he : e ≠ [] → IsRaw e) (hl : ∀ c ∈ l.head?, isSep c = true)
    (hline : Line l ts) : Line ((e ++ l).dropWhile (· == 32)) (leftover e ++ ts) := by
  rw [leftover]
  split_ifs with hnil
  · rw [hnil, nil_append, nil_append]
    exact hline.dropWhile
  · exact (Line.raw (he hnil) hl hline).dropWhile

theorem qwordGetUser_of_nil (h : Line l []) (n : ℕ) : (qwordGetUser l n).1 = none := by
  have hend : l.dropWhile (· == 32) = [10] ∨ l.dropWhile (· == 32) = [] := by
    generalize hts : ([] : List Tok) = ts at h
    induction h with
    | newline => exact .inl rfl
    | nil => exact .inr rfl
    | blank _ ih => exact ih hts
    | raw => cases hts
    | hex => cases hts
  rcases hend with hend | hend
  · rw [qwordGetUser, hend]
    rfl
  · rw [qwordGetUser, hend]
    rfl

def Tok.Ok : Tok → Prop
  | .raw e => IsRaw e
  | .hex _ => True

theorem Line.front (h : Line l (t :: ts)) :
    t.Ok ∧ ∃ rest, l.dropWhile (· == 32) = t.text ++ rest ∧ (∀ c ∈ rest.head?, isSep c = true) ∧
      Line rest ts := by
  generalize hts : t :: ts = ts' at h
  induction h with
  | newline => cases hts
  | nil => cases hts
  | blank _ ih => exact ih hts
  | @raw e l ts' he hl hline _ =>
    obtain ⟨rfl, rfl⟩ := cons.inj hts
    refine ⟨he, l, ?_, hl, hline⟩
    obtain ⟨c, e, rfl⟩ := exists_cons_of_ne_nil he.ne_nil
    have hc : c ≠ 32 := by
      rintro rfl
      exact absurd (he.noSep 32 mem_cons_self) (by decide)
    exact dropWhile_cons_of_neg (by simpa using hc)
  | @hex s l ts' hl hline _ =>
    obtain ⟨rfl, rfl⟩ := cons.inj hts
    exact ⟨trivial, l, dropWhile_cons_of_neg (by decide), hl, hline⟩

theorem IsRaw.not_isPrefixOf {e rest : Bytes} (he : IsRaw e)
    (hrest : ∀ c ∈ rest.head?, isSep c = true) : ¬ [92, 120].isPrefixOf (e ++ rest) = true := by
  intro hpre
  obtain ⟨u, hu⟩ := isPrefixOf_iff_prefix.mp hpre
  match e, he with
  | [], he => exact he.ne_nil rfl
  | [c], he =>
    obtain ⟨-, hrest' : 120 :: u = rest⟩ := cons.inj hu
    exact absurd (hrest 120 (by rw [← hrest']; rfl)) (by decide)
  | a :: b :: e, he =>
    obtain ⟨rfl, htail⟩ := cons.inj hu
    obtain ⟨rfl, -⟩ := cons.inj htail
    exact he.noHex (prefix_append [92, 120] e).isInfix

theorem Tok.Ok.head (h : t.Ok) : ∃ c u, t.text = c :: u ∧ isSep c = false := by
  cases t with
  | raw e =>
    obtain ⟨c, u, rfl⟩ := exists_cons_of_ne_nil (IsRaw.ne_nil h)
    exact ⟨c, u, rfl, IsRaw.noSep h c mem_cons_self⟩
  | hex s => exact ⟨92, _, rfl, by decide⟩

theorem qwordGetUser_of_cons (h : Line l (t :: ts)) (n : ℕ) :
    (qwordGetUser l n).1 = some (t.get n).1 ∧ Line (qwordGetUser l n).2 ((t.get n).2 ++ ts) := by
  obtain ⟨hok, rest, hfront, hrest, hline⟩ := h.front
  obtain ⟨c, u, htext, hc⟩ := hok.head
  have hhead : ¬ ((t.text ++ rest).head?.map fun c => c == 0 || c == 10).getD true = true := by
    rw [htext]
    simp only [isSep, Bool.or_eq_false_iff] at hc
    simp [hc]
  rw [qwordGetUser, hfront]
  dsimp only
  rw [if_neg hhead]
  cases t with
  | raw e =>
    have he : IsRaw e := hok
    have hword : (e ++ rest).takeWhile (fun c => !isSep c) = e := by
      rw [takeWhile_append_of_pos fun c hc => by simp [he.noSep c hc]]
      cases rest with
      | nil => simp
      | cons b rest => simp [hrest b rfl]
    rw [Tok.text, if_neg (he.not_isPrefixOf hrest), hword, Tok.get]
    refine ⟨rfl, ?_⟩
    have hdrop : (e ++ rest).drop (e.take (n - 1)).length = e.drop (n - 1) ++ rest := by
      rcases Nat.le_total (n - 1) e.length with hle | hle
      · rw [length_take, min_eq_left hle, drop_append_of_le_length hle]
      · rw [take_of_length_le hle, drop_left, drop_eq_nil_of_le hle, nil_append]
    rw [hdrop]
    exact line_leftover (fun hne => he.drop hne) hrest hline
  | hex s =>
    have hpre : [92, 120].isPrefixOf (qwordAddhex s ++ rest) = true := rfl
    have hdrop : (qwordAddhex s ++ rest).drop 2 = s.flatMap hexPair ++ rest := rfl
    rw [Tok.text, if_pos hpre, hdrop, qwordHex_flatMap _ _ hrest, Tok.get]
    refine ⟨rfl, line_leftover (fun hne => isRaw_flatMap_hexPair ?_) hrest hline⟩
    rintro hnil
    exact hne (by rw [hnil]; rfl)

/-! ### All calls -/

theorem count_hex_leftover (e : Bytes) (s : Bytes) : (leftover e).count (.hex s) = 0 := by
  rw [leftover]
  split_ifs <;> simp

theorem Tok.get_eq_nil_iff (ht : t.Ok) {n : ℕ} (hn : 2 ≤ n) : (t.get n).1 = [] ↔ t = .hex [] := by
  have htake : ∀ s : Bytes, s.take (n - 1) = [] ↔ s = [] := by
    intro s
    rw [take_eq_nil_iff, or_iff_right (by omega)]
  cases t with
  | raw e => exact iff_of_false (mt (htake e).mp (IsRaw.ne_nil ht)) (by simp)
  | hex s => simp [Tok.get, htake]

theorem Tok.get_of_leftover {n : ℕ} (h : (t.get n).2 = []) : (t.get n).1 = t.value := by
  have hdrop : ∀ e : Bytes, leftover e = [] → e = [] := by
    intro e he
    by_contra hne
    rw [leftover, if_neg hne] at he
    cases he
  cases t with
  | raw e =>
    have hnil := hdrop _ h
    exact take_of_length_le (drop_eq_nil_iff.mp hnil)
  | hex s =>
    have hnil : s.drop (n - 1) = [] := by
      by_contra hne
      exact (isRaw_flatMap_hexPair hne).ne_nil (hdrop _ h)
    exact take_of_length_le (drop_eq_nil_iff.mp hnil)

theorem qwordGetAll_of_usedUp (hns : ∀ n ∈ ns, 2 ≤ n)
    (h : Line l ts) {vs : List Bytes} (hvs : (qwordGetAll l ns).1 = vs.map some)
    (hend : (qwordGetUser (qwordGetAll l ns).2 2).1 = none) :
    vs.count [] = ts.count (.hex []) ∧ ts.length ≤ ns.length ∧
      (ts.length = ns.length → vs = ts.map Tok.value) := by
  induction ns generalizing l ts vs with
  | nil =>
    obtain rfl : vs = [] := by simpa [qwordGetAll] using hvs.symm
    cases ts with
    | nil => simp
    | cons t ts =>
      rw [qwordGetAll, (qwordGetUser_of_cons h 2).1] at hend
      cases hend
  | cons n ns ih =>
    cases ts with
    | nil =>
      rw [qwordGetAll, qwordGetUser_of_nil h n] at hvs
      cases vs <;> simp at hvs
    | cons t ts =>
      obtain ⟨hfirst, hrest⟩ := qwordGetUser_of_cons h n
      rw [qwordGetAll] at hvs hend
      dsimp only at hvs hend
      rw [hfirst] at hvs
      obtain ⟨v, vs, rfl⟩ := exists_cons_of_ne_nil (l := vs) (by rintro rfl; simp at hvs)
      obtain ⟨hv, htail⟩ := cons.inj hvs
      cases hv
      have hn : 2 ≤ n := hns n mem_cons_self
      obtain ⟨hcount, hlen, hvalue⟩ :=
        ih (fun m hm => hns m (mem_cons_of_mem _ hm)) hrest htail hend
      have hleft : (t.get n).2.count (.hex []) = 0 := by
        cases t <;> exact count_hex_leftover _ _
      rw [length_append] at hlen hvalue
      refine ⟨?_, ?_, ?_⟩
      · -- the first call returns nothing exactly on an empty hexadecimal word
        rw [count_append, hleft, Nat.zero_add] at hcount
        have hiff := Tok.get_eq_nil_iff h.front.1 hn
        rw [count_cons, count_cons, hcount]
        simp only [beq_iff_eq, hiff]
      · simp only [length_cons]
        omega
      · intro heq
        simp only [length_cons] at heq
        have hnil : (t.get n).2 = [] := eq_nil_of_length_eq_zero (by omega)
        rw [map_cons, Tok.get_of_leftover hnil, hvalue (by omega), hnil, nil_append]

theorem Tok.get_of_fits {n : ℕ} (h : t.value.length < n) : t.get n = (t.value, []) := by
  cases t with
  | raw e =>
    have hle : e.length ≤ n - 1 := Nat.le_sub_one_of_lt h
    rw [Tok.get, take_of_length_le hle, drop_eq_nil_of_le hle]
    rfl
  | hex s =>
    have hle : s.length ≤ n - 1 := Nat.le_sub_one_of_lt h
    rw [Tok.get, take_of_length_le hle, drop_eq_nil_of_le hle]
    rfl

theorem qwordGetAll_of_fits (hfit : Forall₂ (fun t n => t.value.length < n) ts ns) (h : Line l ts) :
    (qwordGetAll l ns).1 = (ts.map Tok.value).map some ∧ Line (qwordGetAll l ns).2 [] := by
  induction hfit generalizing l with
  | nil => exact ⟨rfl, h⟩
  | @cons t n ts ns hlt _ ih =>
    obtain ⟨hfirst, hrest⟩ := qwordGetUser_of_cons h n
    rw [Tok.get_of_fits hlt] at hfirst hrest
    obtain ⟨hvals, hend⟩ := ih hrest
    rw [qwordGetAll]
    dsimp only
    rw [hfirst, hvals]
    exact ⟨rfl, hend⟩

/-! ### The line of the kernel -/

def Qword.tok : Qword → List Tok
  | .text s _ => leftover (qwordAdd s)
  | .hex s => [.hex s]

/-- The characters `qword_add` escapes. -/
def IsSpecial (c : UInt8) : Prop := c = 92 ∨ c = 32 ∨ c = 10 ∨ c = 9

instance : DecidablePred IsSpecial := fun c =>
  inferInstanceAs (Decidable (c = 92 ∨ c = 32 ∨ c = 10 ∨ c = 9))

theorem octalEscape_of_not {c : UInt8} (h : ¬ IsSpecial c) : octalEscape c = [c] := if_neg h

theorem octalEscape_of_special {c : UInt8} (h : IsSpecial c) :
    ∃ ds : Bytes, octalEscape c = 92 :: ds ∧ ds.length = 3 ∧ ∀ d ∈ ds, isDigit d = true := by
  rcases h with rfl | rfl | rfl | rfl
  · exact ⟨[49, 51, 52], rfl, rfl, by decide +kernel⟩
  · exact ⟨[48, 52, 48], rfl, rfl, by decide +kernel⟩
  · exact ⟨[48, 49, 50], rfl, rfl, by decide +kernel⟩
  · exact ⟨[48, 49, 49], rfl, rfl, by decide +kernel⟩

theorem qwordAdd_cons (c : UInt8) (s : Bytes) : qwordAdd (c :: s) = octalEscape c ++ qwordAdd s :=
  rfl

theorem isDigit_plain {d : UInt8} (h : isDigit d = true) : isSep d = false ∧ d ≠ 92 ∧ d ≠ 120 := by
  obtain ⟨hlo, hhi⟩ := isDigit_bounds h
  have hne : ∀ c : UInt8, c.toNat < 48 ∨ 57 < c.toNat → d ≠ c := by
    rintro c hc rfl
    omega
  refine ⟨?_, hne 92 (by decide), hne 120 (by decide)⟩
  simp [isSep, hne 32 (by decide), hne 10 (by decide), hne 0 (by decide)]

theorem isSep_of_mem_qwordAdd (h0 : 0 ∉ s) {c : UInt8} (hc : c ∈ qwordAdd s) : isSep c = false := by
  obtain ⟨b, hb, hc⟩ := mem_flatMap.mp hc
  by_cases hs : IsSpecial b
  · obtain ⟨ds, heq, -, hds⟩ := octalEscape_of_special hs
    rw [heq] at hc
    rcases mem_cons.mp hc with rfl | hc
    · decide
    · exact (isDigit_plain (hds c hc)).1
  · rw [octalEscape_of_not hs] at hc
    obtain rfl := mem_singleton.mp hc
    have hne : c ≠ 0 := fun h => h0 (h ▸ hb)
    simp only [IsSpecial, not_or] at hs
    simp [isSep, hne, hs]

theorem not_infix_qwordAdd (s : Bytes) : ¬ [92, 120] <:+: qwordAdd s := by
  induction s with
  | nil => simp [qwordAdd]
  | cons c s ih =>
    rw [qwordAdd_cons]
    by_cases hs : IsSpecial c
    · obtain ⟨ds, heq, hlen, hds⟩ := octalEscape_of_special hs
      rw [heq]
      obtain ⟨a, b, d, rfl⟩ := length_eq_three.mp hlen
      have ha := isDigit_plain (hds a (by simp))
      have hb := isDigit_plain (hds b (by simp))
      have hd := isDigit_plain (hds d (by simp))
      simp [infix_cons_iff, cons_prefix_cons, ih, ha.2.1.symm, ha.2.2.symm, hb.2.1.symm,
        hd.2.1.symm]
    · rw [octalEscape_of_not hs]
      simp only [IsSpecial, not_or] at hs
      simp [infix_cons_iff, cons_prefix_cons, ih, Ne.symm hs.1]

theorem isRaw_qwordAdd (h0 : 0 ∉ s) (hne : qwordAdd s ≠ []) : IsRaw (qwordAdd s) :=
  ⟨hne, fun _ => isSep_of_mem_qwordAdd h0, not_infix_qwordAdd s⟩

theorem Line.encode (h : Line l ts) (w : Qword)
    (hl : ∀ c ∈ l.head?, isSep c = true) : Line (w.encode ++ l) (w.tok ++ ts) := by
  cases w with
  | text s h0 =>
    rw [tok, leftover]
    split_ifs with hnil
    · rw [Qword.encode, hnil]
      exact h
    · exact .raw (isRaw_qwordAdd h0 hnil) hl h
  | hex s => exact .hex hl h

theorem line_upcallLine (ws : List Qword) (newline : Bool) :
    Line (upcallLine ws newline) (ws.flatMap tok) := by
  have hend : Line (if newline then [10] else []) [] := by
    cases newline
    · exact .nil
    · exact .newline
  have hsep : ∀ c ∈ (if newline then [(10 : UInt8)] else []).head?, isSep c = true := by
    cases newline <;> decide +kernel
  induction ws with
  | nil => exact hend
  | cons w ws ih =>
    cases ws with
    | nil => simpa [upcallLine] using hend.encode w hsep
    | cons w' ws =>
      have hblank : ∀ c ∈ (32 :: upcallLine (w' :: ws) newline).head?, isSep c = true := by
        intro c hc
        cases hc
        rfl
      simpa [upcallLine, intercalate_cons_cons] using ih.blank.encode w hblank

/-! ### Reading back what the kernel wrote -/

/-- A field that the reader understands: bytes, or a string that is not empty and has nothing to
escape. -/
def Qword.Clean : Qword → Prop
  | .text s _ => s ≠ [] ∧ ∀ c ∈ s, ¬ IsSpecial c
  | .hex _ => True

/-- The words are read back. -/
def ReadsBack (ws : List Qword) (newline : Bool) (ns : List ℕ) : Prop :=
  (qwordGetAll (upcallLine ws newline) ns).1 = (ws.map bytes).map some ∧
    ∀ n, (qwordGetUser (qwordGetAll (upcallLine ws newline) ns).2 n).1 = none

theorem length_qwordAdd (s : Bytes) :
    s.length ≤ (qwordAdd s).length ∧
      ((qwordAdd s).length = s.length → ∀ c ∈ s, ¬ IsSpecial c) := by
  induction s with
  | nil => simp [qwordAdd]
  | cons c s ih =>
    obtain ⟨hle, heq⟩ := ih
    rw [qwordAdd_cons, length_append, length_cons]
    by_cases hs : IsSpecial c
    · obtain ⟨ds, hesc, hlen, -⟩ := octalEscape_of_special hs
      rw [hesc, length_cons, hlen]
      exact ⟨by omega, fun h => by omega⟩
    · rw [octalEscape_of_not hs, length_singleton]
      refine ⟨by omega, fun h b hb => ?_⟩
      rcases mem_cons.mp hb with rfl | hb
      · exact hs
      · exact heq (by omega) b hb

theorem qwordAdd_eq_self_iff : qwordAdd s = s ↔ ∀ c ∈ s, ¬ IsSpecial c := by
  constructor
  · intro h
    exact (length_qwordAdd s).2 (by rw [h])
  · intro h
    induction s with
    | nil => rfl
    | cons c s ih =>
      rw [qwordAdd_cons, octalEscape_of_not (h c mem_cons_self),
        ih fun b hb => h b (mem_cons_of_mem _ hb), singleton_append]

theorem qwordAdd_eq_nil_iff : qwordAdd s = [] ↔ s = [] := by
  constructor
  · intro h
    have hle := (length_qwordAdd s).1
    rw [h] at hle
    exact eq_nil_of_length_eq_zero (Nat.le_zero.mp hle)
  · rintro rfl
    rfl

theorem Qword.clean_iff {w : Qword} : w.Clean ↔ ∃ t, w.tok = [t] ∧ t.value = w.bytes := by
  cases w with
  | text s h0 =>
    by_cases hs : s = []
    · refine iff_of_false (fun h => h.1 hs) ?_
      rintro ⟨t, ht, -⟩
      rw [tok, leftover, if_pos (qwordAdd_eq_nil_iff.mpr hs)] at ht
      cases ht
    · rw [tok, leftover, if_neg (mt qwordAdd_eq_nil_iff.mp hs)]
      constructor
      · intro h
        exact ⟨_, rfl, qwordAdd_eq_self_iff.mpr h.2⟩
      · rintro ⟨t, ht, hval⟩
        obtain rfl := (cons.inj ht).1
        exact ⟨hs, qwordAdd_eq_self_iff.mp hval⟩
  | hex s => exact iff_of_true trivial ⟨_, rfl, rfl⟩

theorem forall₂_of_clean
    (hfit : Forall₂ (fun w n => w.bytes.length < n) ws ns) (h : ∀ w ∈ ws, w.Clean) :
    Forall₂ (fun t n => t.value.length < n) (ws.flatMap tok) ns ∧
      (ws.flatMap tok).map Tok.value = ws.map bytes := by
  induction hfit with
  | nil => exact ⟨.nil, rfl⟩
  | @cons w n ws ns hlt _ ih =>
    obtain ⟨hrest, hmap⟩ := ih fun w' hw' => h w' (mem_cons_of_mem _ hw')
    obtain ⟨t, ht, hval⟩ := clean_iff.mp (h w mem_cons_self)
    rw [flatMap_cons, ht, singleton_append, map_cons, map_cons, hval, hmap]
    exact ⟨.cons (hval ▸ hlt) hrest, rfl⟩

theorem count_tok_le (ws : List Qword) :
    (ws.flatMap tok).count (.hex []) ≤ (ws.map bytes).count [] ∧
      ((ws.map bytes).count [] = (ws.flatMap tok).count (.hex []) →
        ∀ w ∈ ws, w.tok.length = 1) := by
  induction ws with
  | nil => simp
  | cons w ws ih =>
    obtain ⟨hle, heq⟩ := ih
    have hone : w.tok.count (.hex []) ≤ [w.bytes].count [] ∧
        ([w.bytes].count [] = w.tok.count (.hex []) → w.tok.length = 1) := by
      cases w with
      | text s h0 =>
        by_cases hs : s = []
        · subst hs
          simp [tok, leftover, bytes, qwordAdd]
        · simp [tok, leftover, bytes, mt qwordAdd_eq_nil_iff.mp hs, hs]
      | hex s => by_cases hs : s = [] <;> simp [tok, bytes, hs]
    rw [flatMap_cons, count_append, map_cons, ← singleton_append, count_append]
    refine ⟨by omega, fun h w' hw' => ?_⟩
    rcases mem_cons.mp hw' with rfl | hw'
    · exact hone.2 (by omega)
    · exact heq (by omega) w' hw'

theorem clean_of_map_eq (hlen : ∀ w ∈ ws, w.tok.length = 1)
    (h : ws.map bytes = (ws.flatMap tok).map Tok.value) : ∀ w ∈ ws, w.Clean := by
  induction ws with
  | nil => simp
  | cons w ws ih =>
    obtain ⟨t, ht⟩ := length_eq_one_iff.mp (hlen w mem_cons_self)
    rw [flatMap_cons, ht, singleton_append, map_cons, map_cons] at h
    obtain ⟨hval, hrest⟩ := cons.inj h
    intro w' hw'
    rcases mem_cons.mp hw' with rfl | hw'
    · exact clean_iff.mpr ⟨t, ht, hval.symm⟩
    · exact ih (fun v hv => hlen v (mem_cons_of_mem _ hv)) hrest w' hw'

theorem readsBack_of_clean {newline : Bool} (hfit : Forall₂ (fun w n => w.bytes.length < n) ws ns)
    (h : ∀ w ∈ ws, w.Clean) : ReadsBack ws newline ns := by
  obtain ⟨hroom, hmap⟩ := forall₂_of_clean hfit h
  obtain ⟨hvals, hend⟩ := qwordGetAll_of_fits hroom (line_upcallLine ws newline)
  exact ⟨by rw [hvals, hmap], qwordGetUser_of_nil hend⟩

theorem clean_of_readsBack {newline : Bool} (hfit : Forall₂ (fun w n => w.bytes.length < n) ws ns)
    (hns : ∀ n ∈ ns, 2 ≤ n) (h : ReadsBack ws newline ns) : ∀ w ∈ ws, w.Clean := by
  obtain ⟨hvals, hend⟩ := h
  obtain ⟨hcount, -, hvalue⟩ :=
    qwordGetAll_of_usedUp hns (line_upcallLine ws newline) hvals (hend 2)
  have hlen := (count_tok_le ws).2 hcount
  have htoks : (ws.flatMap tok).length = ns.length := by
    rw [length_flatMap, ← hfit.length_eq, map_congr_left hlen]
    simp
  exact clean_of_map_eq hlen (hvalue htoks)

/-- The fields of a line come back, into whatever buffers they fit, exactly when they are clean;
and if they are not, no buffers with room for a byte and the terminating zero help. -/
theorem qwordGetAll_upcallLine_iff (ws : List Qword) (newline : Bool) :
    ((∀ ns, Forall₂ (fun w n => w.bytes.length < n) ws ns → ReadsBack ws newline ns) ↔
        ∀ w ∈ ws, w.Clean) ∧
      ∀ ns, Forall₂ (fun w n => w.bytes.length < n) ws ns → (∀ n ∈ ns, 2 ≤ n) →
        (ReadsBack ws newline ns ↔ ∀ w ∈ ws, w.Clean) := by
  refine ⟨⟨fun h => ?_, fun h ns hfit => readsBack_of_clean hfit h⟩, fun ns hfit hns =>
    ⟨clean_of_readsBack hfit hns, readsBack_of_clean hfit⟩⟩
  have hfit : Forall₂ (fun w n => w.bytes.length < n) ws
      (ws.map fun w => w.bytes.length + 2) :=
    forall₂_map_right_iff.mpr (forall₂_same.mpr fun w _ => by omega)
  refine clean_of_readsBack hfit (fun n hn => ?_) (h _ hfit)
  obtain ⟨w, -, rfl⟩ := mem_map.mp hn
  omega

/-- The words of a file handle query. -/
theorem qwordGetAll_upcallLine_fsid :
    ReadsBack [.text (ascii "unix") (by decide), .text (ascii "1") (by decide), .hex [0, 0, 0, 2]]
      true [64, 16, 64] := by
  refine (qwordGetAll_upcallLine_iff _ true).1.mpr ?_ _ ?_
  · simp only [forall_mem_cons, Clean, IsSpecial, not_mem_nil, false_implies,
      implies_true, and_true]
    decide +kernel
  · exact .cons (by decide) (.cons (by decide) (.cons (by decide) .nil))

/-- A path with a blank comes back with the escape in it. -/
theorem qwordGetAll_upcallLine_blank :
    (qwordGetAll
      (upcallLine [.text (ascii "unix") (by decide), .text (ascii "/my data") (by decide)] true)
      [64, 256]).1 = [some (ascii "unix"), some (ascii "/my\\040data")] := by
  decide +kernel

end Anyfs
