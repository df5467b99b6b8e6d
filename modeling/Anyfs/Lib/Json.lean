import Anyfs.Lib.Utf16
import Mathlib.Data.List.TakeWhile

/-!
# JSON texts

A parser for JSON texts in UTF-16, with the complete grammar. Strings are read to code units, and
numbers keep their text. Nested values are read with fuel; `parse` has enough for every text.
-/

namespace Json

open List Option

/-- JSON values; a number is its text. -/
inductive Value
  | null
  | bool (b : Bool)
  | num (text : List UInt16)
  | str (s : List UInt16)
  | arr (elems : List Value)
  | obj (members : List (List UInt16 × Value))

def isWs (u : UInt16) : Bool := u = 32 ∨ u = 9 ∨ u = 10 ∨ u = 13

variable (s : List UInt16)

def skipWs : List UInt16 := s.dropWhile isWs

/-! ### Strings -/

def hexDigit (u : UInt16) : Option ℕ :=
  if 48 ≤ u ∧ u ≤ 57 then some (u.toNat - 48)
  else if 97 ≤ u ∧ u ≤ 102 then some (u.toNat - 87)
  else if 65 ≤ u ∧ u ≤ 70 then some (u.toNat - 55)
  else none

/-- The character after a backslash, other than `u`. -/
def simpleEscape (u : UInt16) : Option UInt16 :=
  if u = 34 ∨ u = 92 ∨ u = 47 then some u
  else if u = 98 then some 8
  else if u = 102 then some 12
  else if u = 110 then some 10
  else if u = 114 then some 13
  else if u = 116 then some 9
  else none

def readUnicode : List UInt16 → Option (UInt16 × List UInt16)
  | a :: b :: c :: d :: s => do
    let a ← hexDigit a
    let b ← hexDigit b
    let c ← hexDigit c
    let d ← hexDigit d
    return (UInt16.ofNat (((a * 16 + b) * 16 + c) * 16 + d), s)
  | _ => none

def readEscape : List UInt16 → Option (UInt16 × List UInt16)
  | [] => none
  | e :: s => if e = 117 then readUnicode s else (simpleEscape e).map (·, s)

def readChar : List UInt16 → Option (UInt16 × List UInt16)
  | [] => none
  | u :: s =>
    if u = 92 then readEscape s
    else if u = 34 ∨ u < 32 then none
    else some (u, s)

def parseChars : ℕ → List UInt16 → Option (List UInt16 × List UInt16)
  | 0, _ => none
  | fuel + 1, s =>
    if s.head? = some 34 then some ([], s.tail)
    else do
      let (u, s) ← readChar s
      let (us, s) ← parseChars fuel s
      return (u :: us, s)

def parseString : Option (List UInt16 × List UInt16) := parseChars s.length s

/-! ### Numbers -/

def isDigit (u : UInt16) : Bool := 48 ≤ u ∧ u ≤ 57

def parseDigits : Option (List UInt16 × List UInt16) :=
  if s.takeWhile isDigit = [] then none else some (s.takeWhile isDigit, s.dropWhile isDigit)

def parseInt : Option (List UInt16 × List UInt16) :=
  if s.head? = some 48 then some ([48], s.tail) else parseDigits s

def parseFrac : Option (List UInt16 × List UInt16) :=
  if s.head? = some 46 then (parseDigits s.tail).map fun (ds, s) => (46 :: ds, s)
  else some ([], s)

def parseSign : List UInt16 → List UInt16 × List UInt16
  | [] => ([], [])
  | u :: s => if u = 43 ∨ u = 45 then ([u], s) else ([], u :: s)

def parseExp : List UInt16 → Option (List UInt16 × List UInt16)
  | [] => some ([], [])
  | e :: s =>
    if e = 101 ∨ e = 69 then
      let (sign, s) := parseSign s
      (parseDigits s).map fun (ds, s) => (e :: (sign ++ ds), s)
    else some ([], e :: s)

def parseNumber : Option (List UInt16 × List UInt16) := do
  let (sign, s) := if s.head? = some 45 then ([45], s.tail) else (([] : List UInt16), s)
  let (int, s) ← parseInt s
  let (frac, s) ← parseFrac s
  let (exp, s) ← parseExp s
  return (sign ++ int ++ frac ++ exp, s)

/-! ### Values -/

def parseLiteral (word : List UInt16) (v : Value) (s : List UInt16) :
    Option (Value × List UInt16) :=
  if word.isPrefixOf s then some (v, s.drop word.length) else none

mutual

def parseValue : ℕ → List UInt16 → Option (Value × List UInt16)
  | 0, _ => none
  | fuel + 1, s =>
    match skipWs s with
    | [] => none
    | u :: s =>
      if u = 34 then (parseString s).map fun (str, s) => (.str str, s)
      else if u = 91 then
        if (skipWs s).head? = some 93 then some (.arr [], (skipWs s).tail)
        else (parseElems fuel s).map fun (vs, s) => (.arr vs, s)
      else if u = 123 then
        if (skipWs s).head? = some 125 then some (.obj [], (skipWs s).tail)
        else (parseMembers fuel s).map fun (ms, s) => (.obj ms, s)
      else if u = 110 then parseLiteral [110, 117, 108, 108] .null (u :: s)
      else if u = 116 then parseLiteral [116, 114, 117, 101] (.bool true) (u :: s)
      else if u = 102 then parseLiteral [102, 97, 108, 115, 101] (.bool false) (u :: s)
      else (parseNumber (u :: s)).map fun (text, s) => (.num text, s)

def parseElems : ℕ → List UInt16 → Option (List Value × List UInt16)
  | 0, _ => none
  | fuel + 1, s => do
    let (v, s) ← parseValue fuel s
    match skipWs s with
    | [] => none
    | u :: s =>
      if u = 44 then
        let (vs, s) ← parseElems fuel s
        return (v :: vs, s)
      else if u = 93 then return ([v], s)
      else none

def parseMembers : ℕ → List UInt16 → Option (List (List UInt16 × Value) × List UInt16)
  | 0, _ => none
  | fuel + 1, s =>
    match skipWs s with
    | [] => none
    | q :: s =>
      if q ≠ 34 then none
      else do
        let (k, s) ← parseString s
        match skipWs s with
        | [] => none
        | colon :: s =>
          if colon ≠ 58 then none
          else do
            let (v, s) ← parseValue fuel s
            match skipWs s with
            | [] => none
            | u :: s =>
              if u = 44 then
                let (ms, s) ← parseMembers fuel s
                return ((k, v) :: ms, s)
              else if u = 125 then return ([(k, v)], s)
              else none

end

/-- `JSON.parse`: a value with white space around it. -/
def parse (s : List UInt16) : Option Value := do
  let (v, s) ← parseValue (2 * s.length + 2) s
  if skipWs s = [] then some v else none

/-! ### Reading what was written -/

def Stops (s : List UInt16) : Prop := ∀ u ∈ s.head?, u = 44 ∨ u = 93 ∨ u = 125

/-- The text starts with no white space and no closing bracket or brace, and is read with fuel for
its length, whatever follows it. -/
def Reads (text : List UInt16) (v : Value) : Prop :=
  (∃ u t, text = u :: t ∧ isWs u = false ∧ u ≠ 93 ∧ u ≠ 125) ∧
    ∀ fuel rest, 2 * text.length ≤ fuel → Stops rest →
      parseValue fuel (text ++ rest) = some (v, rest)

variable {u : UInt16} {text rest : List UInt16} {fuel : ℕ}

theorem skipWs_cons (h : isWs u = false) (s : List UInt16) : skipWs (u :: s) = u :: s := by
  rw [skipWs, dropWhile_cons_of_neg (by rw [h]; exact Bool.false_ne_true)]

/-! #### Strings -/

theorem readUnicode_append (h : readUnicode text = some (u, []))
    (rest : List UInt16) : readUnicode (text ++ rest) = some (u, rest) := by
  match text, h with
  | a :: b :: c :: d :: s, h =>
    simp only [readUnicode, Option.bind_eq_bind, bind_eq_some_iff, Option.pure_def,
      some.injEq, Prod.mk.injEq] at h
    obtain ⟨a', ha, b', hb, c', hc, d', hd, rfl, rfl⟩ := h
    simp [readUnicode, ha, hb, hc, hd]

theorem readEscape_append (h : readEscape text = some (u, []))
    (rest : List UInt16) : readEscape (text ++ rest) = some (u, rest) := by
  match text, h with
  | e :: s, h =>
    rw [readEscape] at h
    rw [cons_append, readEscape]
    split_ifs at h ⊢ with hu
    · exact readUnicode_append h rest
    · obtain ⟨v, hv, hpair⟩ := map_eq_some_iff.mp h
      obtain ⟨rfl, rfl⟩ := Prod.mk.inj hpair
      rw [hv]
      rfl

theorem readChar_append (h : readChar text = some (u, []))
    (rest : List UInt16) : readChar (text ++ rest) = some (u, rest) := by
  match text, h with
  | x :: s, h =>
    rw [readChar] at h
    rw [cons_append, readChar]
    split_ifs at h ⊢ with hbackslash hquote
    · exact readEscape_append h rest
    · obtain ⟨rfl, rfl⟩ := Prod.mk.inj (some.inj h)
      rfl

theorem ne_nil_of_readChar (h : readChar text = some (u, [])) : 0 < text.length := by
  cases text with
  | nil => exact absurd h (by simp [readChar])
  | cons x s => exact Nat.succ_pos _

variable {esc : UInt16 → List UInt16}

theorem parseChars_flatMap {s : List UInt16} (h : ∀ u ∈ s, readChar (esc u) = some (u, []))
    (hfuel : s.length < fuel) (rest : List UInt16) :
    parseChars fuel (s.flatMap esc ++ 34 :: rest) = some (s, rest) := by
  induction s generalizing fuel with
  | nil =>
    obtain ⟨fuel, rfl⟩ := Nat.exists_eq_add_one_of_ne_zero (Nat.ne_zero_of_lt hfuel)
    rfl
  | cons u s ih =>
    obtain ⟨hu, hs⟩ := forall_mem_cons.mp h
    obtain ⟨fuel, rfl⟩ := Nat.exists_eq_add_one_of_ne_zero (Nat.ne_zero_of_lt hfuel)
    have hread := readChar_append hu (s.flatMap esc ++ 34 :: rest)
    have hquote : (esc u ++ (s.flatMap esc ++ 34 :: rest)).head? ≠ some 34 := by
      intro hhead
      obtain ⟨t, ht⟩ := List.head?_eq_some_iff.mp hhead
      rw [ht] at hread
      exact absurd hread (by simp [readChar])
    rw [flatMap_cons, append_assoc, parseChars, if_neg hquote, hread,
      Option.bind_eq_bind, bind_some]
    dsimp only
    rw [ih hs (Nat.lt_of_succ_lt_succ hfuel)]
    rfl

theorem parseString_flatMap {s : List UInt16} (h : ∀ u ∈ s, readChar (esc u) = some (u, []))
    (rest : List UInt16) : parseString (s.flatMap esc ++ 34 :: rest) = some (s, rest) := by
  have hlen : s.length ≤ (s.flatMap esc).length := by
    clear rest
    induction s with
    | nil => exact le_rfl
    | cons u s ih =>
      obtain ⟨hu, hs⟩ := forall_mem_cons.mp h
      have hpos := ne_nil_of_readChar hu
      have htail := ih hs
      rw [flatMap_cons, length_append, length_cons]
      omega
  refine parseChars_flatMap h ?_ rest
  rw [length_append, length_cons]
  omega

theorem Reads.str {s : List UInt16} (h : ∀ u ∈ s, readChar (esc u) = some (u, [])) :
    Reads (34 :: (s.flatMap esc ++ [34])) (.str s) := by
  refine ⟨⟨_, _, rfl, by decide, by decide, by decide⟩, ?_⟩
  intro fuel rest hfuel _
  rw [length_cons] at hfuel
  obtain ⟨fuel, rfl⟩ := Nat.exists_eq_add_one_of_ne_zero (show fuel ≠ 0 by omega)
  rw [cons_append, append_assoc, singleton_append, parseValue, skipWs_cons (by decide)]
  dsimp only
  rw [if_pos rfl, parseString_flatMap h]
  rfl

/-! #### Numbers -/

def IsDecimal (ds : List UInt16) : Prop :=
  (∀ u ∈ ds, isDigit u = true) ∧ ds ≠ [] ∧ (ds.head? = some 48 → ds = [48])

def IsInteger (text : List UInt16) : Prop :=
  IsDecimal text ∨ ∃ ds, text = 45 :: ds ∧ IsDecimal ds

theorem isDigit_bounds (h : isDigit u = true) : 48 ≤ u.toNat ∧ u.toNat ≤ 57 :=
  of_decide_eq_true h

theorem IsInteger.exists_cons (h : IsInteger text) :
    ∃ u t, text = u :: t ∧ (u.toNat = 45 ∨ 48 ≤ u.toNat ∧ u.toNat ≤ 57) := by
  rcases h with ⟨hds, hne, -⟩ | ⟨ds, rfl, -⟩
  · obtain ⟨u, t, rfl⟩ := exists_cons_of_ne_nil hne
    exact ⟨u, t, rfl, .inr (isDigit_bounds (hds u mem_cons_self))⟩
  · exact ⟨45, ds, rfl, .inl rfl⟩

theorem Stops.isDigit (h : Stops rest) {t : List UInt16}
    (hrest : rest = u :: t) : isDigit u = false := by
  rcases h u (by rw [hrest]; rfl) with rfl | rfl | rfl <;> decide

theorem parseDigits_append {ds : List UInt16} (hds : ∀ u ∈ ds, isDigit u = true)
    (hne : ds ≠ []) (hrest : Stops rest) : parseDigits (ds ++ rest) = some (ds, rest) := by
  have htake : (ds ++ rest).takeWhile isDigit = ds := by
    rw [takeWhile_append_of_pos hds]
    cases rest with
    | nil => simp
    | cons u t => rw [takeWhile_cons_of_neg (by rw [hrest.isDigit rfl]; decide), append_nil]
  have hdrop : (ds ++ rest).dropWhile isDigit = rest := by
    rw [dropWhile_append_of_pos hds]
    cases rest with
    | nil => rfl
    | cons u t => rw [dropWhile_cons_of_neg (by rw [hrest.isDigit rfl]; decide)]
  rw [parseDigits, htake, hdrop, if_neg hne]

theorem parseInt_append {ds : List UInt16} (h : IsDecimal ds) (hrest : Stops rest) :
    parseInt (ds ++ rest) = some (ds, rest) := by
  obtain ⟨hds, hne, hzero⟩ := h
  have hhead' : (ds ++ rest).head? = ds.head? := by
    obtain ⟨u, t, rfl⟩ := exists_cons_of_ne_nil hne
    rfl
  rw [parseInt, hhead']
  split_ifs with hhead
  · rw [hzero hhead]
    rfl
  · exact parseDigits_append hds hne hrest

theorem parseFrac_of_stops (h : Stops rest) : parseFrac rest = some ([], rest) := by
  rw [parseFrac, if_neg]
  intro hhead
  exact absurd (h 46 hhead) (by decide)

theorem parseExp_of_stops (h : Stops rest) : parseExp rest = some ([], rest) := by
  cases rest with
  | nil => rfl
  | cons u t =>
    have hu : ¬ (u = 101 ∨ u = 69) := by
      rcases h u rfl with rfl | rfl | rfl <;> decide
    rw [parseExp]
    exact if_neg hu

theorem parseNumber_append (h : IsInteger text) (hrest : Stops rest) :
    parseNumber (text ++ rest) = some (text, rest) := by
  have htail : ∀ sign ds : List UInt16, IsDecimal ds → (do
        let (int, s) ← parseInt (ds ++ rest)
        let (frac, s) ← parseFrac s
        let (exp, s) ← parseExp s
        return (sign ++ int ++ frac ++ exp, s)) = some (sign ++ ds, rest) := by
    intro sign ds hds
    simp only [parseInt_append hds hrest, parseFrac_of_stops hrest, parseExp_of_stops hrest,
      Option.bind_eq_bind, bind_some, Option.pure_def, append_nil]
  rw [parseNumber]
  rcases h with hds | ⟨ds, rfl, hds⟩
  · obtain ⟨u, t, hut⟩ := exists_cons_of_ne_nil hds.2.1
    have hu := isDigit_bounds (hds.1 u (by rw [hut]; exact mem_cons_self))
    have hminus : (text ++ rest).head? ≠ some 45 := by
      rw [hut]
      intro hhead
      obtain rfl : u = 45 := some.inj hhead
      exact absurd hu (by decide)
    rw [if_neg hminus]
    exact htail [] text hds
  · rw [cons_append, List.head?_cons, if_pos rfl]
    exact htail [45] ds hds

theorem Reads.num (h : IsInteger text) : Reads text (.num text) := by
  obtain ⟨u, t, hut, hu⟩ := h.exists_cons
  have hne : ∀ v : UInt16, v.toNat ≠ 45 ∧ (v.toNat < 48 ∨ 57 < v.toNat) → u ≠ v := by
    rintro v hv rfl
    omega
  have hws : isWs u = false := by
    rw [isWs, decide_eq_false_iff_not]
    rintro (rfl | rfl | rfl | rfl) <;> exact absurd hu (by decide)
  refine ⟨⟨u, t, hut, hws, hne _ (by decide), hne _ (by decide)⟩, ?_⟩
  intro fuel rest hfuel hrest
  have hnumber := parseNumber_append h hrest
  rw [hut, length_cons] at hfuel
  obtain ⟨fuel, rfl⟩ := Nat.exists_eq_add_one_of_ne_zero (show fuel ≠ 0 by omega)
  rw [hut, cons_append] at hnumber ⊢
  rw [parseValue, skipWs_cons hws]
  dsimp only
  rw [if_neg (hne _ (by decide)), if_neg (hne _ (by decide)), if_neg (hne _ (by decide)),
    if_neg (hne _ (by decide)), if_neg (hne _ (by decide)), if_neg (hne _ (by decide)), hnumber]
  rfl

/-! #### Arrays and objects -/

theorem Stops.cons (h : u = 44 ∨ u = 93 ∨ u = 125) (t : List UInt16) : Stops (u :: t) := by
  intro v hv
  cases hv
  exact h

theorem intercalate_cons_eq_flatMap {α : Type*} (c : α) (text : List α) (texts : List (List α)) :
    [c].intercalate (text :: texts) = text ++ texts.flatMap (c :: ·) := by
  induction texts generalizing text with
  | nil => rw [intercalate_singleton, flatMap_nil, append_nil]
  | cons text' texts ih =>
    rw [intercalate_cons_cons, ih, flatMap_cons, append_assoc]
    rfl

def commas (texts : List (List UInt16)) : List UInt16 := [44].intercalate texts

theorem commas_singleton (text : List UInt16) : commas [text] = text :=
  intercalate_singleton

theorem commas_cons (text : List UInt16) {texts : List (List UInt16)} (h : texts ≠ []) :
    commas (text :: texts) = text ++ 44 :: commas texts := by
  obtain ⟨text', texts, rfl⟩ := exists_cons_of_ne_nil h
  rw [commas, intercalate_cons_cons, append_assoc]
  rfl

theorem commas_eq_flatMap (text : List UInt16) (texts : List (List UInt16)) :
    commas (text :: texts) = text ++ texts.flatMap (44 :: ·) :=
  intercalate_cons_eq_flatMap 44 text texts

theorem exists_commas_cons (u : UInt16) (t : List UInt16) (texts : List (List UInt16)) :
    ∃ t', commas ((u :: t) :: texts) = u :: t' :=
  ⟨t ++ texts.flatMap (44 :: ·), by rw [commas_eq_flatMap, cons_append]⟩

/-- A parser of what stands between two brackets gets past one item with its comma or its closing
bracket, so it reads all items. -/
theorem parse_commas {ι β : Type*} {parse : ℕ → List UInt16 → Option (List β × List UInt16)}
    {close : UInt16} {item : ι → List UInt16} {v : ι → β} {items : List ι} (hne : items ≠ [])
    (hclose : close ≠ 44)
    (h : ∀ i ∈ items, ∀ (fuel : ℕ) (u : UInt16) (rest : List UInt16),
      2 * (item i).length ≤ fuel → u = 44 ∨ u = close →
      parse (fuel + 1) (item i ++ u :: rest) =
        if u = 44 then (parse fuel rest).map fun (vs, s) => (v i :: vs, s)
        else some ([v i], rest))
    (hfuel : 2 * (commas (items.map item)).length < fuel) (rest : List UInt16) :
    parse fuel (commas (items.map item) ++ close :: rest) = some (items.map v, rest) := by
  induction items generalizing fuel with
  | nil => exact absurd rfl hne
  | cons i items ih =>
    obtain ⟨hi, hitems⟩ := forall_mem_cons.mp h
    obtain ⟨fuel, rfl⟩ := Nat.exists_eq_add_one_of_ne_zero (Nat.ne_zero_of_lt hfuel)
    by_cases hitems' : items = []
    · subst hitems'
      rw [map_singleton, commas_singleton] at hfuel ⊢
      rw [hi fuel close rest (by omega) (.inr rfl), if_neg hclose]
      rfl
    · rw [map_cons, commas_cons _ (by simpa using hitems'), length_append, length_cons] at hfuel
      rw [map_cons, commas_cons _ (by simpa using hitems'), append_assoc, cons_append,
        hi fuel 44 _ (by omega) (.inl rfl), if_pos rfl, ih hitems' hitems (by omega)]
      rfl

theorem parseElems_elem {v : Value} (h : Reads text v)
    (hfuel : 2 * text.length ≤ fuel) (hu : u = 44 ∨ u = 93) :
    parseElems (fuel + 1) (text ++ u :: rest) =
      if u = 44 then (parseElems fuel rest).map fun (vs, s) => (v :: vs, s)
      else some ([v], rest) := by
  have hws : isWs u = false := by rcases hu with rfl | rfl <;> decide
  rw [parseElems, h.2 fuel _ hfuel (.cons (hu.imp_right .inl) rest)]
  simp only [Option.bind_eq_bind, bind_some, skipWs_cons hws, Option.pure_def,
    Option.map_eq_bind, Function.comp_def]
  rcases hu with rfl | rfl <;> rfl

theorem Reads.arr {items : List (List UInt16 × Value)} (h : ∀ i ∈ items, Reads i.1 i.2) :
    Reads (91 :: (commas (items.map Prod.fst) ++ [93])) (.arr (items.map Prod.snd)) := by
  refine ⟨⟨_, _, rfl, by decide, by decide, by decide⟩, ?_⟩
  intro fuel rest hfuel _
  rw [length_cons, length_append] at hfuel
  obtain ⟨fuel, rfl⟩ := Nat.exists_eq_add_one_of_ne_zero (show fuel ≠ 0 by omega)
  rw [cons_append, append_assoc, singleton_append, parseValue, skipWs_cons (by decide)]
  dsimp only
  rw [if_neg (by decide), if_pos rfl]
  cases items with
  | nil => rfl
  | cons i items =>
    obtain ⟨u, t, hut, hws, hbracket, -⟩ := (h i mem_cons_self).1
    have hlt : 2 * (commas ((i :: items).map Prod.fst)).length < fuel := by omega
    have helems := parse_commas (v := Prod.snd) (cons_ne_nil _ _) (by decide)
      (fun i hi _ _ _ => parseElems_elem (h i hi)) hlt rest
    obtain ⟨t', htext⟩ := exists_commas_cons u t (items.map Prod.fst)
    rw [map_cons, hut, htext, cons_append] at helems ⊢
    rw [skipWs_cons hws, List.head?_cons, if_neg fun hhead => hbracket (some.inj hhead), helems]
    rfl

def memberText (esc : UInt16 → List UInt16) (k text : List UInt16) : List UInt16 :=
  34 :: (k.flatMap esc ++ 34 :: 58 :: text)

theorem parseMembers_member {k : List UInt16} {v : Value}
    (hk : ∀ u ∈ k, readChar (esc u) = some (u, [])) (h : Reads text v)
    (hfuel : 2 * (memberText esc k text).length ≤ fuel) (hu : u = 44 ∨ u = 125) :
    parseMembers (fuel + 1) (memberText esc k text ++ u :: rest) =
      if u = 44 then (parseMembers fuel rest).map fun (ms, s) => ((k, v) :: ms, s)
      else some ([(k, v)], rest) := by
  have hws : isWs u = false := by rcases hu with rfl | rfl <;> decide
  have hlen : 2 * text.length ≤ fuel := by
    simp only [memberText, length_cons, length_append] at hfuel
    omega
  rw [memberText, cons_append, append_assoc, cons_append, cons_append,
    parseMembers, skipWs_cons (by decide)]
  simp only [parseString_flatMap hk, Option.bind_eq_bind, bind_some,
    skipWs_cons (show isWs 58 = false by decide), h.2 fuel _ hlen (.cons (hu.imp_right .inr) rest),
    skipWs_cons hws, Option.pure_def, Option.map_eq_bind, Function.comp_def, ne_eq,
    not_true_eq_false, if_false]
  rcases hu with rfl | rfl <;> rfl

theorem Reads.obj {items : List (List UInt16 × List UInt16 × Value)} (hne : items ≠ [])
    (h : ∀ i ∈ items, (∀ u ∈ i.1, readChar (esc u) = some (u, [])) ∧ Reads i.2.1 i.2.2) :
    Reads (123 :: (commas (items.map fun i => memberText esc i.1 i.2.1) ++ [125]))
      (.obj (items.map fun i => (i.1, i.2.2))) := by
  refine ⟨⟨_, _, rfl, by decide, by decide, by decide⟩, ?_⟩
  intro fuel rest hfuel _
  rw [length_cons, length_append] at hfuel
  obtain ⟨fuel, rfl⟩ := Nat.exists_eq_add_one_of_ne_zero (show fuel ≠ 0 by omega)
  have hlt : 2 * (commas (items.map fun i => memberText esc i.1 i.2.1)).length < fuel := by omega
  have hmembers := parse_commas (v := fun i => (i.1, i.2.2)) hne (by decide)
    (fun i hi _ _ _ => parseMembers_member (h i hi).1 (h i hi).2) hlt rest
  obtain ⟨i, items, rfl⟩ := exists_cons_of_ne_nil hne
  obtain ⟨t, htext⟩ := exists_commas_cons 34 (i.1.flatMap esc ++ 34 :: 58 :: i.2.1)
    (items.map fun i => memberText esc i.1 i.2.1)
  rw [cons_append, append_assoc, singleton_append, parseValue, skipWs_cons (by decide)]
  dsimp only
  rw [if_neg (by decide), if_neg (by decide), if_pos rfl]
  rw [map_cons, memberText, htext, cons_append] at hmembers ⊢
  rw [skipWs_cons (by decide), List.head?_cons, if_neg (by decide), hmembers]
  rfl

theorem Reads.parse {v : Value} (h : Reads text v) : parse text = some v := by
  have hvalue := h.2 (2 * text.length + 2) [] (Nat.le_add_right _ _) (by simp [Stops])
  rw [append_nil] at hvalue
  rw [Json.parse, hvalue]
  rfl

end Json
