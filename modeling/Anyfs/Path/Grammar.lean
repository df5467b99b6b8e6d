import Anyfs.Path.Dsl

/-!
# The grammar of the path DSL

What a path is meant to be, without the parser (`PathText`). `anyfs_path_parse` accepts more:
`strtoul` skips blanks and takes a sign, numbers wrap around, and a query ends at a zero byte, which
`%00` can put there. The texts that are well-formed but for one of these are the sloppy ones
(`SloppyPath`).
-/

namespace Anyfs

open List CString Option

/-! ### Queries -/

/-- Percent decoding. -/
inductive Decodes : Bytes → Bytes → Prop
  | nil : Decodes [] []
  | plain {c : UInt8} {q d : Bytes} : c ≠ 37 → Decodes q d → Decodes (c :: q) (c :: d)
  | escape {a b : UInt8} {hi lo : ℕ} {q d : Bytes} : hexNyb a = some hi → hexNyb b = some lo →
      Decodes q d → Decodes (37 :: a :: b :: q) (UInt8.ofNat (hi * 16 + lo) :: d)

/-! ### Segments -/

variable (seg : Bytes)

/-- A segment `disk<digits>`. -/
def DiskSeg (n : ℤ) : Prop :=
  ∃ ds, seg = ascii "disk" ++ ds ∧ Numeral ds ∧ n = digitsValue ds ∧ digitsValue ds < 2 ^ 31

def CompText (num : Bytes) (q : Option Bytes) : Prop :=
  ∃ l, (l = 112 ∨ l = 80) ∧ 63 ∉ num ∧ seg = l :: (num ++ (q.map fun t => 63 :: t).getD [])

/-- A segment `p<digits>[?<query>]`. -/
def CompSeg (c : AnyfsPathComp) : Prop :=
  ∃ ds q, CompText seg ds q ∧ Numeral ds ∧ 0 < digitsValue ds ∧ digitsValue ds < 2 ^ 32 ∧
    c.p = UInt32.ofNat (digitsValue ds) ∧ Option.Rel Decodes q c.query

def trimSlashes (s : Bytes) : Bytes := (s.dropWhile (· == slash)).rdropWhile (· == slash)

/-- Up to slashes at both ends, a text is a list of segments, of which the first one may be set
apart. -/
structure Segments (s : Bytes) (disk comps : List Bytes) : Prop where
  text : trimSlashes s = [slash].intercalate (disk ++ comps)
  disk_le : disk.length ≤ 1
  comps_pos : comps ≠ []
  comps_le : comps.length ≤ anyfsPathMaxComponents
  noSlash : ∀ seg ∈ disk ++ comps, slash ∉ seg

/-- A text that stands for a path. -/
def PathText (s : Bytes) (ap : AnyfsPath) : Prop :=
  ∃ disk comps, Segments s disk comps ∧ Forall₂ DiskSeg disk ap.diskIdx.toList ∧
    Forall₂ CompSeg comps ap.comp

/-! ### Sloppy texts -/

/-- A segment `disk<digits>` with any number. -/
def LooseDisk : Prop := ∃ ds, seg = ascii "disk" ++ ds ∧ Numeral ds

/-- A component as it is accepted. -/
def LooseComp : Prop :=
  ∃ num q neg ds, CompText seg num q ∧ Scanned num neg ds ∧ digitsValue ds ≠ 0 ∧
    ∀ t ∈ q, ∃ d, Decodes t d

/-- A disk number that wraps. -/
def SloppyDisk : Prop :=
  ∃ ds, seg = ascii "disk" ++ ds ∧ Numeral ds ∧ 2 ^ 31 ≤ digitsValue ds

/-- The number of a component has something before its digits or does not fit an
`unsigned int`. -/
def SloppyNumber : Prop :=
  ∃ num q neg ds, CompText seg num q ∧ Scanned num neg ds ∧
    (num ≠ ds ∨ 2 ^ 32 ≤ digitsValue ds)

/-- A query with a zero in it. -/
def CutQuery : Prop :=
  ∃ num t d, CompText seg num (some t) ∧ Decodes t d ∧ 0 ∈ d

def SloppyComp : Prop := SloppyNumber seg ∨ CutQuery seg

def SloppyPath (sloppy : Bytes → Prop) (s : Bytes) : Prop :=
  ∃ disk comps, Segments s disk comps ∧ (∀ seg ∈ disk, LooseDisk seg) ∧
    (∀ seg ∈ comps, LooseComp seg) ∧
    ((∃ seg ∈ disk, SloppyDisk seg) ∨ ∃ seg ∈ comps, sloppy seg)

/-! ### Segments against the parser -/

theorem decodes_iff {q d : Bytes} : Decodes q d ↔ pctDecode q = some d := by
  constructor
  · intro h
    induction h with
    | nil => rfl
    | plain hc _ ih =>
      rw [pctDecode.eq_def]
      dsimp only
      rw [if_neg hc, ih, map_some]
    | escape ha hb _ ih =>
      rw [pctDecode, if_pos rfl, ha, hb, ih]
      rfl
  · fun_induction pctDecode q generalizing d with
    | case1 => rintro ⟨⟩; exact .nil
    | case2 a b rest hi lo hb ha ih =>
      intro h
      obtain ⟨d, hd, rfl⟩ := map_eq_some_iff.mp h
      exact .escape ha hb (ih hd)
    | case3 => nofun
    | case4 => nofun
    | case5 c rest hc ih =>
      intro h
      obtain ⟨d, hd, rfl⟩ := map_eq_some_iff.mp h
      exact .plain hc (ih hd)

variable {q : Option Bytes} {c : AnyfsPathComp} {α : Type*} {comps disk segs : List Bytes}
    {s : Bytes} {ap : AnyfsPath}

theorem compText_cons {l : UInt8} {r num : Bytes} :
    CompText (l :: r) num q ↔ (l = 112 ∨ l = 80) ∧ num = r.takeWhile (· != 63) ∧
      (q.map fun t => 63 :: t).getD [] = r.dropWhile (· != 63) := by
  constructor
  · rintro ⟨l', hl, hnum, heq⟩
    obtain ⟨rfl, rfl⟩ := cons.inj heq
    have hpos : ∀ c ∈ num, (c != 63) = true := by
      intro c hc
      rw [bne_iff_ne]
      rintro rfl
      exact hnum hc
    refine ⟨hl, ?_, ?_⟩
    · rw [takeWhile_append_of_pos hpos]
      cases q <;> simp
    · rw [dropWhile_append_of_pos hpos]
      cases q <;> simp
  · rintro ⟨hl, rfl, hq⟩
    refine ⟨l, hl, fun h => ?_, ?_⟩
    · simpa using mem_takeWhile_imp h
    · rw [hq, takeWhile_append_dropWhile]

theorem CompText.unique {seg num num' : Bytes} {q' : Option Bytes} (h : CompText seg num q)
    (h' : CompText seg num' q') : num = num' ∧ q = q' := by
  obtain ⟨l, hl, hnum, rfl⟩ := h
  obtain ⟨-, hn, hq⟩ := compText_cons.mp ⟨l, hl, hnum, rfl⟩
  obtain ⟨-, hn', hq'⟩ := compText_cons.mp h'
  refine ⟨hn.trans hn'.symm, ?_⟩
  rw [← hq'] at hq
  revert hq
  cases q <;> cases q' <;> simp

theorem parsePartNumber_eq_some {r : Bytes} {p : UInt32} :
    parsePartNumber r = some p ↔ ∃ neg ds, Scanned r neg ds ∧ digitsValue ds ≠ 0 ∧
      p = (strtoulValue neg ds).toUInt32 := by
  constructor
  · intro h
    rw [parsePartNumber] at h
    split_ifs at h with hr
    obtain ⟨v, rest, hread⟩ : ∃ v rest, strtoul r = (v, rest) := ⟨_, _, rfl⟩
    rw [hread] at h
    dsimp only at h
    split_ifs at h with hbad
    obtain ⟨hrest, hv⟩ := not_or.mp hbad
    obtain ⟨neg, ds, hscan⟩ := exists_scanned_of_strtoul hr (by rw [hread]; exact not_not.mp hrest)
    obtain ⟨rfl, -⟩ := Prod.mk.inj (hread.symm.trans hscan.strtoul)
    exact ⟨neg, ds, hscan, fun h0 => hv (strtoulValue_eq_zero.mpr h0), (some.inj h).symm⟩
  · rintro ⟨neg, ds, hscan, hne, rfl⟩
    rw [parsePartNumber, if_neg hscan.ne_nil, hscan.strtoul]
    dsimp only
    rw [if_neg (not_or.mpr ⟨not_not.mpr rfl, mt strtoulValue_eq_zero.mp hne⟩)]

theorem parseComponent_eq_some {seg : Bytes} :
    parseComponent seg = some c ↔ ∃ num q neg ds, CompText seg num q ∧ Scanned num neg ds ∧
      digitsValue ds ≠ 0 ∧ c.p = (strtoulValue neg ds).toUInt32 ∧
      Option.Rel (fun t u => ∃ d, Decodes t d ∧ u = cstr d) q c.query := by
  cases seg with
  | nil =>
    refine iff_of_false (by simp [parseComponent]) ?_
    rintro ⟨_, _, _, _, ⟨_, _, _, heq⟩, _⟩
    exact cons_ne_nil _ _ heq.symm
  | cons l r =>
    rw [parseComponent.eq_def]
    dsimp only
    split_ifs with hl
    · refine iff_of_false (by simp) ?_
      rintro ⟨num, q, _, _, htext, _⟩
      rcases (compText_cons.mp htext).1 with h | h
      · exact hl.1 h
      · exact hl.2 h
    · have hl' : l = 112 ∨ l = 80 := by tauto
      constructor
      · intro h
        cases hp : parsePartNumber (r.takeWhile (· != 63)) with
        | none => simp [hp] at h
        | some p =>
          obtain ⟨neg, ds, hscan, hne, rfl⟩ := parsePartNumber_eq_some.mp hp
          rw [hp] at h
          dsimp only at h
          cases hq : r.dropWhile (· != 63) with
          | nil =>
            rw [hq] at h
            cases h
            exact ⟨_, none, neg, ds, compText_cons.mpr ⟨hl', rfl, hq.symm⟩, hscan, hne, rfl, .none⟩
          | cons m t =>
            rw [hq] at h
            obtain ⟨d, hd, rfl⟩ := map_eq_some_iff.mp h
            have hm : m = 63 := by
              have := List.head?_dropWhile_not (p := (· != 63)) (l := r)
              simpa [hq] using this
            exact ⟨_, some t, neg, ds, compText_cons.mpr ⟨hl', rfl, by rw [hq, hm]; rfl⟩, hscan,
              hne,
              rfl, .some ⟨d, decodes_iff.mpr hd, rfl⟩⟩
      · rintro ⟨num, q, neg, ds, htext, hscan, hne, hp, hrel⟩
        obtain ⟨-, rfl, hq⟩ := compText_cons.mp htext
        rw [parsePartNumber_eq_some.mpr ⟨neg, ds, hscan, hne, rfl⟩, ← hq]
        obtain ⟨cp, cq⟩ := c
        obtain rfl : cp = _ := hp
        cases hrel with
        | none => rfl
        | some hd =>
          obtain ⟨d, hd, rfl⟩ := hd
          simp [decodes_iff.mp hd]

theorem parseDiskPrefix_eq_idx {seg : Bytes} {n : ℤ} :
    parseDiskPrefix seg = .idx n ↔ ∃ ds, seg = ascii "disk" ++ ds ∧ Numeral ds ∧
      n = Int.bmod (min (digitsValue ds : ℤ) (2 ^ 63 - 1)) (2 ^ 32) := by
  constructor
  · intro h
    rw [parseDiskPrefix] at h
    split_ifs at h with hpre
    obtain ⟨r, rfl⟩ := isPrefixOf_iff_prefix.mp hpre
    rw [show (ascii "disk" ++ r).drop 4 = r from rfl] at h
    dsimp only at h
    split_ifs at h with hdigit hbad
    obtain ⟨hrest, -⟩ := not_or.mp hbad
    have hne : r ≠ [] := by
      rintro rfl
      simp at hdigit
    obtain ⟨c, r, rfl⟩ := exists_cons_of_ne_nil hne
    have hnum : Numeral (c :: r) := numeral_of_strtol (by simpa using hdigit) (not_not.mp hrest)
    rw [hnum.strtol] at h
    exact ⟨c :: r, rfl, hnum, (DiskPrefix.idx.inj h).symm⟩
  · rintro ⟨ds, rfl, hds, rfl⟩
    obtain ⟨c, r, rfl⟩ := exists_cons_of_ne_nil hds.1
    have hc : isDigit c = true := hds.2 c mem_cons_self
    have hpre : (ascii "disk").isPrefixOf (ascii "disk" ++ c :: r) = true :=
      isPrefixOf_iff_prefix.mpr (prefix_append _ _)
    rw [parseDiskPrefix, if_neg (not_not.mpr hpre),
      show (ascii "disk" ++ c :: r).drop 4 = c :: r from rfl]
    dsimp only
    rw [if_pos (by simpa using hc), hds.strtol, if_neg]
    exact not_or.mpr ⟨not_not.mpr rfl, by omega⟩

/-! ### Paths against the parser -/

theorem notMem_of_mem_splitOn [BEq α] [LawfulBEq α] {a : α} {l seg : List α}
    (h : seg ∈ l.splitOn a) : a ∉ seg := by
  induction l generalizing seg with
  | nil => simp_all
  | cons b l ih =>
    rw [splitOn_cons_eq_if_modifyHead] at h
    split_ifs at h with hb
    · rcases mem_cons.mp h with rfl | h
      · exact not_mem_nil
      · exact ih h
    · obtain ⟨first, rest, hsplit⟩ := exists_cons_of_ne_nil (splitOn_ne_nil a l)
      rw [hsplit, modifyHead_cons] at h
      rcases mem_cons.mp h with rfl | h
      · have hfirst : a ∉ first := ih (hsplit ▸ mem_cons_self)
        grind
      · exact ih (hsplit ▸ mem_cons_of_mem _ h)

theorem Segments.splitOn (h : Segments s disk comps) :
    (trimSlashes s).splitOn slash = disk ++ comps := by
  rw [h.text]
  exact splitOn_intercalate slash h.noSlash (by simp [h.comps_pos])

theorem Segments.of_splitOn
    (h : (trimSlashes s).splitOn slash = disk ++ comps) (hdisk : disk.length ≤ 1)
    (hpos : comps ≠ []) (hle : comps.length ≤ anyfsPathMaxComponents) : Segments s disk comps where
  text := by rw [← h, intercalate_splitOn]
  disk_le := hdisk
  comps_pos := hpos
  comps_le := hle
  noSlash := by
    intro seg hseg
    rw [← h] at hseg
    exact notMem_of_mem_splitOn hseg

theorem CompText.parseDiskPrefix {seg num : Bytes} (h : CompText seg num q) :
    parseDiskPrefix seg = .absent := by
  obtain ⟨l, hl | hl, -, rfl⟩ := h
  · rw [Anyfs.parseDiskPrefix, if_pos]
    rw [hl]
    exact Bool.false_ne_true
  · rw [Anyfs.parseDiskPrefix, if_pos]
    rw [hl]
    exact Bool.false_ne_true

theorem mapM_parseComponent_eq_some {comp : List AnyfsPathComp} :
    segs.mapM parseComponent = some comp ↔
      Forall₂ (fun seg c => parseComponent seg = some c) segs comp := by
  induction segs generalizing comp with
  | nil => simp [eq_comm]
  | cons seg segs ih =>
    simp only [mapM_cons, Option.bind_eq_bind, Option.bind_eq_some_iff, Option.pure_def,
      Option.some.injEq, forall₂_cons_left_iff, ih]
    grind

theorem anyfsPathParse_eq (h : (trimSlashes s).splitOn slash = segs) :
    anyfsPathParse s = match parseDiskPrefix (segs.headD []) with
      | .bad => none
      | .absent => (parseComponents segs).map fun comp => ⟨none, comp⟩
      | .idx n => (parseComponents segs.tail).map fun comp => ⟨some n, comp⟩ := by
  rw [anyfsPathParse, ← trimSlashes]
  dsimp only
  rw [h]
  split_ifs with hnil hlong
  · rw [hnil] at h
    subst h
    rfl
  · have hall : parseComponents segs = none := if_pos (.inr (by omega))
    have htail : parseComponents segs.tail = none :=
      if_pos (.inr (by rw [length_tail]; omega))
    cases parseDiskPrefix (segs.headD []) with
    | bad => rfl
    | absent =>
      rw [hall]
      rfl
    | idx n =>
      rw [htail]
      rfl
  · rfl

theorem parseComponents_eq_some {comp : List AnyfsPathComp} :
    parseComponents segs = some comp ↔ segs ≠ [] ∧ segs.length ≤ anyfsPathMaxComponents ∧
      Forall₂ (fun seg c => parseComponent seg = some c) segs comp := by
  rw [parseComponents]
  split_ifs with h
  · refine iff_of_false (by simp) ?_
    rintro ⟨hne, hle, -⟩
    rcases h with h | h
    · exact hne h
    · omega
  · obtain ⟨hne, hle⟩ := not_or.mp h
    rw [mapM_parseComponent_eq_some]
    exact ⟨fun hmap => ⟨hne, by omega, hmap⟩, fun hmap => hmap.2.2⟩

theorem anyfsPathParse_eq_some :
    anyfsPathParse s = some ap ↔ ∃ disk comps, Segments s disk comps ∧
      Forall₂ (fun seg n => parseDiskPrefix seg = .idx n) disk ap.diskIdx.toList ∧
      Forall₂ (fun seg c => parseComponent seg = some c) comps ap.comp := by
  constructor
  · intro h
    obtain ⟨first, rest, hsplit⟩ := exists_cons_of_ne_nil (splitOn_ne_nil slash (trimSlashes s))
    rw [anyfsPathParse_eq hsplit, headD_cons, tail_cons] at h
    cases hdisk : parseDiskPrefix first with
    | bad => simp [hdisk] at h
    | absent =>
      rw [hdisk] at h
      obtain ⟨comp, hcomp, rfl⟩ := map_eq_some_iff.mp h
      obtain ⟨hne, hle, hmap⟩ := parseComponents_eq_some.mp hcomp
      exact ⟨[], _, .of_splitOn hsplit (Nat.zero_le _) hne hle, .nil, hmap⟩
    | idx n =>
      rw [hdisk] at h
      obtain ⟨comp, hcomp, rfl⟩ := map_eq_some_iff.mp h
      obtain ⟨hne, hle, hmap⟩ := parseComponents_eq_some.mp hcomp
      exact ⟨[first], rest, .of_splitOn hsplit le_rfl hne hle, .cons hdisk .nil, hmap⟩
  · rintro ⟨disk, comps, hsegs, hdisk, hcomps⟩
    obtain ⟨idx, comp⟩ := ap
    have hparse : parseComponents comps = some comp :=
      parseComponents_eq_some.mpr ⟨hsegs.comps_pos, hsegs.comps_le, hcomps⟩
    rw [anyfsPathParse_eq hsegs.splitOn]
    cases idx with
    | none =>
      obtain rfl : disk = [] := by simpa using hdisk
      obtain ⟨seg, segs, rfl⟩ := exists_cons_of_ne_nil hsegs.comps_pos
      obtain ⟨c, -, hseg, -⟩ := forall₂_cons_left_iff.mp hcomps
      obtain ⟨_, _, _, _, htext, -⟩ := parseComponent_eq_some.mp hseg
      rw [nil_append, headD_cons, htext.parseDiskPrefix, hparse]
      rfl
    | some n =>
      obtain ⟨seg, hseg, rfl⟩ : ∃ seg, parseDiskPrefix seg = .idx n ∧ disk = [seg] := by
        simpa [forall₂_cons_right_iff] using hdisk
      rw [singleton_append, headD_cons, tail_cons, hseg, hparse]
      rfl

/-! ### The parser and the grammar -/

theorem exists_of_rel_some {β : Type*} {R : α → β → Prop} {q : Option α} {u : Option β} {t : α}
    (h : Option.Rel R q u) (ht : t ∈ q) : ∃ v, u = some v ∧ R t v := by
  cases h with
  | none => simp at ht
  | some h => exact ⟨_, rfl, (some.inj ht) ▸ h⟩

theorem toUInt32_strtoulValue {ds : Bytes} (h : digitsValue ds < 2 ^ 32) :
    (strtoulValue false ds).toUInt32 = UInt32.ofNat (digitsValue ds) := by
  rw [strtoulValue_of_lt (by omega)]
  exact UInt64.toUInt32_ofNat' _

theorem CompSeg.loose {seg : Bytes} (h : CompSeg seg c) : LooseComp seg := by
  obtain ⟨ds, q, htext, hds, hpos, -, -, hrel⟩ := h
  refine ⟨ds, q, false, ds, htext, hds.scanned, hpos.ne', ?_⟩
  intro t ht
  obtain ⟨d, -, hd⟩ := exists_of_rel_some hrel ht
  exact ⟨d, hd⟩

theorem looseComp_iff {seg : Bytes} : LooseComp seg ↔ ∃ c, parseComponent seg = some c := by
  constructor
  · rintro ⟨num, q, neg, ds, htext, hscan, hne, hq⟩
    cases q with
    | none =>
      exact ⟨⟨_, none⟩, parseComponent_eq_some.mpr ⟨num, none, neg, ds, htext, hscan, hne, rfl,
        .none⟩⟩
    | some t =>
      obtain ⟨d, hd⟩ := hq t rfl
      exact ⟨⟨_, some (cstr d)⟩, parseComponent_eq_some.mpr
        ⟨num, some t, neg, ds, htext, hscan, hne, rfl, .some ⟨d, hd, rfl⟩⟩⟩
  · rintro ⟨c, hc⟩
    obtain ⟨num, q, neg, ds, htext, hscan, hne, -, hrel⟩ := parseComponent_eq_some.mp hc
    refine ⟨num, q, neg, ds, htext, hscan, hne, ?_⟩
    intro t ht
    obtain ⟨-, -, d, hd, -⟩ := exists_of_rel_some hrel ht
    exact ⟨d, hd⟩

theorem CompSeg.not_sloppyNumber {seg : Bytes} (h : CompSeg seg c) : ¬ SloppyNumber seg := by
  obtain ⟨ds, q, htext, hds, -, hlt, -, -⟩ := h
  rintro ⟨num, q', neg, ds', htext', hscan, hsloppy⟩
  obtain ⟨rfl, -⟩ := htext.unique htext'
  obtain ⟨-, rfl⟩ := hscan.unique hds.scanned
  rcases hsloppy with hne | hge
  · exact hne rfl
  · omega

theorem exists_compSeg {seg : Bytes} (hc : parseComponent seg = some c)
    (h : ¬ SloppyNumber seg) : ∃ c', CompSeg seg c' ∧ c'.p = c.p ∧ (¬ CutQuery seg → c' = c) := by
  obtain ⟨num, q, neg, ds, htext, hscan, hne, hp, hrel⟩ := parseComponent_eq_some.mp hc
  have hclean : ¬ (num ≠ ds ∨ 2 ^ 32 ≤ digitsValue ds) := fun hs =>
    h ⟨num, q, neg, ds, htext, hscan, hs⟩
  push Not at hclean
  obtain ⟨rfl, hlt⟩ := hclean
  have hds : Numeral num := hscan.numeral
  obtain ⟨rfl, -⟩ := hscan.unique hds.scanned
  have hvalue : c.p = UInt32.ofNat (digitsValue num) := by rw [hp, toUInt32_strtoulValue hlt]
  obtain ⟨p, cq⟩ := c
  cases hrel with
  | none =>
    exact ⟨⟨p, none⟩, ⟨num, none, htext, hds, Nat.pos_of_ne_zero hne, hlt, hvalue, .none⟩, rfl,
      fun _ => rfl⟩
  | some hd =>
    obtain ⟨d, hd, rfl⟩ := hd
    refine ⟨⟨p, some d⟩, ⟨num, _, htext, hds, Nat.pos_of_ne_zero hne, hlt, hvalue, .some hd⟩, rfl,
      fun hcut => ?_⟩
    have h0 : 0 ∉ d := fun h0 => hcut ⟨num, _, d, htext, hd, h0⟩
    rw [cstr_eq_self_iff.mpr h0]

theorem CompSeg.unique {seg : Bytes} {c' : AnyfsPathComp} (h : CompSeg seg c)
    (h' : CompSeg seg c') : c = c' := by
  obtain ⟨p, cq⟩ := c
  obtain ⟨p', cq'⟩ := c'
  obtain ⟨ds, q, htext, -, -, -, rfl, hrel⟩ := h
  obtain ⟨ds', q', htext', -, -, -, rfl, hrel'⟩ := h'
  obtain ⟨rfl, rfl⟩ := htext.unique htext'
  cases hrel with
  | none =>
    cases hrel'
    rfl
  | some hd =>
    obtain ⟨d', rfl, hd'⟩ := exists_of_rel_some hrel' rfl
    obtain rfl := some.inj ((decodes_iff.mp hd).symm.trans (decodes_iff.mp hd'))
    rfl

theorem CutQuery.not_compSeg {seg : Bytes} (h : CutQuery seg)
    (hc : parseComponent seg = some c) : ¬ CompSeg seg c := by
  rintro ⟨ds, q, htext, -, -, -, -, hstrict⟩
  obtain ⟨num, t, d, htext', hd, h0⟩ := h
  obtain ⟨-, rfl⟩ := htext.unique htext'
  obtain ⟨_, q, _, _, htext₂, _, _, _, hrel⟩ := parseComponent_eq_some.mp hc
  obtain ⟨-, rfl⟩ := htext.unique htext₂
  obtain ⟨u, hu, hdec⟩ := exists_of_rel_some hstrict rfl
  obtain ⟨v, hv, d', hd', rfl⟩ := exists_of_rel_some hrel rfl
  obtain rfl : d = d' := some.inj ((decodes_iff.mp hd).symm.trans (decodes_iff.mp hd'))
  obtain rfl : d = u := some.inj ((decodes_iff.mp hd).symm.trans (decodes_iff.mp hdec))
  exact cstr_eq_self_iff.mp (some.inj (hv.symm.trans hu)) h0

theorem compSeg_iff_of_parseComponent {seg : Bytes}
    (hc : parseComponent seg = some c) : CompSeg seg c ↔ ¬ SloppyComp seg := by
  constructor
  · rintro h (hnum | hcut)
    · exact h.not_sloppyNumber hnum
    · exact hcut.not_compSeg hc h
  · intro h
    obtain ⟨c', hc', -, heq⟩ := exists_compSeg hc fun hs => h (.inl hs)
    exact heq (fun hs => h (.inr hs)) ▸ hc'

theorem looseDisk_iff {seg : Bytes} : LooseDisk seg ↔ ∃ n, parseDiskPrefix seg = .idx n := by
  constructor
  · rintro ⟨ds, heq, hds⟩
    exact ⟨_, parseDiskPrefix_eq_idx.mpr ⟨ds, heq, hds, rfl⟩⟩
  · rintro ⟨n, hn⟩
    obtain ⟨ds, heq, hds, -⟩ := parseDiskPrefix_eq_idx.mp hn
    exact ⟨ds, heq, hds⟩

theorem diskSeg_iff {seg : Bytes} {n : ℤ} :
    DiskSeg seg n ↔ parseDiskPrefix seg = .idx n ∧ ¬ SloppyDisk seg := by
  rw [parseDiskPrefix_eq_idx]
  have hval : ∀ v : ℕ, v < 2 ^ 31 → Int.bmod (min (v : ℤ) (2 ^ 63 - 1)) (2 ^ 32) = v := by
    intro v hv
    rw [Int.min_eq_left (by omega)]
    exact Int.bmod_eq_of_le (by omega) (by omega)
  constructor
  · rintro ⟨ds, rfl, hds, rfl, hlt⟩
    refine ⟨⟨ds, rfl, hds, (hval _ hlt).symm⟩, ?_⟩
    rintro ⟨ds', heq, -, hge⟩
    obtain rfl := append_cancel_left heq
    omega
  · rintro ⟨⟨ds, rfl, hds, rfl⟩, hclean⟩
    have hlt : digitsValue ds < 2 ^ 31 := by
      by_contra hge
      exact hclean ⟨ds, rfl, hds, by omega⟩
    exact ⟨ds, rfl, hds, hval _ hlt, hlt⟩

theorem Segments.unique {disk' comps' : List Bytes}
    (h : Segments s disk comps) (h' : Segments s disk' comps') (hdisk : ∀ seg ∈ disk, LooseDisk seg)
    (hdisk' : ∀ seg ∈ disk', LooseDisk seg) (hcomps : ∀ seg ∈ comps, LooseComp seg)
    (hcomps' : ∀ seg ∈ comps', LooseComp seg) : disk = disk' ∧ comps = comps' := by
  have heq : disk ++ comps = disk' ++ comps' := h.splitOn.symm.trans h'.splitOn
  have hdisjoint : ∀ seg, LooseDisk seg → ¬ LooseComp seg := by
    rintro seg hd ⟨_, _, _, _, htext, -⟩
    obtain ⟨n, hn⟩ := looseDisk_iff.mp hd
    exact DiskPrefix.noConfusion (hn.symm.trans htext.parseDiskPrefix)
  classical
  -- the disks are the segments that are loose disks
  have hfilter : ∀ d c : List Bytes, (∀ seg ∈ d, LooseDisk seg) → (∀ seg ∈ c, LooseComp seg) →
      (d ++ c).filter (fun seg => LooseDisk seg) = d := by
    intro d c hd hc
    rw [filter_append, filter_eq_self.mpr (by simpa using hd), filter_eq_nil_iff.mpr, append_nil]
    intro seg hseg hl
    exact hdisjoint seg (by simpa using hl) (hc seg hseg)
  have hd : disk = disk' := by
    rw [← hfilter disk comps hdisk hcomps, heq, hfilter disk' comps' hdisk' hcomps']
  subst hd
  exact ⟨rfl, append_cancel_left heq⟩

theorem exists_of_forall₂ {β : Type*} {R : α → β → Prop} {l : List α} {m : List β}
    (h : Forall₂ R l m) : ∀ a ∈ l, ∃ b, R a b := by
  induction h with
  | nil => simp
  | cons hab _ ih =>
    intro a ha
    rcases mem_cons.mp ha with rfl | ha
    · exact ⟨_, hab⟩
    · exact ih a ha

theorem exists_forall₂ {β : Type*} {R : α → β → Prop} {l : List α} (h : ∀ a ∈ l, ∃ b, R a b) :
    ∃ m, Forall₂ R l m := by
  induction l with
  | nil => exact ⟨[], .nil⟩
  | cons a l ih =>
    obtain ⟨b, hb⟩ := h a mem_cons_self
    obtain ⟨m, hm⟩ := ih fun a' ha' => h a' (mem_cons_of_mem _ ha')
    exact ⟨b :: m, .cons hb hm⟩

theorem exists_anyfsPathParse_of_loose
    (h : Segments s disk comps) (hdisk : ∀ seg ∈ disk, LooseDisk seg)
    (hcomps : ∀ seg ∈ comps, LooseComp seg) : ∃ ap, anyfsPathParse s = some ap ∧
      Forall₂ (fun seg n => parseDiskPrefix seg = .idx n) disk ap.diskIdx.toList ∧
      Forall₂ (fun seg c => parseComponent seg = some c) comps ap.comp := by
  obtain ⟨ns, hns⟩ := exists_forall₂ fun seg hseg => looseDisk_iff.mp (hdisk seg hseg)
  obtain ⟨comp, hcomp⟩ := exists_forall₂ fun seg hseg => looseComp_iff.mp (hcomps seg hseg)
  have hlist : ns.head?.toList = ns := by
    have hlen : ns.length ≤ 1 := hns.length_eq ▸ h.disk_le
    match ns, hlen with
    | [], _ => rfl
    | [_], _ => rfl
  refine ⟨⟨ns.head?, comp⟩, ?_, ?_, hcomp⟩
  · exact anyfsPathParse_eq_some.mpr ⟨disk, comps, h, by rwa [hlist], hcomp⟩
  · rwa [hlist]

theorem loose_of_pathText
    (hd : Forall₂ DiskSeg disk ap.diskIdx.toList) (hc : Forall₂ CompSeg comps ap.comp) :
    (∀ seg ∈ disk, LooseDisk seg) ∧ ∀ seg ∈ comps, LooseComp seg := by
  constructor
  · intro seg hseg
    obtain ⟨n, hn⟩ := exists_of_forall₂ hd seg hseg
    exact looseDisk_iff.mpr ⟨n, (diskSeg_iff.mp hn).1⟩
  · intro seg hseg
    obtain ⟨c, hc⟩ := exists_of_forall₂ hc seg hseg
    exact hc.loose

theorem loose_of_parse
    (hd : Forall₂ (fun seg n => parseDiskPrefix seg = .idx n) disk ap.diskIdx.toList)
    (hc : Forall₂ (fun seg c => parseComponent seg = some c) comps ap.comp) :
    (∀ seg ∈ disk, LooseDisk seg) ∧ ∀ seg ∈ comps, LooseComp seg :=
  ⟨fun seg hseg => looseDisk_iff.mpr (exists_of_forall₂ hd seg hseg),
    fun seg hseg => looseComp_iff.mpr (exists_of_forall₂ hc seg hseg)⟩

theorem not_sloppy_of_mem {sloppy : Bytes → Prop}
    (hclean : ¬ SloppyPath sloppy s) (h : Segments s disk comps)
    (hloose : (∀ seg ∈ disk, LooseDisk seg) ∧ ∀ seg ∈ comps, LooseComp seg) :
    (∀ seg ∈ disk, ¬ SloppyDisk seg) ∧ ∀ seg ∈ comps, ¬ sloppy seg := by
  constructor
  · intro seg hseg hs
    exact hclean ⟨disk, comps, h, hloose.1, hloose.2, .inl ⟨seg, hseg, hs⟩⟩
  · intro seg hseg hs
    exact hclean ⟨disk, comps, h, hloose.1, hloose.2, .inr ⟨seg, hseg, hs⟩⟩

theorem pathText_iff_of_parse (h : anyfsPathParse s = some ap) :
    PathText s ap ↔ ¬ SloppyPath SloppyComp s := by
  obtain ⟨disk, comps, hsegs, hd, hc⟩ := anyfsPathParse_eq_some.mp h
  have hloose := loose_of_parse hd hc
  constructor
  · rintro ⟨disk', comps', hsegs', hd', hc'⟩ ⟨disk₂, comps₂, hsegs₂, hdisk₂, hcomps₂, hsloppy⟩
    have hloose' := loose_of_pathText hd' hc'
    obtain ⟨rfl, rfl⟩ := hsegs.unique hsegs' hloose.1 hloose'.1 hloose.2 hloose'.2
    obtain ⟨rfl, rfl⟩ := hsegs.unique hsegs₂ hloose.1 hdisk₂ hloose.2 hcomps₂
    rcases hsloppy with ⟨seg, hseg, hs⟩ | ⟨seg, hseg, hs⟩
    · obtain ⟨n, hn⟩ := exists_of_forall₂ hd' seg hseg
      exact (diskSeg_iff.mp hn).2 hs
    · obtain ⟨c, hstrict, hcode⟩ := exists_of_forall₂
        (Forall₂.mp (fun _ _ hs hc => And.intro hs hc) hc' hc) seg hseg
      exact (compSeg_iff_of_parseComponent hcode).mp hstrict hs
  · intro hclean
    obtain ⟨hdisk, hcomps⟩ := not_sloppy_of_mem hclean hsegs hloose
    refine ⟨disk, comps, hsegs, ?_, ?_⟩
    · exact ((forall₂_and_left _ _).mpr ⟨hdisk, hd⟩).imp fun _ _ h => diskSeg_iff.mpr h.symm
    · exact ((forall₂_and_left _ _).mpr ⟨hcomps, hc⟩).imp fun _ _ h =>
        (compSeg_iff_of_parseComponent h.2).mpr h.1

theorem PathText.not_sloppyNumber (h : PathText s ap) : ¬ SloppyPath SloppyNumber s := by
  obtain ⟨disk, comps, hsegs, hd, hc⟩ := h
  rintro ⟨disk', comps', hsegs', hdisk', hcomps', hsloppy⟩
  obtain ⟨hdisk, hcomps⟩ := loose_of_pathText hd hc
  obtain ⟨rfl, rfl⟩ := hsegs.unique hsegs' hdisk hdisk' hcomps hcomps'
  rcases hsloppy with ⟨seg, hseg, hs⟩ | ⟨seg, hseg, hs⟩
  · obtain ⟨n, hn⟩ := exists_of_forall₂ hd seg hseg
    exact (diskSeg_iff.mp hn).2 hs
  · obtain ⟨c, hc⟩ := exists_of_forall₂ hc seg hseg
    exact hc.not_sloppyNumber hs

theorem exists_pathText (h : anyfsPathParse s = some ap) (hclean : ¬ SloppyPath SloppyNumber s) :
    ∃ comp, PathText s ⟨ap.diskIdx, comp⟩ ∧ comp.map (·.p) = ap.comp.map (·.p) := by
  obtain ⟨disk, comps, hsegs, hd, hc⟩ := anyfsPathParse_eq_some.mp h
  obtain ⟨hdisk, hcomps⟩ := not_sloppy_of_mem hclean hsegs (loose_of_parse hd hc)
  have hstrict : ∃ comp, Forall₂ CompSeg comps comp ∧ comp.map (·.p) = ap.comp.map (·.p) := by
    clear hsegs
    generalize ap.comp = read at hc
    induction hc with
    | nil => exact ⟨[], .nil, rfl⟩
    | cons hc _ ih =>
      obtain ⟨c', hc', hp, -⟩ := exists_compSeg hc (hcomps _ mem_cons_self)
      obtain ⟨comp, hcomp, hmap⟩ := ih fun seg hseg => hcomps seg (mem_cons_of_mem _ hseg)
      exact ⟨c' :: comp, .cons hc' hcomp, by rw [map_cons, map_cons, hp, hmap]⟩
  obtain ⟨comp, hcomp, hmap⟩ := hstrict
  refine ⟨comp, ⟨disk, comps, hsegs, ?_, hcomp⟩, hmap⟩
  exact ((forall₂_and_left _ _).mpr ⟨hdisk, hd⟩).imp fun _ _ h => diskSeg_iff.mpr h.symm

theorem PathText.exists_parse (h : PathText s ap) : ∃ ap', anyfsPathParse s = some ap' := by
  obtain ⟨disk, comps, hsegs, hd, hc⟩ := h
  obtain ⟨hdisk, hcomps⟩ := loose_of_pathText hd hc
  obtain ⟨ap', hap', -⟩ := exists_anyfsPathParse_of_loose hsegs hdisk hcomps
  exact ⟨ap', hap'⟩

theorem PathText.unique {ap' : AnyfsPath} (h : PathText s ap) (h' : PathText s ap') : ap = ap' := by
  obtain ⟨idx, comp⟩ := ap
  obtain ⟨idx', comp'⟩ := ap'
  obtain ⟨disk, comps, hsegs, hd, hc⟩ := h
  obtain ⟨disk', comps', hsegs', hd', hc'⟩ := h'
  have hloose := loose_of_pathText hd hc
  have hloose' := loose_of_pathText hd' hc'
  obtain ⟨rfl, rfl⟩ := hsegs.unique hsegs' hloose.1 hloose'.1 hloose.2 hloose'.2
  have hdisk : Relator.RightUnique DiskSeg := by
    intro seg n n' hn hn'
    exact DiskPrefix.idx.inj ((diskSeg_iff.mp hn).1.symm.trans (diskSeg_iff.mp hn').1)
  have hcomp : Relator.RightUnique CompSeg := fun _ _ _ => CompSeg.unique
  have hidx : idx = idx' := by
    have hlist : idx.toList = idx'.toList := hdisk.forall₂ hd hd'
    simpa only [head?_toList] using congrArg List.head? hlist
  have hchain : comp = comp' := hcomp.forall₂ hc hc'
  rw [hidx, hchain]

/-- `anyfs_path_parse` follows the grammar on the texts that are not sloppy, and on no other. -/
theorem anyfsPathParse_iff_pathText (s : Bytes) :
    (∀ ap, anyfsPathParse s = some ap ↔ PathText s ap) ↔ ¬ SloppyPath SloppyComp s := by
  constructor
  · intro hparse hsloppy
    obtain ⟨disk, comps, hsegs, hdisk, hcomps, -⟩ := id hsloppy
    obtain ⟨ap, hap, -⟩ := exists_anyfsPathParse_of_loose hsegs hdisk hcomps
    exact (pathText_iff_of_parse hap).mp ((hparse ap).mp hap) hsloppy
  · intro hclean ap
    constructor
    · intro hap
      exact (pathText_iff_of_parse hap).mpr hclean
    · intro htext
      obtain ⟨ap', hap'⟩ := htext.exists_parse
      rw [hap', ((pathText_iff_of_parse hap').mpr hclean).unique htext]

/-- A number that does not fit is accepted as another one: partition 4294967297 is read as 1. -/
theorem anyfsPathParse_wraps : anyfsPathParse (ascii "p4294967297") = some ⟨none, [⟨1, none⟩]⟩ ∧
    ¬ PathText (ascii "p4294967297") ⟨none, [⟨1, none⟩]⟩ := by
  refine ⟨by decide +kernel, ?_⟩
  rintro ⟨disk, comps, hsegs, hd, hc⟩
  obtain rfl : disk = [] := by simpa using hd
  have hsplit : (trimSlashes (ascii "p4294967297")).splitOn slash = [ascii "p4294967297"] := by
    decide +kernel
  obtain rfl : comps = [ascii "p4294967297"] := hsegs.splitOn.symm.trans hsplit
  obtain ⟨ds, q, htext, -, -, hlt, -⟩ := (forall₂_cons.mp hc).1
  have hnum : CompText (ascii "p4294967297") (ascii "4294967297") none :=
    ⟨112, .inl rfl, by decide +kernel, by decide +kernel⟩
  obtain ⟨rfl, -⟩ := htext.unique hnum
  exact absurd hlt (by decide +kernel)

end Anyfs
