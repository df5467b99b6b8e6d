import Anyfs.Lib.CString
import Mathlib.Data.List.DropRight

/-!
# The path DSL `[disk<N>/]p<n>[?<query>](/p<m>...)*`

`anyfs_path_parse` strips slashes at both ends, cuts the text into at most nine segments, takes an
optional `disk<N>` off the front and reads every other segment as a partition number with an
optional percent-decoded query. Numbers are read with `strtol` and `strtoul` and then cast to 32
bits.
-/

namespace Anyfs

open List CString Option

/-- `AnyfsPathComp`: a partition number, and the decoded query when there is one. -/
structure AnyfsPathComp where
  p : UInt32
  query : Option Bytes
  deriving DecidableEq

/-- `AnyfsPath`: the disk index when one was written, and the components. -/
structure AnyfsPath where
  diskIdx : Option ℤ
  comp : List AnyfsPathComp
  deriving DecidableEq

def anyfsPathMaxComponents : ℕ := 8

def slash : UInt8 := 47

def hexNyb (c : UInt8) : Option ℕ :=
  if 48 ≤ c ∧ c ≤ 57 then some (c.toNat - 48)
  else if 97 ≤ c ∧ c ≤ 102 then some (c.toNat - 97 + 10)
  else if 65 ≤ c ∧ c ≤ 70 then some (c.toNat - 65 + 10)
  else none

/-- The text `anyfs_path_pct_decode` writes, or `none` on a bad escape. -/
def pctDecode : Bytes → Option Bytes
  | [] => some []
  | c :: rest =>
    if c = 37 then
      match rest with
      | a :: b :: rest =>
        match hexNyb a, hexNyb b with
        | some hi, some lo => (pctDecode rest).map (UInt8.ofNat (hi * 16 + lo) :: ·)
        | _, _ => none
      | _ => none
    else (pctDecode rest).map (c :: ·)

/-- Result of `parse_disk_prefix`: no prefix, a malformed one, or a disk index. -/
inductive DiskPrefix where
  | absent
  | bad
  | idx (n : ℤ)
  deriving DecidableEq

/-- `parse_disk_prefix`; the number is cast to `int`. -/
def parseDiskPrefix (seg : Bytes) : DiskPrefix :=
  if ¬ (ascii "disk").isPrefixOf seg then .absent
  else
    let r := seg.drop 4
    if (r.head?.map isDigit).getD false then
      let (v, rest) := strtol r
      if rest ≠ [] ∨ v < 0 then .bad else .idx (Int.bmod v (2 ^ 32))
    else .bad

/-- The number of `parse_component`: not zero, and cast to `unsigned int`. -/
def parsePartNumber (r : Bytes) : Option UInt32 :=
  if r = [] then none
  else
    let (v, rest) := strtoul r
    if rest ≠ [] ∨ v = 0 then none else some v.toUInt32

def parseComponent (seg : Bytes) : Option AnyfsPathComp :=
  match seg with
  | [] => none
  | c :: r =>
    if c ≠ 112 ∧ c ≠ 80 then none
    else
      match parsePartNumber (r.takeWhile (· != 63)) with
      | none => none
      | some p =>
        -- the query is what follows the first question mark, if there is one
        match r.dropWhile (· != 63) with
        | [] => some ⟨p, none⟩
        | _ :: q => (pctDecode q).map fun d => ⟨p, some (cstr d)⟩

/-- The components of a list of segments, one to `ANYFS_PATH_MAX_COMPONENTS` of them. -/
def parseComponents (segs : List Bytes) : Option (List AnyfsPathComp) :=
  if segs = [] ∨ anyfsPathMaxComponents < segs.length then none
  else segs.mapM parseComponent

def anyfsPathParse (s : Bytes) : Option AnyfsPath :=
  let arena := (s.dropWhile (· == slash)).rdropWhile (· == slash)
  if arena = [] then none
  else
    let segs := arena.splitOn slash
    if anyfsPathMaxComponents + 1 < segs.length then none
    else
      match parseDiskPrefix (segs.headD []) with
      | .bad => none
      | .absent => (parseComponents segs).map fun comp => ⟨none, comp⟩
      | .idx n => (parseComponents segs.tail).map fun comp => ⟨some n, comp⟩

/-! ### Written numbers -/

theorem parseComponent_decimal {n : UInt32} (hn : n ≠ 0) :
    parseComponent (112 :: decimal n.toNat) = some ⟨n, none⟩ := by
  have hquery : ∀ c ∈ decimal n.toNat, (c != 63) = true := by
    intro c hc
    obtain ⟨-, hhi⟩ := isDigit_bounds (isDigit_of_mem_decimal hc)
    rw [bne_iff_ne]
    rintro rfl
    revert hhi
    decide
  have hlt : n.toNat < 2 ^ 64 := n.toNat_lt.trans (by decide)
  have hread : strtoul (decimal n.toNat) = (UInt64.ofNat n.toNat, []) := by
    simpa only [append_nil] using strtoul_decimal hlt (by simp : ∀ c ∈ ([] : Bytes).head?, _)
  have hne : n.toUInt64 ≠ 0 := fun h => hn (by simpa using congrArg UInt64.toUInt32 h)
  have hnum : parsePartNumber (decimal n.toNat) = some n := by
    simp [parsePartNumber, decimal_ne_nil, hread, hne]
  have htake : (decimal n.toNat).takeWhile (· != 63) = decimal n.toNat :=
    takeWhile_eq_self_iff.mpr hquery
  have hdrop : (decimal n.toNat).dropWhile (· != 63) = [] :=
    dropWhile_eq_nil_iff.mpr hquery
  rw [parseComponent, if_neg (by decide), htake, hnum, hdrop]

/-! ### Written chains -/

variable {segs : List Bytes}

theorem length_of_mapM_parseComponent {comp : List AnyfsPathComp}
    (h : segs.mapM parseComponent = some comp) : comp.length = segs.length := by
  induction segs generalizing comp with
  | nil =>
    obtain rfl : [] = comp := by simpa using h
    rfl
  | cons seg segs ih =>
    simp only [mapM_cons, Option.bind_eq_bind, Option.bind_eq_some_iff, Option.pure_def,
      Option.some.injEq] at h
    obtain ⟨c, -, rest, hrest, rfl⟩ := h
    rw [length_cons, length_cons, ih hrest]

def IsChain (segs : List Bytes) : Prop :=
  segs ≠ [] ∧ ∀ seg ∈ segs, seg.head? = some 112 ∧ slash ∉ seg

theorem IsChain.exists_cons (h : IsChain segs) : ∃ t, [slash].intercalate segs = 112 :: t := by
  obtain ⟨hne, hseg⟩ := h
  obtain ⟨seg, segs, rfl⟩ := exists_cons_of_ne_nil hne
  obtain ⟨t, rfl⟩ := List.head?_eq_some_iff.mp (hseg seg mem_cons_self).1
  cases segs with
  | nil => exact ⟨t, intercalate_singleton⟩
  | cons seg' segs => exact ⟨_, intercalate_cons_cons⟩

theorem IsChain.getLast?_ne (h : IsChain segs) :
    ∀ c ∈ ([slash].intercalate segs).getLast?, c ≠ slash := by
  obtain ⟨hne, hseg⟩ := h
  induction segs with
  | nil => exact absurd rfl hne
  | cons seg segs ih =>
    obtain ⟨hhead, hslash⟩ := hseg seg mem_cons_self
    cases segs with
    | nil =>
      intro c hc
      rw [intercalate_singleton] at hc
      rintro rfl
      exact hslash (mem_of_getLast? hc)
    | cons seg' segs =>
      intro c hc
      have hseg' : ∀ t ∈ seg' :: segs, t.head? = some 112 ∧ slash ∉ t := fun t ht =>
        hseg t (mem_cons_of_mem _ ht)
      -- the rest is not empty, so it has the last byte
      obtain ⟨t, ht⟩ := IsChain.exists_cons ⟨cons_ne_nil seg' segs, hseg'⟩
      refine ih (cons_ne_nil _ _) hseg' c ?_
      rw [intercalate_cons_cons, ht, List.getLast?_append, List.getLast?_cons, some_or] at hc
      rwa [ht, List.getLast?_cons]

theorem anyfsPathParse_intercalate (h : IsChain segs) :
    anyfsPathParse ([slash].intercalate segs) =
      if anyfsPathMaxComponents + 1 < segs.length then none
      else (parseComponents segs).map fun comp => ⟨none, comp⟩ := by
  obtain ⟨t, ht⟩ := h.exists_cons
  have hfront : ([slash].intercalate segs).dropWhile (· == slash) = [slash].intercalate segs := by
    rw [ht]
    exact dropWhile_cons_of_neg (by decide)
  have hback : ([slash].intercalate segs).rdropWhile (· == slash) = [slash].intercalate segs := by
    rw [rdropWhile_eq_self_iff]
    intro hl
    simpa using h.getLast?_ne _ (List.getLast?_eq_some_getLast hl)
  have hsplit : ([slash].intercalate segs).splitOn slash = segs :=
    splitOn_intercalate slash (fun seg hs => (h.2 seg hs).2) h.1
  have hdisk : parseDiskPrefix (segs.headD []) = .absent := by
    obtain ⟨seg, segs, rfl⟩ := exists_cons_of_ne_nil h.1
    obtain ⟨u, rfl⟩ := List.head?_eq_some_iff.mp (h.2 seg mem_cons_self).1
    rw [parseDiskPrefix, if_pos]
    exact Bool.false_ne_true
  have hne : [slash].intercalate segs ≠ [] := ht ▸ cons_ne_nil _ _
  rw [anyfsPathParse, hfront, hback]
  dsimp only
  rw [if_neg hne, hsplit, hdisk]

example : anyfsPathParse (ascii "/disk12/p2/P1?k=%2Ftmp/") =
    some ⟨some 12, [⟨2, none⟩, ⟨1, some (ascii "k=/tmp")⟩]⟩ := by decide +kernel

end Anyfs
