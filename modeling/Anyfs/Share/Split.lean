import Anyfs.Path.Grammar

/-!
# Splitting `name=path`

`anyfs_share_split` cuts a share specification at its first equals sign. A query such as
`?keyref=VAR` has one too, so a path with a query and without a name is cut inside the query.
-/

namespace Anyfs

open List CString

/-- `anyfs_share_split`: the name, if there is one, and the path. -/
def anyfsShareSplit (spec : Bytes) : Option Bytes × Bytes :=
  match spec.dropWhile (· != 61) with
  | [] => (none, spec)
  | _ :: path => (some (spec.takeWhile (· != 61)), path)

theorem anyfsShareSplit_of_notMem {spec : Bytes} (h : 61 ∉ spec) :
    anyfsShareSplit spec = (none, spec) := by
  have hdrop : spec.dropWhile (· != 61) = [] := by
    rw [dropWhile_eq_nil_iff]
    intro c hc
    rw [bne_iff_ne]
    rintro rfl
    exact h hc
  rw [anyfsShareSplit, hdrop]

theorem anyfsShareSplit_append {name path : Bytes} (h : 61 ∉ name) :
    anyfsShareSplit (name ++ 61 :: path) = (some name, path) := by
  have hpos : ∀ c ∈ name, (c != 61) = true := by
    intro c hc
    rw [bne_iff_ne]
    rintro rfl
    exact h hc
  rw [anyfsShareSplit, dropWhile_append_of_pos hpos, takeWhile_append_of_pos hpos,
    dropWhile_cons_of_neg (by decide), takeWhile_cons_of_neg (by decide),
    append_nil]

theorem anyfsShareSplit_cases (spec : Bytes) :
    61 ∉ spec ∧ anyfsShareSplit spec = (none, spec) ∨
      ∃ name path, 61 ∉ name ∧ spec = name ++ 61 :: path ∧
        anyfsShareSplit spec = (some name, path) := by
  by_cases h : 61 ∈ spec
  · right
    obtain ⟨name, path, rfl, hname⟩ := eq_append_cons_of_mem h
    exact ⟨name, path, hname, rfl, anyfsShareSplit_append hname⟩
  · exact .inl ⟨h, anyfsShareSplit_of_notMem h⟩

/-! ### Equals signs in a path -/

def EqualsInQuery (q : Bytes) : Prop :=
  ∃ disk comps, Segments q disk comps ∧
    ∃ seg ∈ comps, ∃ num t, CompText seg num (some t) ∧ 61 ∈ t

theorem mem_trimSlashes {c : UInt8} (hc : c ≠ slash) {s : Bytes} : c ∈ trimSlashes s ↔ c ∈ s := by
  have hdrop : ∀ l : Bytes, c ∈ l.dropWhile (· == slash) ↔ c ∈ l := by
    intro l
    induction l with
    | nil => rfl
    | cons b l ih =>
      rw [dropWhile_cons]
      split_ifs with hb
      · rw [ih, mem_cons, or_iff_right]
        rintro rfl
        exact hc (beq_iff_eq.mp hb)
      · rfl
  rw [trimSlashes, List.rdropWhile, mem_reverse, hdrop, mem_reverse, hdrop]

theorem mem_intercalate_slash {c : UInt8} (hc : c ≠ slash) {segs : List Bytes} :
    c ∈ [slash].intercalate segs ↔ ∃ seg ∈ segs, c ∈ seg := by
  induction segs with
  | nil => simp
  | cons seg segs ih =>
    cases segs with
    | nil => simp
    | cons seg' segs =>
      rw [intercalate_cons_cons, mem_append, mem_append, ih]
      simp [hc]

theorem equals_notMem_of_scanned {s : Bytes} {neg : Bool} {ds : Bytes} (h : Scanned s neg ds) :
    61 ∉ s := by
  obtain ⟨ws, sign, rfl, hws, hsign, -, hds⟩ := h
  intro hmem
  rcases mem_append.mp hmem with hmem | hmem
  · exact absurd (hws _ hmem) (by decide)
  rcases mem_append.mp hmem with hmem | hmem
  · rcases hsign with ⟨-, rfl | rfl⟩ | ⟨-, rfl⟩
    · exact not_mem_nil hmem
    · exact absurd hmem (by decide)
    · exact absurd hmem (by decide)
  · exact absurd (hds _ hmem) (by decide)

theorem equalsInQuery_iff {q : Bytes} {ap : AnyfsPath} (h : anyfsPathParse q = some ap) :
    EqualsInQuery q ↔ 61 ∈ q := by
  rw [← mem_trimSlashes (by decide)]
  constructor
  · rintro ⟨disk, comps, hsegs, seg, hseg, num, t, ⟨l, -, -, rfl⟩, ht⟩
    rw [hsegs.text, mem_intercalate_slash (by decide)]
    exact ⟨_, mem_append_right _ hseg, by simp [ht]⟩
  · obtain ⟨disk, comps, hsegs, hd, hc⟩ := anyfsPathParse_eq_some.mp h
    obtain ⟨hdisk, hcomps⟩ := loose_of_parse hd hc
    rw [hsegs.text, mem_intercalate_slash (by decide)]
    rintro ⟨seg, hseg, hmem⟩
    rcases mem_append.mp hseg with hseg | hseg
    · -- `disk<digits>` has none
      obtain ⟨ds, rfl, hds⟩ := hdisk seg hseg
      rcases mem_append.mp hmem with hmem | hmem
      · exact absurd hmem (by decide)
      · exact absurd (hds.2 _ hmem) (by decide)
    · obtain ⟨num, t, neg, ds, htext, hscan, -, -⟩ := hcomps seg hseg
      obtain ⟨l, hl, hnum, rfl⟩ := id htext
      rcases mem_cons.mp hmem with hmem | hmem
      · rcases hl with rfl | rfl
        · exact absurd hmem (by decide)
        · exact absurd hmem (by decide)
      rcases mem_append.mp hmem with hmem | hmem
      · exact absurd hmem (equals_notMem_of_scanned hscan)
      · cases t with
        | none => simp at hmem
        | some t =>
          refine ⟨disk, comps, hsegs, _, hseg, num, t, htext, ?_⟩
          simpa using hmem

/-- A name in front of a path that is accepted changes nothing exactly when no query of the path
has an equals sign. -/
theorem anyfsShareSplit_name_iff {q name : Bytes} (hq : (anyfsPathParse q).isSome)
    (hname : 61 ∉ name) :
    (anyfsShareSplit q = (none, q) ∧ anyfsShareSplit (name ++ 61 :: q) = (some name, q)) ↔
      ¬ EqualsInQuery q := by
  obtain ⟨ap, hap⟩ := Option.isSome_iff_exists.mp hq
  rw [equalsInQuery_iff hap]
  constructor
  · rintro ⟨hsplit, -⟩ hmem
    rcases anyfsShareSplit_cases q with ⟨hnot, -⟩ | ⟨name', path, -, -, hsplit'⟩
    · exact hnot hmem
    · rw [hsplit'] at hsplit
      simp at hsplit
  · intro hnot
    exact ⟨anyfsShareSplit_of_notMem hnot, anyfsShareSplit_append hname⟩

theorem anyfsShareSplit_name_disk1 :
    anyfsShareSplit (ascii "disk1/p2") = (none, ascii "disk1/p2") ∧
      anyfsShareSplit (ascii "data" ++ 61 :: ascii "disk1/p2") =
        (some (ascii "data"), ascii "disk1/p2") := by
  refine (anyfsShareSplit_name_iff (by decide +kernel) (by decide)).mpr ?_
  have hap : anyfsPathParse (ascii "disk1/p2") = some ⟨some 1, [⟨2, none⟩]⟩ := by decide +kernel
  rw [equalsInQuery_iff hap]
  decide

/-- Given alone, a path with a key reference is cut inside its query. -/
theorem anyfsShareSplit_keyref : (anyfsPathParse (ascii "p1?keyref=VAR")).isSome ∧
    anyfsShareSplit (ascii "p1?keyref=VAR") = (some (ascii "p1?keyref"), ascii "VAR") := by
  decide +kernel

end Anyfs
