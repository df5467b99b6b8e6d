import Anyfs.Nfsd.Qword

/-!
# File handle keys

`handle_expkey` answers the `nfsd.fh` upcalls. A key of type 1 with four bytes is a big-endian
number, 0 for the first share and `i` for the share in slot `i - 1`; every other key gets a negative
entry.
-/

namespace Anyfs

open List CString

/-- The paths of an `ExportInfo`. -/
structure ExportInfo where
  lklPath : Bytes
  bindPath : Bytes
  deriving DecidableEq

def anyfsMaxShares : ℕ := 32

/-- The entries of `g_exports` that are in use. -/
structure ExportTable where
  exports : List ExportInfo
  /-- `g_exports` is an array of `ANYFS_MAX_SHARES`. -/
  length_le : exports.length ≤ anyfsMaxShares

/-- `g_n_exports`. -/
def ExportTable.count (t : ExportTable) : ℕ := t.exports.length

/-- How `handle_expkey` ends: without an answer, by a read outside the table, or with a line. -/
inductive ExpkeyAnswer where
  | silent
  | fault
  | positive (resp : Bytes)
  | negative (resp : Bytes)
  deriving DecidableEq

/-- A run of `handle_expkey`: the slots of `g_exports` it reads, and how it ends. -/
structure ExpkeyRun where
  reads : List ℕ
  answer : ExpkeyAnswer
  deriving DecidableEq

def expkeyWords (query : Bytes) : Option (Bytes × ℤ × Bytes) :=
  let domain := qwordGetUser query 64
  let fsidtype := qwordGetUser domain.2 16
  let fsid := qwordGetUser fsidtype.2 64
  match domain.1, fsidtype.1, fsid.1 with
  | some domain, some fsidtype, some fsid =>
    if domain = [] ∨ fsidtype = [] ∨ fsid = [] then none
    else some (cstr domain, atoi fsidtype, fsid)
  | _, _, _ => none

def fsidIdx (fsid : Bytes) : ℕ :=
  (fsid.getD 0 0).toNat * 2 ^ 24 + (fsid.getD 1 0).toNat * 2 ^ 16 + (fsid.getD 2 0).toNat * 2 ^ 8 +
    (fsid.getD 3 0).toNat

/-- The slots that are read for a number, and the path; `none` where there is no slot to read. -/
def fsidPath (t : ExportTable) (idx : ℕ) : List ℕ × Option (Option Bytes) :=
  if idx = 0 then
    if 0 < t.count then ([0], some (t.exports[0]?.map (·.lklPath)))
      else ([], some (some (ascii "/")))
  else if Int.bmod idx (2 ^ 32) ≤ t.count then
    ([idx - 1], some (t.exports[idx - 1]?.map (·.bindPath)))
  else ([], none)

def hexLoop (off : ℕ) : Bytes → Bytes
  | [] => []
  | b :: rest =>
    if off < 126 then snprintf (128 - off) (hexPair b) ++ hexLoop (off + 2) rest else []

def positiveResp (domain : Bytes) (idx : ℕ) (expiry : UInt64) (path : Bytes) : Bytes :=
  snprintf 512 (domain ++ ascii " 1 \\x" ++ hexPair (UInt8.ofNat (idx / 2 ^ 24)) ++
    hexPair (UInt8.ofNat (idx / 2 ^ 16)) ++ hexPair (UInt8.ofNat (idx / 2 ^ 8)) ++
    hexPair (UInt8.ofNat idx) ++ ascii " " ++ decimal expiry.toNat ++ ascii " " ++ path ++
    ascii "\n")

/-- The line that refuses. -/
def negativeResp (domain : Bytes) (fsidtype : ℤ) (fsid : Bytes) (expiry : UInt64) : Bytes :=
  snprintf 512 (domain ++ ascii " " ++ decimalInt fsidtype ++ ascii " " ++
    (ascii "\\x" ++ hexLoop 2 fsid) ++ ascii " " ++ decimal expiry.toNat ++ ascii "\n")

def handleExpkey (t : ExportTable) (query : Bytes) (expiry : UInt64) : ExpkeyRun :=
  match expkeyWords query with
  | none => ⟨[], .silent⟩
  | some (domain, fsidtype, fsid) =>
    let negative := negativeResp domain fsidtype fsid expiry
    if fsidtype = 1 ∧ fsid.length = 4 then
      let idx := fsidIdx fsid
      match fsidPath t idx with
      | (reads, some (some path)) => ⟨reads, .positive (positiveResp domain idx expiry path)⟩
      | (reads, some none) => ⟨reads, .fault⟩
      | (reads, none) => ⟨reads, .negative negative⟩
    else ⟨[], .negative negative⟩

/-! ### Keys -/

def IsShareKey (t : ExportTable) (fsidtype : ℤ) (fsid : Bytes) : Prop :=
  fsidtype = 1 ∧ fsid.length = 4 ∧ fsidIdx fsid ≤ t.count

/-- A query of the kernel for the key of an export. -/
structure IsExpkeyQuery (query domain : Bytes) (fsidtype : ℤ) (fsid : Bytes) : Prop where
  domain_ne_nil : domain ≠ []
  domain_cstr : 0 ∉ domain
  type_lo : -2 ^ 31 ≤ fsidtype
  type_hi : fsidtype < 2 ^ 31
  text : query = qwordAdd domain ++ ascii " " ++ decimalInt fsidtype ++ ascii " " ++
    qwordAddhex fsid

def negativeEntry (domain : Bytes) (fsidtype : ℤ) (fsid : Bytes) (expiry : UInt64) : Bytes :=
  qwordAdd domain ++ ascii " " ++ decimalInt fsidtype ++ ascii " " ++ qwordAddhex fsid ++
    ascii " " ++ decimal expiry.toNat ++ ascii "\n"

/-- What a run of `handle_expkey` should be: reads inside the table, a path only for the key of a
share, and the negative entry of the same key for every other key. -/
structure ExpkeyOk (t : ExportTable) (query : Bytes) (expiry : UInt64) (run : ExpkeyRun) : Prop
    where
  reads : ∀ i ∈ run.reads, i < t.count
  positive : ∀ resp, run.answer = .positive resp →
    ∃ domain fsidtype fsid, expkeyWords query = some (domain, fsidtype, fsid) ∧
      IsShareKey t fsidtype fsid
  negative : ∀ domain fsidtype fsid, IsExpkeyQuery query domain fsidtype fsid →
    ¬ IsShareKey t fsidtype fsid →
      run.answer = .negative (negativeEntry domain fsidtype fsid expiry)

/-- A key of type 1 with four bytes whose number is negative as an `int`. -/
def NegativeKey (query : Bytes) : Prop :=
  ∃ domain fsid, expkeyWords query = some (domain, 1, fsid) ∧ fsid.length = 4 ∧
    2 ^ 31 ≤ fsidIdx fsid

def KeyFits (domain fsid : Bytes) : Prop :=
  (qwordAdd domain).length < 64 ∧ fsid ≠ [] ∧ fsid.length ≤ 62

/-! ### The words of a query -/

theorem isSpecial_of_mem_decimalInt {n : ℤ} {c : UInt8} (h : c ∈ decimalInt n) :
    ¬ IsSpecial c ∧ c ≠ 0 := by
  have hdigit : ∀ c ∈ decimal n.natAbs, ¬ IsSpecial c ∧ c ≠ 0 := by
    intro c hc
    obtain ⟨hlo, hhi⟩ := isDigit_bounds (isDigit_of_mem_decimal hc)
    have hne : ∀ b : UInt8, b.toNat < 48 ∨ 57 < b.toNat → c ≠ b := by
      rintro b hb rfl
      omega
    refine ⟨?_, hne 0 (by decide)⟩
    rintro (hc | hc | hc | hc)
    · exact hne 92 (by decide) hc
    · exact hne 32 (by decide) hc
    · exact hne 10 (by decide) hc
    · exact hne 9 (by decide) hc
  rw [decimalInt] at h
  split_ifs at h
  · rcases mem_cons.mp h with rfl | h
    · decide
    · exact hdigit c h
  · exact hdigit c h

theorem decimalInt_ne_nil (n : ℤ) : decimalInt n ≠ [] := by
  rw [decimalInt]
  split_ifs
  · exact cons_ne_nil _ _
  · exact decimal_ne_nil _

theorem length_decimalInt_le {n : ℤ} (hlo : -2 ^ 31 ≤ n) (hhi : n < 2 ^ 31) :
    (decimalInt n).length ≤ 11 := by
  have hlen : (decimal n.natAbs).length ≤ 10 := length_decimal_le (by decide) (by omega)
  rw [decimalInt]
  split_ifs
  · rw [length_cons]
    omega
  · omega

section Query

variable {query domain fsid : Bytes} {fsidtype : ℤ}

section

variable (h : IsExpkeyQuery query domain fsidtype fsid)
include h

theorem IsExpkeyQuery.line :
    Line query [.raw (qwordAdd domain), .raw (decimalInt fsidtype), .hex fsid] := by
  obtain ⟨hne, hcstr, -, -, rfl⟩ := h
  have h0 : 0 ∉ decimalInt fsidtype := fun h0 => (isSpecial_of_mem_decimalInt h0).2 rfl
  have hesc : qwordAdd (decimalInt fsidtype) = decimalInt fsidtype :=
    qwordAdd_eq_self_iff.mpr fun c hc => (isSpecial_of_mem_decimalInt hc).1
  have hline :=
    line_upcallLine [.text domain hcstr, .text (decimalInt fsidtype) h0, .hex fsid] false
  simpa [Qword.tok, leftover, hesc, decimalInt_ne_nil, mt qwordAdd_eq_nil_iff.mp hne, upcallLine,
    Qword.encode, intercalate_cons_cons, ascii] using hline

theorem IsExpkeyQuery.domain_word {domain' fsid' : Bytes} {fsidtype' : ℤ}
    (hwords : expkeyWords query = some (domain', fsidtype', fsid')) :
    domain' = (qwordAdd domain).take 63 := by
  have hfirst : (qwordGetUser query 64).1 = some ((qwordAdd domain).take 63) :=
    (qwordGetUser_of_cons h.line 64).1
  have h0 : 0 ∉ (qwordAdd domain).take 63 := fun hmem =>
    absurd (isSep_of_mem_qwordAdd h.domain_cstr (mem_of_mem_take hmem)) (by decide)
  rw [expkeyWords] at hwords
  rw [hfirst] at hwords
  split at hwords
  · next hd _ _ =>
    cases hd
    split_ifs at hwords
    obtain ⟨rfl, -⟩ := Prod.mk.inj (Option.some.inj hwords)
    exact cstr_eq_self_iff.mpr h0
  · cases hwords

theorem IsExpkeyQuery.words (hlen : (qwordAdd domain).length < 64) :
    expkeyWords query =
      if fsid = [] then none else some (qwordAdd domain, fsidtype, fsid.take 63) := by
  have htype : (decimalInt fsidtype).length < 16 :=
    Nat.lt_of_le_of_lt (length_decimalInt_le h.type_lo h.type_hi) (by decide)
  obtain ⟨hd, hline⟩ := qwordGetUser_of_cons h.line 64
  rw [Tok.get_of_fits hlen] at hd hline
  obtain ⟨ht, hline⟩ := qwordGetUser_of_cons hline 16
  rw [Tok.get_of_fits htype] at ht hline
  obtain ⟨hf, -⟩ := qwordGetUser_of_cons hline 64
  have h0 : 0 ∉ qwordAdd domain := fun hmem =>
    absurd (isSep_of_mem_qwordAdd h.domain_cstr hmem) (by decide)
  have hfsid : ((Tok.hex fsid).get 64).1 = fsid.take 63 := rfl
  rw [expkeyWords, hd, ht, hf, hfsid]
  simp only [Tok.value, mt qwordAdd_eq_nil_iff.mp h.domain_ne_nil, decimalInt_ne_nil, false_or,
    take_eq_nil_iff, OfNat.ofNat_ne_zero, cstr_eq_self_iff.mpr h0,
    atoi_decimalInt h.type_lo h.type_hi]

end

end Query

/-! ### The answers -/

theorem hexLoop_eq {m : ℕ} (hm : 2 * m ≤ 126) (fsid : Bytes) :
    hexLoop (126 - 2 * m) fsid = (fsid.take m).flatMap hexPair := by
  induction fsid generalizing m with
  | nil => simp [hexLoop]
  | cons b rest ih =>
    rw [hexLoop]
    split_ifs with hoff
    · obtain ⟨m, rfl⟩ : ∃ k, m = k + 1 := ⟨m - 1, by omega⟩
      have hnext : 126 - 2 * (m + 1) + 2 = 126 - 2 * m := by omega
      have hfull : snprintf (128 - (126 - 2 * (m + 1))) (hexPair b) = hexPair b := by
        rw [snprintf_eq_self_iff (.inl (by omega))]
        simp only [hexPair, length_cons, length_nil]
        omega
      rw [hnext, ih (by omega), hfull, take_succ_cons, flatMap_cons]
    · obtain rfl : m = 0 := by omega
      rfl

theorem negativeResp_eq (domain : Bytes) (fsidtype : ℤ) (fsid : Bytes) (expiry : UInt64) :
    negativeResp domain fsidtype fsid expiry =
      snprintf 512 (domain ++ ascii " " ++ decimalInt fsidtype ++ ascii " " ++
        qwordAddhex (fsid.take 62) ++ ascii " " ++ decimal expiry.toNat ++ ascii "\n") := by
  rw [negativeResp, show (2 : ℕ) = 126 - 2 * 62 from rfl, hexLoop_eq (by decide)]
  rfl

theorem length_qwordAddhex (s : Bytes) : (qwordAddhex s).length = 2 + 2 * s.length := by
  rw [qwordAddhex, length_append, length_flatMap]
  simp [hexPair]
  omega

theorem negativeResp_of_fits {domain fsid : Bytes} {fsidtype : ℤ} (expiry : UInt64)
    (hlen : domain.length < 64) (hlo : -2 ^ 31 ≤ fsidtype) (hhi : fsidtype < 2 ^ 31) :
    negativeResp domain fsidtype fsid expiry =
      domain ++ ascii " " ++ decimalInt fsidtype ++ ascii " " ++ qwordAddhex (fsid.take 62) ++
        ascii " " ++ decimal expiry.toNat ++ ascii "\n" := by
  have htype := length_decimalInt_le hlo hhi
  have hexp : (decimal expiry.toNat).length ≤ 20 :=
    length_decimal_le (by decide) (expiry.toNat_lt.trans (by decide))
  have hkey : (qwordAddhex (fsid.take 62)).length ≤ 126 := by
    rw [length_qwordAddhex, length_take]
    omega
  rw [negativeResp_eq, snprintf_eq_self_iff (.inl (by decide))]
  simp only [length_append, show (ascii " ").length = 1 from rfl,
    show (ascii "\n").length = 1 from rfl]
  omega

section Path

variable {t : ExportTable} {idx : ℕ}

theorem fsidPath_of_lt {reads : List ℕ} {path : Option (Option Bytes)}
    (hpath : fsidPath t idx = (reads, path)) (h : idx < 2 ^ 31) :
    (∀ i ∈ reads, i < t.count) ∧ (idx ≤ t.count → ∃ p, path = some (some p)) ∧
      (t.count < idx → path = none) := by
  have hmod : Int.bmod (idx : ℤ) (2 ^ 32) = idx := Int.bmod_eq_of_le (by omega) (by omega)
  have hget : ∀ i, i < t.count → ∃ e, t.exports[i]? = some e := fun i hi =>
    ⟨_, List.getElem?_eq_getElem hi⟩
  rw [fsidPath, hmod] at hpath
  split_ifs at hpath with hzero hcount hle
  · obtain ⟨rfl, rfl⟩ := Prod.mk.inj hpath
    obtain ⟨e, he⟩ := hget 0 hcount
    exact ⟨by simpa using hcount, fun _ => ⟨e.lklPath, by rw [he]; rfl⟩, fun _ => by omega⟩
  · obtain ⟨rfl, rfl⟩ := Prod.mk.inj hpath
    exact ⟨by simp, fun _ => ⟨_, rfl⟩, fun _ => by omega⟩
  · obtain ⟨rfl, rfl⟩ := Prod.mk.inj hpath
    have hslot : idx - 1 < t.count := by omega
    obtain ⟨e, he⟩ := hget (idx - 1) hslot
    exact ⟨by simpa using hslot, fun _ => ⟨e.bindPath, by rw [he]; rfl⟩, fun _ => by omega⟩
  · obtain ⟨rfl, rfl⟩ := Prod.mk.inj hpath
    exact ⟨by simp, fun _ => by omega, fun _ => rfl⟩

theorem fsidPath_of_ge (t : ExportTable) (h : 2 ^ 31 ≤ idx) (hlt : idx < 2 ^ 32) :
    ∃ path, fsidPath t idx = ([idx - 1], path) ∧ t.count ≤ idx - 1 := by
  have hle : t.count ≤ 32 := t.length_le
  have hmod : Int.bmod (idx : ℤ) (2 ^ 32) ≤ t.count := by
    rw [Int.bmod_def]
    split_ifs <;> omega
  rw [fsidPath, if_neg (by omega), if_pos hmod]
  exact ⟨_, rfl, by omega⟩

end Path

theorem fsidIdx_lt (fsid : Bytes) : fsidIdx fsid < 2 ^ 32 := by
  have h : ∀ i, (fsid.getD i 0).toNat < 256 := fun i => UInt8.toNat_lt _
  have h0 := h 0
  have h1 := h 1
  have h2 := h 2
  have h3 := h 3
  rw [fsidIdx]
  omega

section Run

variable {t : ExportTable} {query domain fsid : Bytes} {fsidtype : ℤ} {expiry : UInt64}

theorem handleExpkey_of_other (hwords : expkeyWords query = some (domain, fsidtype, fsid))
    (h : ¬ (fsidtype = 1 ∧ fsid.length = 4)) :
    handleExpkey t query expiry = ⟨[], .negative (negativeResp domain fsidtype fsid expiry)⟩ := by
  rw [handleExpkey, hwords]
  exact if_neg h

def numberAnswer (domain fsid : Bytes) (expiry : UInt64) : Option (Option Bytes) → ExpkeyAnswer
  | some (some path) => .positive (positiveResp domain (fsidIdx fsid) expiry path)
  | some none => .fault
  | none => .negative (negativeResp domain 1 fsid expiry)

theorem handleExpkey_of_number (hwords : expkeyWords query = some (domain, 1, fsid))
    (hlen : fsid.length = 4) {reads : List ℕ} {path : Option (Option Bytes)}
    (hpath : fsidPath t (fsidIdx fsid) = (reads, path)) :
    handleExpkey t query expiry = ⟨reads, numberAnswer domain fsid expiry path⟩ := by
  rw [handleExpkey, hwords]
  dsimp only
  rw [if_pos ⟨rfl, hlen⟩, hpath]
  rcases path with _ | _ | path <;> rfl

theorem handleExpkey_of_none (hwords : expkeyWords query = none) :
    handleExpkey t query expiry = ⟨[], .silent⟩ := by
  rw [handleExpkey, hwords]

theorem handleExpkey_cases (t : ExportTable) (query : Bytes) (expiry : UInt64) :
    expkeyWords query = none ∧ handleExpkey t query expiry = ⟨[], .silent⟩ ∨
      (∃ domain fsidtype fsid, expkeyWords query = some (domain, fsidtype, fsid) ∧
        handleExpkey t query expiry =
          ⟨[], .negative (negativeResp domain fsidtype fsid expiry)⟩) ∨
      ∃ domain fsid reads path, expkeyWords query = some (domain, 1, fsid) ∧ fsid.length = 4 ∧
        fsidPath t (fsidIdx fsid) = (reads, path) ∧
        handleExpkey t query expiry = ⟨reads, numberAnswer domain fsid expiry path⟩ := by
  cases hwords : expkeyWords query with
  | none => exact .inl ⟨rfl, handleExpkey_of_none hwords⟩
  | some words =>
    obtain ⟨domain, fsidtype, fsid⟩ := words
    by_cases hkey : fsidtype = 1 ∧ fsid.length = 4
    · obtain ⟨rfl, hlen⟩ := hkey
      rcases hpath : fsidPath t (fsidIdx fsid) with ⟨reads, path⟩
      exact .inr (.inr ⟨domain, fsid, reads, path, rfl, hlen, hpath,
        handleExpkey_of_number hwords hlen hpath⟩)
    · exact .inr (.inl ⟨domain, fsidtype, fsid, rfl, handleExpkey_of_other hwords hkey⟩)

theorem words_of_negative {resp : Bytes}
    (h : (handleExpkey t query expiry).answer = .negative resp) :
    ∃ domain fsidtype fsid, expkeyWords query = some (domain, fsidtype, fsid) ∧
      resp = negativeResp domain fsidtype fsid expiry := by
  obtain ⟨-, hrun⟩ | ⟨domain, fsidtype, fsid, hwords, hrun⟩ |
    ⟨domain, fsid, reads, path, hwords, -, -, hrun⟩ := handleExpkey_cases t query expiry
  · rw [hrun] at h
    cases h
  · rw [hrun] at h
    exact ⟨domain, fsidtype, fsid, hwords, (ExpkeyAnswer.negative.inj h).symm⟩
  · rw [hrun] at h
    refine ⟨domain, 1, fsid, hwords, ?_⟩
    rcases path with _ | _ | path
    · exact (ExpkeyAnswer.negative.inj h).symm
    · cases h
    · cases h

theorem IsExpkeyQuery.keyFits (hq : IsExpkeyQuery query domain fsidtype fsid)
    (h : (handleExpkey t query expiry).answer =
      .negative (negativeEntry domain fsidtype fsid expiry)) : KeyFits domain fsid := by
  obtain ⟨domain', fsidtype', fsid', hwords, hresp⟩ := words_of_negative h
  have hlen : (qwordAdd domain).length < 64 := by
    -- otherwise a blank stands where the domain of the entry goes on
    by_contra hge
    have hd := hq.domain_word hwords
    have hlen63 : ((qwordAdd domain).take 63).length = 63 := by
      rw [length_take]
      omega
    have hchar : (negativeResp domain' fsidtype' fsid' expiry)[63]? = some 32 := by
      rw [negativeResp_eq, snprintf, List.getElem?_take_of_lt (by decide), hd]
      simp [append_assoc, hlen63, ascii]
    rw [← hresp, negativeEntry, append_assoc, append_assoc, append_assoc,
      append_assoc, append_assoc, append_assoc,
      List.getElem?_append_left (by omega)] at hchar
    have hsep := isSep_of_mem_qwordAdd hq.domain_cstr (mem_of_getElem? hchar)
    exact absurd hsep (by decide)
  have hwords' := hq.words hlen
  rw [hwords] at hwords'
  have hne : fsid ≠ [] := by
    rintro rfl
    simp at hwords'
  rw [if_neg hne] at hwords'
  obtain ⟨rfl, hrest⟩ := Prod.mk.inj (Option.some.inj hwords')
  obtain ⟨rfl, rfl⟩ := Prod.mk.inj hrest
  refine ⟨hlen, hne, ?_⟩
  rw [negativeResp_of_fits expiry hlen hq.type_lo hq.type_hi, negativeEntry] at hresp
  have hlength := congrArg length hresp
  simp only [length_append, length_qwordAddhex, length_take] at hlength
  omega

end Run

/-- `handle_expkey` behaves exactly when no key of type 1 with four bytes is negative as an `int`
and the domain and the key of a query that is not for a share fit the buffers. -/
theorem handleExpkey_ok_iff (t : ExportTable) (query : Bytes) (expiry : UInt64) :
    ExpkeyOk t query expiry (handleExpkey t query expiry) ↔
      ¬ NegativeKey query ∧ ∀ domain fsidtype fsid, IsExpkeyQuery query domain fsidtype fsid →
        ¬ IsShareKey t fsidtype fsid → KeyFits domain fsid := by
  constructor
  · intro hok
    refine ⟨?_, fun domain fsidtype fsid hq hkey => hq.keyFits (hok.negative _ _ _ hq hkey)⟩
    rintro ⟨domain, fsid, hwords, hlen, hge⟩
    obtain ⟨path, hpath, hout⟩ := fsidPath_of_ge t hge (fsidIdx_lt fsid)
    have hin := hok.reads (fsidIdx fsid - 1) (by
      rw [handleExpkey_of_number hwords hlen hpath]
      exact mem_singleton_self _)
    omega
  · rintro ⟨hpos, hfits⟩
    have hlt : ∀ domain fsid, expkeyWords query = some (domain, 1, fsid) → fsid.length = 4 →
        fsidIdx fsid < 2 ^ 31 := by
      intro domain fsid hwords hlen
      by_contra hge
      exact hpos ⟨domain, fsid, hwords, hlen, by omega⟩
    refine ⟨?_, ?_, ?_⟩
    · intro i hi
      obtain ⟨-, hrun⟩ | ⟨_, _, _, -, hrun⟩ | ⟨domain, fsid, reads, path, hwords, hlen, hpath,
        hrun⟩ :=
        handleExpkey_cases t query expiry
      · rw [hrun] at hi
        cases hi
      · rw [hrun] at hi
        cases hi
      · rw [hrun] at hi
        exact (fsidPath_of_lt hpath (hlt domain fsid hwords hlen)).1 i hi
    · intro resp hresp
      obtain ⟨-, hrun⟩ | ⟨_, _, _, -, hrun⟩ | ⟨domain, fsid, reads, path, hwords, hlen, hpath,
        hrun⟩ :=
        handleExpkey_cases t query expiry
      · rw [hrun] at hresp
        cases hresp
      · rw [hrun] at hresp
        cases hresp
      · refine ⟨domain, 1, fsid, hwords, rfl, hlen, ?_⟩
        by_contra hout
        obtain ⟨-, -, hnone⟩ := fsidPath_of_lt hpath (hlt domain fsid hwords hlen)
        rw [hrun, hnone (Nat.lt_of_not_le hout)] at hresp
        cases hresp
    · intro domain fsidtype fsid hq hkey
      obtain ⟨hlen, hne, hle⟩ := hfits domain fsidtype fsid hq hkey
      have hwords := hq.words hlen
      rw [if_neg hne, take_of_length_le (by omega)] at hwords
      have hresp : negativeResp (qwordAdd domain) fsidtype fsid expiry =
          negativeEntry domain fsidtype fsid expiry := by
        rw [negativeResp_of_fits expiry hlen hq.type_lo hq.type_hi, take_of_length_le hle]
        rfl
      by_cases hnum : fsidtype = 1 ∧ fsid.length = 4
      · obtain ⟨rfl, h4⟩ := hnum
        have hout : t.count < fsidIdx fsid := Nat.lt_of_not_le fun hin => hkey ⟨rfl, h4, hin⟩
        rcases hpath : fsidPath t (fsidIdx fsid) with ⟨reads, path⟩
        obtain ⟨-, -, hnone⟩ := fsidPath_of_lt hpath (hlt _ _ hwords h4)
        rw [handleExpkey_of_number hwords h4 hpath, hnone hout]
        exact congrArg ExpkeyAnswer.negative hresp
      · rw [handleExpkey_of_other hwords hnum, hresp]

/-- With one export, the key `\xffffffff` reads slot 4294967294 of the table. -/
theorem handleExpkey_reads_outside :
    (handleExpkey ⟨[⟨ascii "/lklmnt", ascii "/data"⟩], by decide⟩ (ascii "unix 1 \\xffffffff")
      0).reads = [4294967294] := by
  decide +kernel

end Anyfs
