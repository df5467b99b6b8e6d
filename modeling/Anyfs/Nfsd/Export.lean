import Anyfs.Nfsd.Expkey
import Anyfs.Share.Server

/-!
# Export answers

`handle_export` looks up the path of an upcall among the mount point of the first share and the bind
paths of all shares; `handle_expkey` goes from a number to a path. Both see one list of paths
(`ExportTable.paths`). The two agree on every number exactly when no path stands in the list twice
and every path survives the way through the upcall, where `qword_add` escapes what `qword_get_user`
does not undo.
-/

namespace Anyfs

open List CString Option

/-! ### The handler -/

def nfsexpReadonly : UInt32 := 0x0001

def nfsexpInsecure : UInt32 := 0x0002

def nfsexpAllsquash : UInt32 := 0x0008

def nfsexpNosubtreecheck : UInt32 := 0x0400

def nfsexpFsid : UInt32 := 0x2000

def exportFlags (readOnly : Bool) : UInt32 :=
  let flags := nfsexpInsecure ||| nfsexpNosubtreecheck ||| nfsexpFsid ||| nfsexpAllsquash
  if readOnly then flags ||| nfsexpReadonly else flags

/-- How `handle_export` ends: without an answer, or with a line, with or without flags. -/
inductive ExportAnswer where
  | silent
  | positive (resp : Bytes)
  | negative (resp : Bytes)
  deriving DecidableEq

def exportWords (query : Bytes) : Option (Bytes × Bytes) :=
  let domain := qwordGetUser query 64
  let path := qwordGetUser domain.2 256
  match domain.1, path.1 with
  | some domain, some path =>
    if domain = [] ∨ path = [] then none else some (cstr domain, cstr path)
  | _, _ => none

/-- The number a path is exported with: 0 for the mount point of the first share. -/
def exportFsid (t : ExportTable) (path : Bytes) : Option ℕ :=
  if 0 < t.count ∧ t.exports[0]?.map (·.lklPath) = some path then some 0
  else (t.exports.findIdx? (·.bindPath == path)).map (· + 1)

def exportLine (domain path : Bytes) (expiry : UInt64) (flags : UInt32) (fsid : ℕ) : Bytes :=
  domain ++ ascii " " ++ path ++ ascii " " ++ decimal expiry.toNat ++ ascii " " ++
    decimal flags.toNat ++ ascii " 0 0 " ++ decimal fsid ++ ascii "\n"

def handleExport (t : ExportTable) (readOnly : Bool) (query : Bytes) (expiry : UInt64) :
    ExportAnswer :=
  match exportWords query with
  | none => .silent
  | some (domain, path) =>
    match exportFsid t path with
    | some fsid =>
      .positive (snprintf 512 (exportLine domain path expiry (exportFlags readOnly) fsid))
    | none =>
      .negative (snprintf 512 (domain ++ ascii " " ++ path ++ ascii " " ++
        decimal expiry.toNat ++ ascii "\n"))

/-! ### The table -/

def EEXIST : ℤ := 17

def reservedNames : List Bytes := [ascii "proc", ascii "sys", ascii "lklmnt", ascii "dev"]

/-- What the kernel answers to the `mkdir` and the `mount` for a share. -/
structure BindAnswer where
  mkdir : ℤ
  mount : ℤ

/-- One round of the loop that binds the shares; `none` where `main` gives up. -/
def bindExport (a : BindAnswer) (e : AnyfsShareEntry) : Option ExportInfo :=
  if e.name ∈ reservedNames then none
  else if a.mkdir < 0 ∧ a.mkdir ≠ -EEXIST then none
  else if a.mount < 0 then none
  else some ⟨e.lklPath, snprintf 80 (slash :: e.name)⟩

def bindExports (answers : ℕ → BindAnswer) : ℕ → List AnyfsShareEntry → Option (List ExportInfo)
  | _, [] => some []
  | i, e :: ents =>
    match bindExport (answers i) e with
    | none => none
    | some ex => (bindExports answers (i + 1) ents).map (ex :: ·)

/-- The part of `main` that fills `g_exports` from the `--share` specifications. -/
def nfsdExports (env : KernelEnv) (ce : CredEnv) (answers : ℕ → BindAnswer) (specs : List Bytes)
    (disks : List Session) (k : Kernel) (flags : MountFlags) : Option (List ExportInfo) :=
  match anyfsServerResolveShares env ce specs disks k flags anyfsMaxShares with
  | none => none
  | some ents => if ents = [] then none else bindExports answers 0 ents

/-- The export of a specification: its share name below the root, and a mount point. -/
structure ExportInfo.For (nDisks : ℕ) (spec : Bytes) (ex : ExportInfo) : Prop where
  bindPath : ∃ rd ap, shareTarget nDisks spec = .ok (rd, ap) ∧
    ex.bindPath = slash :: shareName rd ap 64
  lklPath : ∃ mount : MountName, ex.lklPath = snprintf 64 mount.point

theorem ExportInfo.For.of_bind {nDisks : ℕ} {spec : Bytes} {a : BindAnswer} {e : AnyfsShareEntry}
    {ex : ExportInfo} (he : e.For nDisks spec) (h : bindExport a e = some ex) :
    ex.For nDisks spec := by
  obtain ⟨⟨rd, ap, htarget, hname⟩, hlkl⟩ := he
  rw [bindExport] at h
  split_ifs at h
  cases h
  refine ⟨⟨rd, ap, htarget, ?_⟩, hlkl⟩
  -- the buffer has room for a name of 63 bytes and the slash
  have hlen := length_shareName_lt rd ap
  dsimp only
  rw [hname, snprintf_eq_self_iff (.inl (by decide)), length_cons]
  omega

theorem forall₂_bindExports {nDisks : ℕ} {answers : ℕ → BindAnswer} {i : ℕ} {specs : List Bytes}
    {ents : List AnyfsShareEntry} {exports : List ExportInfo}
    (hents : Forall₂ (AnyfsShareEntry.For nDisks) specs ents)
    (h : bindExports answers i ents = some exports) :
    Forall₂ (ExportInfo.For nDisks) specs exports := by
  induction hents generalizing i exports with
  | nil =>
    cases h
    exact .nil
  | @cons spec e specs ents he _ ih =>
    rw [bindExports] at h
    split at h
    · cases h
    next ex hex =>
      obtain ⟨rest, hrest, rfl⟩ := map_eq_some_iff.mp h
      exact .cons (.of_bind he hex) (ih hrest)

theorem forall₂_nfsdExports {env : KernelEnv} {ce : CredEnv} {answers : ℕ → BindAnswer}
    {specs : List Bytes} {disks : List Session} {k : Kernel} {flags : MountFlags}
    {exports : List ExportInfo}
    (h : nfsdExports env ce answers specs disks k flags = some exports) :
    Forall₂ (ExportInfo.For disks.length) specs exports ∧ 0 < exports.length ∧
      exports.length ≤ anyfsMaxShares := by
  rw [nfsdExports] at h
  split at h
  · cases h
  next ents hents =>
    split_ifs at h with hnil
    obtain ⟨hall, hroom⟩ := forall₂_resolveShares hents
    have hexports := forall₂_bindExports hall h
    have hlen : exports.length = ents.length := hexports.length_eq.symm.trans hall.length_eq
    refine ⟨hexports, ?_, ?_⟩
    · rw [hlen]
      exact length_pos_of_ne_nil hnil
    · have := hroom (Nat.zero_le _)
      omega

/-! ### One list of paths -/

def ExportTable.paths (t : ExportTable) : List Bytes :=
  (t.exports[0]?.map (·.lklPath)).toList ++ t.exports.map (·.bindPath)

section Paths

variable {t : ExportTable}

theorem ExportTable.paths_of_cons {ex : ExportInfo} {exs : List ExportInfo}
    (h : t.exports = ex :: exs) : t.paths = ex.lklPath :: (ex :: exs).map (·.bindPath) := by
  rw [ExportTable.paths, h]
  rfl

theorem ExportTable.length_paths (h : 0 < t.count) : t.paths.length = t.count + 1 := by
  obtain ⟨ex, exs, hex⟩ := exists_cons_of_length_pos h
  rw [t.paths_of_cons hex, ExportTable.count, hex, length_cons, length_map]

theorem fsidPath_eq {n : ℕ} (hpos : 0 < t.count) (hn : n ≤ t.count) :
    (fsidPath t n).2 = some t.paths[n]? := by
  have hle : t.count ≤ 32 := t.length_le
  obtain ⟨ex, exs, hex⟩ := exists_cons_of_length_pos hpos
  have hpaths := t.paths_of_cons hex
  rw [fsidPath]
  cases n with
  | zero => rw [if_pos rfl, if_pos hpos, hpaths, hex]; rfl
  | succ n =>
    have hmod : Int.bmod ((n + 1 : ℕ) : ℤ) (2 ^ 32) = (n + 1 : ℕ) :=
      Int.bmod_eq_of_le (by omega) (by omega)
    rw [if_neg (Nat.succ_ne_zero n), hmod, if_pos (by omega), hpaths, hex,
      List.getElem?_cons_succ, List.getElem?_map, Nat.add_sub_cancel]

theorem exportFsid_eq (hpos : 0 < t.count) (path : Bytes) :
    exportFsid t path = t.paths.findIdx? (· == path) := by
  obtain ⟨ex, exs, hex⟩ := exists_cons_of_length_pos hpos
  rw [exportFsid, t.paths_of_cons hex, List.findIdx?_cons, hex]
  by_cases hfirst : ex.lklPath = path
  · rw [if_pos ⟨hpos, congrArg some hfirst⟩, if_pos (beq_iff_eq.mpr hfirst)]
  · rw [if_neg fun h => hfirst (some.inj h.2), if_neg (mt beq_iff_eq.mp hfirst), List.findIdx?_map]
    rfl

end Paths

theorem findIdx?_encode_iff {α : Type*} [BEq α] [LawfulBEq α] (l : List α) (f : α → α) :
    (∀ n (h : n < l.length), l.findIdx? (· == f l[n]) = some n) ↔
      l.Nodup ∧ ∀ a ∈ l, f a = a := by
  constructor
  · intro hfind
    have hfix : ∀ n (h : n < l.length), f l[n] = l[n] := by
      intro n h
      obtain ⟨_, heq, _⟩ := List.findIdx?_eq_some_iff_getElem.mp (hfind n h)
      exact (eq_of_beq heq).symm
    refine ⟨?_, fun a ha => ?_⟩
    · rw [nodup_iff_injective_getElem]
      intro i j hij
      have hi := hfind i i.isLt
      have hj := hfind j j.isLt
      rw [show l[(i : ℕ)] = l[(j : ℕ)] from hij, hj] at hi
      exact Fin.ext (some.inj hi).symm
    · obtain ⟨n, h, rfl⟩ := getElem_of_mem ha
      exact hfix n h
  · rintro ⟨hnodup, hfix⟩ n h
    rw [hfix _ (getElem_mem h), List.findIdx?_eq_some_iff_getElem]
    refine ⟨h, beq_self_eq_true _, fun j hj heq => ?_⟩
    exact hj.ne ((hnodup.getElem_inj_iff).mp (eq_of_beq heq))

/-! ### Queries -/

def fsidBytes (n : ℕ) : Bytes :=
  [UInt8.ofNat (n / 2 ^ 24), UInt8.ofNat (n / 2 ^ 16), UInt8.ofNat (n / 2 ^ 8), UInt8.ofNat n]

theorem fsidIdx_fsidBytes {n : ℕ} (h : n < 2 ^ 32) : fsidIdx (fsidBytes n) = n := by
  simp only [fsidIdx, fsidBytes, getD_cons_zero, getD_cons_succ, UInt8.toNat_ofNat']
  omega

def expkeyQuery (domain : Bytes) (n : ℕ) : Bytes :=
  qwordAdd domain ++ ascii " " ++ decimalInt 1 ++ ascii " " ++ qwordAddhex (fsidBytes n)

def exportQuery (domain path : Bytes) : Bytes := qwordAdd domain ++ ascii " " ++ qwordAdd path

/-- A word that a line with this buffer can carry. -/
structure Sendable (s : Bytes) (buf : ℕ) : Prop where
  ne_nil : s ≠ []
  cstr : 0 ∉ s
  fits : (qwordAdd s).length < buf

theorem cstr_qwordAdd {s : Bytes} (h : 0 ∉ s) : cstr (qwordAdd s) = qwordAdd s :=
  cstr_eq_self_iff.mpr fun hmem => absurd (isSep_of_mem_qwordAdd h hmem) (by decide)

theorem exportWords_exportQuery {domain path : Bytes} (hd : Sendable domain 64)
    (hp : Sendable path 256) :
    exportWords (exportQuery domain path) = some (qwordAdd domain, qwordAdd path) := by
  have hdne : qwordAdd domain ≠ [] := mt qwordAdd_eq_nil_iff.mp hd.ne_nil
  have hpne : qwordAdd path ≠ [] := mt qwordAdd_eq_nil_iff.mp hp.ne_nil
  have hline : Line (exportQuery domain path) [.raw (qwordAdd domain), .raw (qwordAdd path)] := by
    have hline := line_upcallLine [.text domain hd.cstr, .text path hp.cstr] false
    simpa [Qword.tok, leftover, hdne, hpne, upcallLine, Qword.encode, intercalate_cons_cons,
      exportQuery, ascii] using hline
  obtain ⟨hword, hline⟩ := qwordGetUser_of_cons hline 64
  rw [Tok.get_of_fits hd.fits] at hword hline
  obtain ⟨hword', -⟩ := qwordGetUser_of_cons hline 256
  rw [Tok.get_of_fits hp.fits] at hword'
  rw [exportWords, hword, hword']
  dsimp only [Tok.value]
  rw [if_neg (not_or.mpr ⟨hdne, hpne⟩), cstr_qwordAdd hd.cstr, cstr_qwordAdd hp.cstr]

theorem snprintf_exportLine {domain path : Bytes} {expiry : UInt64} {flags : UInt32} {fsid : ℕ}
    (hd : domain.length < 64) (hp : path.length < 256) (hf : fsid < 2 ^ 32) :
    snprintf 512 (exportLine domain path expiry flags fsid) =
      exportLine domain path expiry flags fsid := by
  have hexp : (decimal expiry.toNat).length ≤ 20 :=
    length_decimal_le (by decide) (expiry.toNat_lt.trans (by decide))
  have hflags : (decimal flags.toNat).length ≤ 10 :=
    length_decimal_le (by decide) (flags.toNat_lt.trans (by decide))
  have hfsid : (decimal fsid).length ≤ 10 := length_decimal_le (by decide) (hf.trans (by decide))
  rw [snprintf_eq_self_iff (.inl (by decide)), exportLine]
  simp only [length_append, show (ascii " ").length = 1 from rfl,
    show (ascii "\n").length = 1 from rfl, show (ascii " 0 0 ").length = 5 from rfl]
  omega

theorem exportLine_injective (domain path : Bytes) (expiry : UInt64) (flags : UInt32) :
    Function.Injective (exportLine domain path expiry flags) := by
  intro m n h
  have hdec := append_cancel_left (append_cancel_right h)
  rw [← digitsValue_decimal m, hdec, digitsValue_decimal]

/-! ### Agreement -/

/-- `handle_expkey` answers the key of a number with a path, and `handle_export` that path with the
number. -/
def KeyAgrees (t : ExportTable) (readOnly : Bool) (domain : Bytes) (expiry expiry' : UInt64)
    (n : ℕ) : Prop :=
  ∃ reads path, fsidPath t n = (reads, some (some path)) ∧
    handleExpkey t (expkeyQuery domain n) expiry =
      ⟨reads, .positive (positiveResp (qwordAdd domain) n expiry path)⟩ ∧
    handleExport t readOnly (exportQuery domain path) expiry' =
      .positive (exportLine (qwordAdd domain) (qwordAdd path) expiry' (exportFlags readOnly) n)

section Agreement

variable {t : ExportTable} {domain : Bytes}

theorem handleExpkey_expkeyQuery (expiry : UInt64) {n : ℕ} {reads : List ℕ} {path : Bytes}
    (hd : Sendable domain 64) (hn : n < 2 ^ 32) (hpath : fsidPath t n = (reads, some (some path))) :
    handleExpkey t (expkeyQuery domain n) expiry =
      ⟨reads, .positive (positiveResp (qwordAdd domain) n expiry path)⟩ := by
  have hquery : IsExpkeyQuery (expkeyQuery domain n) domain 1 (fsidBytes n) :=
    ⟨hd.ne_nil, hd.cstr, by decide, by decide, rfl⟩
  have hwords : expkeyWords (expkeyQuery domain n) = some (qwordAdd domain, 1, fsidBytes n) :=
    hquery.words hd.fits
  have hidx := fsidIdx_fsidBytes hn
  rw [← hidx] at hpath
  rw [handleExpkey_of_number hwords rfl hpath, numberAnswer, hidx]

theorem handleExport_exportQuery_iff (readOnly : Bool) (expiry : UInt64) {n : ℕ} {path : Bytes}
    (hpos : 0 < t.count) (hd : Sendable domain 64) (hp : Sendable path 256) :
    handleExport t readOnly (exportQuery domain path) expiry =
        .positive (exportLine (qwordAdd domain) (qwordAdd path) expiry (exportFlags readOnly) n) ↔
      t.paths.findIdx? (· == qwordAdd path) = some n := by
  rw [handleExport, exportWords_exportQuery hd hp]
  dsimp only
  rw [exportFsid_eq hpos]
  cases hfind : t.paths.findIdx? (· == qwordAdd path) with
  | none => simp
  | some m =>
    have hm : m < t.paths.length := (List.findIdx?_eq_some_iff_getElem.mp hfind).1
    have hle : t.count ≤ 32 := t.length_le
    rw [t.length_paths hpos] at hm
    dsimp only
    rw [snprintf_exportLine hd.fits hp.fits (by omega), ExportAnswer.positive.injEq,
      (exportLine_injective _ _ _ _).eq_iff, some.injEq]

theorem keyAgrees_iff {readOnly : Bool} {expiry expiry' : UInt64} {n : ℕ} (hpos : 0 < t.count)
    (hd : Sendable domain 64) (hpaths : ∀ p ∈ t.paths, Sendable p 256) (hn : n < t.paths.length) :
    KeyAgrees t readOnly domain expiry expiry' n ↔
      t.paths.findIdx? (· == qwordAdd t.paths[n]) = some n := by
  have hcount := t.length_paths hpos
  have hle : t.count ≤ 32 := t.length_le
  have hpath : fsidPath t n = ((fsidPath t n).1, some (some t.paths[n])) := by
    rw [← List.getElem?_eq_getElem hn, ← fsidPath_eq hpos (by omega)]
  rw [← handleExport_exportQuery_iff readOnly expiry' hpos hd (hpaths _ (getElem_mem hn))]
  constructor
  · rintro ⟨reads, path, hpath', -, hexport⟩
    rw [hpath] at hpath'
    obtain rfl := some.inj (some.inj (Prod.mk.inj hpath').2)
    exact hexport
  · intro hexport
    exact ⟨_, _, hpath, handleExpkey_expkeyQuery _ hd (by omega) hpath, hexport⟩

theorem forall_keyAgrees_iff {readOnly : Bool} {expiry expiry' : UInt64} (hpos : 0 < t.count)
    (hd : Sendable domain 64) (hpaths : ∀ p ∈ t.paths, Sendable p 256) :
    (∀ n ≤ t.count, KeyAgrees t readOnly domain expiry expiry' n) ↔
      t.paths.Nodup ∧ ∀ p ∈ t.paths, ∀ c ∈ p, ¬ IsSpecial c := by
  have hcount := t.length_paths hpos
  simp only [← qwordAdd_eq_self_iff]
  rw [← findIdx?_encode_iff t.paths qwordAdd]
  constructor
  · intro h n hn
    exact (keyAgrees_iff hpos hd hpaths hn).mp (h n (by omega))
  · intro h n hn
    exact (keyAgrees_iff hpos hd hpaths (by omega)).mpr (h n (by omega))

end Agreement

/-! ### The paths of `main` -/

theorem MountName.plain_point (m : MountName) {c : UInt8} (h : c ∈ snprintf 64 m.point) :
    ¬ IsSpecial c ∧ c ≠ 0 := by
  have hdec : ∀ n : ℕ, ∀ c ∈ decimal n, ¬ IsSpecial c ∧ c ≠ 0 := by
    intro n c hc
    have hint : decimalInt n = decimal n := by
      rw [decimalInt, if_neg (by omega), Int.natAbs_natCast]
    exact isSpecial_of_mem_decimalInt (hint ▸ hc)
  have hmem := mem_of_mem_take h
  rw [MountName.point, MountName.text, mem_append, mem_append, mem_append] at hmem
  rcases hmem with hmem | (hmem | hmem) | hmem
  · exact (by decide +kernel : ∀ c ∈ ascii "/lklmnt/", ¬ IsSpecial c ∧ c ≠ 0) c hmem
  · exact (by decide +kernel : ∀ c ∈ ascii "anyfs_d", ¬ IsSpecial c ∧ c ≠ 0) c hmem
  · exact hdec _ c hmem
  · split at hmem
    · exact (by decide +kernel : ∀ c ∈ ascii "_whole", ¬ IsSpecial c ∧ c ≠ 0) c hmem
    · rcases mem_append.mp hmem with hmem | hmem
      · exact (by decide +kernel : ∀ c ∈ ascii "_p", ¬ IsSpecial c ∧ c ≠ 0) c hmem
      · exact hdec _ c hmem
    · rcases mem_append.mp hmem with hmem | hmem
      · exact (by decide +kernel : ∀ c ∈ ascii "_s", ¬ IsSpecial c ∧ c ≠ 0) c hmem
      · exact hdec _ c hmem

theorem length_qwordAdd_le (s : Bytes) : (qwordAdd s).length ≤ 4 * s.length := by
  induction s with
  | nil => exact le_rfl
  | cons c s ih =>
    have hone : (octalEscape c).length ≤ 4 := by
      rw [octalEscape]
      split_ifs <;> simp
    rw [qwordAdd_cons, length_append, length_cons]
    omega

section Main

variable {nDisks : ℕ} {spec : Bytes} {ex : ExportInfo}

theorem ExportInfo.For.sendable_lklPath (h : ex.For nDisks spec) :
    Sendable ex.lklPath 256 ∧ ∀ c ∈ ex.lklPath, ¬ IsSpecial c := by
  obtain ⟨mount, hmount⟩ := h.lklPath
  have hplain : ∀ c ∈ ex.lklPath, ¬ IsSpecial c := by
    intro c hc
    exact (mount.plain_point (hmount ▸ hc)).1
  refine ⟨⟨?_, fun h0 => (mount.plain_point (hmount ▸ h0)).2 rfl, ?_⟩, hplain⟩
  · rw [hmount]
    exact cons_ne_nil _ _
  · rw [qwordAdd_eq_self_iff.mpr hplain, hmount, snprintf, length_take]
    omega

theorem ExportInfo.For.sendable_bindPath (h : ex.For nDisks spec) (hspec : 0 ∉ spec) :
    Sendable ex.bindPath 256 := by
  obtain ⟨rd, ap, htarget, hbind⟩ := h.bindPath
  have hlen := length_shareName_lt rd ap
  have hesc := length_qwordAdd_le (shareName rd ap 64)
  refine ⟨?_, ?_, ?_⟩
  · rw [hbind]
    exact cons_ne_nil _ _
  · rw [hbind, mem_cons, not_or]
    exact ⟨by decide, notMem_shareName hspec htarget 64⟩
  · rw [hbind, qwordAdd_cons, octalEscape_of_not (by decide), length_append, length_singleton]
    omega

end Main

/-- **Keys and exports.** The exports that `main` builds are bound to their share names below the
root, and the two handlers agree on all numbers exactly when the bind paths are distinct from each
other and from the mount point of the first share, and none of them has a character to escape. -/
theorem nfsd_agrees_iff {env : KernelEnv} {ce : CredEnv} {answers : ℕ → BindAnswer}
    {specs : List Bytes} {disks : List Session} {k : Kernel} {flags : MountFlags}
    {t : ExportTable} {domain : Bytes} (readOnly : Bool) (expiry expiry' : UInt64)
    (hspecs : ∀ spec ∈ specs, 0 ∉ spec)
    (ht : nfsdExports env ce answers specs disks k flags = some t.exports)
    (hd : Sendable domain 64) :
    Forall₂ (ExportInfo.For disks.length) specs t.exports ∧
      ((∀ n ≤ t.count, KeyAgrees t readOnly domain expiry expiry' n) ↔
        t.paths.Nodup ∧ ∀ ex ∈ t.exports, ∀ c ∈ ex.bindPath, ¬ IsSpecial c) := by
  obtain ⟨hall, hpos, -⟩ := forall₂_nfsdExports ht
  refine ⟨hall, ?_⟩
  have hexport : ∀ ex ∈ t.exports, ∃ spec ∈ specs, ex.For disks.length spec := by
    intro ex hex
    obtain ⟨i, hi, rfl⟩ := getElem_of_mem hex
    have hi' : i < specs.length := hall.length_eq ▸ hi
    exact ⟨specs[i], getElem_mem hi', hall.get hi' hi⟩
  obtain ⟨first, exs, hcons⟩ := exists_cons_of_length_pos hpos
  obtain ⟨spec, -, hfirst⟩ := hexport first (hcons ▸ mem_cons_self)
  obtain ⟨hsend, hplain⟩ := hfirst.sendable_lklPath
  have hmem : ∀ p, p ∈ t.paths ↔ p = first.lklPath ∨ ∃ ex ∈ t.exports, ex.bindPath = p := by
    intro p
    rw [t.paths_of_cons hcons, mem_cons, ← hcons, List.mem_map]
  have hpaths : ∀ p ∈ t.paths, Sendable p 256 := by
    intro p hp
    rcases (hmem p).mp hp with rfl | ⟨ex, hex, rfl⟩
    · exact hsend
    · obtain ⟨spec, hspec, hfor⟩ := hexport ex hex
      exact hfor.sendable_bindPath (hspecs spec hspec)
  rw [forall_keyAgrees_iff hpos hd hpaths]
  -- the mount point never needs an escape, so only the bind paths are left in the condition
  refine and_congr_right fun _ => ⟨fun h ex hex => ?_, fun h p hp => ?_⟩
  · exact h ex.bindPath ((hmem _).mpr (.inr ⟨ex, hex, rfl⟩))
  · rcases (hmem p).mp hp with rfl | ⟨ex, hex, rfl⟩
    · exact hplain
    · exact h ex hex

def BindAnswer.accepting (_ : ℕ) : BindAnswer := ⟨0, 0⟩

def BindAnswer.existing (i : ℕ) : BindAnswer := ⟨if i = 0 then 0 else -EEXIST, 0⟩

theorem resolveShares_mountedSingle (specs : List (Bytes × Bytes)) {n : ℕ}
    (hroom : n + specs.length ≤ anyfsMaxShares)
    (h : ∀ s ∈ specs, s.2 ≠ [] ∧
      shareReading snprintf 1 s.1 = some ⟨some s.2, ascii "p1", ascii "disk0/p1"⟩) :
    resolveShares .accepting .empty ⟨false, false, 0⟩ anyfsMaxShares n [mountedSingle] .fresh
        (specs.map Prod.fst) =
      some (specs.map fun s => ⟨snprintf 64 s.2, ascii "/lklmnt/anyfs_d0_p1"⟩) := by
  have hparse : shareParse (ascii "disk0/p1") = some ⟨some 0, [⟨1, none⟩]⟩ := by decide +kernel
  have hpoint : snprintf 64 (snprintf 64 (Disk.single.mountName 0).point) =
      ascii "/lklmnt/anyfs_d0_p1" := by decide +kernel
  induction specs generalizing n with
  | nil => rfl
  | cons s specs ih =>
    obtain ⟨hname, hread⟩ := h s mem_cons_self
    rw [length_cons] at hroom
    have htarget : shareTarget [mountedSingle].length s.1 =
        .ok (⟨some s.2, ascii "p1", ascii "disk0/p1"⟩, ⟨some 0, [⟨1, none⟩]⟩) :=
      shareTarget_eq_ok.mpr ⟨hread, hparse, by decide, by decide⟩
    rw [map_cons, resolveShares, if_neg (by omega),
      anyfsShareResolve_of_enter htarget rfl enterShare_mountedSingle (by decide)]
    dsimp only
    rw [if_neg (by decide), hpoint, shareName]
    dsimp only
    rw [if_neg hname]
    have hrest := ih (n := n + 1) (by omega) fun s' hs' => h s' (mem_cons_of_mem _ hs')
    exact congrArg (Option.map _) hrest

theorem nfsdExports_mountedSingle (answers : ℕ → BindAnswer) (specs : List (Bytes × Bytes))
    (hne : specs ≠ []) (hroom : specs.length ≤ anyfsMaxShares)
    (h : ∀ s ∈ specs, s.2 ≠ [] ∧
      shareReading snprintf 1 s.1 = some ⟨some s.2, ascii "p1", ascii "disk0/p1"⟩) :
    nfsdExports .accepting .empty answers (specs.map Prod.fst) [mountedSingle] .fresh
        ⟨false, false, 0⟩ =
      bindExports answers 0
        (specs.map fun s => ⟨snprintf 64 s.2, ascii "/lklmnt/anyfs_d0_p1"⟩) := by
  rw [nfsdExports, anyfsServerResolveShares, resolveShares_mountedSingle specs (by omega) h]
  dsimp only
  rw [if_neg (mt map_eq_nil_iff.mp hne)]

/-- The exports of `--share a=p1 --share b=p1`. -/
def ExportTable.twoNames : ExportTable :=
  ⟨[⟨ascii "/lklmnt/anyfs_d0_p1", ascii "/a"⟩, ⟨ascii "/lklmnt/anyfs_d0_p1", ascii "/b"⟩],
    by decide⟩

/-- The exports of `--share a=p1 --share a=p1`. -/
def ExportTable.oneName : ExportTable :=
  ⟨[⟨ascii "/lklmnt/anyfs_d0_p1", ascii "/a"⟩, ⟨ascii "/lklmnt/anyfs_d0_p1", ascii "/a"⟩],
    by decide⟩

/-- With the names `a` and `b` the handlers agree on all three numbers. -/
theorem nfsd_agrees_twoNames :
    nfsdExports .accepting .empty .accepting [ascii "a=p1", ascii "b=p1"] [mountedSingle] .fresh
        ⟨false, false, 0⟩ = some ExportTable.twoNames.exports ∧
      ∀ n ≤ 2, KeyAgrees .twoNames true (ascii "unix") 0 0 n := by
  have ht : nfsdExports .accepting .empty .accepting [ascii "a=p1", ascii "b=p1"] [mountedSingle]
      .fresh ⟨false, false, 0⟩ = some ExportTable.twoNames.exports :=
    (nfsdExports_mountedSingle _ [(ascii "a=p1", ascii "a"), (ascii "b=p1", ascii "b")]
      (cons_ne_nil _ _) (by decide) (by decide +kernel)).trans (by decide +kernel)
  refine ⟨ht, ?_⟩
  exact (nfsd_agrees_iff true 0 0 (by decide +kernel) ht
    ⟨by decide, by decide, by decide⟩).2.mpr (by decide +kernel)

/-- Two shares with the name `a`: number 2 has the path `/a`, and the export of `/a` has
number 1. -/
theorem nfsd_disagrees_oneName :
    nfsdExports .accepting .empty .existing [ascii "a=p1", ascii "a=p1"] [mountedSingle] .fresh
        ⟨false, false, 0⟩ = some ExportTable.oneName.exports ∧
      (handleExpkey .oneName (expkeyQuery (ascii "unix") 2) 0).answer =
        .positive (ascii "unix 1 \\x00000002 0 /a\n") ∧
      handleExport .oneName true (exportQuery (ascii "unix") (ascii "/a")) 0 =
        .positive (ascii "unix /a 0 9227 0 0 1\n") ∧
      ¬ KeyAgrees .oneName true (ascii "unix") 0 0 2 := by
  refine ⟨?_, by decide +kernel, by decide +kernel, ?_⟩
  · exact (nfsdExports_mountedSingle _ [(ascii "a=p1", ascii "a"), (ascii "a=p1", ascii "a")]
      (cons_ne_nil _ _) (by decide) (by decide +kernel)).trans (by decide +kernel)
  · rintro ⟨reads, path, hpath, -, hexport⟩
    have hval : fsidPath .oneName 2 = ([1], some (some (ascii "/a"))) := by decide +kernel
    rw [hval] at hpath
    obtain rfl := some.inj (some.inj (Prod.mk.inj hpath).2)
    exact absurd hexport (by decide +kernel)

end Anyfs
