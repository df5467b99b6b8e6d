import Anyfs.Lib.CString
import Mathlib.Data.List.DropRight

/-!
# Reading smb.conf

What `parse_host_smbconf` makes of a file depends only on the lines that are not blank, without the
white space around them (`smbconfLines_filter`); a line end leaves no trace if the line fits the
buffer.
-/

namespace Anyfs

open List CString

/-- `fgets`: what is read into a buffer of `size` bytes, and the rest of the file. -/
def fgets (size : ℕ) (s : Bytes) : Bytes × Bytes :=
  s.splitAt (min ((s.takeWhile (· != 10)).length + 1) (size - 1))

/-- What `fgets` reads until the end of the file. -/
def fgetsAll (s : Bytes) : List Bytes :=
  if s = [] then [] else (fgets 1024 s).1 :: fgetsAll (fgets 1024 s).2
  termination_by s.length
  decreasing_by
    rename_i hs
    have := length_pos_iff.mpr hs
    simp only [fgets, splitAt_eq, length_drop]
    omega

def isLineEnd (c : UInt8) : Bool := c == 10 || c == 13 || c == 32 || c == 9

def stripLine (line : Bytes) : Bytes :=
  ((cstr line).rdropWhile isLineEnd).dropWhile fun c => c == 32 || c == 9

/-- The variables of `parse_host_smbconf`, the groups handed over, what was written to `stderr`, and
the number of calls of `strdup` so far. -/
structure SmbConf where
  sectionName : Option Bytes
  opts : List Bytes
  groups : List (Bytes × List Bytes)
  stderr : List Bytes
  strdups : ℕ
  deriving DecidableEq

namespace SmbConf

def flush (c : SmbConf) : SmbConf :=
  match c.sectionName with
  | none => c
  | some name => { c with groups := c.groups ++ [(name, c.opts)], opts := [] }

def warn (c : SmbConf) (text : String) (arg : Bytes) : SmbConf :=
  { c with stderr := c.stderr ++ [ascii text ++ arg ++ [10]] }

end SmbConf

/-- The body of the loop from the stripped line on. `strdup` says which calls of `strdup` have
memory. -/
def smbconfLine (strdup : ℕ → Bool) (c : SmbConf) (p : Bytes) : Except SmbConf SmbConf :=
  if p = [] ∨ p.head? = some 59 ∨ p.head? = some 35 then .ok c
  else if p.head? = some 91 then
    match strchr 93 p with
    | none => .ok (c.warn "warning: malformed section header: " p)
    | some (header, _) => .ok { c.flush with sectionName := some ((header.drop 1).take 127) }
  else
    match c.sectionName with
    | none => .ok (c.warn "warning: option before any section: " p)
    | some name =>
      if 61 ∉ p then .ok (c.warn "warning: ignored non-kv line: " p)
      else if 32 ≤ c.opts.length then
        .ok (c.warn "warning: too many options in [" (name ++ ascii "], extra ignored"))
      else if strdup c.strdups then
        .ok { c with opts := c.opts ++ [p], strdups := c.strdups + 1 }
      else .error (c.warn "strdup failed" [])

def smbconfLines (strdup : ℕ → Bool) : List Bytes → SmbConf → ℤ × SmbConf
  | [], c => (0, c.flush)
  | p :: ps, c =>
    match smbconfLine strdup c p with
    | .ok c => smbconfLines strdup ps c
    | .error c => (-1, c)

/-- `parse_host_smbconf` on the contents of the file, or on the text `perror` has for its failure to
open it. -/
def parseHostSmbconf (strdup : ℕ → Bool) (file : Except Bytes Bytes) : ℤ × SmbConf :=
  match file with
  | .error e => (-1, SmbConf.warn ⟨none, [], [], [], 0⟩ "fopen smbconf: " e)
  | .ok s => smbconfLines strdup ((fgetsAll s).map stripLine) ⟨none, [], [], [], 0⟩

def confText (crlf final : Bool) (lines : List Bytes) : Bytes :=
  let eol := if crlf then [13, 10] else [10]
  eol.intercalate lines ++ if final then eol else []

@[simp] theorem fgetsAll_nil : fgetsAll [] = [] := by rw [fgetsAll, if_pos rfl]

theorem smbconfLines_filter (strdup : ℕ → Bool) (ps : List Bytes) (c : SmbConf) :
    smbconfLines strdup (ps.filter (!·.isEmpty)) c = smbconfLines strdup ps c := by
  induction ps generalizing c with
  | nil => rfl
  | cons p ps ih =>
    by_cases hp : p = []
    · simp [hp, smbconfLines, smbconfLine, ih]
    · simp [hp, smbconfLines, ih]

theorem stripLine_append {line eol : Bytes} (hline : 0 ∉ line)
    (heol : ∀ c ∈ eol, isLineEnd c = true) : stripLine (line ++ eol) = stripLine line := by
  have hzero : 0 ∉ eol := fun h => absurd (heol 0 h) (by decide)
  rw [stripLine, cstr_eq_self_iff.mpr (by simp [hline, hzero]), stripLine,
    cstr_eq_self_iff.mpr hline]
  congr 1
  induction eol using reverseRecOn with
  | nil => rw [append_nil]
  | append_singleton eol c ih =>
    rw [← append_assoc, rdropWhile_concat_pos _ _ _ (heol c (by simp))]
    exact ih (fun b hb => heol b (by simp [hb])) (by simp_all)

section Lines

variable {line : Bytes} (hline : 10 ∉ line)

include hline

theorem length_takeWhile_line (rest : Bytes) :
    ((line ++ 10 :: rest).takeWhile (· != 10)).length = line.length := by
  rw [takeWhile_append_of_pos (by simpa using fun b hb => ne_of_mem_of_not_mem hb hline)]
  simp

theorem fgetsAll_line (hlen : line.length < 1023) (rest : Bytes) :
    fgetsAll (line ++ 10 :: rest) = (line ++ [10]) :: fgetsAll rest := by
  have hmin : min (line.length + 1) (1024 - 1) = line.length + 1 := by omega
  rw [fgetsAll, if_neg (by simp), fgets, length_takeWhile_line hline, hmin, splitAt_eq]
  simp [take_append, drop_append, drop_eq_nil_of_le (Nat.le_succ line.length)]

theorem fgetsAll_last (hlen : line.length < 1023) (hne : line ≠ []) : fgetsAll line = [line] := by
  have htake : line.takeWhile (· != 10) = line :=
    takeWhile_eq_self_iff.mpr (by simpa using fun b hb => ne_of_mem_of_not_mem hb hline)
  have hmin : min (line.length + 1) (1024 - 1) = line.length + 1 := by omega
  rw [fgetsAll, if_neg hne, fgets, htake, hmin, splitAt_eq, take_of_length_le (by simp),
    drop_eq_nil_of_le (by simp), fgetsAll_nil]

end Lines

theorem filter_fgetsAll_confText (crlf final : Bool) {lines : List Bytes}
    (h : ∀ line ∈ lines, line.length < 1022 ∧ 0 ∉ line ∧ 10 ∉ line) :
    ((fgetsAll (confText crlf final lines)).map stripLine).filter (!·.isEmpty) =
      (lines.map stripLine).filter (!·.isEmpty) := by
  obtain ⟨cr, heol, hcr, hlen⟩ : ∃ cr : Bytes, (if crlf then [13, 10] else [10]) = cr ++ [10] ∧
      (∀ c ∈ cr, c = 13) ∧ cr.length ≤ 1 := by
    cases crlf
    · exact ⟨[], rfl, nofun, Nat.zero_le _⟩
    · exact ⟨[13], rfl, by simp, Nat.le_refl _⟩
  have hend : ∀ c ∈ cr ++ [10], isLineEnd c = true := by
    intro c hc
    rcases mem_append.mp hc with hc | hc
    · exact hcr c hc ▸ rfl
    · exact mem_singleton.mp hc ▸ rfl
  -- a line with its line end is read whole
  have hread {line : Bytes} (hline : line.length < 1022 ∧ 0 ∉ line ∧ 10 ∉ line) (rest : Bytes) :
      (fgetsAll (line ++ (cr ++ [10]) ++ rest)).map stripLine =
        stripLine line :: (fgetsAll rest).map stripLine := by
    have hten : 10 ∉ line ++ cr := fun hmem => (mem_append.mp hmem).elim hline.2.2
      fun hmem => absurd (hcr 10 hmem) (by decide)
    have hlen' : (line ++ cr).length < 1023 := by
      rw [length_append]
      omega
    have hread := fgetsAll_line hten hlen' rest
    rw [← stripLine_append hline.2.1 hend]
    simpa using congrArg (map stripLine) hread
  have hlast (line : Bytes) (hline : line.length < 1022 ∧ 0 ∉ line ∧ 10 ∉ line) :
      ((fgetsAll (line ++ if final then cr ++ [10] else [])).map stripLine).filter (!·.isEmpty) =
        [stripLine line].filter (!·.isEmpty) := by
    cases final with
    | true => simpa using congrArg (filter (!·.isEmpty)) (hread hline [])
    | false =>
      by_cases hne : line = []
      · subst hne
        simp [stripLine, cstr]
      · simp [fgetsAll_last hline.2.2 (by omega) hne]
  rw [confText, heol]
  induction lines with
  | nil => simpa [stripLine, cstr] using hlast [] ⟨by decide, by simp, by simp⟩
  | cons line lines ih =>
    obtain ⟨hline, hlines⟩ := forall_mem_cons.mp h
    cases lines with
    | nil => simpa using hlast line hline
    | cons next lines =>
      rw [intercalate_cons_cons, append_assoc, hread hline]
      simp only [map_cons, filter_cons, ih hlines]

/-- A file is read the same way with LF and with CRLF, with or without a line end after its last
line. -/
theorem parseHostSmbconf_lineEnds (strdup : ℕ → Bool) (crlf final : Bool) (lines : List Bytes)
    (h : ∀ line ∈ lines, line.length < 1022 ∧ 0 ∉ line ∧ 10 ∉ line) :
    parseHostSmbconf strdup (.ok (confText crlf final lines)) =
      parseHostSmbconf strdup (.ok (confText false true lines)) := by
  rw [parseHostSmbconf, parseHostSmbconf, ← smbconfLines_filter,
    filter_fgetsAll_confText crlf final h,
    ← filter_fgetsAll_confText false true h, smbconfLines_filter]

theorem parseHostSmbconf_lineEnds_global :
    parseHostSmbconf (fun _ => true) (.ok (ascii "[global]\r\n a = b")) =
      parseHostSmbconf (fun _ => true) (.ok (ascii "[global]\n a = b\n")) :=
  parseHostSmbconf_lineEnds _ true false [ascii "[global]", ascii " a = b"] (by decide)

end Anyfs
