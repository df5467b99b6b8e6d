import Anyfs.Json.Text

/-!
# Directory listings in JSON

A name goes through two layers on its way: `anyfs_name_escape` makes it UTF-8, and the JSON writer
escapes quotes, backslashes and control characters. Both are undone at the other end.
-/

namespace Anyfs

open List CString Utf16

/-- An entry of a directory, with what the kernel guarantees of its name. -/
structure Dirent where
  name : Bytes
  ino : UInt64
  type : UInt8
  ne_nil : name ≠ []
  length_le : name.length ≤ 255
  nul_notMem : 0 ∉ name
  slash_notMem : slash ∉ name

/-- The test for `.` and `..`; behind the end of the name is a zero byte. -/
def isDots (name : Bytes) : Bool :=
  name.getD 0 0 = 46 ∧ (name.getD 1 0 = 0 ∨ name.getD 1 0 = 46 ∧ name.getD 2 0 = 0)

/-- The `kind` of a `d_type`: `DT_DIR`, `DT_REG`, `DT_LNK`, or another. -/
def direntKind (type : UInt8) : Bytes :=
  if type = 4 then ascii "dir"
  else if type = 8 then ascii "file"
  else if type = 10 then ascii "link"
  else ascii "other"

variable (de : Dirent)

def direntCalls : List WriterCall :=
  [.putc 123, kvName (ascii "name") de.name true, .kvUint (ascii "ino") de.ino true,
    .kvStr (ascii "kind") (direntKind de.type) false, .putc 125]

/-- The loop over the entries, with the flag `first`. -/
def readdirLoop : Bool → List Dirent → List WriterCall
  | _, [] => []
  | first, de :: entries =>
    if isDots de.name then readdirLoop first entries
    else (if first then [] else [.putc 44]) ++ direntCalls de ++ readdirLoop false entries

def readdirCalls (entries : List Dirent) : List WriterCall :=
  [.putc 91] ++ readdirLoop true entries ++ [.putc 93]

/-- `anyfs_ts_readdir_json`. What `lkl_opendir` and `lkl_readdir` give for a path is an input;
`ENAMETOOLONG` is 36. -/
def anyfsTsReaddirJson (t : Abi) (opendir : Bytes → Except ℤ (List Dirent)) (path buf : Bytes) :
    Option (Bytes × ℤ) :=
  match pathIn path with
  | none => some (buf, -36)
  | some path =>
    match opendir path with
    | .error err => some (buf, if err < 0 then err else -1)
    | .ok entries => jsonOp t (readdirCalls entries) 0 buf

theorem isDots_iff : isDots de.name = true ↔ de.name = [46] ∨ de.name = [46, 46] := by
  have hnul := de.nul_notMem
  rw [isDots, decide_eq_true_iff]
  match de.name, de.ne_nil, hnul with
  | [a], _, _ => simp
  | [a, b], _, hnul =>
    have hb : b ≠ 0 := fun h => hnul (by simp [h])
    simp [hb]
  | a :: b :: c :: s, _, hnul =>
    have hb : b ≠ 0 := fun h => hnul (by simp [h])
    have hc : c ≠ 0 := fun h => hnul (by simp [h])
    simp [hb, hc]

/-! ### Entries -/

theorem direntKind_ascii (type : UInt8) : ∀ b ∈ direntKind type, b.toNat < 0x80 := by
  rw [direntKind]
  split_ifs <;> decide +kernel

def direntMembers : List Member :=
  [.name (ascii "name") de.name (by decide +kernel),
    .uint (ascii "ino") de.ino.toNat (by decide +kernel),
    .str (ascii "kind") (direntKind de.type) Member.kind_ascii (direntKind_ascii de.type)]

theorem document_direntCalls : document (direntCalls de) = objectText (direntMembers de) := by
  simp only [document, direntCalls, kvName, nameOut_eq (de.length_le.trans (by decide)),
    flatMap_cons, flatMap_nil, WriterCall.text, append_nil]
  simp only [objectText, direntMembers, membersText, Member.name, Member.uint, Member.str,
    append_assoc]

def direntValue (name : List UInt16) : Json.Value :=
  .obj [(units (ascii "name"), .str name),
    (units (ascii "ino"), .num (units (decimal de.ino.toNat))),
    (units (ascii "kind"), .str (units (direntKind de.type)))]

/-- The entries without `.` and `..`. -/
def listed (entries : List Dirent) : List Dirent :=
  entries.filter fun de => de.name ≠ [46] ∧ de.name ≠ [46, 46]

theorem listed_cons (entries : List Dirent) :
    listed (de :: entries) = if isDots de.name then listed entries else de :: listed entries := by
  rw [listed, filter_cons]
  have h := isDots_iff de
  by_cases hdots : isDots de.name = true
  · rw [if_pos hdots, if_neg]
    · rfl
    · rw [decide_eq_true_iff, not_and_or, not_not, not_not]
      exact h.mp hdots
  · rw [if_neg hdots, if_pos]
    · rfl
    · rw [decide_eq_true_iff, ← not_or]
      exact mt h.mpr hdots

variable (entries : List Dirent)

theorem document_readdirLoop_false : document (readdirLoop false entries) =
      (listed entries).flatMap fun de => 44 :: objectText (direntMembers de) := by
  induction entries with
  | nil => rfl
  | cons de entries ih =>
    rw [readdirLoop, listed_cons]
    by_cases hdots : isDots de.name = true
    · rw [if_pos hdots, if_pos hdots, ih]
    · rw [if_neg hdots, if_neg hdots, if_neg Bool.false_ne_true, document_append, document_append,
        document_direntCalls, ih, flatMap_cons]
      rfl

theorem document_readdirLoop : document (readdirLoop true entries) =
      [44].intercalate (((listed entries).map direntMembers).map objectText) := by
  induction entries with
  | nil => rfl
  | cons de entries ih =>
    rw [readdirLoop, listed_cons]
    by_cases hdots : isDots de.name = true
    · rw [if_pos hdots, if_pos hdots, ih]
    · rw [if_neg hdots, if_neg hdots, if_pos rfl, nil_append, document_append,
        document_direntCalls, document_readdirLoop_false, intercalate_objectText]

theorem document_readdirCalls :
    document (readdirCalls entries) = arrayText ((listed entries).map direntMembers) := by
  rw [readdirCalls, document_append, document_append, document_readdirLoop, arrayText]
  rfl

/-- Directory listings survive the bridge. `anyfs_ts_readdir_json` writes the document of the
entries wherever there is room for it. The document parses to an array with one object for each
entry other than `.` and `..`, in order, whose name `path_in` unescapes to that of the entry, and
whose `ino` is the inode number in decimal. -/
theorem anyfsTsReaddirJson_parse :
    (∀ (t : Abi) (opendir : Bytes → Except ℤ (List Dirent)) (path p buf : Bytes),
      pathIn path = some p → opendir p = .ok entries →
        (document (readdirCalls entries)).length < 2 ^ 31 →
          (document (readdirCalls entries)).length < buf.length → ∃ buf',
            anyfsTsReaddirJson t opendir path buf =
              some (buf', ((document (readdirCalls entries)).length : ℤ)) ∧
            buf'.take (document (readdirCalls entries)).length = document (readdirCalls entries)) ∧
    ∃ text objs, ofUtf8 (document (readdirCalls entries)) = some text ∧
      Json.parse text = some (.arr objs) ∧
      Forall₂ (fun de v => ∃ name, v = direntValue de name ∧
        pathIn (toUtf8 name) = some de.name) (listed entries) objs := by
  constructor
  · intro t opendir path p buf hpath hdir hlen hfit
    rw [anyfsTsReaddirJson, hpath]
    dsimp only
    rw [hdir]
    dsimp only
    rw [jsonOp_of_lt 0 hlen hfit]
    exact ⟨_, rfl, take_left⟩
  · obtain ⟨text, htext, hparse⟩ :=
      parse_document (fun de => cons_ne_nil _ _) (document_readdirCalls entries)
    refine ⟨text, _, htext, hparse, ?_⟩
    rw [forall₂_map_right_iff, forall₂_same]
    intro de _
    have hlen := de.length_le
    refine ⟨nameString de.name, rfl, ?_⟩
    rw [(transcodes_nameString de.name).toUtf8, pathIn_eq (by rw [unescaped_escaped]; omega),
      unescaped_escaped]

/-- A directory with `..` and a file whose name is a quote and a byte that is no UTF-8. -/
def hostileEntries : List Dirent :=
  [⟨[46, 46], 2, 4, by decide, by decide, by decide, by decide⟩,
    ⟨[34, 0xFF], 12, 8, by decide, by decide, by decide, by decide⟩]

/-- In a buffer of 4096 bytes the hostile name is listed, and nothing else. -/
theorem anyfsTsReaddirJson_parse_hostile :
    (∃ buf' n, anyfsTsReaddirJson .wasm32 (fun _ => .ok hostileEntries) (ascii "/")
        (replicate 4096 0) = some (buf', n) ∧ 0 ≤ n) ∧
      ∃ text v, ofUtf8 (document (readdirCalls hostileEntries)) = some text ∧
        Json.parse text = some (.arr [v]) := by
  obtain ⟨hwrites, text, objs, htext, hparse, hobjs⟩ := anyfsTsReaddirJson_parse hostileEntries
  obtain ⟨buf', hbuf', -⟩ := hwrites .wasm32 (fun _ => .ok hostileEntries) (ascii "/") (ascii "/")
    (replicate 4096 0) (by decide +kernel) rfl (by decide +kernel) (by decide +kernel)
  obtain ⟨v, rfl⟩ := length_eq_one_iff.mp (hobjs.length_eq.symm.trans (by decide +kernel))
  exact ⟨⟨buf', _, hbuf', Int.natCast_nonneg _⟩, text, v, htext, hparse⟩

end Anyfs
