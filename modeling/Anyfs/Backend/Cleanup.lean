import Anyfs.Backend.Disks

/-!
# Cleaning up at exit

`anyfs_atexit_cleanup` unmounts what `/proc/mounts` lists under `/lklmnt/`, removes the disks and
halts the kernel. It parses what each read returned by itself, so a line across two reads is taken
for two.
-/

namespace Anyfs

open List CString Option

/-- The target of `umount` for a line: its second field, if that starts with `/lklmnt/`. -/
def lineTarget (line : Bytes) : Option Bytes :=
  match strchr 32 line with
  | none => none
  | some (_, mp) =>
    let mp := ((strchr 32 mp).map Prod.fst).getD mp
    if (ascii "/lklmnt/").isPrefixOf mp then some mp else none

/-- The lines of a buffer, as the handler cuts them. -/
def cleanupLines (line : Bytes) : List Bytes :=
  if line = [] then []
  else
    match _h : strchr 10 line with
    | none => (lineTarget line).toList
    | some (l, rest) => (lineTarget l).toList ++ cleanupLines rest
  termination_by line.length
  decreasing_by
    rcases strchr_cases 10 line with ⟨-, hnone⟩ | ⟨a, b, rfl, -, hsome⟩
    · exact absurd (hnone.symm.trans _h) nofun
    · cases hsome.symm.trans _h
      grind

/-- What the exit handler calls. -/
inductive CleanupCall where
  | sync
  | umount (target : Bytes)
  | diskRemove (disk : LklDisk)
  | halt
  | qemuShutdown
  deriving DecidableEq

/-- `anyfs_atexit_cleanup`: `reads` are the pieces in which `/proc/mounts` is read, if it can be
opened, and `exiting` is `process_is_exiting()`, which only Windows asks for. -/
def anyfsAtexitCleanup (exiting hasQemu : Bool) (reads : Option (List Bytes)) (started : Bool)
    (t : DiskTable) : List CleanupCall × DiskTable × Bool :=
  if started = false ∨ exiting then ([], t, started)
  else
    let targets := (reads.getD []).flatMap fun buf => cleanupLines (cstr buf)
    let disks := ((finRange 16).filterMap t.slots).map DiskSlot.disk
    (.sync :: targets.map .umount ++ disks.map .diskRemove ++ .halt ::
      if hasQemu then [.qemuShutdown] else [], ⟨fun _ => none, t.log ++ disks.map .closed⟩, false)

/-- The targets of the calls of `umount`. -/
def umounts (calls : List CleanupCall) : List Bytes :=
  calls.filterMap fun c => match c with
    | .umount target => some target
    | _ => none

/-- The mount points under `/lklmnt/` in the text of `/proc/mounts`: second fields of its lines. -/
def mountPoints (text : Bytes) : List Bytes :=
  (text.splitOn 10).filterMap fun line => ((line.splitOn 32)[1]?).filter
    (ascii "/lklmnt/").isPrefixOf

/-- What successive reads give of a text; the buffer has 4096 bytes. -/
structure ReadIn (text : Bytes) (reads : List Bytes) : Prop where
  flatten : reads.flatten = text
  size : ∀ buf ∈ reads, 1 ≤ buf.length ∧ buf.length ≤ 4095

theorem lineTarget_eq (line : Bytes) :
    lineTarget line = ((line.splitOn 32)[1]?).filter (ascii "/lklmnt/").isPrefixOf := by
  rw [lineTarget]
  rcases strchr_cases 32 line with ⟨hnot, hnone⟩ | ⟨a, mp, rfl, ha, hsome⟩
  · rw [hnone, splitOn_eq_singleton hnot]
    rfl
  · rw [hsome, splitOn_append_cons_self_of_not_mem ha]
    rcases strchr_cases 32 mp with ⟨hnot, hnone⟩ | ⟨b, rest, rfl, hb, hsome⟩
    · simp [hnone, splitOn_eq_singleton hnot, Option.filter]
    · simp [hsome, splitOn_append_cons_self_of_not_mem hb, Option.filter]

theorem cleanupLines_eq (text : Bytes) : cleanupLines text = mountPoints text := by
  fun_induction cleanupLines text with
  | case1 => rfl
  | case2 line _ hnone =>
    rcases strchr_cases 10 line with ⟨hnot, -⟩ | ⟨a, b, -, -, hsome⟩
    · rw [mountPoints, splitOn_eq_singleton hnot, filterMap_cons, ← lineTarget_eq]
      cases lineTarget line <;> rfl
    · exact absurd (hnone.symm.trans hsome) nofun
  | case3 line _ l rest hsome ih =>
    rcases strchr_cases 10 line with ⟨-, hnone⟩ | ⟨a, b, rfl, ha, hsome'⟩
    · exact absurd (hnone.symm.trans hsome) nofun
    · cases hsome'.symm.trans hsome
      rw [ih, mountPoints, mountPoints, splitOn_append_cons_self_of_not_mem ha, filterMap_cons,
        ← lineTarget_eq]
      cases lineTarget l <;> rfl

theorem umounts_anyfsAtexitCleanup (hasQemu : Bool) (reads : List Bytes) (t : DiskTable) :
    umounts (anyfsAtexitCleanup false hasQemu (some reads) true t).1 =
      reads.flatMap fun buf => mountPoints (cstr buf) := by
  simp [anyfsAtexitCleanup, umounts, filterMap_append, filterMap_map, Function.comp_def,
    apply_ite, cleanupLines_eq]

theorem mountPoints_append (a b : Bytes) :
    mountPoints (a ++ 10 :: b) = mountPoints a ++ mountPoints b := by
  rw [mountPoints, splitOn_append_cons_self, filterMap_append]
  rfl

theorem mountPoints_flatten {reads : List Bytes}
    (h : ∀ buf ∈ reads.dropLast, buf.getLast? = some 10) :
    mountPoints reads.flatten = reads.flatMap mountPoints := by
  induction reads with
  | nil => rfl
  | cons buf reads ih =>
    rcases reads.eq_nil_or_concat with rfl | ⟨front, last, hreads⟩
    · simp
    · rw [dropLast_cons_of_ne_nil (by simp [hreads])] at h
      obtain ⟨hbuf, hrest⟩ := forall_mem_cons.mp h
      obtain ⟨line, rfl⟩ := List.getLast?_eq_some_iff.mp hbuf
      have hend : mountPoints (line ++ [10]) = mountPoints line :=
        (mountPoints_append line []).trans (append_nil _)
      rw [flatten_cons, flatMap_cons, ← ih hrest, hend, ← mountPoints_append]
      simp

theorem infix_of_lineTarget {line mp : Bytes} (h : lineTarget line = some mp) :
    ascii " /lklmnt/" <:+: line := by
  rw [lineTarget] at h
  rcases strchr_cases 32 line with ⟨-, hnone⟩ | ⟨a, rest, rfl, -, hsome⟩
  · rw [hnone] at h
    cases h
  · rw [hsome] at h
    obtain ⟨hbegin, -⟩ := ite_none_right_eq_some.mp h
    have hfield : ((strchr 32 rest).map Prod.fst).getD rest <+: rest := by
      rcases strchr_cases 32 rest with ⟨-, hnone⟩ | ⟨b, c, rfl, -, hsome⟩
      · simp [hnone]
      · simp [hsome]
    have hrest := ( isPrefixOf_iff_prefix.mp hbegin).trans hfield
    exact ((prefix_cons_inj 32).mpr hrest).isInfix.trans (suffix_append a _).isInfix

theorem infix_of_mem_mountPoints {text mp : Bytes} (h : mp ∈ mountPoints text) :
    ascii " /lklmnt/" <:+: text := by
  rw [← cleanupLines_eq] at h
  fun_induction cleanupLines text with
  | case1 => exact absurd h not_mem_nil
  | case2 line => exact infix_of_lineTarget (mem_toList.mp h)
  | case3 line _ l rest hsome ih =>
    rcases strchr_cases 10 line with ⟨-, hnone⟩ | ⟨a, b, rfl, -, hsome'⟩
    · exact absurd (hnone.symm.trans hsome) nofun
    · cases hsome'.symm.trans hsome
      rcases mem_append.mp h with hmem | hmem
      · exact (infix_of_lineTarget (mem_toList.mp hmem)).trans (prefix_append _ _).isInfix
      · exact (ih hmem).trans ((suffix_cons 10 rest).trans (suffix_append _ _)).isInfix

theorem mountPoints_singletons (text : Bytes) :
    (text.map fun b => [b]).flatMap (fun buf => mountPoints (cstr buf)) = [] := by
  refine flatMap_eq_nil_iff.mpr fun buf hbuf => eq_nil_iff_forall_not_mem.mpr fun mp hmp => ?_
  obtain ⟨b, -, rfl⟩ := mem_map.mp hbuf
  have hle := (infix_of_mem_mountPoints hmp).length_le.trans ( takeWhile_prefix _).length_le
  rw [length_singleton] at hle
  exact absurd hle (by decide)

/-- If each read ends at the end of a line, exactly the mount points of the text are unmounted;
however it is read, only if it has none, nor anything that looks like one. -/
theorem anyfsAtexitCleanup_umounts (hasQemu : Bool) (t : DiskTable) (text : Bytes) :
    (∀ reads, ReadIn text reads → 0 ∉ text → (∀ buf ∈ reads.dropLast, buf.getLast? = some 10) →
      umounts (anyfsAtexitCleanup false hasQemu (some reads) true t).1 = mountPoints text) ∧
    ((∀ reads, ReadIn text reads → ∀ mp,
        mp ∈ umounts (anyfsAtexitCleanup false hasQemu (some reads) true t).1 ↔
        mp ∈ mountPoints text) ↔ ¬ ascii " /lklmnt/" <:+: text) := by
  simp only [umounts_anyfsAtexitCleanup]
  refine ⟨?_, fun hlaw hpart => ?_, ?_⟩
  · rintro reads ⟨rfl, -⟩ hzero hlines
    rw [mountPoints_flatten hlines]
    refine flatMap_congr fun buf hbuf => ?_
    rw [cstr_eq_self_iff.mpr fun hmem => hzero (mem_flatten.mpr ⟨buf, hbuf, hmem⟩)]
  · -- byte by byte nothing is unmounted, but a read can start at the blank
    obtain ⟨pre, post, rfl⟩ := hpart
    have hbytes (l : Bytes) : (l.map fun b => [b]).flatten = l := by
      induction l with
      | nil => rfl
      | cons b l ih => simp [ih]
    have hsize {l : Bytes} : ∀ buf ∈ l.map fun b => [b], 1 ≤ buf.length ∧ buf.length ≤ 4095 := by
      simp
    have hnone := hlaw _ ⟨hbytes _, hsize⟩ (ascii "/lklmnt/")
    rw [mountPoints_singletons] at hnone
    refine absurd ((hlaw (pre.map (fun b => [b]) ++ ascii " /lklmnt/" :: post.map fun b => [b])
      ⟨?_, ?_⟩ (ascii "/lklmnt/")).mp ?_) (not_mem_nil ∘ hnone.mpr)
    · rw [flatten_append, flatten_cons, hbytes, hbytes, append_assoc]
    · exact forall_mem_append.mpr ⟨hsize, forall_mem_cons.mpr ⟨by decide, hsize⟩⟩
    · rw [flatMap_append, flatMap_cons]
      exact mem_append_right _ (mem_append_left _ (by decide))
  · rintro hnot reads ⟨rfl, -⟩ mp
    refine iff_of_false (fun hmem => ?_) fun hmem => hnot (infix_of_mem_mountPoints hmem)
    obtain ⟨buf, hbuf, hmp⟩ := mem_flatMap.mp hmem
    have hpart := (infix_of_mem_mountPoints hmp).trans ( takeWhile_prefix _).isInfix
    exact hnot (hpart.trans (infix_of_mem_flatten hbuf))

/-- A mount point that is read in two pieces is unmounted under a shorter name. -/
theorem anyfsAtexitCleanup_border :
    ReadIn (ascii "d /lklmnt/ab e\n") [ascii "d /lklmnt/a", ascii "b e\n"] ∧
      umounts (anyfsAtexitCleanup false false (some [ascii "d /lklmnt/a", ascii "b e\n"]) true
        ⟨fun _ => none, []⟩).1 = [ascii "/lklmnt/a"] ∧
      mountPoints (ascii "d /lklmnt/ab e\n") = [ascii "/lklmnt/ab"] := by
  refine ⟨⟨by decide, by decide⟩, ?_, by decide⟩
  rw [umounts_anyfsAtexitCleanup]
  decide

end Anyfs
