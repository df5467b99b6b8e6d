import Anyfs.Lib.BreadthFirst
import Anyfs.Lib.Rounds
import Mathlib.Data.List.Induction

/-!
# The walk through a tree

`walk` of `session-base.ts` goes through a directory tree with a queue of directories and yields the
paths in chunks; a directory that cannot be listed is passed over. A round of the generator
(`walkStep`) takes a directory from the queue, or handles one entry of it.
-/

namespace Anyfs

open BreadthFirst List

/-! ### The generator -/

/-- `EntryKind`. -/
inductive EntryKind where
  | dir
  | file
  | link
  | other
  deriving DecidableEq

/-- A `DirEntry`, with what the walk reads of it. A string is the list of its code units. -/
structure DirEntry where
  name : List UInt16
  kind : EntryKind
  deriving DecidableEq

/-- The path of an entry. Only `/` needs no further slash. -/
def entryPath (dir name : List UInt16) : List UInt16 :=
  if dir = [47] then 47 :: name else dir ++ 47 :: name

/-- The variables of `walk`, the entries left for its inner loop, and the chunks it has yielded. -/
structure Walk where
  queue : List (List UInt16)
  dir : List UInt16
  entries : List DirEntry
  chunk : List (List UInt16)
  yielded : List (List (List UInt16))
  deriving DecidableEq

/-- `walk(root)` before its first round. -/
def Walk.start (root : List UInt16) : Walk := ⟨[root], [], [], [], []⟩

def Walk.push (chunkSize : ℕ) (w : Walk) (e : DirEntry) (es : List DirEntry) : Walk :=
  let p := entryPath w.dir e.name
  let chunk := w.chunk ++ [p]
  let queue := if e.kind = .dir then w.queue ++ [p] else w.queue
  if chunkSize ≤ chunk.length then ⟨queue, w.dir, es, [], w.yielded ++ [chunk]⟩
  else ⟨queue, w.dir, es, chunk, w.yielded⟩

/-- A round of `walk`; `none` is a `readdir` that rejects. At the end it yields what is left. -/
def walkStep (readdir : List UInt16 → Option (List DirEntry)) (chunkSize : ℕ) (w : Walk) :
    Except (List (List (List UInt16))) Walk :=
  match w.entries with
  | e :: es => .ok (w.push chunkSize e es)
  | [] =>
    match w.queue with
    | dir :: queue =>
      match readdir dir with
      | none => .ok { w with queue := queue }
      | some es => .ok { w with queue := queue, dir := dir, entries := es }
    | [] => .error (if w.chunk = [] then w.yielded else w.yielded ++ [w.chunk])

/-! ### Directory trees -/

/-- A name that a directory can have. -/
structure EntryName where
  units : List UInt16
  ne_nil : units ≠ []
  slash_notMem : 47 ∉ units
  deriving DecidableEq

/-- A file tree. -/
inductive FsNode where
  | leaf (kind : EntryKind) (h : kind ≠ .dir)
  | dir (readable : Bool) (entries : List (EntryName × FsNode))

namespace FsNode

/-- The kind that `readdir` gives. -/
def kind : FsNode → EntryKind
  | leaf kind _ => kind
  | dir _ _ => .dir

/-- Whether `readdir` succeeds. -/
def readable : FsNode → Bool
  | leaf _ _ => false
  | dir readable _ => readable

def entries : FsNode → List (EntryName × FsNode)
  | leaf _ _ => []
  | dir _ entries => entries

/-- No directory has a name twice. -/
inductive Distinct : FsNode → Prop
  | mk {t : FsNode} : (t.entries.map Prod.fst).Nodup → (∀ e ∈ t.entries, Distinct e.2) → Distinct t

theorem Distinct.nodup {t : FsNode} (h : t.Distinct) : (t.entries.map Prod.fst).Nodup := by
  cases h with
  | mk hnodup _ => exact hnodup

theorem Distinct.entry {t : FsNode} (h : t.Distinct) : ∀ e ∈ t.entries, e.2.Distinct := by
  cases h with
  | mk _ hentries => exact hentries

theorem sizeOf_lt_of_mem {t : FsNode} {e : EntryName × FsNode} (h : e ∈ t.entries) :
    sizeOf e.2 < sizeOf t := by
  cases t with
  | leaf => cases h
  | dir readable es =>
    have hmem : sizeOf e < sizeOf es := List.sizeOf_lt_of_mem h
    have hpair : sizeOf e.2 < sizeOf e := by
      cases e
      simp only [Prod.mk.sizeOf_spec]
      omega
    simp only [dir.sizeOf_spec]
    omega

end FsNode

/-- A tree in which names are distinct. -/
structure DirTree where
  node : FsNode
  distinct : node.Distinct

/-- A node with the names on the way to it. -/
abbrev Place := List EntryName × DirTree

namespace DirTree

def entries (t : DirTree) : List (EntryName × DirTree) :=
  t.node.entries.attach.map fun e => (e.1.1, ⟨e.1.2, t.distinct.entry e.1 e.2⟩)

/-- What `readdir` gives for a directory that can be listed. -/
def listing (t : DirTree) : List DirEntry := t.entries.map fun e => ⟨e.1.units, e.2.node.kind⟩

def children (x : Place) : List Place :=
  if x.2.node.readable then x.2.entries.map fun e => (x.1 ++ [e.1], e.2) else []

/-- The walk gets there. -/
def Reached (t : DirTree) (x : Place) : Prop := x = ([], t) ∨ Under children ([], t) x

end DirTree

open DirTree

def pathOf (root : List UInt16) (names : List EntryName) : List UInt16 :=
  names.foldl (fun dir n => entryPath dir n.units) root

/-- A session whose `readdir` answers for a tree at `root`. -/
structure WalkSession (root : List UInt16) (t : DirTree) where
  readdir : List UInt16 → Option (List DirEntry)
  readdir_pathOf : ∀ x, t.Reached x →
    readdir (pathOf root x.1) = if x.2.node.readable then some x.2.listing else none

/-! ### Places and their paths -/

section Places

variable {x y : Place}

theorem exists_entry_of_mem_children (h : y ∈ children x) :
    ∃ e ∈ x.2.entries, x.2.node.readable = true ∧ y = (x.1 ++ [e.1], e.2) := by
  rw [children] at h
  split_ifs at h with hread
  · obtain ⟨e, he, rfl⟩ := mem_map.mp h
    exact ⟨e, he, hread, rfl⟩
  · cases h

theorem DirTree.sizeOf_node_lt {t : DirTree} {e : EntryName × DirTree} (h : e ∈ t.entries) :
    sizeOf e.2.node < sizeOf t.node := by
  obtain ⟨e', -, rfl⟩ := mem_map.mp h
  exact FsNode.sizeOf_lt_of_mem e'.2

theorem DirTree.nodup_names (t : DirTree) : (t.entries.map Prod.fst).Nodup := by
  have hnames : t.entries.map Prod.fst = t.node.entries.map Prod.fst := by
    rw [entries, map_map]
    exact attach_map_val (f := Prod.fst)
  rw [hnames]
  exact t.distinct.nodup

theorem nodup_children (x : Place) : ((children x).map Prod.fst).Nodup := by
  rw [children]
  split_ifs with hread
  · rw [map_map]
    have hnames := x.2.nodup_names.map (f := fun n => x.1 ++ [n]) fun n m h => by simpa using h
    rwa [map_map] at hnames
  · exact nodup_nil

theorem DirTree.exists_below (t : DirTree) : ∃ out, Below children [([], t)] out := by
  refine BreadthFirst.exists_below (fun x => sizeOf x.2.node) (fun x y hy => ?_) _
  obtain ⟨e, he, -, rfl⟩ := exists_entry_of_mem_children hy
  exact DirTree.sizeOf_node_lt he

theorem DirTree.nodup_of_below {t : DirTree} {out : List Place}
    (h : Below children [([], t)] out) : (out.map Prod.fst).Nodup := by
  refine h.nodup_map Prod.fst dropLast length ?_ ?_ nodup_children (n := 0) (by simp) (by simp)
  · intro x y hy
    obtain ⟨e, -, -, rfl⟩ := exists_entry_of_mem_children hy
    exact dropLast_concat
  · intro x y hy
    obtain ⟨e, -, -, rfl⟩ := exists_entry_of_mem_children hy
    exact length_append

variable (root : List UInt16)

theorem pathOf_concat (names : List EntryName) (n : EntryName) :
    pathOf root (names ++ [n]) = entryPath (pathOf root names) n.units := by
  rw [pathOf, foldl_append]
  rfl

def pathStem : List UInt16 := if root = [47] then [] else root

theorem entryPath_of_ne {dir name : List UInt16} (h : dir ≠ [47]) :
    entryPath dir name = dir ++ 47 :: name := if_neg h

theorem append_slash_ne (xs : List UInt16) (n : EntryName) : xs ++ 47 :: n.units ≠ [47] := by
  intro h
  have hlen := congrArg length h
  have hunits := length_pos_iff.mpr n.ne_nil
  simp only [length_append, length_cons, length_nil] at hlen
  omega

theorem pathOf_eq {names : List EntryName} (h : names ≠ []) :
    pathOf root names = pathStem root ++ names.flatMap fun n => 47 :: n.units := by
  induction names using reverseRecOn with
  | nil => exact absurd rfl h
  | append_singleton names n ih =>
    rw [pathOf_concat, flatMap_append, flatMap_singleton]
    by_cases hnil : names = []
    · subst hnil
      rw [flatMap_nil, nil_append, pathStem]
      exact apply_ite (· ++ 47 :: n.units) (root = [47]) [] root ▸ rfl
    · have hne : pathOf root names ≠ [47] := by
        rw [← dropLast_concat_getLast hnil, pathOf_concat, entryPath]
        split_ifs with hdir
        · exact append_slash_ne [] _
        · exact append_slash_ne _ _
      rw [entryPath_of_ne hne, ih hnil, append_assoc]

theorem slashed_injective : Function.Injective fun names : List EntryName =>
    names.flatMap fun n => 47 :: n.units := by
  have htake : ∀ (n : EntryName) (names : List EntryName),
      (n.units ++ names.flatMap fun n => 47 :: n.units).takeWhile (· != 47) = n.units := by
    intro n names
    have hunits : ∀ u ∈ n.units, (u != 47) = true := fun u hu =>
      bne_iff_ne.mpr fun h => n.slash_notMem (h ▸ hu)
    rw [takeWhile_append_of_pos hunits]
    cases names with
    | nil => simp
    | cons m names => simp
  intro ns
  induction ns with
  | nil =>
    intro ms h
    cases ms with
    | nil => rfl
    | cons m ms => cases h
  | cons n ns ih =>
    intro ms h
    cases ms with
    | nil => cases h
    | cons m ms =>
      have htail : n.units ++ ns.flatMap (fun n => 47 :: n.units) =
          m.units ++ ms.flatMap fun n => 47 :: n.units := by simpa using h
      have hunits : n.units = m.units := by rw [← htake n ns, htail, htake m ms]
      rw [hunits, append_cancel_left_eq] at htail
      rw [ih htail, show n = m from by cases n; cases m; simpa using hunits]

theorem pathOf_injective : Function.Injective (pathOf root) := by
  -- a place below the root has another path than the root
  have hroot : ∀ (n : EntryName) (ns : List EntryName), pathOf root (n :: ns) ≠ root := by
    intro n ns h
    have hlen := congrArg length h
    have hunits := length_pos_iff.mpr n.ne_nil
    rw [pathOf_eq root (cons_ne_nil n ns), pathStem, flatMap_cons] at hlen
    split_ifs at hlen with hslash
    · simp only [hslash, length_append, length_cons, length_nil] at hlen
      omega
    · simp only [length_append, length_cons] at hlen
      omega
  intro ns ms h
  match ns, ms with
  | [], [] => rfl
  | [], m :: ms => exact absurd h.symm (hroot m ms)
  | n :: ns, [] => exact absurd h (hroot n ns)
  | n :: ns, m :: ms =>
    rw [pathOf_eq root (cons_ne_nil n ns), pathOf_eq root (cons_ne_nil m ms),
      append_cancel_left_eq] at h
    exact slashed_injective h

end Places

/-! ### What the rounds do -/

section Rounds

variable {chunkSize : ℕ} {paths : List (List UInt16)} {w : Walk}

/-- The paths so far are in full chunks that were yielded and in one that is not full. -/
structure Walk.Chunked (chunkSize : ℕ) (paths : List (List UInt16)) (w : Walk) : Prop where
  all : w.yielded.flatten ++ w.chunk = paths
  full : ∀ c ∈ w.yielded, c.length = chunkSize
  short : w.chunk.length < chunkSize

@[simp]
theorem Walk.entries_push (e : DirEntry) (es : List DirEntry) :
    (w.push chunkSize e es).entries = es := by
  rw [push]
  split_ifs <;> rfl

@[simp]
theorem Walk.dir_push (e : DirEntry) (es : List DirEntry) :
    (w.push chunkSize e es).dir = w.dir := by
  rw [push]
  split_ifs <;> rfl

@[simp]
theorem Walk.queue_push (e : DirEntry) (es : List DirEntry) :
    (w.push chunkSize e es).queue =
      if e.kind = .dir then w.queue ++ [entryPath w.dir e.name] else w.queue := by
  rw [push]
  split_ifs <;> rfl

theorem Walk.Chunked.push (h : w.Chunked chunkSize paths) (e : DirEntry) (es : List DirEntry) :
    (w.push chunkSize e es).Chunked chunkSize (paths ++ [entryPath w.dir e.name]) := by
  obtain ⟨hall, hfull, hshort⟩ := h
  by_cases hlen : chunkSize ≤ (w.chunk ++ [entryPath w.dir e.name]).length
  · rw [Walk.push, if_pos hlen]
    refine ⟨?_, fun c hc => ?_, Nat.lt_of_le_of_lt (Nat.zero_le _) hshort⟩
    · simp [← hall]
    · rcases mem_append.mp hc with hc | hc
      · exact hfull c hc
      · obtain rfl := mem_singleton.mp hc
        rw [length_append, length_singleton] at hlen ⊢
        omega
  · rw [Walk.push, if_neg hlen]
    refine ⟨?_, hfull, Nat.lt_of_not_le hlen⟩
    rw [← hall, append_assoc]

theorem run_entries (readdir : List UInt16 → Option (List DirEntry)) {es : List DirEntry}
    (hw : w.entries = es) (h : w.Chunked chunkSize paths) :
    ∃ w', Rounds.run (walkStep readdir chunkSize) es.length w = .ok w' ∧ w'.entries = [] ∧
      w'.queue = w.queue ++ (es.filter (·.kind = .dir)).map (entryPath w.dir ·.name) ∧
      w'.Chunked chunkSize (paths ++ es.map (entryPath w.dir ·.name)) := by
  induction es generalizing w paths with
  | nil => exact ⟨w, rfl, hw, by simp, by simpa using h⟩
  | cons e es ih =>
    have hround : walkStep readdir chunkSize w = .ok (w.push chunkSize e es) := by
      rw [walkStep, hw]
    obtain ⟨w', hrun, hentries, hqueue, hchunked⟩ := ih (w.entries_push e es) (h.push e es)
    rw [w.dir_push] at hqueue hchunked
    refine ⟨w', ?_, hentries, ?_, ?_⟩
    · rw [length_cons, Rounds.run_succ_of_ok hround, hrun]
    · rw [hqueue, w.queue_push]
      by_cases hdir : e.kind = .dir <;> simp [hdir]
    · rwa [append_assoc] at hchunked

/-- The chunks of a walk through `paths`: no chunk is empty, and all but the last are full. -/
structure WalkChunks (chunkSize : ℕ) (paths : List (List UInt16))
    (chunks : List (List (List UInt16))) : Prop where
  all : chunks.flatten = paths
  full : ∀ c ∈ chunks.dropLast, c.length = chunkSize
  bounded : ∀ c ∈ chunks, c ≠ [] ∧ c.length ≤ chunkSize

theorem Walk.Chunked.last (h : w.Chunked chunkSize paths) :
    WalkChunks chunkSize paths (if w.chunk = [] then w.yielded else w.yielded ++ [w.chunk]) := by
  obtain ⟨hall, hfull, hshort⟩ := h
  have hbounded : ∀ c ∈ w.yielded, c ≠ [] ∧ c.length ≤ chunkSize := fun c hc => by
    have hlen := hfull c hc
    exact ⟨ne_nil_of_length_pos (by omega), Nat.le_of_eq hlen⟩
  split_ifs with hchunk
  · refine ⟨?_, fun c hc => hfull c (dropLast_subset _ hc), hbounded⟩
    rw [← hall, hchunk, append_nil]
  · refine ⟨?_, fun c hc => ?_, fun c hc => ?_⟩
    · rw [← hall, flatten_append, flatten_singleton]
    · rw [dropLast_concat] at hc
      exact hfull c hc
    · rcases mem_append.mp hc with hc | hc
      · exact hbounded c hc
      · obtain rfl := mem_singleton.mp hc
        exact ⟨hchunk, Nat.le_of_lt hshort⟩

end Rounds

/-! ### The walk of a tree -/

section Tree

variable {root : List UInt16} {t : DirTree} {chunkSize : ℕ}

def Place.isDir (x : Place) : Bool := x.2.node.kind = .dir

theorem children_of_not_isDir (x : Place) (h : x.isDir = false) : children x = [] := by
  obtain ⟨ns, ⟨node, hnode⟩⟩ := x
  cases node with
  | leaf => rfl
  | dir => cases h

theorem DirTree.Reached.child {x y : Place} (h : t.Reached x) (hy : y ∈ children x) :
    t.Reached y := by
  rcases h with rfl | h
  · exact .inr (.child hy)
  · exact .inr (h.concat hy)

theorem map_listing {x : Place} (hread : x.2.node.readable = true) :
    x.2.listing.map (entryPath (pathOf root x.1) ·.name) =
      (children x).map fun y => pathOf root y.1 := by
  rw [listing, children, if_pos hread, map_map, map_map]
  exact map_congr_left fun e _ => (pathOf_concat root x.1 e.1).symm

theorem map_filter_listing {x : Place} (hread : x.2.node.readable = true) :
    (x.2.listing.filter (·.kind = .dir)).map (entryPath (pathOf root x.1) ·.name) =
      ((children x).filter Place.isDir).map fun y => pathOf root y.1 := by
  rw [listing, children, if_pos hread, filter_map, filter_map, map_map, map_map]
  exact map_congr_left fun e _ => (pathOf_concat root x.1 e.1).symm

theorem run_queue (S : WalkSession root t) {q out : List Place}
    (h : Queued children Place.isDir q out) (hq : ∀ x ∈ q, t.Reached x) (w : Walk)
    (paths : List (List UInt16)) (hentries : w.entries = [])
    (hqueue : w.queue = q.map fun x => pathOf root x.1) (hw : w.Chunked chunkSize paths) :
    ∃ n chunks, Rounds.run (walkStep S.readdir chunkSize) n w = .error chunks ∧
      WalkChunks chunkSize (paths ++ out.map fun x => pathOf root x.1) chunks := by
  induction h generalizing w paths with
  | nil =>
    refine ⟨1, _, Rounds.run_succ_of_error ?_ 0, by simpa using hw.last⟩
    rw [walkStep, hentries, hqueue]
    rfl
  | @cons x q out hqueued ih =>
    have hx : t.Reached x := hq x (mem_cons_self ..)
    have hq' : ∀ y ∈ q ++ (children x).filter Place.isDir, t.Reached y := by
      intro y hy
      rcases mem_append.mp hy with hy | hy
      · exact hq y (mem_cons_of_mem _ hy)
      · exact hx.child (mem_filter.mp hy).1
    have hreaddir := S.readdir_pathOf x hx
    cases hread : x.2.node.readable with
    | false =>
      rw [hread, if_neg Bool.false_ne_true] at hreaddir
      have hchildren : children x = [] := by simp [children, hread]
      have hround : walkStep S.readdir chunkSize w =
          .ok { w with queue := q.map fun x => pathOf root x.1 } := by
        rw [walkStep, hentries, hqueue, map_cons]
        dsimp only
        rw [hreaddir]
      rw [hchildren, filter_nil, append_nil] at ih hq'
      obtain ⟨n, chunks, hrun, hchunks⟩ := ih hq' { w with queue := q.map fun x => pathOf root x.1 }
        _ hentries rfl ⟨hw.all, hw.full, hw.short⟩
      refine ⟨n + 1, chunks, by rw [Rounds.run_succ_of_ok hround, hrun], ?_⟩
      rwa [hchildren, nil_append]
    | true =>
      rw [hread, if_pos rfl] at hreaddir
      have hround : walkStep S.readdir chunkSize w = .ok { w with
            queue := q.map fun x => pathOf root x.1, dir := pathOf root x.1,
            entries := x.2.listing } := by
        rw [walkStep, hentries, hqueue, map_cons]
        dsimp only
        rw [hreaddir]
      obtain ⟨w', hrun', hentries', hqueue', hw'⟩ := run_entries S.readdir (w := { w with
          queue := q.map fun x => pathOf root x.1, dir := pathOf root x.1, entries := x.2.listing })
        rfl ⟨hw.all, hw.full, hw.short⟩
      rw [map_filter_listing hread, ← map_append] at hqueue'
      rw [map_listing hread] at hw'
      obtain ⟨n, chunks, hrun, hchunks⟩ := ih hq' w' _ hentries' hqueue' hw'
      refine ⟨x.2.listing.length + n + 1, chunks, ?_, ?_⟩
      · rw [Rounds.run_succ_of_ok hround, Rounds.run_add hrun', hrun]
      · rwa [map_append, ← append_assoc]

theorem DirTree.Reached.eq {x y : Place} (hx : t.Reached x) (hy : t.Reached y) (h : x.1 = y.1) :
    x = y := by
  obtain ⟨out, hbelow⟩ := t.exists_below
  have hout : ∀ {z : Place}, Under children ([], t) z → z ∈ out ∧ z.1 ≠ [] := by
    intro z hz
    have hlt : ([] : List EntryName).length < z.1.length := by
      refine hz.rank_lt Prod.fst length fun x y hy => ?_
      obtain ⟨e, -, -, rfl⟩ := exists_entry_of_mem_children hy
      exact length_append
    exact ⟨hbelow.mem_iff.mpr ⟨_, mem_singleton_self _, hz⟩, ne_nil_of_length_pos hlt⟩
  rcases hx with rfl | hx <;> rcases hy with rfl | hy
  · rfl
  · exact absurd h.symm (hout hy).2
  · exact absurd h (hout hx).2
  · exact inj_on_of_nodup_map (t.nodup_of_below hbelow) (hout hx).1 (hout hy).1 h

open Classical in
/-- Every tree has a session that answers for it. -/
noncomputable def WalkSession.ofTree (root : List UInt16) (t : DirTree) : WalkSession root t where
  readdir p :=
    if h : ∃ x, t.Reached x ∧ pathOf root x.1 = p then
      if h.choose.2.node.readable then some h.choose.2.listing else none
    else none
  readdir_pathOf x hx := by
    have hex : ∃ y, t.Reached y ∧ pathOf root y.1 = pathOf root x.1 := ⟨x, hx, rfl⟩
    have hchoose : hex.choose = x :=
      hex.choose_spec.1.eq hx (pathOf_injective root hex.choose_spec.2)
    rw [dif_pos hex, hchoose]

/-- What a walk in chunks must yield. -/
structure WalkYields (root : List UInt16) (t : DirTree) (chunkSize : ℕ)
    (chunks : List (List (List UInt16))) : Prop where
  /-- The descendants come level by level. -/
  breadthFirst : ∃ out, Below children [([], t)] out ∧
    chunks.flatten = out.map fun x => pathOf root x.1
  /-- They are those that are reached through directories that can be listed. -/
  mem_iff : ∀ p, p ∈ chunks.flatten ↔ ∃ x, Under children ([], t) x ∧ p = pathOf root x.1
  nodup : chunks.flatten.Nodup
  full : ∀ c ∈ chunks.dropLast, c.length = chunkSize
  bounded : ∀ c ∈ chunks, c ≠ [] ∧ c.length ≤ chunkSize

/-- **A walk goes through the whole tree.** For every tree and every chunk size, the walk ends and
its chunks are the descendants that are reached through directories that can be listed, each once
and in breadth-first order; all chunks but the last are full and none is empty. -/
theorem walk_yields (root : List UInt16) (t : DirTree) (S : WalkSession root t) {chunkSize : ℕ}
    (hsize : 1 ≤ chunkSize) :
    ∃ n chunks, Rounds.run (walkStep S.readdir chunkSize) n (.start root) = .error chunks ∧
      WalkYields root t chunkSize chunks := by
  obtain ⟨out, hbelow⟩ := t.exists_below
  have hqueued : Queued children Place.isDir [([], t)] out := by
    cases hbelow with
    | next hne h =>
      rw [flatMap_singleton] at h ⊢
      exact .cons (h.queued children_of_not_isDir)
  have hroot : ∀ x ∈ [(([], t) : Place)], t.Reached x := fun x hx => .inl (mem_singleton.mp hx)
  obtain ⟨n, chunks, hrun, hall, hfull, hbounded⟩ := run_queue S hqueued hroot
    (.start root) [] rfl rfl ⟨rfl, by simp [Walk.start], hsize⟩
  rw [nil_append] at hall
  refine ⟨n, chunks, hrun, ⟨out, hbelow, hall⟩, fun p => ?_, ?_, hfull, hbounded⟩
  · rw [hall, mem_map]
    constructor
    · rintro ⟨x, hx, rfl⟩
      obtain ⟨y, hy, hyx⟩ := hbelow.mem_iff.mp hx
      obtain rfl := mem_singleton.mp hy
      exact ⟨x, hyx, rfl⟩
    · rintro ⟨x, hx, rfl⟩
      exact ⟨x, hbelow.mem_iff.mpr ⟨_, mem_singleton_self _, hx⟩, rfl⟩
  · have hpaths := (t.nodup_of_below hbelow).map (pathOf_injective root)
    rw [map_map] at hpaths
    rw [hall]
    exact hpaths

/-- A tree with a directory that cannot be listed. -/
def DirTree.small : DirTree where
  node := .dir true [
    (⟨[97], by decide, by decide⟩, .dir true [
      (⟨[102, 50], by decide, by decide⟩, .leaf .file (by decide)),
      (⟨[98, 97, 100], by decide, by decide⟩, .dir false [])]),
    (⟨[102, 49], by decide, by decide⟩, .leaf .file (by decide))]
  distinct := by
    have hfile : (FsNode.leaf .file (by decide)).Distinct := .mk nodup_nil nofun
    have hempty : (FsNode.dir false []).Distinct := .mk nodup_nil nofun
    refine .mk (by simp [FsNode.entries]) (forall_mem_cons.mpr ⟨?_, ?_⟩)
    · refine .mk (by simp [FsNode.entries]) (forall_mem_cons.mpr ⟨hfile, ?_⟩)
      exact forall_mem_singleton.mpr hempty
    · exact forall_mem_singleton.mpr hfile

theorem walk_yields_small : ∃ n chunks,
    Rounds.run (walkStep (WalkSession.ofTree [47] .small).readdir 2) n (.start [47]) =
      .error chunks ∧ WalkYields [47] .small 2 chunks :=
  walk_yields [47] .small (.ofTree [47] .small) (by decide)

end Tree

end Anyfs
