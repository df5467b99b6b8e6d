import Anyfs.Backend.Disks
import Anyfs.Session.Close

/-!
# Opening the disks of a server

`anyfs_share_open_disks` opens one session after another and closes those it has if one cannot be
opened. Each session it has opened holds a slot of its own on top of the table there was before
(`Holding`), and closing them empties these slots again (`RolledBack`), as LKL never gives an id
twice (`FreshIds`).
-/

namespace Anyfs

open Function List CString

/-- What the outside answers while an image is opened: the backend, LKL, two allocations and the
lookup of the disk's name, and what discovery finds on the disk. -/
structure OpenAnswers where
  backendOpens : Bool
  added : Bool
  sessionAlloc : Bool
  partsAlloc : Bool
  named : Bool
  disk : Disk
  cache : ℕ → Bytes

/-- Everything that is asked succeeds. -/
def OpenAnswers.Succeeds (a : OpenAnswers) : Prop :=
  a.backendOpens = true ∧ a.added = true ∧ a.sessionAlloc = true ∧ a.partsAlloc = true ∧
    a.named = true

def anyfsSessionOpen (cfg : BackendConfig) (image : Bytes) (flags : UInt32) (a : OpenAnswers)
    (t : DiskTable) : Option Session × DiskTable :=
  match anyfsDiskAdd cfg image flags a.backendOpens
      (if a.added then some a.disk.diskId else none) t with
  | (none, t) => (none, t)
  | (some id, t) =>
    if a.sessionAlloc = false then (none, (anyfsDiskRemove id t).2)
    else if a.partsAlloc = false then (none, (anyfsDiskRemove id t).2)
    else if a.named = false then (none, (anyfsDiskRemove id t).2)
    else (some (.opened a.disk a.cache), t)

/-- The disks of a share and what opening them changes. -/
structure ShareDisks where
  out : ℕ → Option Session
  table : DiskTable
  kernel : Kernel

def ShareDisks.close (env : KernelEnv) (st : ShareDisks) (j : ℕ) : ShareDisks :=
  match st.out j with
  | none => { st with out := update st.out j none }
  | some s =>
    ⟨update st.out j none, (anyfsDiskRemove s.disk.diskId st.table).2,
      anyfsSessionClose env s st.kernel⟩

def imageClean (image : Bytes) : Bytes :=
  if 63 ∈ image then (image.takeWhile (· != 63)).take 511 else image

/-- The loop of `anyfs_share_open_disks`, from entry `i` on. -/
def openDisksLoop (env : KernelEnv) (cfg : BackendConfig) (flags : UInt32) :
    List (Bytes × OpenAnswers) → ℕ → ShareDisks → ℤ × ShareDisks
  | [], _, st => (0, st)
  | (image, a) :: images, i, st =>
    match anyfsSessionOpen cfg (imageClean image) flags a st.table with
    | (some s, t) =>
      openDisksLoop env cfg flags images (i + 1)
        { st with out := update st.out i (some s), table := t }
    | (none, t) => (-1, (range i).foldl (ShareDisks.close env) { st with table := t })

def anyfsShareOpenDisks (env : KernelEnv) (cfg : BackendConfig) (flags : UInt32)
    (images : List (Bytes × OpenAnswers)) (st : ShareDisks) : ℤ × ShareDisks :=
  openDisksLoop env cfg flags images 0 st

/-! ### What is to be shown -/

def openedIn (log : List BackendEvent) : List LklDisk :=
  log.filterMap fun
    | .opened d => some d
    | .closed _ => none

def closedIn (log : List BackendEvent) : List LklDisk :=
  log.filterMap fun
    | .opened _ => none
    | .closed d => some d

/-- LKL gives no id twice: the ids it gives are not those of the disks in the table, and they are
distinct. -/
structure FreshIds (slots : Fin 16 → Option DiskSlot) (answers : List OpenAnswers) : Prop where
  table : ∀ a ∈ answers, a.added = true → ∀ i s, slots i = some s → s.diskId ≠ a.disk.diskId
  nodup : ((answers.filter (·.added)).map (·.disk.diskId)).Nodup

/-- The first `n` entries hold sessions, each with a slot of its own that was free before; `held`
are these slots. Everything else is as in `base`. -/
structure Holding (base : ShareDisks) (n : ℕ) (held : List (Fin 16 × DiskSlot)) (st : ShareDisks) :
    Prop where
  length : held.length = n
  slots : st.table.slots = overlay base.table.slots held
  free : ∀ h ∈ held, base.table.slots h.1 = none
  nodup : (held.map Prod.fst).Nodup
  ids : (held.map (·.2.diskId)).Nodup
  fresh : ∀ h ∈ held, ∀ i s, base.table.slots i = some s → s.diskId ≠ h.2.diskId
  sessions : ∀ j h, held[j]? = some h → ∃ s, st.out j = some s ∧ s.disk.diskId = h.2.diskId ∧
    s.mountedTargets = []
  rest : ∀ j, n ≤ j → st.out j = base.out j
  kernel : st.kernel = base.kernel
  log : st.table.log = base.table.log ++ (held.map (·.2.disk)).map .opened
  disks : (held.map (·.2.disk)).Nodup
  handles : ∀ h ∈ held, h.2.disk.handle < st.table.log.length

/-- The images failed at entry `n`. Everything is as in `base`, except that the entries that were
filled are `NULL`; what was opened was closed. -/
structure RolledBack (base : ShareDisks) (n : ℕ) (st : ShareDisks) : Prop where
  slots : st.table.slots = base.table.slots
  entries : ∀ j, st.out j = if j < n then none else base.out j
  kernel : st.kernel = base.kernel
  backends : ∃ log, st.table.log = base.table.log ++ log ∧ (openedIn log).Nodup ∧
    (closedIn log).Perm (openedIn log) ∧ ((openedIn log).length = n ∨ (openedIn log).length = n + 1)

/-! ### One image -/

section Image

variable {cfg : BackendConfig} {image : Bytes} {flags : UInt32} {a : OpenAnswers} {t : DiskTable}
  {env : KernelEnv}

theorem mountedTargets_opened (d : Disk) (cache : ℕ → Bytes) :
    (Session.opened d cache).mountedTargets = [] := by
  rw [eq_nil_iff_forall_not_mem]
  intro target h
  have hstate := (mem_mountedTargets.mp h).1
  cases target with
  | whole => cases hstate
  | slot i => cases hstate

theorem anyfsSessionClose_of_nil {s : Session} {k : Kernel} (h : s.mountedTargets = []) :
    anyfsSessionClose env s k = k := by
  rw [anyfsSessionClose_eq, h]
  rfl

theorem anyfsDiskRemove_added {i : Fin 16} {id : ℕ} {d : LklDisk} (hi : t.slots i = none)
    (hfresh : ∀ j s, t.slots j = some s → s.diskId ≠ id) :
    (anyfsDiskRemove id ⟨update t.slots i (some ⟨id, d⟩), t.log ++ [.opened d]⟩).2 =
      { t with log := t.log ++ [.opened d, .closed d] } := by
  have hremove := anyfsDiskRemove_overlay t.slots (i, ⟨id, d⟩) []
    (t := ⟨update t.slots i (some ⟨id, d⟩), t.log ++ [.opened d]⟩)
    (overlay_cons t.slots (i, ⟨id, d⟩) []).symm hi (by simp) hfresh
  rw [hremove, overlay_nil]
  simp

theorem anyfsSessionOpen_cases (cfg : BackendConfig) (image : Bytes) (flags : UInt32)
    (hfresh : a.added = true → ∀ j s, t.slots j = some s → s.diskId ≠ a.disk.diskId) :
    let d : LklDisk := ⟨cfg.select image flags, t.log.length⟩
    (∃ log, anyfsSessionOpen cfg image flags a t = (none, { t with log := t.log ++ log }) ∧
      (log = [] ∨ log = [.opened d, .closed d]) ∧ (a.Succeeds → t.freeSlot = none)) ∨
    ∃ i, t.slots i = none ∧ a.Succeeds ∧ anyfsSessionOpen cfg image flags a t =
      (some (.opened a.disk a.cache),
        ⟨update t.slots i (some ⟨a.disk.diskId, d⟩), t.log ++ [.opened d]⟩) := by
  intro d
  rw [anyfsSessionOpen]
  rcases anyfsDiskAdd_cases cfg image flags a.backendOpens
      (if a.added then some a.disk.diskId else none) t with
      ⟨h, hfull⟩ | ⟨h, hid⟩ | ⟨i, id, hi, hopens, hid, h⟩
  · exact .inl ⟨[], by rw [h, append_nil], .inl rfl, fun ha => hfull ha.1⟩
  · refine .inl ⟨_, by rw [h], .inr rfl, fun ha => ?_⟩
    rw [if_pos ha.2.1] at hid
    cases hid
  · obtain ⟨hadded, hid⟩ := Option.ite_none_right_eq_some.mp hid
    cases hid
    have hremove := anyfsDiskRemove_added (d := d) hi (hfresh hadded)
    rw [h]
    dsimp only
    rw [hremove]
    split_ifs with hsession hparts hnamed
    · exact .inl ⟨_, rfl, .inr rfl, fun ha => absurd (hsession.symm.trans ha.2.2.1) nofun⟩
    · exact .inl ⟨_, rfl, .inr rfl, fun ha => absurd (hparts.symm.trans ha.2.2.2.1) nofun⟩
    · exact .inl ⟨_, rfl, .inr rfl, fun ha => absurd (hnamed.symm.trans ha.2.2.2.2) nofun⟩
    · simp only [Bool.not_eq_false] at hsession hparts hnamed
      exact .inr ⟨i, hi, ⟨hopens, hadded, hsession, hparts, hnamed⟩, rfl⟩

end Image

/-! ### The free slots -/

section Free

variable {base st : ShareDisks} {n : ℕ} {held : List (Fin 16 × DiskSlot)}

theorem Holding.length_le (h : Holding base n held st) : n ≤ base.table.freeCount := by
  rw [← h.length, ← length_map Prod.fst, ← toFinset_card_of_nodup h.nodup]
  refine Finset.card_le_card fun i hi => ?_
  obtain ⟨g, hg, rfl⟩ := mem_map.mp (mem_toFinset.mp hi)
  exact Finset.mem_filter.mpr ⟨Finset.mem_univ _, h.free g hg⟩

theorem Holding.freeCount_le (h : Holding base n held st) (hfull : st.table.freeSlot = none) :
    base.table.freeCount ≤ n := by
  rw [← h.length, ← length_map Prod.fst]
  refine (Finset.card_le_card fun i hi => ?_).trans (toFinset_card_le (held.map Prod.fst))
  obtain ⟨s, hs⟩ := Option.ne_none_iff_exists'.mp
    fun hnone => List.find?_eq_none.mp hfull i (mem_finRange i)
    (Option.isNone_iff_eq_none.mpr hnone)
  rw [h.slots] at hs
  rcases mem_or_of_overlay hs with hmem | hslot
  · exact mem_toFinset.mpr (mem_map_of_mem hmem)
  · rw [(Finset.mem_filter.mp hi).2] at hslot
    cases hslot

end Free

/-! ### Taking everything back -/

section Rollback

variable {env : KernelEnv} {slots : Fin 16 → Option DiskSlot} {base : ShareDisks}

theorem foldl_close (held : List (Fin 16 × DiskSlot)) (k : ℕ) (st : ShareDisks)
    (hslots : st.table.slots = overlay slots held) (hfree : ∀ h ∈ held, slots h.1 = none)
    (hnodup : (held.map Prod.fst).Nodup) (hids : (held.map (·.2.diskId)).Nodup)
    (hfresh : ∀ h ∈ held, ∀ i s, slots i = some s → s.diskId ≠ h.2.diskId)
    (hsessions : ∀ j h, held[j]? = some h → ∃ s, st.out (k + j) = some s ∧
      s.disk.diskId = h.2.diskId ∧ s.mountedTargets = []) :
    (range' k held.length).foldl (ShareDisks.close env) st =
      ⟨fun j => if k ≤ j ∧ j < k + held.length then none else st.out j,
        ⟨slots, st.table.log ++ (held.map (·.2.disk)).map .closed⟩, st.kernel⟩ := by
  induction held generalizing k st with
  | nil =>
    obtain ⟨out, ⟨slots', log⟩, kernel⟩ := st
    obtain rfl : slots' = slots := hslots
    have hout : (fun j => if k ≤ j ∧ j < k then none else out j) = out := by
      funext j
      exact if_neg (by omega)
    simp [hout]
  | cons h held ih =>
    obtain ⟨hnot, hnodup⟩ := nodup_cons.mp hnodup
    obtain ⟨hnotid, hids⟩ := nodup_cons.mp hids
    obtain ⟨s, hout, hid, hmounted⟩ := hsessions 0 h rfl
    have hunique : ∀ j s', overlay slots held j = some s' → s'.diskId ≠ h.2.diskId := by
      intro j s' hs'
      rcases mem_or_of_overlay hs' with hmem | hslot
      · exact fun heq => hnotid (mem_map.mpr ⟨_, hmem, heq⟩)
      · exact hfresh h mem_cons_self j s' hslot
    have hclose : st.close env k = ⟨update st.out k none,
        ⟨overlay slots held, st.table.log ++ [.closed h.2.disk]⟩, st.kernel⟩ := by
      rw [ShareDisks.close, show st.out k = some s from hout]
      dsimp only
      rw [hid, anyfsDiskRemove_overlay slots h held hslots (hfree h mem_cons_self) hnot hunique,
        anyfsSessionClose_of_nil hmounted]
    have hrest : ∀ j g, held[j]? = some g → ∃ s, (st.close env k).out (k + 1 + j) = some s ∧
        s.disk.diskId = g.2.diskId ∧ s.mountedTargets = [] := by
      intro j g hg
      obtain ⟨s', hs'⟩ := hsessions (j + 1) g hg
      refine ⟨s', ?_⟩
      rw [hclose]
      dsimp only
      rw [update_of_ne (by omega), Nat.add_right_comm, Nat.add_assoc]
      exact hs'
    rw [length_cons, range'_succ, foldl_cons,
      ih (k + 1) (st.close env k) (by rw [hclose]) (fun g hg => hfree g (mem_cons_of_mem h hg))
        hnodup hids (fun g hg => hfresh g (mem_cons_of_mem h hg)) hrest, hclose]
    congr 1
    · funext j
      simp only [update_apply]
      split_ifs <;> first | rfl | omega
    · simp

theorem nodup_map_concat {α β : Type*} {f : α → β} {l : List α} {x : α} (hl : (l.map f).Nodup)
    (hx : ∀ y ∈ l, f y ≠ f x) : ((l ++ [x]).map f).Nodup := by
  rw [map_append, nodup_append_comm]
  refine nodup_cons.mpr ⟨fun hmem => ?_, hl⟩
  obtain ⟨y, hy, heq⟩ := mem_map.mp hmem
  exact hx y hy heq

theorem openedIn_append (l l' : List BackendEvent) :
    openedIn (l ++ l') = openedIn l ++ openedIn l' ∧ closedIn (l ++ l') = closedIn l ++
      closedIn l' :=
  ⟨filterMap_append, filterMap_append⟩

theorem openedIn_map (ds : List LklDisk) : openedIn (ds.map .opened) = ds ∧
    closedIn (ds.map .opened) = [] ∧ openedIn (ds.map .closed) = [] ∧
    closedIn (ds.map .closed) = ds := by
  simp [openedIn, closedIn, filterMap_map]

theorem Holding.rollback {n : ℕ} {held : List (Fin 16 × DiskSlot)} {st : ShareDisks}
    {log : List BackendEvent} {ops : BackendOps} (h : Holding base n held st)
    (hlog : log = [] ∨
      log = [.opened ⟨ops, st.table.log.length⟩, .closed ⟨ops, st.table.log.length⟩]) :
    RolledBack base n ((range n).foldl (ShareDisks.close env)
      { st with table := { st.table with log := st.table.log ++ log } }) := by
  obtain rfl := h.length
  rw [range_eq_range', foldl_close held 0
    { st with table := { st.table with log := st.table.log ++ log } } h.slots h.free h.nodup h.ids
    h.fresh fun j g hg => by rw [Nat.zero_add]; exact h.sessions j g hg]
  refine ⟨rfl, fun j => ?_, h.kernel, _, by rw [h.log, append_assoc, append_assoc], ?_⟩
  · dsimp only
    split_ifs with hj hj' hj'
    · rfl
    · omega
    · omega
    · exact h.rest j (by omega)
  · obtain ⟨hoo, hco, hoc, hcc⟩ := openedIn_map (held.map (·.2.disk))
    rw [(openedIn_append _ _).1, (openedIn_append _ _).2, (openedIn_append _ _).1,
      (openedIn_append _ _).2, hoo, hco, hoc, hcc, append_nil, nil_append]
    rcases hlog with rfl | rfl
    · exact ⟨by simpa [openedIn] using h.disks,
        by simp [openedIn, closedIn], .inl (by simp [openedIn])⟩
    · refine ⟨nodup_append_comm.mpr (nodup_cons.mpr ⟨fun hd => ?_, h.disks⟩),
        perm_append_comm, .inr (by simp [openedIn])⟩
      obtain ⟨g, hg, heq⟩ := mem_map.mp hd
      exact Nat.ne_of_lt (h.handles g hg) (congrArg LklDisk.handle heq)

theorem Holding.push {n : ℕ} {held : List (Fin 16 × DiskSlot)} {st : ShareDisks} {a : OpenAnswers}
    {i : Fin 16} (h : Holding base n held st) (ops : BackendOps) (hi : st.table.slots i = none)
    (hbase : ∀ j s, base.table.slots j = some s → s.diskId ≠ a.disk.diskId)
    (hheld : ∀ g ∈ held, g.2.diskId ≠ a.disk.diskId) :
    Holding base (n + 1) (held ++ [(i, ⟨a.disk.diskId, ⟨ops, st.table.log.length⟩⟩)])
      { st with
        out := update st.out n (some (.opened a.disk a.cache))
        table := ⟨update st.table.slots i (some ⟨a.disk.diskId, ⟨ops, st.table.log.length⟩⟩),
          st.table.log ++ [.opened ⟨ops, st.table.log.length⟩]⟩ } := by
  obtain rfl := h.length
  obtain ⟨hnot, hfree⟩ : i ∉ held.map Prod.fst ∧ base.table.slots i = none := by
    rw [h.slots] at hi
    exact overlay_eq_none hi
  refine ⟨length_append, ?_, ?_, ?_, ?_, ?_, fun j g hg => ?_, fun j hj => ?_, h.kernel, ?_, ?_, ?_⟩
  · rw [h.slots, overlay_concat hnot]
  · exact forall_mem_append.mpr ⟨h.free, forall_mem_singleton.mpr hfree⟩
  · exact nodup_map_concat h.nodup fun g hg heq => hnot (mem_map.mpr ⟨g, hg, heq⟩)
  · exact nodup_map_concat h.ids hheld
  · exact forall_mem_append.mpr ⟨h.fresh, forall_mem_singleton.mpr hbase⟩
  · rcases Nat.lt_trichotomy j held.length with hj | rfl | hj
    · rw [List.getElem?_append_left hj] at hg
      obtain ⟨s, hs⟩ := h.sessions j g hg
      exact ⟨s, (update_of_ne (Nat.ne_of_lt hj) _ _).trans hs.1, hs.2⟩
    · rw [List.getElem?_concat_length] at hg
      cases hg
      exact ⟨_, update_self .., rfl, mountedTargets_opened ..⟩
    · rw [List.getElem?_eq_none (by simpa using hj)] at hg
      cases hg
  · exact (update_of_ne (by omega) _ _).trans (h.rest j (by omega))
  · simp [h.log]
  · exact nodup_map_concat h.disks fun g hg heq =>
      Nat.ne_of_lt (h.handles g hg) (congrArg LklDisk.handle heq)
  · refine forall_mem_append.mpr ⟨fun g hg => ?_, forall_mem_singleton.mpr ?_⟩
    · exact Nat.lt_of_lt_of_le (h.handles g hg) (by simp)
    · simp

end Rollback

/-! ### The loop -/

section Loop

variable {env : KernelEnv} {cfg : BackendConfig} {flags : UInt32} {base : ShareDisks}

theorem FreshIds.of_cons {slots : Fin 16 → Option DiskSlot} {a : OpenAnswers}
    {as : List OpenAnswers} (h : FreshIds slots (a :: as)) (hadded : a.added = true) :
    FreshIds slots as ∧ ∀ b ∈ as, b.added = true → a.disk.diskId ≠ b.disk.diskId := by
  have hnodup := h.nodup
  rw [filter_cons_of_pos hadded, map_cons, nodup_cons] at hnodup
  refine ⟨⟨fun b hb => h.table b (mem_cons_of_mem _ hb), hnodup.2⟩, fun b hb hba heq => ?_⟩
  exact hnodup.1 (heq ▸ mem_map_of_mem (mem_filter.mpr ⟨hb, hba⟩))

theorem openDisksLoop_spec (images : List (Bytes × OpenAnswers)) {n : ℕ} {st : ShareDisks}
    {held : List (Fin 16 × DiskSlot)} (h : Holding base n held st)
    (hids : FreshIds base.table.slots (images.map Prod.snd))
    (hheld : ∀ g ∈ held, ∀ x ∈ images, x.2.added = true → g.2.diskId ≠ x.2.disk.diskId) :
    let r := openDisksLoop env cfg flags images n st
    (r.1 = 0 ∧ (∀ x ∈ images, x.2.Succeeds) ∧
        ∃ held, Holding base (n + images.length) held r.2) ∨
      r.1 = -1 ∧ ∃ i x, images[i]? = some x ∧ (∀ y ∈ images.take i, y.2.Succeeds) ∧
        (x.2.Succeeds → base.table.freeCount ≤ n + i) ∧ RolledBack base (n + i) r.2 := by
  induction images generalizing n st held with
  | nil => exact .inl ⟨rfl, nofun, held, h⟩
  | cons x images ih =>
    obtain ⟨image, a⟩ := x
    have hbase : a.added = true → ∀ j s, base.table.slots j = some s → s.diskId ≠ a.disk.diskId :=
      fun hadded => hids.table a mem_cons_self hadded
    have hfresh : a.added = true → ∀ j s, st.table.slots j = some s → s.diskId ≠ a.disk.diskId := by
      intro hadded j s hs
      rw [h.slots] at hs
      rcases mem_or_of_overlay hs with hmem | hs
      · exact hheld _ hmem (image, a) mem_cons_self hadded
      · exact hbase hadded j s hs
    dsimp only [openDisksLoop]
    rcases anyfsSessionOpen_cases cfg (imageClean image) flags hfresh with
      ⟨log, hopen, hlog, hfull⟩ | ⟨i, hi, hsucceeds, hopen⟩
    · rw [hopen]
      exact .inr ⟨rfl, 0, (image, a), rfl, nofun, fun ha => h.freeCount_le (hfull ha),
        h.rollback hlog⟩
    · have hadded := hsucceeds.2.1
      rw [hopen]
      dsimp only
      obtain ⟨hrest, hne⟩ := FreshIds.of_cons hids hadded
      have hpush := h.push (cfg.select (imageClean image) flags) hi (hbase hadded)
        fun g hg => hheld g hg (image, a) mem_cons_self hadded
      rcases ih hpush hrest (forall_mem_append.mpr
        ⟨fun g hg x hx => hheld g hg x (mem_cons_of_mem _ hx),
          forall_mem_singleton.mpr fun x hx => hne x.2 (mem_map_of_mem hx)⟩) with
        ⟨hr, hall, held', hheld'⟩ | ⟨hr, i, x, hx, hall, hfull, hback⟩
      · refine .inl ⟨hr, forall_mem_cons.mpr ⟨hsucceeds, hall⟩, held', ?_⟩
        rwa [length_cons, Nat.add_comm images.length, ← Nat.add_assoc]
      · refine .inr ⟨hr, i + 1, x, hx, forall_mem_cons.mpr ⟨hsucceeds, hall⟩, ?_⟩
        rw [Nat.add_comm i, ← Nat.add_assoc]
        exact ⟨hfull, hback⟩

end Loop

/-- Opening the disks of a server is all or nothing, if LKL gives no id twice. Either every image
was opened, the slots were enough and every entry holds a session with a slot of its own. Or one
image cannot be opened, or comes when every slot is taken; then the call returns -1 and gives
everything back, wherever it has failed. -/
theorem anyfsShareOpenDisks_allOrNothing (env : KernelEnv) (cfg : BackendConfig) (flags : UInt32)
    (images : List (Bytes × OpenAnswers)) (st : ShareDisks)
    (hids : FreshIds st.table.slots (images.map Prod.snd)) :
    let r := anyfsShareOpenDisks env cfg flags images st
    (r.1 = 0 ∧ (∀ x ∈ images, x.2.Succeeds) ∧ images.length ≤ st.table.freeCount ∧
        ∃ held, Holding st images.length held r.2) ∨
      r.1 = -1 ∧ ∃ i x, images[i]? = some x ∧ (∀ y ∈ images.take i, y.2.Succeeds) ∧
        (x.2.Succeeds → st.table.freeCount ≤ i) ∧ RolledBack st i r.2 := by
  intro r
  have hst : Holding st 0 [] st :=
    ⟨rfl, rfl, nofun, nodup_nil, nodup_nil, nofun, nofun, fun _ _ => rfl, rfl,
      (append_nil _).symm, nodup_nil, nofun⟩
  have hspec := @openDisksLoop_spec env cfg flags _ images _ _ _ hst hids nofun
  simp only [Nat.zero_add] at hspec
  exact hspec.imp_left fun ⟨hr, hall, held, hheld⟩ => ⟨hr, hall, hheld.length_le, held, hheld⟩

def unnamedSecond : List (Bytes × OpenAnswers) :=
  [(ascii "a", ⟨true, true, true, true, true, .single, fun _ => []⟩),
    (ascii "b", ⟨true, true, true, true, false,
      { Disk.single with diskId := 1, diskId_lt := by decide }, fun _ => []⟩)]

/-- The first disk is given back when the second cannot be opened. -/
theorem anyfsShareOpenDisks_unnamedSecond :
    let st : ShareDisks := ⟨fun _ => none, ⟨fun _ => none, []⟩, .fresh⟩
    let r := anyfsShareOpenDisks .accepting ⟨true, false, none, fun _ => false⟩ 0 unnamedSecond st
    r.1 = -1 ∧ RolledBack st 1 r.2 := by
  intro st r
  have hids : FreshIds st.table.slots (unnamedSecond.map Prod.snd) := ⟨nofun, by decide⟩
  rcases anyfsShareOpenDisks_allOrNothing .accepting ⟨true, false, none, fun _ => false⟩ 0
    unnamedSecond st hids with ⟨-, hall, -⟩ | ⟨hr, i, x, hx, -, hfull, hback⟩
  · obtain ⟨-, -, -, -, hnamed⟩ := (forall_mem_cons.mp (forall_mem_cons.mp hall).2).1
    cases hnamed
  · obtain _ | _ | i := i
    · cases hx
      exact absurd (hfull ⟨rfl, rfl, rfl, rfl, rfl⟩) (by decide)
    · exact ⟨hr, hback⟩
    · cases hx

end Anyfs
