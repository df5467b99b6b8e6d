import Anyfs.Lib.CString

/-!
# The table of disks

`anyfs_disk_add` opens a backend and notes it in a free slot of `g_disks`; `anyfs_disk_remove` finds
the slot by the id of the disk and closes the backend.
-/

namespace Anyfs

open Function List CString

/-- `struct anyfs_backend_ops`. -/
inductive BackendOps where
  | raw
  | qemu
  | gio
  deriving DecidableEq

/-- `struct lkl_disk`, opened by a backend. -/
structure LklDisk where
  ops : BackendOps
  handle : ℕ
  deriving DecidableEq

/-- A backend is opened, and closed. -/
inductive BackendEvent where
  | opened (d : LklDisk)
  | closed (d : LklDisk)
  deriving DecidableEq

/-- An entry of `g_disks`. -/
structure DiskSlot where
  diskId : ℕ
  disk : LklDisk
  deriving DecidableEq

/-- `g_disks`, with the calls of the backends so far. -/
structure DiskTable where
  slots : Fin 16 → Option DiskSlot
  log : List BackendEvent

/-- The backends of a build, what `ANYFS_BACKEND` says, and which devices QEMU does not open. -/
structure BackendConfig where
  hasQemu : Bool
  hasGio : Bool
  env : Option Bytes
  rawDevice : Bytes → Bool

def BackendConfig.select (cfg : BackendConfig) (image : Bytes) (flags : UInt32) : BackendOps :=
  if cfg.hasQemu ∧ flags &&& 8 ≠ 0 then .qemu
  else if cfg.hasGio ∧ flags &&& 4 ≠ 0 then .gio
  else if flags &&& 2 ≠ 0 then .raw
  else if cfg.env = some (ascii "raw") then .raw
  else if cfg.hasQemu ∧ cfg.env = some (ascii "qemu") then .qemu
  else if cfg.hasQemu ∧ cfg.rawDevice image then .raw
  else if cfg.hasQemu then .qemu
  else .raw

namespace DiskTable

def freeSlot (t : DiskTable) : Option (Fin 16) :=
  (finRange 16).find? fun i => (t.slots i).isNone

/-- How many slots of the table are free. -/
def freeCount (t : DiskTable) : ℕ := (Finset.univ.filter fun i => t.slots i = none).card

def slotOf (t : DiskTable) (diskId : ℕ) : Option (Fin 16) :=
  (finRange 16).find? fun i => (t.slots i).any (·.diskId = diskId)

def note (t : DiskTable) (e : BackendEvent) : DiskTable := { t with log := t.log ++ [e] }

end DiskTable

/-- `anyfs_disk_add`: whether the backend opens the image, and what `lkl_disk_add` returns. -/
def anyfsDiskAdd (cfg : BackendConfig) (image : Bytes) (flags : UInt32) (opens : Bool)
    (diskId : Option ℕ) (t : DiskTable) : Option ℕ × DiskTable :=
  match t.freeSlot with
  | none => (none, t)
  | some i =>
    if opens then
      let d : LklDisk := ⟨cfg.select image flags, t.log.length⟩
      let t := t.note (.opened d)
      match diskId with
      | none => (none, t.note (.closed d))
      | some id => (some id, { t with slots := update t.slots i (some ⟨id, d⟩) })
    else (none, t)

def anyfsDiskRemove (diskId : ℕ) (t : DiskTable) : ℤ × DiskTable :=
  match t.slotOf diskId with
  | none => (-1, t)
  | some i =>
    match t.slots i with
    | some s => (0, { t.note (.closed s.disk) with slots := update t.slots i none })
    | none => (-1, t)

/-! ### Disks on top of a table -/

/-- The table with `held` on top. -/
def overlay (slots : Fin 16 → Option DiskSlot) (held : List (Fin 16 × DiskSlot)) :
    Fin 16 → Option DiskSlot := fun i => (held.lookup i).or (slots i)

section Overlay

variable {slots : Fin 16 → Option DiskSlot} {held : List (Fin 16 × DiskSlot)}
    {h : Fin 16 × DiskSlot}
  {i : Fin 16} {t : DiskTable} {cfg : BackendConfig} {image : Bytes} {flags : UInt32} {opens : Bool}
  {diskId : Option ℕ}

theorem overlay_cons (slots : Fin 16 → Option DiskSlot) (h : Fin 16 × DiskSlot)
    (held : List (Fin 16 × DiskSlot)) :
    overlay slots (h :: held) = update (overlay slots held) h.1 (some h.2) := by
  funext i
  rw [overlay, lookup_cons, update_apply]
  by_cases hi : i = h.1
  · simp [hi]
  · rw [beq_eq_false_iff_ne.mpr hi, if_neg hi]
    rfl

theorem overlay_nil (slots : Fin 16 → Option DiskSlot) : overlay slots [] = slots := rfl

theorem overlay_concat (hheld : h.1 ∉ held.map Prod.fst) :
    overlay slots (held ++ [h]) = update (overlay slots held) h.1 (some h.2) := by
  induction held with
  | nil => exact overlay_cons slots h []
  | cons g held ih =>
    rw [map_cons, mem_cons, not_or] at hheld
    rw [cons_append, overlay_cons, ih hheld.2, overlay_cons, update_comm hheld.1]

theorem lookup_eq_none (hi : i ∉ held.map Prod.fst) : held.lookup i = none := by
  induction held with
  | nil => rfl
  | cons h held ih =>
    rw [map_cons, mem_cons, not_or] at hi
    rw [lookup_cons, beq_eq_false_iff_ne.mpr hi.1]
    exact ih hi.2

theorem mem_or_of_overlay {s : DiskSlot} (hs : overlay slots held i = some s) :
    (i, s) ∈ held ∨ slots i = some s := by
  induction held with
  | nil => exact .inr hs
  | cons h held ih =>
    rw [overlay_cons, update_apply] at hs
    split_ifs at hs with hi
    · cases hs
      exact .inl (hi ▸ mem_cons_self)
    · exact (ih hs).imp_left (mem_cons_of_mem h)

theorem overlay_eq_none (h : overlay slots held i = none) :
    i ∉ held.map Prod.fst ∧ slots i = none := by
  induction held with
  | nil => exact ⟨not_mem_nil, h⟩
  | cons g held ih =>
    rw [overlay_cons, update_apply] at h
    split_ifs at h with hi
    rw [map_cons, mem_cons, not_or]
    exact ⟨⟨hi, (ih h).1⟩, (ih h).2⟩

theorem update_overlay_cons (hslot : slots h.1 = none) (hheld : h.1 ∉ held.map Prod.fst) :
    update (overlay slots (h :: held)) h.1 none = overlay slots held := by
  rw [overlay_cons, update_idem, update_eq_self_iff, overlay, lookup_eq_none hheld, hslot]
  rfl

theorem isNone_of_freeSlot (hfree : t.freeSlot = some i) : t.slots i = none := by
  simpa using List.find?_some hfree

theorem anyfsDiskAdd_cases (cfg : BackendConfig) (image : Bytes) (flags : UInt32) (opens : Bool)
    (diskId : Option ℕ) (t : DiskTable) :
    let d : LklDisk := ⟨cfg.select image flags, t.log.length⟩
    (anyfsDiskAdd cfg image flags opens diskId t = (none, t) ∧
        (opens = true → t.freeSlot = none)) ∨
      (anyfsDiskAdd cfg image flags opens diskId t =
        (none, { t with log := t.log ++ [.opened d, .closed d] }) ∧ diskId = none) ∨
      ∃ i id, t.slots i = none ∧ opens = true ∧ diskId = some id ∧
        anyfsDiskAdd cfg image flags opens diskId t =
          (some id, ⟨update t.slots i (some ⟨id, d⟩), t.log ++ [.opened d]⟩) := by
  intro d
  cases hfree : t.freeSlot with
  | none => exact .inl ⟨by rw [anyfsDiskAdd, hfree], fun _ => rfl⟩
  | some i =>
    cases opens with
    | false => exact .inl ⟨by rw [anyfsDiskAdd, hfree]; rfl, nofun⟩
    | true =>
      refine .inr ?_
      cases diskId with
      | none =>
        refine .inl ⟨?_, rfl⟩
        rw [anyfsDiskAdd, hfree]
        simp [DiskTable.note, d]
      | some id =>
        refine .inr ⟨i, id, isNone_of_freeSlot hfree, rfl, rfl, ?_⟩
        rw [anyfsDiskAdd, hfree]
        rfl

theorem slotOf_eq {s : DiskSlot} (hi : t.slots i = some s)
    (hunique : ∀ j s', t.slots j = some s' → s'.diskId = s.diskId → j = i) :
    t.slotOf s.diskId = some i := by
  rw [DiskTable.slotOf]
  cases hfind : (finRange 16).find? fun j => (t.slots j).any (·.diskId = s.diskId) with
  | none =>
    have := List.find?_eq_none.mp hfind i (mem_finRange i)
    simp [hi] at this
  | some j =>
    have hj := List.find?_some hfind
    obtain ⟨s', hs', hid⟩ := (Option.any_eq_true ..).mp hj
    rw [hunique j s' hs' (by simpa using hid)]

theorem anyfsDiskRemove_overlay (slots : Fin 16 → Option DiskSlot) (h : Fin 16 × DiskSlot)
    (held : List (Fin 16 × DiskSlot)) (ht : t.slots = overlay slots (h :: held))
    (hslot : slots h.1 = none) (hheld : h.1 ∉ held.map Prod.fst)
    (hunique : ∀ j s, overlay slots held j = some s → s.diskId ≠ h.2.diskId) :
    anyfsDiskRemove h.2.diskId t = (0, ⟨overlay slots held, t.log ++ [.closed h.2.disk]⟩) := by
  have hi : t.slots h.1 = some h.2 := by rw [ht, overlay_cons, update_self]
  have hfind : t.slotOf h.2.diskId = some h.1 := by
    refine slotOf_eq hi fun j s hs hid => ?_
    by_contra hne
    rw [ht, overlay_cons, update_of_ne hne] at hs
    exact hunique j s hs hid
  rw [anyfsDiskRemove, hfind]
  dsimp only
  rw [hi, ht, ← update_overlay_cons hslot hheld]
  rfl

end Overlay

end Anyfs
