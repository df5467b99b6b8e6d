import Mathlib.Data.List.Nodup

/-!
# Maps that remember the order of insertion

A finite map whose keys are listed in the order in which they were inserted. Setting a key that is
there keeps its place; a key that was erased and set again goes to the end.
-/

/-- A map from `κ` to `β` with an order on its keys. -/
structure OrderedMap (κ β : Type*) where
  entries : List (κ × β)
  nodup : (entries.map Prod.fst).Nodup

namespace OrderedMap

open List Option

variable {κ β : Type*} [DecidableEq κ]

def empty : OrderedMap κ β := ⟨[], List.nodup_nil⟩

variable (m : OrderedMap κ β)

def get (k : κ) : Option β := (m.entries.find? fun e => e.1 = k).map Prod.snd

def erase (k : κ) : OrderedMap κ β where
  entries := m.entries.filter fun e => e.1 ≠ k
  nodup := m.nodup.sublist (List.filter_sublist.map _)

def set (k : κ) (v : β) : OrderedMap κ β :=
  if h : k ∈ m.entries.map Prod.fst then
    ⟨m.entries.map fun e => if e.1 = k then (k, v) else e, by
      have hkeys : (m.entries.map fun e => if e.1 = k then (k, v) else e).map Prod.fst =
          m.entries.map Prod.fst := by
        rw [List.map_map]
        refine List.map_congr_left fun e _ => ?_
        simp only [Function.comp]
        split_ifs with he
        · exact he.symm
        · rfl
      rw [hkeys]
      exact m.nodup⟩
  else
    ⟨m.entries ++ [(k, v)], by
      rw [List.map_append]
      exact List.nodup_append.mpr ⟨m.nodup, List.nodup_singleton k, fun a ha b hb => by
        rw [List.mem_singleton.mp hb]
        rintro rfl
        exact h ha⟩⟩

def size : ℕ := m.entries.length

def oldest : Option κ := m.entries.head?.map Prod.fst

variable {m : OrderedMap κ β} {k : κ} {v : β} {e : κ × β}

theorem mem_of_get (h : m.get k = some v) : (k, v) ∈ m.entries := by
  obtain ⟨⟨k', v'⟩, hfind, rfl⟩ := map_eq_some_iff.mp h
  obtain rfl : k' = k := by simpa using List.find?_some hfind
  exact mem_of_find?_eq_some hfind

theorem mem_of_mem_erase (h : e ∈ (m.erase k).entries) : e ∈ m.entries := mem_of_mem_filter h

theorem mem_of_mem_set (h : e ∈ (m.set k v).entries) : e = (k, v) ∨ e ∈ m.entries := by
  rw [set] at h
  split_ifs at h with hk
  · obtain ⟨e', he', rfl⟩ := mem_map.mp h
    split_ifs
    · exact .inl rfl
    · exact .inr he'
  · rcases mem_append.mp h with h | h
    · exact .inr h
    · exact .inl (mem_singleton.mp h)

theorem size_set_le : (m.set k v).size ≤ m.size + 1 := by
  rw [set, size, size]
  split_ifs <;> simp

theorem size_erase_lt (h : k ∈ m.entries.map Prod.fst) : (m.erase k).size < m.size := by
  obtain ⟨e, he, rfl⟩ := mem_map.mp h
  exact length_filter_lt_length_iff_exists.mpr ⟨e, he, by simp⟩

theorem mem_keys_of_get (h : m.get k = some v) : k ∈ m.entries.map Prod.fst :=
  mem_map_of_mem (mem_of_get h)

omit [DecidableEq κ] in
theorem mem_keys_of_oldest (h : m.oldest = some k) : k ∈ m.entries.map Prod.fst := by
  obtain ⟨e, he, rfl⟩ := map_eq_some_iff.mp h
  exact mem_map_of_mem (mem_of_head? he)

omit [DecidableEq κ] in
theorem oldest_eq_none : m.oldest = none ↔ m.size = 0 := by
  rw [oldest, size, map_eq_none_iff, List.head?_eq_none_iff, length_eq_zero_iff]

theorem get_eq_none : m.get k = none ↔ k ∉ m.entries.map Prod.fst := by
  rw [get, map_eq_none_iff, List.find?_eq_none]
  constructor
  · intro h hk
    obtain ⟨e, he, rfl⟩ := mem_map.mp hk
    exact h e he (by simp)
  · intro h e he hek
    exact h (mem_map.mpr ⟨e, he, by simpa using hek⟩)

@[simp]
theorem get_set_self (m : OrderedMap κ β) (k : κ) (v : β) : (m.set k v).get k = some v := by
  rw [set]
  split_ifs with hk
  · obtain ⟨e, he, rfl⟩ := mem_map.mp hk
    have hsome : ((m.entries.map fun e' => if e'.1 = e.1 then (e.1, v) else e').find?
        fun e' => e'.1 = e.1).isSome := by
      rw [List.find?_isSome]
      exact ⟨(e.1, v), mem_map.mpr ⟨e, he, if_pos rfl⟩, by simp⟩
    obtain ⟨e', he'⟩ := isSome_iff_exists.mp hsome
    have hkey : e'.1 = e.1 := by simpa using List.find?_some he'
    obtain ⟨e₀, -, rfl⟩ := mem_map.mp (mem_of_find?_eq_some he')
    rw [get, he', map_some]
    split_ifs at hkey ⊢ with h
    · rfl
    · exact absurd hkey h
  · have hnone : m.entries.find? (fun e => e.1 = k) = none := by
      rw [List.find?_eq_none]
      intro e he
      simp only [decide_eq_true_eq]
      rintro rfl
      exact hk (mem_map_of_mem he)
    rw [get, List.find?_append, hnone]
    simp

theorem get_erase_of_ne {k' : κ} (h : k ≠ k') : (m.erase k').get k = m.get k := by
  rw [get, get, erase, List.find?_filter]
  congr 2
  funext e
  by_cases he : e.1 = k
  · simp [he, h]
  · simp [he]

theorem oldest_set_ne (h : m.get k = none) (hsize : 1 < (m.set k v).size) :
    (m.set k v).oldest ≠ some k := by
  have hk := get_eq_none.mp h
  rw [set, dif_neg hk] at hsize ⊢
  rw [size, length_append, length_singleton] at hsize
  rw [oldest, List.head?_append]
  obtain ⟨e, entries, heq⟩ := exists_cons_of_length_pos (show 0 < m.entries.length by omega)
  rw [heq] at hk ⊢
  simp only [List.head?_cons, Option.some_or, map_some, ne_eq, some.injEq]
  rintro rfl
  exact hk (by simp)

end OrderedMap
