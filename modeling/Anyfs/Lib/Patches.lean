import Anyfs.Lib.Bytes
import Mathlib.Data.List.Pairwise

/-!
# Patches

Writes into a byte store. Writes to different places can be made in any order (`patch_perm`).
-/

namespace ByteStore

variable (st : ℕ → UInt8)

theorem slice_add (off n m : ℕ) :
    slice st off (n + m) = slice st off n ++ slice st (off + n) m := by
  simp only [slice, List.range_add, List.map_append, List.map_map, Function.comp_def, Nat.add_assoc]

theorem slice_congr {st st' : ℕ → UInt8} {off n : ℕ}
    (h : ∀ a, off ≤ a → a < off + n → st a = st' a) : slice st off n = slice st' off n := by
  refine List.map_congr_left fun i hi => h _ (Nat.le_add_right _ _) ?_
  exact Nat.add_lt_add_left (List.mem_range.mp hi) _

theorem overwrite_congr {st st' : ℕ → UInt8} {a : ℕ} (h : st a = st' a) (off : ℕ) (data : Bytes) :
    overwrite st off data a = overwrite st' off data a := by
  simp only [overwrite, h]

theorem overwrite_comm {off off' : ℕ} {data data' : Bytes}
    (h : off + data.length ≤ off' ∨ off' + data'.length ≤ off) :
    overwrite (overwrite st off data) off' data' =
      overwrite (overwrite st off' data') off data := by
  funext a
  by_cases ha : a < off ∨ off + data.length ≤ a
  · rw [overwrite_of_notMem _ ha]
    exact overwrite_congr (overwrite_of_notMem st ha) off' data'
  · rw [overwrite_of_notMem (overwrite st off data) (by omega)]
    exact (overwrite_congr (overwrite_of_notMem st (by omega)) off data).symm

def patch (ps : List (ℕ × Bytes)) : ℕ → UInt8 :=
  ps.foldl (fun st p => overwrite st p.1 p.2) st

theorem patch_of_notMem {ps : List (ℕ × Bytes)} {a : ℕ}
    (h : ∀ p ∈ ps, a < p.1 ∨ p.1 + p.2.length ≤ a) : patch st ps a = st a := by
  induction ps generalizing st with
  | nil => rfl
  | cons p ps ih =>
    exact (ih _ fun q hq => h q (List.mem_cons_of_mem _ hq)).trans
      (overwrite_of_notMem st (h p List.mem_cons_self))

theorem patch_congr {st st' : ℕ → UInt8} {a : ℕ} (h : st a = st' a) (ps : List (ℕ × Bytes)) :
    patch st ps a = patch st' ps a := by
  induction ps generalizing st st' with
  | nil => exact h
  | cons p ps ih => exact ih (overwrite_congr h _ _)

def Exchange (p q : ℕ × Bytes) : Prop :=
  ∀ st, overwrite (overwrite st p.1 p.2) q.1 q.2 = overwrite (overwrite st q.1 q.2) p.1 p.2

instance : Std.Symm Exchange := ⟨fun _ _ h st => (h st).symm⟩

theorem patch_perm {ps qs : List (ℕ × Bytes)} (hperm : ps.Perm qs)
    (hpair : ps.Pairwise fun p q => p.1 + p.2.length ≤ q.1) (st : ℕ → UInt8) :
    patch st ps = patch st qs := by
  have hexchange : ps.Pairwise Exchange := hpair.imp fun hpq st => overwrite_comm st (.inl hpq)
  refine hperm.foldl_eq' (fun p hp q hq => ?_) st
  exact hexchange.forall_of_forall (fun _ _ _ => rfl) hp hq

end ByteStore
