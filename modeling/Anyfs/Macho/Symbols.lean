import Anyfs.Lib.CString

/-!
# The symbols of a converted library

`write_asm` defines a symbol for every local function and object, under its name behind an
underscore; where that name is taken, it counts up from `~2`. Each search ends (`exists_rename`).
-/

namespace Anyfs.Macho

open List CString

/-- The search for a name that is not in use, from `sym` and the number `n` on. -/
def rename (used : List Bytes) (name : Bytes) : ℕ → ℕ → Bytes → Option Bytes
  | 0, _, _ => none
  | fuel + 1, n, sym =>
    if sym ∈ used then rename used name fuel (n + 1) (95 :: name ++ 126 :: decimal (n + 1))
    else some sym

def localNames : List Bytes → List Bytes → Option (List Bytes)
  | _, [] => some []
  | used, name :: rest =>
    (rename used name (used.length + 1) 1 (95 :: name)).bind fun sym =>
      (localNames (sym :: used) rest).map (sym :: ·)

theorem rename_notMem {used : List Bytes} {name : Bytes} {fuel n : ℕ} {sym sym' : Bytes}
    (h : rename used name fuel n sym = some sym') : sym' ∉ used := by
  induction fuel generalizing n sym with
  | zero => cases h
  | succ fuel ih =>
    rw [rename] at h
    split_ifs at h with hmem
    · exact ih h
    · cases h
      exact hmem

theorem mem_of_rename {used : List Bytes} {name : Bytes} {fuel n : ℕ} {sym : Bytes}
    (h : rename used name (fuel + 1) n sym = none) :
    sym ∈ used ∧ ∀ k < fuel, 95 :: name ++ 126 :: decimal (n + 1 + k) ∈ used := by
  induction fuel generalizing n sym with
  | zero =>
    rw [rename] at h
    split_ifs at h with hmem
    exact ⟨hmem, fun k hk => absurd hk (Nat.not_lt_zero k)⟩
  | succ fuel ih =>
    rw [rename] at h
    split_ifs at h with hmem
    obtain ⟨hnext, hrest⟩ := ih h
    refine ⟨hmem, fun k hk => ?_⟩
    cases k with
    | zero => exact hnext
    | succ k =>
      rw [Nat.add_comm k 1, ← Nat.add_assoc]
      exact hrest k (Nat.lt_of_succ_lt_succ hk)

theorem exists_rename (used : List Bytes) (name : Bytes) :
    ∃ sym, rename used name (used.length + 1) 1 (95 :: name) = some sym := by
  cases hrename : rename used name (used.length + 1) 1 (95 :: name) with
  | some sym => exact ⟨sym, rfl⟩
  | none =>
    obtain ⟨hfirst, hrest⟩ := mem_of_rename hrename
    let tried := (95 :: name) ::
      (range used.length).map fun k => 95 :: name ++ 126 :: decimal (1 + 1 + k)
    have hnodup : tried.Nodup := by
      refine nodup_cons.mpr ⟨fun hmem => ?_, ?_⟩
      · obtain ⟨k, -, hk⟩ := mem_map.mp hmem
        have hlen := congrArg length hk
        rw [length_append, length_cons, length_cons] at hlen
        omega
      · refine List.Nodup.map (fun k l hkl => ?_) nodup_range
        have hdec := (cons.inj (append_cancel_left hkl)).2
        exact Nat.add_left_cancel (decimal_injective hdec)
    have hsub : tried ⊆ used := by
      intro sym hsym
      rcases mem_cons.mp hsym with rfl | hsym
      · exact hfirst
      · obtain ⟨k, hk, rfl⟩ := mem_map.mp hsym
        exact hrest k (mem_range.mp hk)
    have hle := (subperm_of_subset hnodup hsub).length_le
    rw [length_cons, length_map, length_range] at hle
    omega

theorem exists_localNames (used names : List Bytes) :
    ∃ syms, localNames used names = some syms ∧ syms.length = names.length ∧ syms.Nodup ∧
      ∀ sym ∈ syms, sym ∉ used := by
  induction names generalizing used with
  | nil => exact ⟨[], rfl, rfl, nodup_nil, fun _ h => absurd h not_mem_nil⟩
  | cons name names ih =>
    obtain ⟨sym, hsym⟩ := exists_rename used name
    obtain ⟨syms, hsyms, hlen, hnodup, hfresh⟩ := ih (sym :: used)
    refine ⟨sym :: syms, ?_, congrArg Nat.succ hlen, ?_, ?_⟩
    · rw [localNames, hsym, Option.bind_some, hsyms, Option.map_some]
    · exact nodup_cons.mpr ⟨fun hmem => hfresh sym hmem mem_cons_self, hnodup⟩
    · intro sym' hmem
      rcases mem_cons.mp hmem with rfl | hmem
      · exact rename_notMem hsym
      · exact fun hused => hfresh sym' hmem (mem_cons_of_mem _ hused)

/-- **Names of local symbols.** Whatever the symbols are called, the search for a name ends for each
of them, and the names are pairwise different and none is that of an export. -/
theorem localNames_fresh (exports : List (Bytes × Bytes)) (names : List Bytes) :
    ∃ syms, localNames (exports.map Prod.snd) names = some syms ∧ syms.length = names.length ∧
      syms.Nodup ∧ ∀ sym ∈ syms, sym ∉ exports.map Prod.snd :=
  exists_localNames _ names

end Anyfs.Macho
