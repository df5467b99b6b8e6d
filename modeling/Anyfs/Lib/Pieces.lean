import Mathlib.Data.List.Basic

/-!
# Transfers in pieces

A call may move fewer elements than it was asked for, as `read` and `write` do. `loop` asks for the
rest until nothing is left, a call moves nothing, or a call fails. What it moves in the end does not
depend on the sizes of the pieces (`loop_spec`).
-/

namespace Pieces

open List

/-- How a transfer ended: what was moved, the error of the last call, and the surroundings. -/
structure Outcome (α ε σ : Type*) where
  moved : List α
  error : Option ε
  state : σ

/-- A call in its surroundings: `done` elements were moved before it and `size` are left. -/
abbrev Call (α ε σ : Type*) := (s : σ) → (done size : ℕ) → Except ε (List α) × σ

variable {α ε σ : Type*}

/-- Calls until `size` elements are moved; at least one call is made. -/
def loop (call : Call α ε σ) (s : σ) (size : ℕ) (moved : List α) : Outcome α ε σ :=
  match call s moved.length size with
  | (.error e, s) => ⟨moved, some e, s⟩
  | (.ok piece, s) =>
    if 0 < piece.length ∧ piece.length < size then
      loop call s (size - piece.length) (moved ++ piece)
    else ⟨moved ++ piece, none, s⟩
termination_by size

/-- A call fails or moves the next elements of `whole`, up to `n`. -/
def next (whole : List α) (count : Except ε ℕ) (done size : ℕ) : Except ε (List α) :=
  count.map fun n => (whole.drop done).take (min size n)

/-- What a call that never stalls is good for: one element more than the count. -/
def onward (counts : ℕ → Except ε ℕ) (done : ℕ) : Except ε ℕ := (counts done).map (· + 1)

/-- Calls that read `whole` and move nothing only behind its end; the counts are for the numbers of
elements moved before. -/
def reader (whole : List α) (counts : ℕ → Except ε ℕ) : Call α ε Unit := fun _ done size =>
  (next whole (onward counts done) done size, ())

variable {call : Call α ε σ} {s : σ} {size : ℕ} {moved whole : List α}

theorem onward_ne_zero (counts : ℕ → Except ε ℕ) (done : ℕ) : onward counts done ≠ .ok 0 := by
  rw [onward]
  cases counts done with
  | error e => nofun
  | ok n => exact fun h => Nat.succ_ne_zero n (Except.ok.inj h)

variable {counts : ℕ → Except ε ℕ}

theorem onward_eq_error {done : ℕ} {e : ε}
    (h : onward counts done = .error e) : counts done = .error e := by
  rw [onward] at h
  cases hcount : counts done with
  | error e' =>
    rw [hcount] at h
    exact congrArg Except.error (Except.error.inj h)
  | ok n =>
    rw [hcount] at h
    cases h

theorem fst_reader (whole : List α) (counts : ℕ → Except ε ℕ) (s : Unit) (done size : ℕ) :
    (reader whole counts s done size).1 = next whole (onward counts done) done size := rfl

theorem next_eq_ok {count : Except ε ℕ} {done : ℕ} {p : List α}
    (h : next whole count done size = .ok p) :
    ∃ n, count = .ok n ∧ p = (whole.drop done).take (min size n) := by
  cases count with
  | error e => cases h
  | ok n => exact ⟨n, rfl, (Except.ok.inj h).symm⟩

theorem next_eq_error {count : Except ε ℕ} {done : ℕ} {e : ε}
    (h : next whole count done size = .error e) : count = .error e := by
  cases count with
  | error e' => exact congrArg Except.error (Except.error.inj h)
  | ok n => cases h

/-- The last call of a transfer that stopped early: it moved nothing or failed. -/
inductive Stopped (count : Except ε ℕ) : Option ε → Prop
  | stalled : count = .ok 0 → Stopped count none
  | failed {e : ε} : count = .error e → Stopped count (some e)

theorem loop_append (h : ∀ s done size, (call s done size).1 = next whole (counts done) done size)
    (s : σ) (size : ℕ) (moved : List α) :
    ∃ n, (loop call s size moved).moved = moved ++ (whole.drop moved.length).take n ∧
      ((loop call s size moved).error = none ∧ n = size ∨
        (0 < size → n < size) ∧ (loop call s size moved).moved.length = moved.length + n ∧
          Stopped (counts (moved.length + n)) (loop call s size moved).error) := by
  fun_induction loop call s size moved with
  | case1 s size moved e s' hcall =>
    refine ⟨0, (append_nil _).symm, .inr ⟨id, rfl, .failed ?_⟩⟩
    exact next_eq_error ((h s moved.length size).symm.trans (congrArg Prod.fst hcall))
  | case2 s size moved piece s' hcall hmore ih =>
    obtain ⟨n, hmoved, hend⟩ := ih
    obtain ⟨k, -, hpiece⟩ :=
      next_eq_ok ((h s moved.length size).symm.trans (congrArg Prod.fst hcall))
    have hself : (whole.drop moved.length).take piece.length = piece := by
      rw [hpiece, take_eq_take_iff, length_take]
      omega
    refine ⟨piece.length + n, ?_, hend.imp (fun hall => ⟨hall.1, by omega⟩) fun hstop => ?_⟩
    · rw [hmoved, length_append, ← drop_drop, append_assoc, take_add, hself]
    · rw [length_append, Nat.add_assoc] at hstop
      exact ⟨fun _ => by omega, hstop.2⟩
  | case3 s size moved piece s' hcall hmore =>
    obtain ⟨k, hcount, hpiece⟩ :=
      next_eq_ok ((h s moved.length size).symm.trans (congrArg Prod.fst hcall))
    rcases Nat.eq_zero_or_pos k with rfl | hk
    · -- the call moved nothing
      obtain rfl : piece = [] := by rw [hpiece, Nat.min_zero, take_zero]
      exact ⟨0, rfl, .inr ⟨id, by rw [append_nil]; rfl, .stalled hcount⟩⟩
    · refine ⟨size, ?_, .inl ⟨rfl, rfl⟩⟩
      -- a piece that is too short is empty, since nothing is left
      have hlen := congrArg length hpiece
      rw [length_take] at hlen
      refine congrArg (moved ++ ·) (hpiece.trans ?_)
      rw [take_eq_take_iff]
      omega

/-- The calls move the elements of `whole`: all that was asked for, or those before the call that
stalled or failed. -/
theorem loop_spec (h : ∀ s done size, (call s done size).1 = next whole (counts done) done size)
    (s : σ) (size : ℕ) :
    ∃ n, (loop call s size []).moved = whole.take n ∧
      ((loop call s size []).error = none ∧ n = size ∨
        (0 < size → n < size) ∧ n ≤ whole.length ∧
          Stopped (counts n) (loop call s size []).error) := by
  obtain ⟨n, hmoved, hend⟩ := loop_append h s size []
  refine ⟨n, hmoved, hend.imp_right fun ⟨hlt, hlen, hstop⟩ => ⟨hlt, ?_, ?_⟩⟩
  · rw [hmoved, nil_append, length_take, length_nil, drop_zero] at hlen
    omega
  · rwa [length_nil, Nat.zero_add] at hstop

end Pieces
