import Anyfs.Lib.Machine
import Mathlib.Order.Nat

/-!
# Bounded queues

A queue that holds at most `cap` elements and remembers everything that was ever pushed and popped:
the stream that went in is the stream that came out followed by what is still queued (`Fifo.Ok`),
and every operation keeps that (`Ok.step`).
-/

/-- A queue with what went in and what came out. -/
structure Fifo (α : Type*) where
  queue : List α
  pushed : List α
  popped : List α

namespace Fifo

variable {α : Type*}

/-- The operations of a queue. -/
inductive Act (α : Type*) where
  | push (xs : List α)
  | pop (n : ℕ)

def empty : Fifo α := ⟨[], [], []⟩

/-- One operation on a queue for `cap` elements; what does not fit or is not there is refused. -/
def step (cap : ℕ) (q : Fifo α) : Act α → Option (Fifo α)
  | .push xs =>
    if q.queue.length + xs.length ≤ cap then some ⟨q.queue ++ xs, q.pushed ++ xs, q.popped⟩
    else none
  | .pop n =>
    if n ≤ q.queue.length then some ⟨q.queue.drop n, q.pushed, q.popped ++ q.queue.take n⟩
    else none

def machine (α : Type*) (cap : ℕ) : Machine (Fifo α) (Act α) := .ofFun (step cap)

/-- What holds of a queue for `cap` elements. -/
structure Ok (cap : ℕ) (q : Fifo α) : Prop where
  bounded : q.queue.length ≤ cap
  stream : q.pushed = q.popped ++ q.queue

variable {cap : ℕ} {q : Fifo α}

theorem Ok.step {q' : Fifo α} {l : Act α} (hok : q.Ok cap) (h : q.step cap l = some q') :
    q'.Ok cap := by
  cases l with
  | push xs =>
    obtain ⟨hfits, h⟩ := Option.ite_none_right_eq_some.mp h
    cases h
    refine ⟨by simpa using hfits, ?_⟩
    dsimp only
    rw [hok.stream, List.append_assoc]
  | pop n =>
    obtain ⟨-, h⟩ := Option.ite_none_right_eq_some.mp h
    cases h
    have hle : (q.queue.drop n).length ≤ q.queue.length := (List.drop_sublist ..).length_le
    refine ⟨hle.trans hok.bounded, ?_⟩
    dsimp only
    rw [hok.stream, List.append_assoc, List.take_append_drop]

end Fifo
