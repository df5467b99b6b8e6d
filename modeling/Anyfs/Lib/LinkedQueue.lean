import Mathlib.Data.List.Nodup

/-!
# Linked queues

A queue whose nodes are linked by a function `next`, with pointers to the first and the last node.
`LinkedQueue` says which list of nodes such a structure stands for; writes to other nodes leave it
alone.
-/

variable {α : Type*}

/-- Following `next` from a node visits the nodes of a list and ends at `null`. -/
def Links (next : α → α) (null : α) : α → List α → Prop
  | a, [] => a = null
  | a, b :: l => a = b ∧ b ≠ null ∧ Links next null (next b) l

namespace Links

variable {next next' : α → α} {null a r : α} {l : List α}

theorem congr (h : Links next null a l) (hnext : ∀ b ∈ l, next' b = next b) :
    Links next' null a l := by
  induction l generalizing a with
  | nil => exact h
  | cons b l ih =>
    obtain ⟨rfl, hb, hl⟩ := h
    refine ⟨rfl, hb, ih ?_ fun c hc => hnext c (List.mem_cons_of_mem _ hc)⟩
    rwa [hnext a List.mem_cons_self]

theorem concat (h : Links next null a l) (hr : r ≠ null) (hnull : next' r = null)
    (hlast : ∀ b ∈ l.getLast?, next' b = r) (hrest : ∀ b ∈ l.dropLast, next' b = next b) :
    Links next' null (if l = [] then r else a) (l ++ [r]) := by
  induction l generalizing a with
  | nil => exact ⟨rfl, hr, hnull⟩
  | cons b l ih =>
    obtain ⟨rfl, hb, hl⟩ := h
    refine ⟨rfl, hb, ?_⟩
    cases l with
    | nil => exact ⟨hlast a rfl, hr, hnull⟩
    | cons c l =>
      rw [hrest a List.mem_cons_self]
      exact ih hl hlast fun d hd => hrest d (List.mem_cons_of_mem _ hd)

end Links

/-- The nodes between the pointers `head` and `tail`. -/
structure LinkedQueue (next : α → α) (null head tail : α) (l : List α) : Prop where
  links : Links next null head l
  last : tail = l.getLast?.getD null
  nodup : l.Nodup

namespace LinkedQueue

variable {next next' : α → α} {null head tail r : α} {l : List α}

theorem nil : LinkedQueue next null null null [] := ⟨rfl, rfl, List.nodup_nil⟩

section

variable (h : LinkedQueue next null head tail l)
include h

theorem congr (hnext : ∀ b ∈ l, next' b = next b) : LinkedQueue next' null head tail l :=
  ⟨h.links.congr hnext, h.last, h.nodup⟩

theorem ne_null {b : α} (hb : b ∈ l) : b ≠ null := by
  have hlinks := h.links
  clear h
  induction l generalizing head with
  | nil => cases hb
  | cons c l ih =>
    obtain ⟨-, hc, hl⟩ := hlinks
    rcases List.mem_cons.mp hb with rfl | hb
    · exact hc
    · exact ih hb hl

theorem tail_mem (htail : tail ≠ null) : tail ∈ l := by
  cases hl : l.getLast? with
  | none => exact absurd (by rw [h.last, hl, Option.getD_none]) htail
  | some b =>
    have hb : tail = b := by rw [h.last, hl, Option.getD_some]
    exact hb ▸ List.mem_of_getLast? hl

theorem eq_nil (htail : tail = null) : l = [] := by
  by_contra hne
  have hlast : tail = l.getLast hne := by
    rw [h.last, List.getLast?_eq_some_getLast hne, Option.getD_some]
  exact h.ne_null (List.getLast_mem hne) (hlast ▸ htail)

end

theorem push (h : LinkedQueue next null head tail l) (hr : r ≠ null) (hnew : r ∉ l)
    (hnull : next' r = null) (hlast : tail ≠ null → next' tail = r)
    (hrest : ∀ b ∈ l, b ≠ tail → next' b = next b) :
    LinkedQueue next' null (if l = [] then r else head) r (l ++ [r]) := by
  refine ⟨h.links.concat hr hnull (fun b hb => ?_) fun b hb => ?_, by simp, ?_⟩
  · have htail : tail = b := by rw [h.last, Option.mem_def.mp hb, Option.getD_some]
    rw [← htail]
    exact hlast (htail ▸ h.ne_null (List.mem_of_getLast? hb))
  · refine hrest b ((List.dropLast_sublist l).subset hb) fun hbt => ?_
    have hne : l ≠ [] := fun hl => by simp [hl] at hb
    have hsplit := List.dropLast_append_getLast hne
    have hlast' : b = l.getLast hne := by
      rw [hbt, h.last, List.getLast?_eq_some_getLast hne, Option.getD_some]
    have hnodup := h.nodup
    rw [← hsplit, List.nodup_append] at hnodup
    exact hnodup.2.2 b hb (l.getLast hne) List.mem_cons_self hlast'
  · exact List.nodup_append.mpr ⟨h.nodup, List.nodup_singleton r, by grind⟩

theorem pop [DecidableEq α] (h : LinkedQueue next null head tail l) (hhead : head ≠ null) :
    ∃ l', l = head :: l' ∧
      LinkedQueue next null (next head) (if next head = null then null else tail) l' := by
  cases l with
  | nil => exact absurd h.links hhead
  | cons a l =>
    obtain ⟨rfl, -, hlinks⟩ := h.links
    refine ⟨l, rfl, hlinks, ?_, (List.nodup_cons.mp h.nodup).2⟩
    cases l with
    | nil =>
      have hnull : next head = null := hlinks
      rw [if_pos hnull, List.getLast?_nil, Option.getD_none]
    | cons b l =>
      obtain ⟨hnext, hb, -⟩ := hlinks
      rw [if_neg (hnext ▸ hb), h.last, List.getLast?_cons_cons]

end LinkedQueue
