import Mathlib.Tactic.Common

/-!
# Who holds a resource

Resources `ρ` come into being, are handed from one holder in `η` to another, and go away. A holder
has room for one resource, and every resource that is not gone has exactly one holder.
-/

/-- What the holders have, which resources there were, and which of them are gone. -/
@[ext]
structure Custody (η ρ : Type*) where
  held : η → Option ρ
  born : ρ → Prop
  gone : ρ → Prop

namespace Custody

open Function

variable {η ρ : Type*}

/-- Every resource that is there has exactly one holder, and nothing else is held. -/
structure Owned (c : Custody η ρ) : Prop where
  unique : ∀ h h' r, c.held h = some r → c.held h' = some r → h = h'
  live : ∀ h r, c.held h = some r → c.born r ∧ ¬ c.gone r
  kept : ∀ r, c.born r → ¬ c.gone r → ∃ h, c.held h = some r

def empty : Custody η ρ := ⟨fun _ => none, fun _ => False, fun _ => False⟩

variable [DecidableEq η] [DecidableEq ρ]

variable (c : Custody η ρ)

def acquire (h : η) (r : ρ) : Custody η ρ :=
  ⟨Function.update c.held h (some r), fun x => c.born x ∨ x = r, c.gone⟩

def move (h h' : η) : Custody η ρ :=
  ⟨Function.update (Function.update c.held h' (c.held h)) h none, c.born, c.gone⟩

def release (h : η) : Custody η ρ :=
  ⟨Function.update c.held h none, c.born, fun x => c.gone x ∨ c.held h = some x⟩

def vanish (r : ρ) : Custody η ρ :=
  ⟨fun h => if c.held h = some r then none else c.held h, c.born, fun x => c.gone x ∨ x = r⟩

variable {c : Custody η ρ} {h h' : η} {r : ρ}

omit [DecidableEq η] [DecidableEq ρ] in
theorem owned_empty : (empty : Custody η ρ).Owned := ⟨nofun, nofun, nofun⟩

omit [DecidableEq ρ] in
theorem Owned.acquire (hc : c.Owned) (hh : c.held h = none) (hborn : ¬ c.born r)
    (hgone : ¬ c.gone r) : (c.acquire h r).Owned := by
  obtain ⟨hunique, hlive, hkept⟩ := hc
  refine ⟨fun x y r' hx hy => ?_, fun x r' hx => ?_, fun r' hr' hg => ?_⟩
  · simp only [Custody.acquire, update_apply] at hx hy
    grind
  · simp only [Custody.acquire, update_apply] at hx ⊢
    grind
  · rcases hr' with hr' | rfl
    · obtain ⟨x, hx⟩ := hkept r' hr' hg
      have hne : x ≠ h := fun heq => by simp [← heq, hx] at hh
      exact ⟨x, by simp [Custody.acquire, hne, hx]⟩
    · exact ⟨h, by simp [Custody.acquire]⟩

omit [DecidableEq ρ] in
theorem Owned.move (hc : c.Owned) (hne : h ≠ h') (hfree : c.held h' = none) :
    (c.move h h').Owned := by
  obtain ⟨hunique, hlive, hkept⟩ := hc
  refine ⟨fun x y r' hx hy => ?_, fun x r' hx => ?_, fun r' hr' hg => ?_⟩
  · simp only [Custody.move, update_apply] at hx hy
    grind
  · simp only [Custody.move, update_apply] at hx ⊢
    grind
  · obtain ⟨x, hx⟩ := hkept r' hr' hg
    by_cases hxh : x = h
    · subst hxh
      exact ⟨h', by simp [Custody.move, hne.symm, hx]⟩
    · have hxh' : x ≠ h' := fun heq => by simp [← heq, hx] at hfree
      exact ⟨x, by simp [Custody.move, hxh, hxh', hx]⟩

omit [DecidableEq ρ] in
theorem Owned.release (hc : c.Owned) (h : η) : (c.release h).Owned := by
  obtain ⟨hunique, hlive, hkept⟩ := hc
  refine ⟨fun x y r' hx hy => ?_, fun x r' hx => ?_, fun r' hr' hg => ?_⟩
  · simp only [Custody.release, update_apply] at hx hy
    grind
  · simp only [Custody.release, update_apply] at hx ⊢
    grind
  · obtain ⟨hg, hh⟩ := not_or.mp hg
    obtain ⟨x, hx⟩ := hkept r' hr' hg
    have hne : x ≠ h := fun heq => hh (heq ▸ hx)
    exact ⟨x, by simp [Custody.release, hne, hx]⟩

omit [DecidableEq η] in
theorem Owned.vanish (hc : c.Owned) (r : ρ) : (c.vanish r).Owned := by
  obtain ⟨hunique, hlive, hkept⟩ := hc
  refine ⟨fun x y r' hx hy => ?_, fun x r' hx => ?_, fun r' hr' hg => ?_⟩
  · simp only [Custody.vanish] at hx hy
    grind
  · simp only [Custody.vanish] at hx ⊢
    grind
  · obtain ⟨hg, hne⟩ := not_or.mp hg
    obtain ⟨x, hx⟩ := hkept r' hr' hg
    exact ⟨x, by simp [Custody.vanish, hx, hne]⟩

end Custody
