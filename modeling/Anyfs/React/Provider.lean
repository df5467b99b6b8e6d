import Anyfs.Lib.Custody
import Anyfs.Lib.Machine

/-!
# Who owns a session

Four references of `AnyfsProvider` can hold a session: `current`, `prewarmed`, the boot in
`prewarming`, and the asynchronous attach that claimed it. Everything else would leak a worker.

A session is the same thing here as the boot that makes it, and an attach is known by the generation
it was started in.
-/

namespace Anyfs

open Custody Function
open Option hiding or_assoc

/-- Where the boot of a session stands. -/
inductive Boot where
  | unstarted | pending | booted | failed
  deriving DecidableEq

/-- Where an attach stands. -/
inductive Attach (σ : Type*) where
  | unstarted
  | waiting (src : σ) (boot : ℕ)
  | attaching (src : σ) (boot : ℕ)
  | settled
  deriving DecidableEq

open Attach

def Attach.boot {σ : Type*} : Attach σ → Option ℕ
  | .waiting _ b => some b
  | .attaching _ b => some b
  | .unstarted => none
  | .settled => none

def Attach.src {σ : Type*} : Attach σ → Option σ
  | .waiting src _ => some src
  | .attaching src _ => some src
  | .unstarted => none
  | .settled => none

/-- The references of an `AnyfsProvider`, and the sessions. `parking` are the boots whose `then` in
`startPark` has not run, `closing` those that will be closed as soon as they are there. -/
structure Provider (σ : Type*) where
  mounted : Bool
  current : Option ℕ
  prewarmed : Option ℕ
  prewarming : Option ℕ
  desired : Option σ
  inflightSrc : Option σ
  gen : ℕ
  attach : ℕ → Attach σ
  boots : ℕ → Boot
  nextBoot : ℕ
  parking : ℕ → Bool
  closing : ℕ → Bool
  closed : ℕ → Bool
  fatal : ℕ → Bool

open Provider

namespace Provider

variable {σ : Type*} [DecidableEq σ]

def init : Provider σ where
  mounted := true
  current := none
  prewarmed := none
  prewarming := none
  desired := none
  inflightSrc := none
  gen := 0
  attach _ := .unstarted
  boots _ := .unstarted
  nextBoot := 0
  parking _ := false
  closing _ := false
  closed _ := false
  fatal _ := false

variable (s : Provider σ)

/-- `session.close()`. -/
def close (b : ℕ) : Provider σ := { s with closed := update s.closed b true }

/-- `stale.close()`, if there is a session. -/
def closeStale (stale : Option ℕ) : Provider σ :=
  { s with closed := stale.elim s.closed fun b => update s.closed b true }

/-- `bootSession`: the new boot. -/
def bootSession : Provider σ :=
  { s with boots := update s.boots s.nextBoot .pending, nextBoot := s.nextBoot + 1 }

def startPark : Provider σ :=
  if s.prewarmed.isSome ∨ s.prewarming.isSome then s
  else
    { s.bootSession with
      prewarming := some s.nextBoot
      parking := update s.parking s.nextBoot true }

/-- What the `then` of `startPark` does with a boot that has settled. -/
def parked (b : ℕ) : Provider σ :=
  if s.prewarming = some b then
    { s with prewarming := none, prewarmed := if s.boots b = .booted then some b else s.prewarmed }
  else s

/-- `consumeSession`, on behalf of the attach of generation `a`. -/
def consumeSession (a : ℕ) (src : σ) : Provider σ :=
  match s.prewarmed, s.prewarming with
  | some b, _ =>
    { s with prewarmed := none, attach := update s.attach a (.waiting src b) }
  | none, some b =>
    { s with prewarming := none, attach := update s.attach a (.waiting src b) }
  | none, none =>
    { s.bootSession with attach := update s.attach a (.waiting src s.nextBoot) }

/-- A new generation begins, and what was attached is closed. -/
def supersede (src : Option σ) : Provider σ :=
  closeStale
    { s with
      gen := s.gen + 1
      desired := src
      inflightSrc := src
      current := none }
    s.current

/-- The effect on `source`. -/
def sourceEffect : Option σ → Provider σ
  | none => s.supersede none
  | some src =>
    if s.desired = some src ∧ (s.current.isSome ∨ s.inflightSrc = some src) then s
    else (s.supersede (some src)).consumeSession (s.gen + 1) src

/-- The effect of a change of `doPrewarm`. -/
def prewarmEffect (doPrewarm : Bool) : Provider σ :=
  if doPrewarm = false then s
  else if s.prewarmed.isSome ∨ s.prewarming.isSome ∨ s.current.isSome then s
  else s.startPark

def settle (a : ℕ) : Provider σ :=
  { s with attach := update s.attach a .settled }

/-- `inflightSrc` no longer names a source. -/
def clearInflight (src : σ) : Provider σ :=
  { s with inflightSrc := if s.inflightSrc = some src then none else s.inflightSrc }

def onFatal (b : ℕ) : Provider σ :=
  if s.current = some b then { s with current := none }.close b else s

/-- An attach that was not superseded succeeded. A session that died meanwhile calls the listener
at once. -/
def commit (a : ℕ) (src : σ) (b : ℕ) : Provider σ :=
  let s₁ := { (s.settle a).clearInflight src with current := some b, prewarmed := none }
  if s₁.fatal b then s₁.onFatal b else s₁

def unmount : Provider σ :=
  closeStale
    { s with
      mounted := false
      gen := s.gen + 1
      current := none
      prewarmed := none
      desired := none
      prewarming := none
      closing := s.prewarming.elim s.closing fun b => update s.closing b true }
    (s.current.or s.prewarmed)

end Provider

/-- A step: an effect of the component, an answer of the engine, or a promise job. -/
inductive ProviderAct (σ : Type*) where
  | source (src : Option σ)
  | prewarm (doPrewarm : Bool)
  | unmount
  | bootDone (b : ℕ) (ok : Bool)
  | park (b : ℕ)
  | closeBooted (b : ℕ)
  | resume (a : ℕ)
  | attachDone (a : ℕ) (ok : Bool)
  | fatal (b : ℕ)
  deriving DecidableEq

section Step

variable {σ : Type*} [DecidableEq σ] (allowed : σ → Bool)

/-- The steps of a provider; `allowed` says which sources the backend supports. -/
def providerStep (s : Provider σ) : ProviderAct σ → Option (Provider σ)
  | .source src => if s.mounted then some (s.sourceEffect src) else none
  | .prewarm doPrewarm => if s.mounted then some (s.prewarmEffect doPrewarm) else none
  | .unmount => if s.mounted then some s.unmount else none
  | .bootDone b ok =>
    if s.boots b = .pending then
      some { s with boots := update s.boots b (if ok then .booted else .failed) }
    else none
  | .park b =>
    if s.parking b ∧ (s.boots b = .booted ∨ s.boots b = .failed) then
      some { s.parked b with parking := update s.parking b false }
    else none
  | .closeBooted b =>
    if s.closing b ∧ (s.boots b = .booted ∨ s.boots b = .failed) then
      let s₁ := { s with closing := update s.closing b false }
      some (if s.boots b = .booted then s₁.close b else s₁)
    else none
  | .resume a =>
    match s.attach a with
    | .waiting src b =>
      match s.boots b with
      | .booted =>
        if s.gen ≠ a then some ((s.settle a).close b)
        else if allowed src then
          some { s with attach := update s.attach a (.attaching src b) }
        else some (((s.settle a).clearInflight src).close b)
      | .failed => some ((s.settle a).clearInflight src)
      | _ => none
    | _ => none
  | .attachDone a ok =>
    match s.attach a with
    | .attaching src b =>
      if ok then
        if s.gen ≠ a then some ((s.settle a).close b) else some (s.commit a src b)
      else some (((s.settle a).clearInflight src).close b)
    | _ => none
  | .fatal b =>
    if s.boots b = .booted ∧ s.fatal b = false then
      some ({ s with fatal := update s.fatal b true }.onFatal b)
    else none

def providerMachine : Machine (Provider σ) (ProviderAct σ) := .ofFun (providerStep allowed)

end Step

/-! ### Holders -/

/-- Who may hold a session. -/
inductive Holder where
  | current
  | prewarmed
  | prewarming
  | attach (a : ℕ)
  deriving DecidableEq

namespace Provider

variable {σ : Type*} (s : Provider σ)

/-- What a holder refers to. -/
def ref : Holder → Option ℕ
  | .current => s.current
  | .prewarmed => s.prewarmed
  | .prewarming => s.prewarming
  | .attach a => (s.attach a).boot

def Closed (b : ℕ) : Prop := s.closed b = true ∨ s.closing b = true

/-- Who holds which session. -/
def custody : Custody Holder ℕ where
  held h := (s.ref h).filter fun b => s.boots b ≠ .failed
  born b := s.boots b ≠ .unstarted
  gone b := s.Closed b ∨ s.boots b = .failed

/-- A session is closed or has one holder. -/
def Owned : Prop :=
  ∀ b, s.boots b = .booted →
    (s.Closed b ∧ ∀ h, s.ref h ≠ some b) ∨ (¬ s.Closed b ∧ ∃! h, s.ref h = some b)

/-- A session without a holder. -/
def Leaked (b : ℕ) : Prop :=
  s.boots b = .booted ∧ ¬ s.Closed b ∧ ∀ h, s.ref h ≠ some b

section Custody

variable {s s' : Provider σ} {h g : Holder} {b : ℕ}

attribute [local simp] custody

theorem held_custody : s.custody.held h = some b ↔ s.ref h = some b ∧ s.boots b ≠ .failed := by
  simp [filter_eq_some_iff]

theorem held_eq_none (href : s.ref h = none) : s.custody.held h = none := by
  simp [href]

theorem Owned.of_custody (hc : s.custody.Owned) : s.Owned := by
  intro b hb
  have hne : s.boots b ≠ .failed := by simp [hb]
  by_cases hclosed : s.Closed b
  · refine .inl ⟨hclosed, fun h href => ?_⟩
    exact (hc.live h b (held_custody.mpr ⟨href, hne⟩)).2 (.inl hclosed)
  · have hgone : ¬ s.custody.gone b := by simp [hclosed, hb]
    obtain ⟨h, hh⟩ := hc.kept b (by simp [hb]) hgone
    refine .inr ⟨hclosed, h, (held_custody.mp hh).1, fun h' href => ?_⟩
    exact hc.unique h' h b (held_custody.mpr ⟨href, hne⟩) hh

theorem custody_release (hb : s.ref h = some b) (href : s'.ref = update s.ref h none)
    (hboots : s'.boots = s.boots) (hclosed : ∀ x, s'.Closed x ↔ s.Closed x ∨ x = b) :
    s'.custody = s.custody.release h := by
  have hgone : ∀ x, s'.custody.gone x ↔ s.custody.gone x ∨ s.custody.held h = some x := by
    intro x
    rw [held_custody, hb]
    simp only [custody, hclosed, hboots]
    grind
  refine Custody.ext (funext fun x => ?_) (by simp [hboots, Custody.release])
    (funext fun x => propext (hgone x))
  by_cases hx : x = h <;> simp [href, hboots, Custody.release, hx]

theorem custody_move (href : s'.ref = update (update s.ref g (s.ref h)) h none)
    (hboots : s'.boots = s.boots) (hclosed : ∀ x, s'.Closed x ↔ s.Closed x) :
    s'.custody = s.custody.move h g := by
  refine Custody.ext (funext fun x => ?_) (by simp [hboots, Custody.move])
    (funext fun x => propext (by simp [hclosed, hboots, move]))
  by_cases hx : x = h
  · simp [href, hboots, move, hx]
  · by_cases hx' : x = g
    · subst hx'
      simp [href, hboots, move, hx]
    · simp [href, hboots, move, hx, hx']

theorem custody_acquire (hb : s.boots b = .unstarted) (href : s'.ref = update s.ref h (some b))
    (hboots : s'.boots = update s.boots b .pending) (hclosed : ∀ x, s'.Closed x ↔ s.Closed x) :
    s'.custody = s.custody.acquire h b := by
  have hfailed : ∀ x, s'.boots x = .failed ↔ s.boots x = .failed := by
    intro x
    by_cases hx : x = b <;> simp [hboots, hx, hb]
  refine Custody.ext (funext fun x => ?_) (funext fun x => propext ?_)
    (funext fun x => propext (by simp [hclosed, hfailed, acquire]))
  · by_cases hx : x = h
    · simp [href, hfailed, acquire, hx, hb]
    · simp [href, hfailed, acquire, hx]
  · by_cases hx : x = b <;> simp [hboots, acquire, hx]

theorem custody_vanish (hb : s.boots b ≠ .unstarted) (href : s'.ref = s.ref)
    (hboots : s'.boots = update s.boots b .failed)
    (hclosed : ∀ x, s'.Closed x ↔ s.Closed x) : s'.custody = s.custody.vanish b := by
  have hfailed : ∀ x, s'.boots x = .failed ↔ s.boots x = .failed ∨ x = b := by
    intro x
    by_cases hx : x = b <;> simp [hboots, hx]
  refine Custody.ext (funext fun x => ?_) (funext fun x => propext ?_) (funext fun x => propext ?_)
  · refine ext fun y => ?_
    simp only [held_custody, href, ne_eq, hfailed, not_or, vanish]
    split_ifs with hxb
    · have href' := hxb.1
      simp only [href', iff_false, some.injEq]
      exact fun h => h.2.2 h.1.symm
    · rw [held_custody]
      exact ⟨fun h => ⟨h.1, h.2.1⟩, fun h => ⟨h.1, h.2, fun hy =>
        hxb (hy ▸ h)⟩⟩
  · by_cases hx : x = b <;> simp [hboots, vanish, hx, hb]
  · simp only [custody, hclosed, hfailed, vanish]
    grind

theorem custody_eq (href : s'.ref = s.ref)
    (hboots : ∀ x, (s'.boots x = .failed ↔ s.boots x = .failed) ∧
      (s'.boots x = .unstarted ↔ s.boots x = .unstarted))
    (hclosed : ∀ x, s'.Closed x ↔ s.Closed x) : s'.custody = s.custody := by
  refine Custody.ext (funext fun x => ?_) (funext fun x => propext ?_) (funext fun x => propext ?_)
  · simp [href, fun x => (hboots x).1]
  · simp [(hboots x).2]
  · simp [hclosed, (hboots x).1]

end Custody

/-! ### Invariants -/

/-- Boots are numbered, a boot in `prewarming` is the only parked one, an attach is not newer than
the generation, and as long as the last attach is in flight, it is for the source that is wanted and
nothing is attached. -/
structure Valid (s : Provider σ) : Prop where
  fresh : ∀ b, s.nextBoot ≤ b → s.boots b = .unstarted
  started_of_closed : ∀ b, s.Closed b → s.boots b ≠ .unstarted
  prewarmed_of_prewarming : ∀ b, s.prewarming = some b → s.prewarmed = none
  booted_of_prewarmed : ∀ b, s.prewarmed = some b → s.boots b = .booted
  le_gen : ∀ a, s.attach a ≠ .unstarted → a ≤ s.gen
  latest : ∀ src, (s.attach s.gen).src = some src → s.current = none ∧ s.desired = some src
  unmounted : s.mounted = false → s.current = none ∧ s.prewarmed = none ∧ s.prewarming = none ∧
    (s.attach s.gen).src = none

/-- What holds along every run. -/
structure Inv (s : Provider σ) : Prop where
  valid : s.Valid
  owned : s.custody.Owned

theorem inv_init : (init : Provider σ).Inv where
  valid := by
    refine ⟨fun _ _ => rfl, ?_, nofun, nofun, ?_, nofun, nofun⟩
    · simp [Closed, init]
    · simp [init]
  owned := by
    have hempty : (init : Provider σ).custody = .empty :=
      Custody.ext (funext fun h => by cases h <;> rfl) (by simp [custody, init, Custody.empty])
        (by simp [custody, init, Closed, empty])
    exact hempty ▸ owned_empty

section Inv

variable {s : Provider σ} {h : Holder} {a b : ℕ} {src : σ}

theorem Inv.started (hs : s.Inv) (href : s.ref h = some b) : s.boots b ≠ .unstarted := by
  by_cases hb : s.boots b = .failed
  · simp [hb]
  · exact (hs.owned.live h b (held_custody.mpr ⟨href, hb⟩)).1

theorem closed_closeStale (stale : Option ℕ) :
    (s.closeStale stale).Closed b ↔ s.Closed b ∨ stale = some b := by
  cases stale with
  | none => simp [Closed, closeStale]
  | some c =>
    by_cases hb : b = c
    · simp [Closed, closeStale, hb]
    · simp [Closed, closeStale, hb, Ne.symm hb]

section Owned

variable {s' : Provider σ} {g : Holder}

theorem owned_of_release (hs : s.custody.Owned) (href : s'.ref = update s.ref h none)
    (hboots : s'.boots = s.boots) (hclosed : ∀ x, s'.Closed x ↔ s.Closed x ∨ s.ref h = some x) :
    s'.custody.Owned := by
  cases hh : s.ref h with
  | none =>
    have heq : s'.ref = s.ref := by rw [href, ← hh, update_eq_self]
    rw [custody_eq heq (by simp [hboots]) (by simp [hclosed, hh])]
    exact hs
  | some b =>
    rw [custody_release hh href hboots fun x => by rw [hclosed, hh]; simp [eq_comm]]
    exact hs.release h

theorem owned_of_move (hs : s.custody.Owned) (hne : h ≠ g) (hfree : s.ref g = none)
    (href : s'.ref = update (update s.ref g (s.ref h)) h none)
    (hboots : s'.boots = s.boots) (hclosed : ∀ x, s'.Closed x ↔ s.Closed x) : s'.custody.Owned := by
  rw [custody_move href hboots hclosed]
  exact hs.move hne (held_eq_none hfree)

theorem owned_of_acquire (hs : s.Inv) (hfree : s.ref h = none)
    (href : s'.ref = update s.ref h (some s.nextBoot))
    (hboots : s'.boots = update s.boots s.nextBoot .pending)
    (hclosed : ∀ x, s'.Closed x ↔ s.Closed x) : s'.custody.Owned := by
  have hnew : s.boots s.nextBoot = .unstarted := hs.valid.fresh _ (Nat.le_refl _)
  rw [custody_acquire hnew href hboots hclosed]
  refine hs.owned.acquire (held_eq_none hfree) (by simp [custody, hnew]) ?_
  rintro (hgone | hgone)
  · exact hs.valid.started_of_closed _ hgone hnew
  · cases hnew.symm.trans hgone

theorem owned_of_forget (hs : s.custody.Owned) (hb : s.ref h = some b)
    (hfailed : s.boots b = .failed) (href : s'.ref = update s.ref h none)
    (hboots : s'.boots = s.boots) (hclosed : ∀ x, s'.Closed x ↔ s.Closed x) : s'.custody.Owned := by
  have heq : s'.custody = s.custody := by
    refine Custody.ext (funext fun x => ?_) (by simp [custody, hboots])
      (by simp [custody, hboots, hclosed])
    by_cases hx : x = h
    · simp [custody, href, hboots, hx, hb, hfailed, Option.filter]
    · simp [custody, href, hboots, hx]
  rw [heq]
  exact hs

theorem owned_of_eq (hs : s.custody.Owned) (href : s'.ref = s.ref) (hboots : s'.boots = s.boots)
    (hclosed : ∀ x, s'.Closed x ↔ s.Closed x) : s'.custody.Owned := by
  rw [custody_eq href (by simp [hboots]) hclosed]
  exact hs

end Owned

theorem Valid.attach_succ_gen (hs : s.Valid) : s.attach (s.gen + 1) = .unstarted := by
  by_contra hne
  exact absurd (hs.le_gen _ hne) (by omega)

theorem Inv.supersede (hs : s.Inv) (src : Option σ) : (s.supersede src).Inv := by
  have hnew : (s.attach (s.gen + 1)).src = none := by rw [hs.valid.attach_succ_gen, Attach.src]
  refine ⟨{ hs.valid with
    started_of_closed := fun b hb => ?_
    le_gen := fun a ha => Nat.le_succ_of_le (hs.valid.le_gen a ha)
    latest := fun x hx => absurd (hnew.symm.trans hx) nofun
    unmounted := fun hm => ?_ }, ?_⟩
  · rcases (closed_closeStale _).mp hb with hb | hb
    · exact hs.valid.started_of_closed b hb
    · exact hs.started (h := .current) hb
  · obtain ⟨-, hpre, hprewarming, -⟩ := hs.valid.unmounted hm
    exact ⟨rfl, hpre, hprewarming, hnew⟩
  · refine owned_of_release (h := .current) hs.owned ?_ rfl fun x => closed_closeStale _
    funext h
    cases h <;> rfl

attribute [local simp] ref

theorem ref_setAttach (t : Attach σ) :
    ({ s with attach := update s.attach a t } : Provider σ).ref =
      update s.ref (.attach a) t.boot := by
  funext h
  cases h with
  | attach x => by_cases hx : x = a <;> simp [hx]
  | _ => rfl

theorem Valid.le_gen_setAttach (hs : s.Valid) (ha : a ≤ s.gen) {t : Attach σ} {x : ℕ}
    (hx : update s.attach a t x ≠ .unstarted) : x ≤ s.gen := by
  by_cases hxa : x = a
  · exact hxa ▸ ha
  · rw [update_of_ne hxa] at hx
    exact hs.le_gen x hx

theorem Valid.fresh_bootSession (hs : s.Valid) (b : ℕ) (hb : s.nextBoot + 1 ≤ b) :
    update s.boots s.nextBoot .pending b = .unstarted := by
  rw [update_of_ne (by omega)]
  exact hs.fresh b (by omega)

theorem Valid.started_bootSession (hs : s.Valid) (b : ℕ) (hb : s.Closed b) :
    update s.boots s.nextBoot .pending b ≠ .unstarted := by
  by_cases hn : b = s.nextBoot
  · simp [hn]
  · rw [update_of_ne hn]
    exact hs.started_of_closed b hb

theorem Inv.consumeSession (hs : s.Inv) (hm : s.mounted = true) (hcur : s.current = none)
    (hnew : s.attach s.gen = .unstarted) (hsrc : s.desired = some src) :
    (s.consumeSession s.gen src).Inv := by
  have hfree : s.ref (.attach s.gen) = none := by simp [hnew, boot]
  have hmounted : s.mounted ≠ false := by simp [hm]
  have hle : ∀ {t : Attach σ} (x : ℕ), update s.attach s.gen t x ≠ .unstarted → x ≤ s.gen :=
    fun x => hs.valid.le_gen_setAttach (Nat.le_refl _)
  have hlatest : ∀ (b : ℕ) (x : σ), (update s.attach s.gen (.waiting src b) s.gen).src = some x →
      s.current = none ∧ s.desired = some x := by
    intro b x hx
    rw [update_self] at hx
    exact ⟨hcur, hsrc.trans hx⟩
  rw [Provider.consumeSession]
  cases hpre : s.prewarmed with
  | some b =>
    dsimp only
    refine ⟨⟨hs.valid.fresh, hs.valid.started_of_closed, fun _ _ => rfl, nofun, hle, hlatest b,
      fun h => absurd h hmounted⟩, ?_⟩
    refine owned_of_move (h := .prewarmed) (g := .attach s.gen) hs.owned nofun hfree ?_ rfl
      fun _ => Iff.rfl
    funext h
    cases h with
    | attach x => by_cases hx : x = s.gen <;> simp [hx, hpre, boot]
    | _ => simp
  | none =>
    cases hwarm : s.prewarming with
    | some b =>
      dsimp only
      refine ⟨⟨hs.valid.fresh, hs.valid.started_of_closed, nofun, nofun, hle, hlatest b,
        fun h => absurd h hmounted⟩, ?_⟩
      refine owned_of_move (h := .prewarming) (g := .attach s.gen) hs.owned nofun hfree ?_ rfl
        fun _ => Iff.rfl
      funext h
      cases h with
      | attach x => by_cases hx : x = s.gen <;> simp [hx, hwarm, boot]
      | _ => simp [hpre]
    | none =>
      dsimp only [bootSession]
      refine ⟨⟨hs.valid.fresh_bootSession, hs.valid.started_bootSession, fun _ _ => hpre,
        fun b hb => absurd (hpre.symm.trans hb) nofun, hle, hlatest _,
        fun h => absurd h hmounted⟩, ?_⟩
      refine owned_of_acquire (h := .attach s.gen) hs hfree ?_ rfl fun _ => Iff.rfl
      funext h
      cases h with
      | attach x => by_cases hx : x = s.gen <;> simp [hx, boot]
      | _ => simp

theorem Inv.startPark (hs : s.Inv) (hm : s.mounted = true) : s.startPark.Inv := by
  have hmounted : s.mounted ≠ false := by simp [hm]
  rw [Provider.startPark]
  split_ifs with hbusy
  · exact hs
  · simp only [not_or, Bool.not_eq_true, isSome_eq_false_iff, isNone_iff_eq_none] at hbusy
    obtain ⟨hpre, hwarm⟩ := hbusy
    dsimp only [bootSession]
    refine ⟨⟨hs.valid.fresh_bootSession, hs.valid.started_bootSession, fun _ _ => hpre,
      fun b hb => absurd (hpre.symm.trans hb) nofun, hs.valid.le_gen, hs.valid.latest,
      fun h => absurd h hmounted⟩, ?_⟩
    refine owned_of_acquire (h := .prewarming) hs hwarm ?_ rfl fun _ => Iff.rfl
    funext h
    cases h <;> simp

theorem Inv.parked (hs : s.Inv) (hb : s.boots b = .booted ∨ s.boots b = .failed)
    (parking : ℕ → Bool) : ({ s.parked b with parking := parking } : Provider σ).Inv := by
  rw [Provider.parked]
  by_cases hwarm : s.prewarming = some b
  · rw [if_pos hwarm]
    have hpre : s.prewarmed = none := hs.valid.prewarmed_of_prewarming b hwarm
    have hmounted : s.mounted ≠ false := fun hm => by
      simp [(hs.valid.unmounted hm).2.2.1] at hwarm
    refine ⟨⟨hs.valid.fresh, hs.valid.started_of_closed, nofun, fun c hc => ?_, hs.valid.le_gen,
      hs.valid.latest, fun h => absurd h hmounted⟩, ?_⟩
    · rcases hb with hb | hb
      · obtain rfl : b = c := by simpa [hb] using hc
        exact hb
      · simp [hb, hpre] at hc
    · rcases hb with hb | hb
      · refine owned_of_move (h := .prewarming) (g := .prewarmed) hs.owned nofun hpre ?_ rfl
          fun _ => Iff.rfl
        funext h
        cases h <;> simp [hb, hwarm]
      · refine owned_of_forget (h := .prewarming) hs.owned hwarm hb ?_ rfl fun _ => Iff.rfl
        funext h
        cases h <;> simp [hb]
  · rw [if_neg hwarm]
    exact ⟨{ hs.valid with }, hs.owned⟩

theorem Inv.bootDone (hs : s.Inv) (hb : s.boots b = .pending) (ok : Bool) :
    ({ s with boots := update s.boots b (if ok then .booted else .failed) } :
      Provider σ).Inv := by
  have hne : ∀ x, update s.boots b (if ok then Boot.booted else .failed) x = .unstarted ↔
      s.boots x = .unstarted := by
    intro x
    by_cases hx : x = b
    · cases ok <;> simp [hx, hb]
    · simp [hx]
  refine ⟨{ hs.valid with
    fresh := fun x hx => (hne x).mpr (hs.valid.fresh x hx)
    started_of_closed := fun x hx h => hs.valid.started_of_closed x hx ((hne x).mp h)
    booted_of_prewarmed := fun x hx => ?_ }, ?_⟩
  · have hx' := hs.valid.booted_of_prewarmed x hx
    have hxb : x ≠ b := fun h => by simp [← h, hx'] at hb
    simpa [hxb] using hx'
  · cases ok with
    | false =>
      have hvanish : ({ s with boots := update s.boots b .failed } : Provider σ).custody =
          s.custody.vanish b := custody_vanish (by simp [hb]) rfl rfl fun _ => Iff.rfl
      simpa [hvanish] using hs.owned.vanish b
    | true =>
      have heq : ({ s with boots := update s.boots b .booted } : Provider σ).custody =
          s.custody := by
        refine custody_eq rfl (fun x => ?_) fun _ => Iff.rfl
        by_cases hx : x = b <;> simp [hx, hb]
      simpa [heq] using hs.owned

theorem Inv.closeBooted (hs : s.Inv) (hb : s.closing b = true)
    (hsettled : s.boots b = .booted ∨ s.boots b = .failed) {closed : ℕ → Bool}
    (hclosed : closed = if s.boots b = .booted then update s.closed b true else s.closed) :
    ({ s with closing := update s.closing b false, closed := closed } : Provider σ).Inv := by
  have hgone : ∀ x, (closed x = true ∨ update s.closing b false x = true) ∨
      s.boots x = .failed ↔ s.Closed x ∨ s.boots x = .failed := by
    intro x
    by_cases hx : x = b
    · rcases hsettled with h | h <;> simp [hx, hclosed, h, Closed, hb]
    · have hclosed' : closed x = s.closed x := by rw [hclosed]; split_ifs <;> simp [hx]
      rw [hclosed', update_of_ne hx, Closed]
  refine ⟨{ hs.valid with started_of_closed := fun x hx h => ?_ }, ?_⟩
  · rcases (hgone x).mp (.inl hx) with hx | hx
    · exact hs.valid.started_of_closed x hx h
    · cases h.symm.trans hx
  · have heq : ({ s with closing := update s.closing b false, closed := closed } :
        Provider σ).custody = s.custody :=
      Custody.ext rfl rfl (funext fun x => propext (hgone x))
    rw [heq]
    exact hs.owned

theorem Valid.setAttach (hs : s.Valid) {t : Attach σ} (ha : s.attach a ≠ .unstarted)
    (ht : ∀ x, t.src = some x → (s.attach a).src = some x) (inflightSrc : Option σ) :
    ({ s with attach := update s.attach a t, inflightSrc := inflightSrc } :
      Provider σ).Valid := by
  have hsrc : ∀ x, (update s.attach a t s.gen).src = some x → (s.attach s.gen).src = some x := by
    intro x hx
    by_cases hgen : s.gen = a
    · rw [hgen, update_self] at hx
      exact hgen ▸ ht x hx
    · rwa [update_of_ne hgen] at hx
  refine { hs with
    le_gen := fun x => hs.le_gen_setAttach (hs.le_gen a ha)
    latest := fun x hx => hs.latest x (hsrc x hx)
    unmounted := fun hm => ?_ }
  obtain ⟨hcur, hpre, hwarm, hlast⟩ := hs.unmounted hm
  refine ⟨hcur, hpre, hwarm, eq_none_iff_forall_ne_some.mpr fun x hx => ?_⟩
  exact absurd (hlast.symm.trans (hsrc x hx)) nofun

theorem Inv.settle (hs : s.Inv) (hb : s.ref (.attach a) = some b) (inflightSrc : Option σ) :
    ({ s.settle a with inflightSrc := inflightSrc }.close b : Provider σ).Inv := by
  have ha : s.attach a ≠ .unstarted := fun h => by simp [h, boot] at hb
  have hvalid := hs.valid.setAttach (t := .settled) ha nofun inflightSrc
  have hclose : ∀ x, ({ s.settle a with inflightSrc := inflightSrc }.close b :
      Provider σ).Closed x ↔ s.Closed x ∨ s.ref (.attach a) = some x := by
    intro x
    rw [hb]
    exact closed_closeStale (some b)
  refine ⟨{ hvalid with started_of_closed := fun x hx => ?_ }, ?_⟩
  · rcases (hclose x).mp hx with hx | hx
    · exact hs.valid.started_of_closed x hx
    · exact hs.started hx
  · exact owned_of_release (h := .attach a) hs.owned
      (ref_setAttach (s := s) (a := a) .settled) rfl hclose

theorem Inv.attaching (hs : s.Inv) (hb : s.attach a = .waiting src b) :
    ({ s with attach := update s.attach a (.attaching src b) } : Provider σ).Inv := by
  have ha : s.attach a ≠ .unstarted := by simp [hb]
  refine ⟨hs.valid.setAttach ha (by simp [hb, Attach.src]) s.inflightSrc, ?_⟩
  refine owned_of_eq hs.owned ?_ rfl fun _ => Iff.rfl
  rw [ref_setAttach]
  refine update_eq_self_iff.mpr ?_
  simp [hb, boot]

theorem Inv.onFatal (hs : s.Inv) (b : ℕ) : (s.onFatal b).Inv := by
  rw [Provider.onFatal]
  split_ifs with hcur
  · have hclose : ∀ x, ({ s with current := none }.close b : Provider σ).Closed x ↔
        s.Closed x ∨ s.ref .current = some x := by
      intro x
      rw [show s.ref .current = some b from hcur]
      exact closed_closeStale (some b)
    refine ⟨{ hs.valid with
      started_of_closed := fun x hx => ?_
      latest := fun x hx => ⟨rfl, (hs.valid.latest x hx).2⟩
      unmounted := fun hm => ⟨rfl, (hs.valid.unmounted hm).2⟩ }, ?_⟩
    · rcases (hclose x).mp hx with hx | hx
      · exact hs.valid.started_of_closed x hx
      · exact hs.started hx
    · refine owned_of_release (h := .current) hs.owned ?_ rfl hclose
      funext h
      cases h <;> rfl
  · exact hs

theorem Inv.unmount (hs : s.Inv) (hone : s.current = none ∨ s.prewarmed = none) :
    s.unmount.Inv := by
  have hclose : ∀ x, s.unmount.Closed x ↔ s.Closed x ∨ s.ref .current = some x ∨
      s.ref .prewarmed = some x ∨ s.ref .prewarming = some x := by
    intro x
    have hstale : s.current.or s.prewarmed = some x ↔
        s.current = some x ∨ s.prewarmed = some x := by
      rcases hone with h | h <;> simp [h]
    rw [Provider.unmount, closed_closeStale, hstale]
    cases hwarm : s.prewarming with
    | none => simp [Closed, hwarm]
    | some c =>
      by_cases hx : x = c
      · simp [Closed, hwarm, hx]
      · simp [Closed, hwarm, hx, Ne.symm hx, or_assoc]
  have hnew : (s.attach (s.gen + 1)).src = none := by rw [hs.valid.attach_succ_gen, src]
  refine ⟨⟨hs.valid.fresh, fun x hx => ?_, nofun, nofun,
    fun a ha => Nat.le_succ_of_le (hs.valid.le_gen a ha), fun x hx => ?_,
    fun _ => ⟨rfl, rfl, rfl, hnew⟩⟩, ?_⟩
  · rcases (hclose x).mp hx with hx | hx | hx | hx
    · exact hs.valid.started_of_closed x hx
    all_goals exact hs.started hx
  · exact absurd (hnew.symm.trans hx) nofun
  · have heq : s.unmount.custody =
        ((s.custody.release .current).release .prewarmed).release .prewarming := by
      refine Custody.ext (funext fun h => ?_) rfl (funext fun x => propext ?_)
      · cases h <;> rfl
      · have hgone : (((s.custody.release .current).release .prewarmed).release .prewarming).gone
          x ↔ s.custody.gone x ∨ s.custody.held .current = some x ∨
              s.custody.held .prewarmed = some x ∨ s.custody.held .prewarming = some x := by
          simp [release, or_assoc]
        rw [hgone, held_custody, held_custody, held_custody]
        change s.unmount.Closed x ∨ s.boots x = .failed ↔ (s.Closed x ∨ s.boots x = .failed) ∨ _
        rw [hclose]
        grind
    rw [heq]
    exact ((hs.owned.release _).release _).release _

variable [DecidableEq σ]

theorem Inv.forget (hs : s.Inv) (hb : s.attach a = .waiting src b) (hfailed : s.boots b = .failed) :
    ((s.settle a).clearInflight src).Inv := by
  have ha : s.attach a ≠ .unstarted := by simp [hb]
  refine ⟨hs.valid.setAttach (t := .settled) ha nofun _, ?_⟩
  refine owned_of_forget (h := .attach a) (b := b) hs.owned ?_ hfailed
    (ref_setAttach (s := s) (a := a) .settled) rfl fun _ => Iff.rfl
  simp [hb, boot]

theorem Inv.commit (hs : s.Inv) (hb : s.attach s.gen = .attaching src b)
    (hpre : s.prewarmed = none) : (s.commit s.gen src b).Inv := by
  have ha : s.attach s.gen ≠ .unstarted := by simp [hb]
  have hsrc : (s.attach s.gen).src = some src := by rw [hb, Attach.src]
  have hmounted : s.mounted ≠ false := fun hm =>
    absurd ((hs.valid.unmounted hm).2.2.2.symm.trans hsrc) nofun
  have hinv : ({ (s.settle s.gen).clearInflight src with
      current := some b
      prewarmed := none } : Provider σ).Inv := by
    obtain ⟨hfresh, hclosed, hpark, hbooted, hgen, hlatest, hgone⟩ :=
      hs.valid.setAttach (t := .settled) ha nofun s.inflightSrc
    refine ⟨⟨hfresh, hclosed, fun _ _ => rfl, nofun, hgen, fun x hx => ?_,
      fun hm => absurd hm hmounted⟩, ?_⟩
    · simp [Provider.settle, clearInflight, Attach.src] at hx
    · refine owned_of_move (h := .attach s.gen) (g := .current) hs.owned nofun
        (hs.valid.latest src hsrc).1 ?_ rfl fun _ => Iff.rfl
      funext h
      cases h with
      | attach x =>
        by_cases hx : x = s.gen <;> simp [hx, Provider.settle, clearInflight, Attach.boot]
      | current => simp [hb, Attach.boot]
      | prewarmed => simp [hpre]
      | prewarming => simp [Provider.settle, clearInflight]
  rw [Provider.commit]
  dsimp only
  split_ifs
  · exact hinv.onFatal b
  · exact hinv

end Inv

/-! ### Runs -/

/-- No step drops a parked session: the last attach succeeds only while nothing is parked, and the
component goes away only while nothing is parked or nothing is attached. -/
def KeepsParked (s : Provider σ) : ProviderAct σ → Prop
  | .attachDone a ok => ok = true → s.gen = a → s.prewarmed = none
  | .unmount => s.current = none ∨ s.prewarmed = none
  | _ => True

instance (s : Provider σ) (l : ProviderAct σ) : Decidable (s.KeepsParked l) := by
  cases l <;> unfold KeepsParked <;> infer_instance

/-- Nothing is under way. -/
structure Settled (s : Provider σ) : Prop where
  boots : ∀ b, s.boots b ≠ .pending
  attach : ∀ a, (s.attach a).boot = none
  closing : ∀ b, s.closing b = false

section Run

variable {s s' : Provider σ} {l : ProviderAct σ} {b : ℕ}

theorem Inv.closed_of_settled (hs : s.Inv) (hm : s.mounted = false) (hsettled : s.Settled)
    (hb : s.boots b = .booted) : s.closed b = true := by
  obtain ⟨hcur, hpre, hwarm, -⟩ := hs.valid.unmounted hm
  have href : ∀ h, s.ref h = none := by
    rintro (_ | _ | _ | a)
    exacts [hcur, hpre, hwarm, hsettled.attach a]
  rcases Owned.of_custody hs.owned b hb with ⟨hclosed | hclosing, -⟩ | ⟨-, h, hh, -⟩
  · exact hclosed
  · exact absurd ((hsettled.closing b).symm.trans hclosing) nofun
  · exact absurd ((href h).symm.trans hh) nofun

theorem Inv.leaked_of_drop (hs : s.Inv) (hb : s.prewarmed = some b) (hboots : s'.boots = s.boots)
    (hclosed : s'.Closed b → s.Closed b ∨ ∃ g, g ≠ .prewarmed ∧ s.ref g = some b)
    (href : ∀ h, s'.ref h = some b → ∃ g, g ≠ .prewarmed ∧ s.ref g = some b) : s'.Leaked b := by
  have hbooted := hs.valid.booted_of_prewarmed b hb
  have hhere : s.ref .prewarmed = some b := hb
  -- the parked session is open, and `prewarmed` is its only holder
  obtain ⟨hopen, hunique⟩ : ¬ s.Closed b ∧ ¬ ∃ g, g ≠ .prewarmed ∧ s.ref g = some b := by
    rcases Owned.of_custody hs.owned b hbooted with ⟨-, hnone⟩ | ⟨hopen, h, -, huniq⟩
    · exact absurd hhere (hnone _)
    · refine ⟨hopen, fun ⟨g, hne, hg⟩ => hne ?_⟩
      rw [huniq g hg, huniq _ hhere]
  exact ⟨hboots ▸ hbooted, fun hgone => (hclosed hgone).elim hopen hunique,
    fun h hh => hunique (href h hh)⟩

theorem current_consumeSession (a : ℕ) (src : σ) :
    (s.consumeSession a src).current = s.current := by
  rw [consumeSession]
  split <;> rfl

variable [DecidableEq σ] {allowed : σ → Bool}

theorem Inv.sourceEffect (hs : s.Inv) (hm : s.mounted = true) (src : Option σ) :
    (s.sourceEffect src).Inv := by
  cases src with
  | none => exact hs.supersede none
  | some src =>
    rw [Provider.sourceEffect]
    split_ifs
    · exact hs
    · have hnew := hs.valid.attach_succ_gen
      exact (hs.supersede (some src)).consumeSession hm rfl hnew rfl

theorem Inv.resume (hs : s.Inv) {a : ℕ} (h : providerStep allowed s (.resume a) = some s') :
    s'.Inv := by
  simp only [providerStep] at h
  split at h
  case h_2 => cases h
  case h_1 src b hattach =>
    have href : s.ref (.attach a) = some b := by rw [ref, hattach, boot]
    split at h
    case h_1 hb =>
      split_ifs at h with hgen hallowed
      · cases h
        exact hs.settle href s.inflightSrc
      · cases h
        exact hs.attaching hattach
      · cases h
        exact hs.settle href _
    case h_2 hb =>
      cases h
      exact hs.forget hattach hb
    case h_3 => cases h

theorem Inv.attachDone (hs : s.Inv) {a : ℕ} {ok : Bool} (hk : s.KeepsParked (.attachDone a ok))
    (h : providerStep allowed s (.attachDone a ok) = some s') : s'.Inv := by
  simp only [providerStep] at h
  split at h
  case h_2 => cases h
  case h_1 src b hattach =>
    have href : s.ref (.attach a) = some b := by rw [ref, hattach, boot]
    split_ifs at h with hok hgen
    · cases h
      exact hs.settle href s.inflightSrc
    · cases h
      obtain rfl : s.gen = a := not_not.mp hgen
      exact hs.commit hattach (hk hok rfl)
    · cases h
      exact hs.settle href _

theorem Inv.step (hs : s.Inv) (hk : s.KeepsParked l) (h : providerStep allowed s l = some s') :
    s'.Inv := by
  cases l with
  | source src =>
    obtain ⟨hm, ⟨⟩⟩ := ite_none_right_eq_some.mp h
    exact hs.sourceEffect hm src
  | prewarm doPrewarm =>
    obtain ⟨hm, ⟨⟩⟩ := ite_none_right_eq_some.mp h
    rw [prewarmEffect]
    split_ifs
    · exact hs
    · exact hs
    · exact hs.startPark hm
  | unmount =>
    obtain ⟨-, ⟨⟩⟩ := ite_none_right_eq_some.mp h
    exact hs.unmount hk
  | bootDone b ok =>
    obtain ⟨hb, ⟨⟩⟩ := ite_none_right_eq_some.mp h
    exact hs.bootDone hb ok
  | park b =>
    obtain ⟨⟨-, hb⟩, ⟨⟩⟩ := ite_none_right_eq_some.mp h
    exact hs.parked hb _
  | closeBooted b =>
    obtain ⟨⟨hclosing, hb⟩, h⟩ := ite_none_right_eq_some.mp h
    have hinv := hs.closeBooted hclosing hb rfl
    split_ifs at h hinv <;> obtain rfl := some.inj h <;> exact hinv
  | resume a => exact hs.resume h
  | attachDone a ok => exact hs.attachDone hk h
  | fatal b =>
    obtain ⟨-, ⟨⟩⟩ := ite_none_right_eq_some.mp h
    have hinv : ({ s with fatal := update s.fatal b true } : Provider σ).Inv :=
      ⟨{ hs.valid with }, hs.owned⟩
    exact hinv.onFatal b

theorem inv_of_reach (h : (providerMachine allowed).Reach KeepsParked init s) : s.Inv :=
  h.invariant inv_init fun _ _ _ hs hk hstep => hs.step hk hstep

theorem commit_eq (a : ℕ) (src : σ) (c : ℕ) : s.commit a src c =
    { (s.settle a).clearInflight src with
      current := if s.fatal c then none else some c
      prewarmed := none
      closed := if s.fatal c then update s.closed c true else s.closed } := by
  have hfatal : ((s.settle a).clearInflight src).fatal = s.fatal := rfl
  by_cases hc : s.fatal c = true
  · simp [commit, onFatal, close, hfatal, hc]
    rfl
  · simp [commit, hfatal, hc]
    rfl

theorem closed_commit {a c : ℕ} {src : σ} (h : (s.commit a src c).Closed b) :
    s.Closed b ∨ b = c := by
  rw [commit_eq] at h
  rcases h with h | h
  · by_cases hbc : b = c
    · exact .inr hbc
    · dsimp only at h
      split_ifs at h
      · rw [update_of_ne hbc] at h
        exact .inl (.inl h)
      · exact .inl (.inl h)
  · exact .inl (.inr h)

theorem ref_commit {a c : ℕ} {src : σ} {h : Holder} (hh : (s.commit a src c).ref h = some b) :
    (h ≠ .prewarmed ∧ h ≠ .current ∧ s.ref h = some b) ∨ (h = .current ∧ b = c) := by
  rw [commit_eq] at hh
  cases h with
  | current =>
    simp only [ref, ite_eq_iff, reduceCtorEq, and_false, false_or, some.injEq] at hh
    exact .inr ⟨rfl, hh.2.symm⟩
  | prewarmed => cases hh
  | prewarming => exact .inl ⟨nofun, nofun, hh⟩
  | attach x =>
    refine .inl ⟨nofun, nofun, ?_⟩
    by_cases hx : x = a
    · simp [ref, hx, settle, clearInflight, boot] at hh
    · simpa [ref, hx, settle, clearInflight] using hh

theorem current_of_step (h : providerStep allowed s l = some s') (hb : s'.current = some b) :
    s.current = some b ∨
      ∃ src, l = .attachDone s.gen true ∧ s.attach s.gen = .attaching src b := by
  cases l with
  | source src =>
    obtain ⟨-, ⟨⟩⟩ := ite_none_right_eq_some.mp h
    refine .inl ?_
    cases src with
    | none => cases hb
    | some src =>
      rw [sourceEffect] at hb
      split_ifs at hb
      · exact hb
      · rw [current_consumeSession] at hb
        cases hb
  | prewarm doPrewarm =>
    obtain ⟨-, ⟨⟩⟩ := ite_none_right_eq_some.mp h
    rw [prewarmEffect, startPark] at hb
    split_ifs at hb <;> exact .inl hb
  | unmount =>
    obtain ⟨-, ⟨⟩⟩ := ite_none_right_eq_some.mp h
    cases hb
  | bootDone c ok =>
    obtain ⟨-, ⟨⟩⟩ := ite_none_right_eq_some.mp h
    exact .inl hb
  | park c =>
    obtain ⟨-, ⟨⟩⟩ := ite_none_right_eq_some.mp h
    simp only [parked] at hb
    split_ifs at hb <;> exact .inl hb
  | closeBooted c =>
    obtain ⟨-, h⟩ := ite_none_right_eq_some.mp h
    split_ifs at h <;> obtain rfl := some.inj h <;> exact .inl hb
  | resume a =>
    simp only [providerStep] at h
    split at h
    · split at h
      · split_ifs at h <;> obtain rfl := some.inj h <;> exact .inl hb
      · cases h
        exact .inl hb
      · cases h
    · cases h
  | attachDone a ok =>
    simp only [providerStep] at h
    split at h
    case h_2 => cases h
    case h_1 src c hattach =>
      split_ifs at h with hok hgen
      · cases h
        exact .inl hb
      · cases h
        obtain rfl : s.gen = a := not_not.mp hgen
        rcases ref_commit (h := .current) hb with ⟨-, hne, -⟩ | ⟨-, rfl⟩
        · exact absurd rfl hne
        · exact .inr ⟨src, by rw [hok], hattach⟩
      · cases h
        exact .inl hb
  | fatal c =>
    obtain ⟨-, ⟨⟩⟩ := ite_none_right_eq_some.mp h
    refine .inl ?_
    rw [onFatal] at hb
    split_ifs at hb
    · cases hb
    · exact hb

theorem Inv.leaked_of_step (hs : s.Inv) (hk : ¬ s.KeepsParked l)
    (h : providerStep allowed s l = some s') : ∃ b, s.prewarmed = some b ∧ s'.Leaked b := by
  cases l with
  | attachDone a ok =>
    simp only [KeepsParked, Classical.not_imp] at hk
    obtain ⟨rfl, rfl, hpre⟩ := hk
    obtain ⟨c, hc⟩ := ne_none_iff_exists'.mp hpre
    simp only [providerStep] at h
    split at h
    case h_2 => cases h
    case h_1 src d hattach =>
      have href : s.ref (.attach s.gen) = some d := by rw [ref, hattach, boot]
      obtain rfl : s.commit s.gen src d = s' := by simpa using h
      refine ⟨c, hc, hs.leaked_of_drop hc (by rw [commit_eq]; rfl) (fun hclosed => ?_) fun h hh =>
        ?_⟩
      · rcases closed_commit hclosed with hclosed | rfl
        · exact .inl hclosed
        · exact .inr ⟨.attach s.gen, nofun, href⟩
      · rcases ref_commit hh with ⟨hne, -, hh⟩ | ⟨-, rfl⟩
        · exact ⟨h, hne, hh⟩
        · exact ⟨.attach s.gen, nofun, href⟩
  | unmount =>
    obtain ⟨hcur, hpre⟩ := not_or.mp hk
    obtain ⟨c, hc⟩ := ne_none_iff_exists'.mp hpre
    obtain ⟨d, hd⟩ := ne_none_iff_exists'.mp hcur
    obtain ⟨-, ⟨⟩⟩ := ite_none_right_eq_some.mp h
    refine ⟨c, hc, hs.leaked_of_drop hc rfl (fun hclosed => ?_) fun h hh => ?_⟩
    · have hstale : s.current.or s.prewarmed = some d := by rw [hd, some_or]
      have hwarm : s.prewarming = none := by
        cases hwarm : s.prewarming with
        | none => rfl
        | some e => exact absurd ((hs.valid.prewarmed_of_prewarming e hwarm).symm.trans hc) nofun
      rw [Provider.unmount, closed_closeStale, hstale] at hclosed
      rcases hclosed with hclosed | hclosed
      · refine .inl ?_
        simpa [Closed, hwarm] using hclosed
      · exact .inr ⟨.current, nofun, hd.trans hclosed⟩
    · cases h with
      | attach a => exact ⟨.attach a, nofun, hh⟩
      | _ => cases hh
  | _ => exact absurd trivial hk

end Run

end Provider

open Provider

/-- As long as no step drops a parked session, every session that was booted is closed, being
closed, or held by exactly one of `current`, `prewarmed`, the boot in flight and one attach, and all
are closed when everything has settled after an unmount. Only the attach of the source that is
wanted becomes current. A step that drops a parked session leaks it. -/
theorem provider_owns_sessions {σ : Type*} [DecidableEq σ] (allowed : σ → Bool) :
    (∀ s, (providerMachine allowed).Reach KeepsParked init s →
      s.Owned ∧
      (∀ src, (s.attach s.gen).src = some src → s.desired = some src) ∧
      (s.mounted = false → s.Settled → ∀ b, s.boots b = .booted → s.closed b = true)) ∧
    (∀ s s', providerStep allowed s .unmount = some s' → s'.mounted = false) ∧
    (∀ s l s' b, providerStep allowed s l = some s' → s'.current = some b → s.current = some b ∨
      ∃ src, l = .attachDone s.gen true ∧ s.attach s.gen = .attaching src b) ∧
    ∀ s l s', (providerMachine allowed).Reach KeepsParked init s → ¬ s.KeepsParked l →
      providerStep allowed s l = some s' → ∃ b, s.prewarmed = some b ∧ s'.Leaked b := by
  refine ⟨fun s hs => ?_, fun s s' h => ?_, fun s l s' b h hb => current_of_step h hb,
    fun s l s' hs hk h => (inv_of_reach hs).leaked_of_step hk h⟩
  · have hinv := inv_of_reach hs
    exact ⟨.of_custody hinv.owned, fun src hsrc => (hinv.valid.latest src hsrc).2,
      fun hm hsettled b hb => hinv.closed_of_settled hm hsettled hb⟩
  · obtain ⟨-, ⟨⟩⟩ := ite_none_right_eq_some.mp h
    rfl

/-- A source is attached and the component is unmounted. -/
def attachedRun : List (ProviderAct Unit) :=
  [.source (some ()), .bootDone 0 true, .resume 1, .attachDone 1 true, .unmount]

theorem provider_owns_sessions_attached :
    ∃ s, (providerMachine fun _ : Unit => true).Reach KeepsParked init s ∧ s.mounted = false ∧
      s.Settled ∧ s.boots 0 = .booted ∧ s.closed 0 = true := by
  have hrun : Machine.run (providerStep fun _ : Unit => true) KeepsParked attachedRun init =
    some _ := rfl
  have hreach := Machine.Reach.of_run hrun
  refine ⟨_, hreach, rfl, ?settled, rfl,
    ((provider_owns_sessions _).1 _ hreach).2.2 rfl ?settled 0 rfl⟩
  refine ⟨fun b => ?_, fun a => ?_, fun b => rfl⟩
  · match b with
    | 0 => exact nofun
    | _ + 1 => exact nofun
  · match a with
    | 0 => rfl
    | 1 => rfl
    | _ + 2 => rfl

/-- Prewarming is switched on while an attach is in flight, and its session is parked before the
attach succeeds. -/
def leakingRun : List (ProviderAct Unit) :=
  [.source (some ()), .prewarm true, .bootDone 0 true, .bootDone 1 true, .resume 1, .park 1]

theorem provider_leaks_parked : ∃ s s', (providerMachine fun _ : Unit => true).Reach
    (fun _ _ => True) init s ∧ providerStep (fun _ => true) s (.attachDone 1 true) = some s' ∧
      s'.Leaked 1 := by
  have hrun : ((Machine.run (providerStep fun _ : Unit => true) KeepsParked leakingRun init).any
      fun s => decide (s.prewarmed = some 1 ∧ ¬ s.KeepsParked (.attachDone 1 true) ∧
        (providerStep (fun _ => true) s (.attachDone 1 true)).isSome = true)) = true := by
    decide +kernel
  obtain ⟨s, hrun, hpre, hk, hstep⟩ := Machine.exists_of_run hrun
  have hreach := Machine.Reach.of_run hrun
  obtain ⟨s', hs'⟩ := isSome_iff_exists.mp hstep
  obtain ⟨b, hb, hleaked⟩ := (inv_of_reach hreach).leaked_of_step hk hs'
  obtain rfl := some.inj (hpre.symm.trans hb)
  exact ⟨s, s', hreach.mono fun _ _ _ => trivial, hs', hleaked⟩

end Anyfs
