import Anyfs.Lib.Machine

/-!
# The watchdog of a session

`guard` runs one engine operation, which settles with its own outcome, with a timeout, or with the
error that kills the session; `fireFatal` fails everything that is in flight and then tells the
listeners.

What the session calls may call back into it, so the stack of such calls is part of the state.
-/

namespace Anyfs

open Function List Option

/-- The errors of guarded operations; each timeout makes an error of its own. -/
inductive OpError (ε : Type*) where
  | given (e : ε)
  | timedOut (op : ℕ)
  deriving DecidableEq

/-- The promise that `run()` returns, if `run` has returned. -/
inductive RunState (ρ ε : Type*) where
  | unstarted
  | executing
  | pending
  | settled (r : Except ε ρ)
  | done

/-- A guarded operation. `handled` says whether the caller's handlers have run. -/
structure GuardedOp (ρ ε : Type*) where
  run : RunState ρ ε
  timer : Bool
  result : Option (Except (OpError ε) ρ)
  handled : Bool

namespace GuardedOp

variable {ρ ε : Type*} (o : GuardedOp ρ ε) (r : Except (OpError ε) ρ)

/-- The operation is settled, if it was not. -/
def settle : GuardedOp ρ ε :=
  { o with timer := false, result := o.result.or (some r) }

variable (run : RunState ρ ε)

/-- The promise of `run()` gets on. -/
def setRun : GuardedOp ρ ε := { o with run := run }

def handle : GuardedOp ρ ε := { o with handled := true }

@[simp, grind =] theorem run_settle : (o.settle r).run = o.run := rfl

@[simp, grind =] theorem timer_settle : (o.settle r).timer = false := rfl

@[simp, grind =] theorem result_settle : (o.settle r).result = o.result.or (some r) := rfl

@[simp, grind =] theorem run_setRun : (o.setRun run).run = run := rfl

@[simp, grind =] theorem timer_setRun : (o.setRun run).timer = o.timer := rfl

@[simp, grind =] theorem result_setRun : (o.setRun run).result = o.result := rfl

end GuardedOp

/-- What is on the call stack. A listener is called by the loop of `fireFatal` or by `onFatal`. -/
inductive Frame (κ : Type*) where
  | run (i : ℕ)
  | loop
  | listener (c : κ)
  | late (c : κ)
  | timeout (i : ℕ)

open Anyfs.Frame

def Frame.isLoop {κ : Type*} : Frame κ → Bool
  | .loop => true
  | _ => false

/-- The state of the watchdog. `todo` are the listeners that the loop of `fireFatal` has not come
to, `ran` those it has called. -/
structure Watchdog (κ ρ ε : Type*) where
  ops : ℕ → GuardedOp ρ ε
  nextOp : ℕ
  inflight : List ℕ
  fatalErr : Option (OpError ε)
  fatalCbs : List κ
  stack : List (Frame κ)
  todo : List κ
  ran : List κ

open Watchdog

namespace Watchdog

variable {κ ρ ε : Type*}

def init : Watchdog κ ρ ε where
  ops _ := ⟨.unstarted, false, none, false⟩
  nextOp := 0
  inflight := []
  fatalErr := none
  fatalCbs := []
  stack := []
  todo := []
  ran := []

variable (s : Watchdog κ ρ ε)

/-- The stack allows a call from outside. -/
def atCaller : Bool :=
  match s.stack with
  | [] | .run _ :: _ | .listener _ :: _ | .late _ :: _ => true
  | _ => false

def settle (i : ℕ) (r : Except (OpError ε) ρ) : Watchdog κ ρ ε :=
  { s with
    ops := update s.ops i ((s.ops i).settle r)
    inflight := s.inflight.filter (· ≠ i) }

def fail (i : ℕ) (e : OpError ε) : Watchdog κ ρ ε := s.settle i (.error e)

/-- `fireFatal`, up to the loop over the listeners. -/
def fireFatal (e : OpError ε) : Watchdog κ ρ ε :=
  if s.fatalErr.isSome then s
  else
    { s.inflight.foldl (fun s i => s.fail i e) { s with fatalErr := some e } with
      stack := .loop :: s.stack
      todo := s.fatalCbs }

/-- `guard`, up to the call of `run()`; a dead session rejects at once. -/
def guard (opTimeoutMs : ℕ) (s : Watchdog κ ρ ε) : Watchdog κ ρ ε :=
  match s.fatalErr with
  | some e =>
    { s with
      ops := update s.ops s.nextOp ⟨.done, false, some (.error e), false⟩
      nextOp := s.nextOp + 1 }
  | none =>
    { s with
      ops := update s.ops s.nextOp ⟨.executing, decide (0 < opTimeoutMs), none, false⟩
      nextOp := s.nextOp + 1
      inflight := s.inflight ++ [s.nextOp]
      stack := .run s.nextOp :: s.stack }

/-- The promise of `run()` gets on. -/
def setRun (i : ℕ) (run : RunState ρ ε) : Watchdog κ ρ ε :=
  { s with ops := update s.ops i ((s.ops i).setRun run) }

variable [DecidableEq κ]

/-- `onFatal`; on a dead session the listener is called at once. -/
def onFatal (c : κ) : Watchdog κ ρ ε :=
  if s.fatalErr.isSome then { s with stack := .late c :: s.stack }
  else { s with fatalCbs := if c ∈ s.fatalCbs then s.fatalCbs else s.fatalCbs ++ [c] }

/-- The function that `onFatal` returns. -/
def unsubscribe (c : κ) : Watchdog κ ρ ε :=
  { s with fatalCbs := s.fatalCbs.filter (· ≠ c) }

/-- The loop of `fireFatal` gets on: a listener that was unsubscribed meanwhile is skipped. -/
def next (rest : List (Frame κ)) : Watchdog κ ρ ε :=
  match s.todo with
  | [] => { s with stack := rest, fatalCbs := [] }
  | c :: todo =>
    if c ∈ s.fatalCbs then
      { s with stack := .listener c :: s.stack, todo := todo, ran := s.ran ++ [c] }
    else { s with todo := todo }

end Watchdog

/-- What the surroundings call, how the calls on the stack end, and what the event loop runs. -/
inductive WatchdogAct (κ ρ ε : Type*) where
  | guard
  | fireFatal (e : ε)
  | onFatal (c : κ)
  | unsubscribe (c : κ)
  | returns
  | throws (e : ε)
  | next
  | expire
  | settleRun (i : ℕ) (r : Except ε ρ)
  | react (i : ℕ)
  | timer (i : ℕ)
  | handler (i : ℕ)

section Step

variable {κ ρ ε : Type*} [DecidableEq κ] (opTimeoutMs : ℕ)

/-- The steps of the watchdog. -/
def watchdogStep (s : Watchdog κ ρ ε) : WatchdogAct κ ρ ε → Option (Watchdog κ ρ ε)
  | .guard => if s.atCaller then some (s.guard opTimeoutMs) else none
  | .fireFatal e => if s.atCaller then some (s.fireFatal (.given e)) else none
  | .onFatal c => if s.atCaller then some (s.onFatal c) else none
  | .unsubscribe c => if s.atCaller then some (s.unsubscribe c) else none
  | .returns =>
    match s.stack with
    | .run i :: rest => some ({ s with stack := rest }.setRun i .pending)
    | .listener _ :: rest => some { s with stack := rest }
    | .late _ :: rest => some { s with stack := rest }
    | _ => none
  | .throws e =>
    match s.stack with
    | .run i :: rest => some (({ s with stack := rest }.setRun i .done).fail i (.given e))
    | .listener _ :: rest => some { s with stack := rest }
    | .late _ :: rest => some { s with stack := rest }
    | _ => none
  | .next =>
    match s.stack with
    | .loop :: rest => some (s.next rest)
    | _ => none
  | .expire =>
    match s.stack with
    | .timeout i :: rest => some ({ s with stack := rest }.fail i (.timedOut i))
    | _ => none
  | .settleRun i r =>
    match (s.ops i).run with
    | .pending => some (s.setRun i (.settled r))
    | _ => none
  | .react i =>
    match s.stack, (s.ops i).run with
    | [], .settled (.ok v) => some ((s.setRun i .done).settle i (.ok v))
    | [], .settled (.error e) => some ((s.setRun i .done).fail i (.given e))
    | _, _ => none
  | .timer i =>
    if s.stack.isEmpty ∧ (s.ops i).timer then
      some ({ s with stack := [.timeout i] }.fireFatal (.timedOut i))
    else none
  | .handler i =>
    if s.stack.isEmpty ∧ (s.ops i).result.isSome ∧ (s.ops i).handled = false then
      some { s with ops := update s.ops i (s.ops i).handle }
    else none

def watchdogMachine : Machine (Watchdog κ ρ ε) (WatchdogAct κ ρ ε) :=
  .ofFun (watchdogStep opTimeoutMs)

end Step

namespace Watchdog

variable {κ ρ ε : Type*}

/-! ### What the parts of a step do -/

section Parts

variable {s : Watchdog κ ρ ε} {i j : ℕ} {r : Except (OpError ε) ρ} {e : OpError ε}

theorem ops_settle : (s.settle i r).ops j = if j = i then (s.ops i).settle r else s.ops j := by
  simp only [settle, update_apply]

theorem mem_inflight_settle : j ∈ (s.settle i r).inflight ↔ j ∈ s.inflight ∧ j ≠ i := by
  simp [settle]

theorem ops_setRun {run : RunState ρ ε} :
    (s.setRun i run).ops j = if j = i then (s.ops i).setRun run else s.ops j := by
  simp only [setRun, update_apply]

theorem result_setRun {run : RunState ρ ε} :
    ((s.setRun i run).ops j).result = (s.ops j).result := by
  rw [ops_setRun]
  split_ifs with hj
  · rw [hj, GuardedOp.result_setRun]
  · rfl

theorem result_settle {r' : Except (OpError ε) ρ} (h : (s.ops j).result = some r') :
    ((s.settle i r).ops j).result = some r' := by
  rw [ops_settle]
  split_ifs <;> grind

theorem foldl_fail (l : List ℕ) (s : Watchdog κ ρ ε) (e : OpError ε) :
    l.foldl (fun s i => s.fail i e) s =
      { s with
        ops := fun i => if i ∈ l then (s.ops i).settle (.error e) else s.ops i
        inflight := s.inflight.filter (· ∉ l) } := by
  induction l generalizing s with
  | nil =>
    have hall : s.inflight.filter (fun _ => true) = s.inflight := filter_eq_self.mpr (by simp)
    simp [hall]
  | cons i l ih =>
    rw [foldl_cons, ih]
    congr 1
    · funext j
      by_cases hj : j = i
      · subst hj
        simp [fail, ops_settle, GuardedOp.settle]
      · simp [fail, ops_settle, hj]
    · simp [fail, settle, List.filter_filter, Bool.and_comm]

theorem fireFatal_eq (h : s.fatalErr = none) : s.fireFatal e =
    { s with
      ops := fun i => if i ∈ s.inflight then (s.ops i).settle (.error e) else s.ops i
      inflight := []
      fatalErr := some e
      stack := .loop :: s.stack
      todo := s.fatalCbs } := by
  rw [fireFatal, h, foldl_fail]
  simp

@[simp] theorem countP_loop (stack : List (Frame κ)) :
    (loop :: stack).countP isLoop = stack.countP isLoop + 1 :=
  countP_cons_of_pos rfl

end Parts

/-! ### Invariants -/

/-- The operations in flight have started, are not settled, and wait for their `run()` with their
timers set, in a session that is not dead. -/
structure OpsInv (opTimeoutMs : ℕ) (s : Watchdog κ ρ ε) : Prop where
  fresh : ∀ i, s.nextOp ≤ i → (s.ops i).run = .unstarted ∧ (s.ops i).timer = false ∧
    (s.ops i).result = none
  started : ∀ i, i < s.nextOp → (s.ops i).run ≠ .unstarted
  frames : ∀ i, .run i ∈ s.stack ∨ .timeout i ∈ s.stack → i < s.nextOp
  inflight : ∀ i, i ∈ s.inflight ↔ (s.ops i).run ≠ .unstarted ∧ (s.ops i).result = none
  waiting : ∀ i, i ∈ s.inflight → (s.ops i).run ≠ .done ∧ (s.ops i).timer = decide (0 < opTimeoutMs)
  timer : ∀ i, (s.ops i).timer = true → i ∈ s.inflight
  alive : s.fatalErr.isSome = true → s.inflight = []

/-- The loop over the listeners is entered once. While it runs every listener has been called or is
still to come; when it is over nobody is left. -/
structure LoopInv (s : Watchdog κ ρ ε) : Prop where
  healthy : s.fatalErr = none → s.todo = [] ∧ s.ran = [] ∧ s.stack.countP isLoop = 0
  loops : s.stack.countP isLoop ≤ 1
  finished : s.fatalErr.isSome = true → s.stack.countP isLoop = 0 → s.fatalCbs = []
  nodup : s.fatalCbs.Nodup
  once : (s.ran ++ s.todo).Nodup
  called : s.fatalErr.isSome = true → ∀ c ∈ s.fatalCbs, c ∈ s.ran ∨ c ∈ s.todo

variable {opTimeoutMs : ℕ} {s s' : Watchdog κ ρ ε}

section

variable (hs : s.OpsInv opTimeoutMs)
include hs

theorem OpsInv.settle {i : ℕ} (hi : i < s.nextOp)
    (r : Except (OpError ε) ρ) : (s.settle i r).OpsInv opTimeoutMs := by
  obtain ⟨hfresh, hstarted, hframes, hinflight, hwaiting, htimer, halive⟩ := hs
  refine ⟨?_, ?_, hframes, ?_, ?_, ?_, ?_⟩
  case refine_6 =>
    intro hfatal
    simp [Watchdog.settle, halive hfatal]
  all_goals
    simp only [ops_settle, mem_inflight_settle]
    grind [settle]

theorem OpsInv.setRun {i : ℕ} (hi : i < s.nextOp) {run : RunState ρ ε} (hrun : run ≠ .unstarted)
    (hdone : run = .done → i ∉ s.inflight) : (s.setRun i run).OpsInv opTimeoutMs := by
  obtain ⟨hfresh, hstarted, hframes, hinflight, hwaiting, htimer, halive⟩ := hs
  refine ⟨?_, ?_, hframes, ?_, ?_, ?_, halive⟩
  all_goals
    simp only [ops_setRun]
    grind [setRun]

theorem OpsInv.settleRun {i : ℕ} (hi : i < s.nextOp)
    (r : Except (OpError ε) ρ) : ((s.setRun i .done).settle i r).OpsInv opTimeoutMs := by
  have hcomm : (s.setRun i .done).settle i r = (s.settle i r).setRun i .done := by
    simp [Watchdog.settle, Watchdog.setRun, GuardedOp.settle, GuardedOp.setRun]
  rw [hcomm]
  refine (hs.settle hi r).setRun hi nofun fun _ => ?_
  simp [mem_inflight_settle]

theorem OpsInv.of_eq (hops : s'.ops = s.ops)
    (hnext : s'.nextOp = s.nextOp)
    (hinflight : s'.inflight = s.inflight) (hfatal : s'.fatalErr = s.fatalErr)
    (hframes : ∀ i, .run i ∈ s'.stack ∨ .timeout i ∈ s'.stack → .run i ∈ s.stack ∨
      .timeout i ∈ s.stack) :
    s'.OpsInv opTimeoutMs := by
  obtain ⟨hfresh, hstarted, hframes', hinflight', hwaiting, htimer, halive⟩ := hs
  refine ⟨?_, ?_, fun i hi => hnext ▸ hframes' i (hframes i hi), ?_, ?_, ?_, ?_⟩ <;>
    simpa only [hops, hnext, hinflight, hfatal]

theorem OpsInv.lt_nextOp {i : ℕ} (hi : (s.ops i).run ≠ .unstarted) : i < s.nextOp := by
  by_contra hle
  exact hi (hs.fresh i (Nat.le_of_not_lt hle)).1

theorem OpsInv.fatalErr_eq_none {i : ℕ} (hi : i ∈ s.inflight) : s.fatalErr = none := by
  by_contra hne
  rw [hs.alive (isSome_iff_ne_none.mpr hne)] at hi
  exact absurd hi not_mem_nil

theorem OpsInv.guard : (s.guard opTimeoutMs).OpsInv opTimeoutMs := by
  obtain ⟨hfresh, hstarted, hframes, hinflight, hwaiting, htimer, halive⟩ := hs
  rw [Watchdog.guard]
  split
  · next e he =>
    constructor <;> simp only [update_apply] <;> grind
  · next he =>
    constructor <;> simp only [update_apply] <;> grind

theorem OpsInv.fireFatal (e : OpError ε) : (s.fireFatal e).OpsInv opTimeoutMs := by
  cases he : s.fatalErr with
  | some e' => simpa [Watchdog.fireFatal, he] using hs
  | none =>
    obtain ⟨hfresh, hstarted, hframes, hinflight, hwaiting, htimer, halive⟩ := hs
    rw [fireFatal_eq he]
    constructor <;> grind

end

theorem LoopInv.of_eq (hs : s.LoopInv) (hfatal : s'.fatalErr = s.fatalErr)
    (hcbs : s'.fatalCbs = s.fatalCbs) (htodo : s'.todo = s.todo) (hran : s'.ran = s.ran)
    (hstack : s'.stack.countP isLoop = s.stack.countP isLoop) : s'.LoopInv := by
  obtain ⟨hhealthy, hloops, hover, hnodup, honce, hcalled⟩ := hs
  constructor <;> simp only [hfatal, hcbs, htodo, hran, hstack] <;> assumption

theorem LoopInv.fireFatal (hs : s.LoopInv) (e : OpError ε) : (s.fireFatal e).LoopInv := by
  cases he : s.fatalErr with
  | some e' => simpa [Watchdog.fireFatal, he] using hs
  | none =>
    obtain ⟨hhealthy, hloops, hover, hnodup, honce, hcalled⟩ := hs
    obtain ⟨-, hran, hnone⟩ := hhealthy he
    rw [fireFatal_eq he]
    refine ⟨nofun, ?_, fun _ h => ?_, hnodup, ?_, fun _ c hc => .inr hc⟩
    · simpa using hnone
    · simp at h
    · simpa [hran] using hnodup

theorem LoopInv.guard (hs : s.LoopInv) : (s.guard opTimeoutMs).LoopInv := by
  rw [Watchdog.guard]
  split
  · exact hs.of_eq rfl rfl rfl rfl rfl
  · exact hs.of_eq rfl rfl rfl rfl (by simp [isLoop])

section Listeners

variable [DecidableEq κ]

theorem LoopInv.onFatal (hs : s.LoopInv) (c : κ) : (s.onFatal c).LoopInv := by
  rw [Watchdog.onFatal]
  split_ifs with hfatal hc
  · exact hs.of_eq rfl rfl rfl rfl (by simp [isLoop])
  · exact hs
  · obtain ⟨hhealthy, hloops, hover, hnodup, honce, hcalled⟩ := hs
    refine ⟨hhealthy, hloops, fun h => absurd h hfatal, ?_, honce, fun h => absurd h hfatal⟩
    exact nodup_append.mpr ⟨hnodup, by simp, by grind⟩

theorem LoopInv.unsubscribe (hs : s.LoopInv) (c : κ) : (s.unsubscribe c).LoopInv := by
  obtain ⟨hhealthy, hloops, hover, hnodup, honce, hcalled⟩ := hs
  refine ⟨hhealthy, hloops, fun hfatal hnone => ?_, hnodup.filter _, honce, fun hfatal x hx => ?_⟩
  · simp [Watchdog.unsubscribe, hover hfatal hnone]
  · exact hcalled hfatal x ((mem_filter.mp hx).1)

theorem LoopInv.next (hs : s.LoopInv) {rest : List (Frame κ)} (hstack : s.stack = .loop :: rest) :
    (s.next rest).LoopInv := by
  obtain ⟨hhealthy, hloops, hover, hnodup, honce, hcalled⟩ := hs
  have hcount : s.stack.countP isLoop = rest.countP isLoop + 1 := by
    rw [hstack, countP_loop]
  have hrest : rest.countP isLoop = 0 := by omega
  have hfatal : s.fatalErr ≠ none := fun h => by
    have := (hhealthy h).2.2
    omega
  rw [Watchdog.next]
  split
  · next htodo =>
    exact ⟨fun h => absurd h hfatal, hrest ▸ Nat.zero_le 1, fun _ _ => rfl, nodup_nil, honce, nofun⟩
  · next c todo htodo =>
    rw [htodo] at honce hcalled
    split_ifs with hc
    · have hcount' : (listener c :: s.stack).countP isLoop = 1 := by
        rw [countP_cons_of_neg (by simp [isLoop]), hcount, hrest]
      refine ⟨fun h => absurd h hfatal, Nat.le_of_eq hcount', fun _ h => ?_, hnodup, ?_,
        fun h x hx => ?_⟩
      · exact absurd (hcount'.symm.trans h) Nat.one_ne_zero
      · simpa using honce
      · rcases hcalled h x hx with hx' | hx'
        · exact .inl (mem_append_left _ hx')
        · rcases mem_cons.mp hx' with rfl | hx'
          · exact .inl (by simp)
          · exact .inr hx'
    · refine ⟨fun h => absurd h hfatal, hloops, hover, hnodup, ?_, fun h x hx => ?_⟩
      · exact honce.sublist (by simp)
      · rcases hcalled h x hx with hx' | hx'
        · exact .inl hx'
        · rcases mem_cons.mp hx' with rfl | hx'
          · exact absurd hx hc
          · exact .inr hx'

/-- What holds along every run. -/
structure Inv (opTimeoutMs : ℕ) (s : Watchdog κ ρ ε) : Prop where
  ops : s.OpsInv opTimeoutMs
  loop : s.LoopInv

omit [DecidableEq κ] in
theorem inv_init : (init : Watchdog κ ρ ε).Inv opTimeoutMs where
  ops := by constructor <;> simp [init]
  loop := by constructor <;> simp [init]

omit [DecidableEq κ] in
theorem Inv.pop (hs : s.Inv opTimeoutMs) {f : Frame κ} {rest : List (Frame κ)}
    (hstack : s.stack = f :: rest) (hf : f.isLoop = false) :
    ({ s with stack := rest } : Watchdog κ ρ ε).Inv opTimeoutMs where
  ops := hs.ops.of_eq rfl rfl rfl rfl fun i hi => by simpa [hstack] using hi.imp .inr .inr
  loop := hs.loop.of_eq rfl rfl rfl rfl (by simp [hstack, hf])

/-- The steps of the watchdog. A listener that returns or throws is only taken off the stack. -/
inductive Steps (opTimeoutMs : ℕ) (s : Watchdog κ ρ ε) :
    WatchdogAct κ ρ ε → Watchdog κ ρ ε → Prop
  | guard : Steps opTimeoutMs s .guard (s.guard opTimeoutMs)
  | fireFatal (e : ε) : Steps opTimeoutMs s (.fireFatal e) (s.fireFatal (.given e))
  | onFatal (c : κ) : Steps opTimeoutMs s (.onFatal c) (s.onFatal c)
  | unsubscribe (c : κ) : Steps opTimeoutMs s (.unsubscribe c) (s.unsubscribe c)
  | runs {i : ℕ} {rest : List (Frame κ)} : s.stack = .run i :: rest →
      Steps opTimeoutMs s .returns ({ s with stack := rest }.setRun i .pending)
  | throws {i : ℕ} {rest : List (Frame κ)} (e : ε) : s.stack = .run i :: rest →
      Steps opTimeoutMs s (.throws e)
        (({ s with stack := rest }.setRun i .done).settle i (.error (.given e)))
  | pop {f : Frame κ} {rest : List (Frame κ)} (l : WatchdogAct κ ρ ε) : s.stack = f :: rest →
      f.isLoop = false → Steps opTimeoutMs s l { s with stack := rest }
  | next {rest : List (Frame κ)} : s.stack = .loop :: rest →
      Steps opTimeoutMs s .next (s.next rest)
  | expire {i : ℕ} {rest : List (Frame κ)} : s.stack = .timeout i :: rest →
      Steps opTimeoutMs s .expire ({ s with stack := rest }.settle i (.error (.timedOut i)))
  | settleRun {i : ℕ} (r : Except ε ρ) : (s.ops i).run = .pending →
      Steps opTimeoutMs s (.settleRun i r) (s.setRun i (.settled r))
  | react {i : ℕ} {r : Except ε ρ} : s.stack = [] → (s.ops i).run = .settled r →
      Steps opTimeoutMs s (.react i) ((s.setRun i .done).settle i (r.mapError .given))
  | timer {i : ℕ} : s.stack = [] → (s.ops i).timer = true →
      Steps opTimeoutMs s (.timer i) ({ s with stack := [.timeout i] }.fireFatal (.timedOut i))
  | handler {i : ℕ} : (s.ops i).result.isSome = true →
      Steps opTimeoutMs s (.handler i) { s with ops := update s.ops i (s.ops i).handle }

variable {l : WatchdogAct κ ρ ε}

theorem steps_of_step (h : watchdogStep opTimeoutMs s l = some s') : s.Steps opTimeoutMs l s' := by
  cases l with
  | guard | fireFatal e | onFatal c | unsubscribe c =>
    obtain ⟨-, ⟨⟩⟩ := ite_none_right_eq_some.mp h
    constructor
  | timer i =>
    obtain ⟨⟨hstack, htimer⟩, ⟨⟩⟩ := ite_none_right_eq_some.mp h
    exact .timer (isEmpty_iff.mp hstack) htimer
  | handler i =>
    obtain ⟨⟨-, hresult, -⟩, ⟨⟩⟩ := ite_none_right_eq_some.mp h
    exact .handler hresult
  | returns =>
    simp only [watchdogStep] at h
    split at h <;> cases h
    · exact .runs ‹_›
    · exact .pop _ ‹_› rfl
    · exact .pop _ ‹_› rfl
  | throws e =>
    simp only [watchdogStep] at h
    split at h <;> cases h
    · exact .throws e ‹_›
    · exact .pop _ ‹_› rfl
    · exact .pop _ ‹_› rfl
  | next =>
    simp only [watchdogStep] at h
    split at h <;> cases h
    exact .next ‹_›
  | expire =>
    simp only [watchdogStep] at h
    split at h <;> cases h
    exact .expire ‹_›
  | settleRun i r =>
    simp only [watchdogStep] at h
    split at h <;> cases h
    exact .settleRun r ‹_›
  | react i =>
    simp only [watchdogStep] at h
    split at h <;> cases h
    · exact .react (r := .ok _) ‹_› ‹_›
    · exact .react (r := .error _) ‹_› ‹_›

theorem OpsInv.next (hs : s.OpsInv opTimeoutMs) {rest : List (Frame κ)}
    (hstack : s.stack = .loop :: rest) : (s.next rest).OpsInv opTimeoutMs := by
  rw [Watchdog.next]
  split
  · exact hs.of_eq rfl rfl rfl rfl (by simp [hstack])
  · split_ifs
    · exact hs.of_eq rfl rfl rfl rfl (by simp)
    · exact hs.of_eq rfl rfl rfl rfl fun _ => id

theorem Inv.step (hs : s.Inv opTimeoutMs) (h : s.Steps opTimeoutMs l s') : s'.Inv opTimeoutMs := by
  cases h with
  | guard => exact ⟨hs.ops.guard, hs.loop.guard⟩
  | fireFatal e => exact ⟨hs.ops.fireFatal _, hs.loop.fireFatal _⟩
  | onFatal c =>
    refine ⟨?_, hs.loop.onFatal c⟩
    rw [onFatal]
    split_ifs <;> exact hs.ops.of_eq rfl rfl rfl rfl (by simp)
  | unsubscribe c => exact ⟨hs.ops.of_eq rfl rfl rfl rfl fun _ => id, hs.loop.unsubscribe c⟩
  | runs hstack =>
    have hi := hs.ops.frames _ (.inl (by rw [hstack]; exact mem_cons_self))
    have hpop := hs.pop hstack rfl
    exact ⟨hpop.ops.setRun hi nofun nofun, { hpop.loop with }⟩
  | throws e hstack =>
    have hi := hs.ops.frames _ (.inl (by rw [hstack]; exact mem_cons_self))
    have hpop := hs.pop hstack rfl
    exact ⟨hpop.ops.settleRun hi _, { hpop.loop with }⟩
  | pop _ hstack hf => exact hs.pop hstack hf
  | next hstack => exact ⟨hs.ops.next hstack, hs.loop.next hstack⟩
  | expire hstack =>
    have hi := hs.ops.frames _ (.inr (by rw [hstack]; exact mem_cons_self))
    have hpop := hs.pop hstack rfl
    exact ⟨hpop.ops.settle hi _, { hpop.loop with }⟩
  | settleRun r hrun =>
    have hi := hs.ops.lt_nextOp (by rw [hrun]; nofun)
    exact ⟨hs.ops.setRun hi nofun nofun, { hs.loop with }⟩
  | react _ hrun =>
    have hi := hs.ops.lt_nextOp (by rw [hrun]; nofun)
    exact ⟨hs.ops.settleRun hi _, { hs.loop with }⟩
  | @timer i hempty htimer =>
    have hi := hs.ops.lt_nextOp ((hs.ops.inflight i).mp (hs.ops.timer i htimer)).1
    have hinv : ({ s with stack := [.timeout i] } : Watchdog κ ρ ε).Inv opTimeoutMs :=
      ⟨{ hs.ops with frames := by simpa using hi },
        hs.loop.of_eq rfl rfl rfl rfl (by simp [hempty, isLoop])⟩
    exact ⟨hinv.ops.fireFatal _, hinv.loop.fireFatal _⟩
  | handler hresult =>
    refine ⟨?_, { hs.loop with }⟩
    obtain ⟨hfresh, hstarted, hframes, hinflight, hwaiting, htimer, halive⟩ := hs.ops
    refine ⟨?_, ?_, hframes, ?_, ?_, ?_, halive⟩
    all_goals
      simp only [update_apply]
      grind [GuardedOp.handle]

/-! ### What a run does -/

def Owed (s : Watchdog κ ρ ε) (c : κ) : Prop :=
  c ∈ s.fatalCbs ∧ (s.fatalErr = none ∨ c ∈ s.todo)

/-- What is settled stays as it is, the first fatal error stays and settles what is in flight, the
loop calls a listener that is owed, and a listener is owed until it is called or unsubscribed. -/
structure Advance (l : WatchdogAct κ ρ ε) (s s' : Watchdog κ ρ ε) : Prop where
  result : ∀ i r, (s.ops i).result = some r → (s'.ops i).result = some r
  fatal : ∀ e, s.fatalErr = some e → s'.fatalErr = some e
  fails : s.fatalErr = none → ∀ e, s'.fatalErr = some e →
    ∀ i ∈ s.inflight, (s'.ops i).result = some (.error e)
  ran : s'.ran = s.ran ∨
    ∃ c, s.Owed c ∧ s'.ran = s.ran ++ [c] ∧ s'.stack = .listener c :: s.stack
  owed : ∀ c, s.Owed c → l ≠ .unsubscribe c → s'.Owed c ∨ c ∈ s'.ran

section

omit [DecidableEq κ]

theorem Advance.of_eq (hresult : ∀ i r, (s.ops i).result = some r → (s'.ops i).result = some r)
    (hfatal : s'.fatalErr = s.fatalErr) (hran : s'.ran = s.ran) (hcbs : s'.fatalCbs = s.fatalCbs)
    (htodo : s'.todo = s.todo) : Advance l s s' where
  result := hresult
  fatal _ he := hfatal.trans he
  fails hnone _ he := absurd (hnone.symm.trans (hfatal.symm.trans he)) nofun
  ran := .inl hran
  owed c hc _ := .inl (by rwa [Owed, hcbs, hfatal, htodo])

theorem Advance.fireFatal (hs : ∀ i ∈ s.inflight, (s.ops i).result = none) (e : OpError ε) :
    Advance l s (s.fireFatal e) := by
  cases he : s.fatalErr with
  | some e' =>
    rw [Watchdog.fireFatal, he]
    exact .of_eq (fun _ _ => id) rfl rfl rfl rfl
  | none =>
    rw [fireFatal_eq he]
    refine ⟨fun i r hr => ?_, fun e' he' => absurd (he.symm.trans he') nofun,
      fun _ e' he' i hi => ?_, .inl rfl, fun c hc _ => .inl ⟨hc.1, .inr hc.1⟩⟩
    · dsimp only
      split_ifs <;> simp [hr]
    · cases he'
      simp [hi, hs i hi]

theorem ran_fireFatal (e : OpError ε) : (s.fireFatal e).ran = s.ran := by
  cases he : s.fatalErr with
  | some e' => simp [fireFatal, he]
  | none => rw [fireFatal_eq he]

end

theorem Inv.advance_next (hs : s.Inv opTimeoutMs) {rest : List (Frame κ)}
    (hstack : s.stack = .loop :: rest) : Advance l s (s.next rest) := by
  have hfatal : s.fatalErr ≠ none := fun hnone => by
    have := (hs.loop.healthy hnone).2.2
    simp [hstack] at this
  rw [next]
  split
  · next htodo =>
    refine ⟨fun _ _ => id, fun _ => id, fun hnone => absurd hnone hfatal, .inl rfl,
      fun c hc _ => ?_⟩
    simp [Owed, hfatal, htodo] at hc
  · next c todo htodo =>
    split_ifs with hc
    · refine ⟨fun _ _ => id, fun _ => id, fun hnone => absurd hnone hfatal,
        .inr ⟨c, ⟨hc, .inr (by simp [htodo])⟩, rfl, rfl⟩, fun x hx _ => ?_⟩
      simp only [Owed, hfatal, htodo, mem_cons, false_or] at hx ⊢
      grind
    · refine ⟨fun _ _ => id, fun _ => id, fun hnone => absurd hnone hfatal, .inl rfl,
        fun x hx _ => ?_⟩
      simp only [Owed, hfatal, htodo, mem_cons, false_or] at hx ⊢
      grind

theorem Inv.advance (hs : s.Inv opTimeoutMs) (h : s.Steps opTimeoutMs l s') : Advance l s s' := by
  have hinflight : ∀ i ∈ s.inflight, (s.ops i).result = none := fun i hi =>
    ((hs.ops.inflight i).mp hi).2
  cases h with
  | guard =>
    have hnew := (hs.ops.fresh s.nextOp (Nat.le_refl _)).2.2
    rw [guard]
    split
    all_goals
      refine .of_eq (fun i r hr => ?_) rfl rfl rfl rfl
      simp only [update_apply]
      split_ifs <;> grind
  | fireFatal e => exact .fireFatal hinflight _
  | onFatal c =>
    rw [onFatal]
    split_ifs
    · exact .of_eq (fun _ _ => id) rfl rfl rfl rfl
    · exact .of_eq (fun _ _ => id) rfl rfl rfl rfl
    · exact ⟨fun _ _ => id, fun _ => id, fun hnone _ he => absurd (hnone.symm.trans he) nofun,
        .inl rfl, fun x hx _ => .inl ⟨mem_append_left _ hx.1, hx.2⟩⟩
  | unsubscribe c =>
    refine ⟨fun _ _ => id, fun _ => id, fun hnone _ he => absurd (hnone.symm.trans he) nofun,
      .inl rfl, fun x hx hne => .inl ⟨?_, hx.2⟩⟩
    have hxc : x ≠ c := fun heq => hne (heq ▸ rfl)
    simp [unsubscribe, hx.1, hxc]
  | runs _ | settleRun _ _ => exact .of_eq (fun _ _ hr => result_setRun.trans hr) rfl rfl rfl rfl
  | throws _ _ | react _ _ =>
    exact .of_eq (fun _ _ hr => result_settle (result_setRun.trans hr)) rfl rfl rfl rfl
  | pop _ _ _ => exact .of_eq (fun _ _ => id) rfl rfl rfl rfl
  | next hstack => exact hs.advance_next hstack
  | expire _ => exact .of_eq (fun _ _ hr => result_settle hr) rfl rfl rfl rfl
  | @timer i _ _ =>
    have hadvance : Advance (.timer i) { s with stack := [.timeout i] }
        ({ s with stack := [.timeout i] }.fireFatal (.timedOut i)) :=
      Advance.fireFatal (s := { s with stack := [.timeout i] }) hinflight _
    exact { hadvance with ran := .inl (ran_fireFatal _) }
  | handler _ =>
    refine .of_eq (fun j r hr => ?_) rfl rfl rfl rfl
    simp only [update_apply]
    split_ifs <;> grind [GuardedOp.handle]

theorem inv_of_reach (h : (watchdogMachine opTimeoutMs).Reach (fun _ _ => True) init s) :
    s.Inv opTimeoutMs :=
  h.invariant inv_init fun _ _ _ hs _ hstep => hs.step (steps_of_step hstep)

/-- What an operation settles with when its `run()` has settled or has thrown, and when its timer is
up. -/
structure Settles (opTimeoutMs : ℕ) (s : Watchdog κ ρ ε) : Prop where
  react : ∀ i r, s.stack = [] → (s.ops i).run = .settled r →
    ∃ s', watchdogStep opTimeoutMs s (.react i) = some s' ∧
      (s'.ops i).result = (s.ops i).result.or (some (r.mapError .given))
  throws : ∀ i rest e, s.stack = .run i :: rest →
    ∃ s', watchdogStep opTimeoutMs s (.throws e) = some s' ∧
      (s'.ops i).result = (s.ops i).result.or (some (.error (.given e)))
  timer : ∀ i, s.stack = [] → (s.ops i).timer = true →
    ∃ s', watchdogStep opTimeoutMs s (.timer i) = some s' ∧
      (s'.ops i).result = some (.error (.timedOut i))

theorem Inv.settles (hs : s.Inv opTimeoutMs) : s.Settles opTimeoutMs where
  react i r hstack hrun := by
    cases r with
    | ok v =>
      refine ⟨(s.setRun i .done).settle i (.ok v), by simp [watchdogStep, hstack, hrun], ?_⟩
      simp [ops_settle, ops_setRun, Except.mapError]
    | error e =>
      refine ⟨(s.setRun i .done).fail i (.given e), by simp [watchdogStep, hstack, hrun], ?_⟩
      simp [fail, ops_settle, ops_setRun, Except.mapError]
  throws i rest e hstack := by
    refine ⟨({ s with stack := rest }.setRun i .done).fail i (.given e),
      by simp [watchdogStep, hstack], ?_⟩
    simp [fail, ops_settle, ops_setRun]
  timer i hstack htimer := by
    have hi := hs.ops.timer i htimer
    refine ⟨_, by simp [watchdogStep, hstack, htimer]; rfl, ?_⟩
    rw [fireFatal_eq (s := { s with stack := [.timeout i] }) (hs.ops.fatalErr_eq_none hi)]
    simp [hi, ((hs.ops.inflight i).mp hi).2]

/-- How much the calls on the stack have left to do: a listener that is still to come is called and
returns. -/
def work (s : Watchdog κ ρ ε) : ℕ := 2 * s.todo.length + s.stack.length

end Listeners

end Watchdog

open Watchdog

end Anyfs
