import Anyfs.Lib.Machine
import Anyfs.Lib.Serial

/-!
# The op queue of a session

`serialize` hangs each function onto the promise of the call before it, and `opQueue` is the promise
of the last call with its failure swallowed. A call is refused at once after `dispose`, and is
rejected when its turn comes after `dispose` or after a fatal error.

A step is something that the surroundings do or one promise job; jobs run in any order.
-/

namespace Anyfs

open List Option

/-- What a call is rejected with. -/
inductive SessionError (ε : Type*) where
  | disposed
  | fatal (e : ε)
  | failed (e : ε)
  deriving DecidableEq

/-- Where a call of `serialize` stands: queued, running, the function's promise settled, the
caller's settled, the one in `opQueue` settled, or refused. -/
inductive QueuedCall (ρ ε : Type*) where
  | queued
  | running
  | returned (r : Except (SessionError ε) ρ)
  | settled (r : Except (SessionError ε) ρ)
  | released (r : Except (SessionError ε) ρ)
  | refused

open QueuedCall

namespace QueuedCall

variable {ρ ε : Type*}

/-- What the caller sees, once settled. -/
def result : QueuedCall ρ ε → Option (Except (SessionError ε) ρ)
  | .settled r => some r
  | .released r => some r
  | .refused => some (.error .disposed)
  | _ => none

def outcome : QueuedCall ρ ε → Option (Except (SessionError ε) ρ)
  | .returned r => some r
  | c => c.result

def isReleased : QueuedCall ρ ε → Bool
  | .released _ => true
  | _ => false

def isRefused : QueuedCall ρ ε → Bool
  | .refused => true
  | _ => false

def Waiting (c : QueuedCall ρ ε) : Prop := c = .queued ∨ c = .refused

def Released (c : QueuedCall ρ ε) : Prop := c.isReleased = true

def weight : QueuedCall ρ ε → ℕ
  | .queued => 4
  | .running => 3
  | .returned _ => 2
  | .settled _ => 1
  | _ => 0

end QueuedCall

/-- What `serialize` reads and writes. The calls are in the order in which they were made. -/
structure OpQueue (ρ ε : Type*) where
  disposed : Bool
  fatalErr : Option ε
  calls : List (QueuedCall ρ ε)

namespace OpQueue

variable {ρ ε : Type*}

def init : OpQueue ρ ε := ⟨false, none, []⟩

variable (q : OpQueue ρ ε) (i : ℕ)

def put (c : QueuedCall ρ ε) : OpQueue ρ ε :=
  { q with calls := q.calls.set i c }

def isRunning : Bool :=
  match q.calls[i]? with
  | some .running => true
  | _ => false

def result : Option (Except (SessionError ε) ρ) :=
  q.calls[i]?.bind QueuedCall.result

/-- A call is queued, or refused. -/
def serialize : OpQueue ρ ε :=
  { q with calls := q.calls ++ [if q.disposed then .refused else .queued] }

/-- The call before it has released the queue. -/
def openFor : ℕ → Bool
  | 0 => true
  | i + 1 => q.calls[i]?.any isReleased

/-- The checks before the function runs. -/
def begin : QueuedCall ρ ε :=
  match q.fatalErr with
  | some e => .settled (.error (.fatal e))
  | none => if q.disposed then .settled (.error .disposed) else .running

/-- The turn of call `i` comes. -/
def turn : Option (OpQueue ρ ε) :=
  match q.calls[i]? with
  | some .queued => if q.openFor i then some (q.put i q.begin) else none
  | _ => none

def finish (r : Except (SessionError ε) ρ) : Option (OpQueue ρ ε) :=
  match q.calls[i]? with
  | some .running => some (q.put i (.returned r))
  | _ => none

def throw (e : SessionError ε) : Option (OpQueue ρ ε) :=
  match q.calls[i]? with
  | some .running => some (q.put i (.settled (.error e)))
  | _ => none

def adopt : Option (OpQueue ρ ε) :=
  match q.calls[i]? with
  | some (.returned r) => some (q.put i (.settled r))
  | _ => none

/-- The promise in `opQueue` settles, whatever the call's outcome. -/
def release : Option (OpQueue ρ ε) :=
  match q.calls[i]? with
  | some (.settled r) => some (q.put i (.released r))
  | _ => none

/-- `queueIdle`: the promise in `opQueue` is that of the last call that was not refused. -/
def queueIdle : Bool :=
  (q.calls.reverse.find? fun c => !c.isRefused).all isReleased

def dispose : OpQueue ρ ε := { q with disposed := true }

/-- `fireFatal`: the first error stays. -/
def fireFatal (e : ε) : OpQueue ρ ε := { q with fatalErr := q.fatalErr.or (some e) }

def Over : Prop := q.disposed = true ∨ q.fatalErr.isSome = true

/-- Call `i` starts to run. -/
def Starts (q q' : OpQueue ρ ε) (i : ℕ) : Prop :=
  q.calls[i]? = some .queued ∧ q'.calls[i]? = some .running

end OpQueue

/-- The steps of the queue. -/
inductive QueueAct (ρ ε : Type*) where
  | serialize
  | turn (i : ℕ)
  | finish (i : ℕ) (r : Except (SessionError ε) ρ)
  | throw (i : ℕ) (e : SessionError ε)
  | adopt (i : ℕ)
  | release (i : ℕ)
  | close
  | fireFatal (e : ε)

def QueueAct.isJob {ρ ε : Type*} : QueueAct ρ ε → Bool
  | .turn _ | .adopt _ | .release _ => true
  | _ => false

section Step

variable {ρ ε : Type*}

/-- The steps of the queue. -/
def queueStep (q : OpQueue ρ ε) : QueueAct ρ ε → Option (OpQueue ρ ε)
  | .serialize => some q.serialize
  | .turn i => q.turn i
  | .finish i r => q.finish i r
  | .throw i e => q.throw i e
  | .adopt i => q.adopt i
  | .release i => q.release i
  | .close => some q.dispose
  | .fireFatal e => some (q.fireFatal e)

end Step

namespace OpQueue

variable {ρ ε : Type*}

def Quiet (q : OpQueue ρ ε) : Prop := ∀ l, l.isJob = true → queueStep q l = none

/-! ### What a step can do -/

/-- What a step does to one call. -/
inductive CallStep (q : OpQueue ρ ε) (i : ℕ) : QueuedCall ρ ε → QueuedCall ρ ε → Prop
  | turn : q.openFor i = true → CallStep q i .queued q.begin
  | finish (r : Except (SessionError ε) ρ) : CallStep q i .running (.returned r)
  | throw (e : SessionError ε) : CallStep q i .running (.settled (.error e))
  | adopt (r : Except (SessionError ε) ρ) : CallStep q i (.returned r) (.settled r)
  | release (r : Except (SessionError ε) ρ) : CallStep q i (.settled r) (.released r)

/-- What a step does to the queue. -/
inductive Moves (q : OpQueue ρ ε) : OpQueue ρ ε → Prop
  | call : Moves q q.serialize
  | step {i : ℕ} {a b : QueuedCall ρ ε} : q.calls[i]? = some a → CallStep q i a b →
    Moves q (q.put i b)
  | dispose : Moves q q.dispose
  | fireFatal (e : ε) : Moves q (q.fireFatal e)

variable {q q' : OpQueue ρ ε} {l : QueueAct ρ ε} {i j : ℕ} {a b : QueuedCall ρ ε}

theorem turn_eq (h : q.turn i = some q') :
    q.calls[i]? = some .queued ∧ q.openFor i = true ∧ q' = q.put i q.begin := by
  rw [turn] at h
  split at h
  · next hi =>
    obtain ⟨hopen, ⟨⟩⟩ := ite_none_right_eq_some.mp h
    exact ⟨hi, hopen, rfl⟩
  · cases h

theorem finish_eq {r : Except (SessionError ε) ρ} (h : q.finish i r = some q') :
    q.calls[i]? = some .running ∧ q' = q.put i (.returned r) := by
  rw [finish] at h
  split at h
  · next hi => exact ⟨hi, (some.inj h).symm⟩
  · cases h

theorem throw_eq {e : SessionError ε} (h : q.throw i e = some q') :
    q.calls[i]? = some .running ∧ q' = q.put i (.settled (.error e)) := by
  rw [throw] at h
  split at h
  · next hi => exact ⟨hi, (some.inj h).symm⟩
  · cases h

theorem adopt_eq (h : q.adopt i = some q') :
    ∃ r, q.calls[i]? = some (.returned r) ∧ q' = q.put i (.settled r) := by
  rw [adopt] at h
  split at h
  · next r hi => exact ⟨r, hi, (some.inj h).symm⟩
  · cases h

theorem release_eq (h : q.release i = some q') :
    ∃ r, q.calls[i]? = some (.settled r) ∧ q' = q.put i (.released r) := by
  rw [release] at h
  split at h
  · next r hi => exact ⟨r, hi, (some.inj h).symm⟩
  · cases h

theorem moves_of_step (h : queueStep q l = some q') : q.Moves q' := by
  cases l with
  | serialize =>
    cases h
    exact .call
  | close =>
    cases h
    exact .dispose
  | fireFatal e =>
    cases h
    exact .fireFatal e
  | turn i =>
    obtain ⟨hi, hopen, rfl⟩ := turn_eq h
    exact .step hi (.turn hopen)
  | finish i r =>
    obtain ⟨hi, rfl⟩ := finish_eq h
    exact .step hi (.finish r)
  | throw i e =>
    obtain ⟨hi, rfl⟩ := throw_eq h
    exact .step hi (.throw e)
  | adopt i =>
    obtain ⟨r, hi, rfl⟩ := adopt_eq h
    exact .step hi (.adopt r)
  | release i =>
    obtain ⟨r, hi, rfl⟩ := release_eq h
    exact .step hi (.release r)

theorem begin_not_waiting : ¬ q.begin.Waiting := by
  rw [begin]
  split
  · simp [Waiting]
  · split_ifs <;> simp [Waiting]

theorem getElem?_put (hi : q.calls[i]? = some a) :
    (q.put i b).calls[j]? = if i = j then some b else q.calls[j]? := by
  obtain ⟨hlen, -⟩ := List.getElem?_eq_some_iff.mp hi
  rw [put, List.getElem?_set, if_pos hlen]

theorem calls_serialize (j : ℕ) : q.serialize.calls[j]? =
    if j = q.calls.length then some (if q.disposed then .refused else .queued)
    else q.calls[j]? := by
  by_cases hj : j = q.calls.length
  · rw [if_pos hj, hj, serialize, List.getElem?_concat_length]
  · rw [if_neg hj]
    rcases Nat.lt_or_gt_of_ne hj with hlt | hgt
    · rw [serialize, List.getElem?_append_left hlt]
    · rw [List.getElem?_eq_none (by simp only [serialize, length_append, length_singleton]; omega),
        List.getElem?_eq_none (by omega)]

theorem getElem?_serialize (hj : q.serialize.calls[j]? = some b) : q.calls[j]? = some b ∨
    (j = q.calls.length ∧ b = if q.disposed then .refused else .queued) := by
  rw [calls_serialize] at hj
  by_cases hlen : j = q.calls.length
  · rw [if_pos hlen] at hj
    exact .inr ⟨hlen, (some.inj hj).symm⟩
  · rw [if_neg hlen] at hj
    exact .inl hj

/-! ### Order -/

/-- The calls are served one after the other, and after a refused call there are only refused
ones. -/
structure Ordered (q : OpQueue ρ ε) : Prop where
  serial : Serial Waiting Released q.calls
  refused : ∀ (i j : ℕ) (c : QueuedCall ρ ε), i < j → q.calls[i]? = some .refused →
    q.calls[j]? = some c → c = .refused
  disposed : ∀ i : ℕ, q.calls[i]? = some .refused → q.disposed = true

theorem ordered_init : (init : OpQueue ρ ε).Ordered :=
  ⟨.nil, fun _ _ _ _ h => by simp [init] at h, fun _ h => by simp [init] at h⟩

theorem Ordered.doneBefore (hq : q.Ordered) (hopen : q.openFor i = true) :
    DoneBefore Released q.calls i := by
  cases i with
  | zero => exact fun j hj => absurd hj (Nat.not_lt_zero j)
  | succ i =>
    obtain ⟨c, hc, hreleased⟩ := (any_eq_true _ _).mp hopen
    have hnot : ¬ c.Waiting := by
      rintro (rfl | rfl) <;> cases hreleased
    intro j hj
    rcases Nat.lt_succ_iff_lt_or_eq.mp hj with hj | rfl
    · exact hq.serial.doneBefore hc hnot j hj
    · exact ⟨c, hc, hreleased⟩

theorem Ordered.released_of_idle (hq : q.Ordered) (hidle : q.queueIdle = true)
    (hi : q.calls[i]? = some a) : a.Released ∨ a = .refused := by
  by_contra hne
  obtain ⟨hreleased, hrefused⟩ := not_or.mp hne
  have ha : (!a.isRefused) = true := by
    cases a with
    | refused => exact absurd rfl hrefused
    | _ => rfl
  rw [queueIdle] at hidle
  cases hfind : q.calls.reverse.find? fun c => !c.isRefused with
  | none =>
    have := List.find?_eq_none.mp hfind a (mem_reverse.mpr (mem_of_getElem? hi))
    exact this ha
  | some d =>
    obtain ⟨hd, as, bs, hsplit, has⟩ := List.find?_eq_some_iff_append.mp hfind
    have hdone : d.Released := by simpa [hfind, Released] using hidle
    have hcalls : q.calls = bs.reverse ++ d :: as.reverse := by
      rw [← reverse_reverse q.calls, hsplit]
      simp
    have hget : q.calls[bs.reverse.length]? = some d := by simp [hcalls]
    have hwait : ¬ d.Waiting := by
      rintro (rfl | rfl) <;> cases hdone
    rcases Nat.lt_trichotomy i bs.reverse.length with hlt | rfl | hgt
    · obtain ⟨c, hc, hdone'⟩ := hq.serial.doneBefore hget hwait i hlt
      obtain rfl := some.inj (hc.symm.trans hi)
      exact hreleased hdone'
    · obtain rfl := some.inj (hget.symm.trans hi)
      exact hreleased hdone
    · rw [hcalls, List.getElem?_append_right (Nat.le_of_lt hgt)] at hi
      obtain ⟨k, hk⟩ := Nat.exists_eq_add_of_lt hgt
      rw [show i - bs.reverse.length = k + 1 by omega, List.getElem?_cons_succ] at hi
      have := has a (mem_reverse.mp (mem_of_getElem? hi))
      simp [ha] at this

theorem Ordered.serialize (hq : q.Ordered) : q.serialize.Ordered := by
  refine ⟨hq.serial.append ?_, fun i j c hij hi hj => ?_, fun i hi => ?_⟩
  · split_ifs <;> simp [Waiting]
  · rcases getElem?_serialize hj with hj | ⟨rfl, rfl⟩
    · have hlt : i < q.calls.length := Nat.lt_trans hij (List.getElem?_eq_some_iff.mp hj).1
      rw [OpQueue.serialize, List.getElem?_append_left hlt] at hi
      exact hq.refused i j c hij hi hj
    · rw [OpQueue.serialize, List.getElem?_append_left hij] at hi
      rw [hq.disposed i hi, if_pos rfl]
  · rcases getElem?_serialize hi with hi | ⟨-, hi⟩
    · exact hq.disposed i hi
    · change q.disposed = true
      by_contra hd
      rw [if_neg hd] at hi
      cases hi

theorem CallStep.ne_refused (h : q.CallStep i a b) : a ≠ .refused ∧ b ≠ .refused := by
  cases h with
  | turn _ => exact ⟨nofun, fun hb => begin_not_waiting (.inr hb)⟩
  | _ => exact ⟨nofun, nofun⟩

theorem Ordered.put (hq : q.Ordered) (hi : q.calls[i]? = some a) (h : q.CallStep i a b) :
    (q.put i b).Ordered := by
  obtain ⟨ha, hb⟩ := h.ne_refused
  have hget : ∀ j : ℕ, (q.put i b).calls[j]? = some .refused → q.calls[j]? = some .refused := by
    intro j hj
    rw [getElem?_put hi] at hj
    split_ifs at hj
    · exact absurd (some.inj hj) hb
    · exact hj
  refine ⟨?_, fun j k c hjk hj hk => ?_, fun j hj => hq.disposed j (hget j hj)⟩
  · cases h with
    | turn hopen => exact hq.serial.turn hi nofun (hq.doneBefore hopen)
    | _ => exact hq.serial.set hi (by rintro (h | h) <;> cases h) nofun
  · have hj' := hget j hj
    rw [getElem?_put hi] at hk
    split_ifs at hk with hik
    · subst hik
      exact absurd (hq.refused j i a hjk hj' hi) ha
    · exact hq.refused j k c hjk hj' hk

theorem Ordered.moves (hq : q.Ordered) (h : q.Moves q') : q'.Ordered := by
  cases h with
  | call => exact hq.serialize
  | step hi hstep => exact hq.put hi hstep
  | dispose => exact ⟨hq.serial, hq.refused, fun _ _ => rfl⟩
  | fireFatal e => exact ⟨hq.serial, hq.refused, hq.disposed⟩

/-- Any number of moves. -/
abbrev MovesTo : OpQueue ρ ε → OpQueue ρ ε → Prop := Relation.ReflTransGen Moves

/-- What every move keeps, any number of them keep. -/
theorem MovesTo.keeps {P : OpQueue ρ ε → Prop} (hP : ∀ {q q'}, Moves q q' → P q → P q')
    (h : MovesTo q q') (hq : P q) : P q' := by
  induction h with
  | refl => exact hq
  | tail _ hstep ih => exact hP hstep ih

theorem Ordered.of_moves (hq : q.Ordered) (h : MovesTo q q') : q'.Ordered :=
  h.keeps (fun hstep hq => hq.moves hstep) hq

def Barred (c : QueuedCall ρ ε) : Prop := c = .queued ∨ ∃ e, c.result = some (.error e)

theorem Over.moves (hq : q.Over) (h : q.Moves q') : q'.Over := by
  cases h with
  | call => exact hq
  | step _ _ => exact hq
  | dispose => exact .inl rfl
  | fireFatal e => exact .inr (by simp [OpQueue.fireFatal])

theorem Over.barred_begin (hq : q.Over) : Barred q.begin := by
  rw [begin]
  split
  · next e he => exact .inr ⟨_, rfl⟩
  · next he =>
    have hd : q.disposed = true := hq.resolve_right (by simp [he])
    rw [if_pos hd]
    exact .inr ⟨_, rfl⟩

/-- A call whose turn comes in a healthy session starts, whatever became of the calls before it, and
a function that runs can settle. -/
structure Runs (q : OpQueue ρ ε) : Prop where
  queued : q.disposed = false → q.serialize.calls[q.calls.length]? = some .queued
  starts : ∀ i q', q.disposed = false → q.fatalErr = none → queueStep q (.turn i) = some q' →
    q.Starts q' i
  settles : ∀ i r, q.calls[i]? = some .running →
    ∃ q', queueStep q (.finish i r) = some q' ∧ q'.calls[i]? = some (.returned r)

theorem runs (q : OpQueue ρ ε) : q.Runs where
  queued hd := by simp [calls_serialize, hd]
  starts i q' hd hf h := by
    obtain ⟨hi, -, rfl⟩ := turn_eq h
    refine ⟨hi, ?_⟩
    rw [getElem?_put hi, if_pos rfl, begin, hf]
    simp [hd]
  settles i r hi := by
    refine ⟨q.put i (.returned r), by simp [queueStep, finish, hi], ?_⟩
    rw [getElem?_put hi, if_pos rfl]

theorem isRunning_iff : q.isRunning i = true ↔ q.calls[i]? = some .running := by
  rw [isRunning]
  split <;> simp_all

theorem isRunning_put (hi : q.calls[i]? = some a) (hb : b ≠ .running) :
    (q.put i b).isRunning j = (q.isRunning j && decide (j ≠ i)) := by
  rw [Bool.eq_iff_iff, Bool.and_eq_true, isRunning_iff, isRunning_iff, getElem?_put hi]
  split_ifs with hij
  · simp [hij, hb]
  · simp [Ne.symm hij]

theorem isRunning_finish (r : Except (SessionError ε) ρ) :
    ((q.finish i r).getD q).isRunning j = (q.isRunning j && decide (j ≠ i)) := by
  rw [finish]
  split
  · next hi => exact isRunning_put hi nofun
  · next hi =>
    have hnot : q.isRunning i = false := by
      rw [Bool.eq_false_iff, ne_eq, isRunning_iff]
      exact hi
    by_cases hij : j = i <;> simp [hij, hnot]

theorem isRunning_serialize : q.serialize.isRunning j = q.isRunning j := by
  rw [Bool.eq_iff_iff, isRunning_iff, isRunning_iff]
  constructor
  · intro hj
    rcases getElem?_serialize hj with hj | ⟨-, hj⟩
    · exact hj
    · split_ifs at hj
  · intro hj
    have hlen := (List.getElem?_eq_some_iff.mp hj).1
    rwa [serialize, List.getElem?_append_left hlen]

theorem isRunning_put_of_ne (hi : q.calls[i]? = some a) (ha : a ≠ .running) (hb : b ≠ .running) :
    (q.put i b).isRunning j = q.isRunning j := by
  have hnot : q.isRunning i = false := by
    rw [Bool.eq_false_iff, ne_eq, isRunning_iff, hi]
    simpa using ha
  rw [isRunning_put hi hb]
  by_cases hij : j = i <;> simp [hij, hnot]

theorem isRunning_turn (h : q.turn i = some q') : q'.disposed = q.disposed ∧
    q'.fatalErr = q.fatalErr ∧ (∀ j, j ≠ i → q'.isRunning j = q.isRunning j) ∧
    q.isRunning i = false ∧ (q'.isRunning i = true → ¬ q.Over) := by
  obtain ⟨hi, -, rfl⟩ := turn_eq h
  refine ⟨rfl, rfl, fun j hj => ?_, ?_, fun hrun hover => ?_⟩
  · rw [Bool.eq_iff_iff, isRunning_iff, isRunning_iff, getElem?_put hi, if_neg (Ne.symm hj)]
  · simp [isRunning, hi]
  · rw [isRunning_iff, getElem?_put hi, if_pos rfl] at hrun
    rcases hover.barred_begin with hb | ⟨e, hb⟩
    · exact begin_not_waiting (.inl hb)
    · rw [some.inj hrun] at hb
      cases hb

theorem Ordered.running_unique (hq : q.Ordered) (hi : q.isRunning i = true)
    (hj : q.isRunning j = true) : i = j := by
  rw [isRunning_iff] at hi hj
  rcases Nat.lt_trichotomy i j with h | h | h
  · rcases hq.serial.waiting_of_lt hi nofun h hj with h | h <;> cases h
  · exact h
  · rcases hq.serial.waiting_of_lt hj nofun h hi with h | h <;> cases h

theorem Moves.result {r : Except (SessionError ε) ρ} (h : q.Moves q') (hr : q.result j = some r) :
    q'.result j = some r := by
  obtain ⟨c, hc, hcr⟩ := bind_eq_some_iff.mp hr
  refine bind_eq_some_iff.mpr ?_
  cases h with
  | call =>
    have hlen := (List.getElem?_eq_some_iff.mp hc).1
    exact ⟨c, by rwa [serialize, List.getElem?_append_left hlen], hcr⟩
  | @step k a b hk hstep =>
    rw [getElem?_put hk]
    split_ifs with hkj
    · subst hkj
      obtain rfl := some.inj (hk.symm.trans hc)
      refine ⟨b, rfl, ?_⟩
      cases hstep with
      | release _ => exact hcr
      | _ => cases hcr
    · exact ⟨c, hc, hcr⟩
  | dispose => exact ⟨c, hc, hcr⟩
  | fireFatal e => exact ⟨c, hc, hcr⟩

theorem outcome_of_step {v : ρ} (h : queueStep q l = some q') (hj : q'.calls[j]? = some b)
    (hb : b.outcome = some (.ok v)) :
    (∃ a, q.calls[j]? = some a ∧ a.outcome = some (.ok v)) ∨ l = .finish j (.ok v) := by
  cases l with
  | serialize =>
    cases h
    rcases getElem?_serialize hj with hj | ⟨-, rfl⟩
    · exact .inl ⟨b, hj, hb⟩
    · split_ifs at hb <;> cases hb
  | close =>
    cases h
    exact .inl ⟨b, hj, hb⟩
  | fireFatal e =>
    cases h
    exact .inl ⟨b, hj, hb⟩
  | finish i r =>
    obtain ⟨hi, rfl⟩ := finish_eq h
    rw [getElem?_put hi] at hj
    split_ifs at hj with hij
    · cases hj
      obtain rfl : r = .ok v := some.inj hb
      exact .inr (by rw [hij])
    · exact .inl ⟨b, hj, hb⟩
  | turn i =>
    obtain ⟨hi, -, rfl⟩ := turn_eq h
    rw [getElem?_put hi] at hj
    split_ifs at hj
    · cases hj
      rw [begin] at hb
      split at hb
      · cases hb
      · split_ifs at hb <;> cases hb
    · exact .inl ⟨b, hj, hb⟩
  | throw i e =>
    obtain ⟨hi, rfl⟩ := throw_eq h
    rw [getElem?_put hi] at hj
    split_ifs at hj
    · cases hj
      cases hb
    · exact .inl ⟨b, hj, hb⟩
  | adopt i =>
    obtain ⟨r, hi, rfl⟩ := adopt_eq h
    rw [getElem?_put hi] at hj
    split_ifs at hj with hij
    · subst hij
      cases hj
      exact .inl ⟨_, hi, hb⟩
    · exact .inl ⟨b, hj, hb⟩
  | release i =>
    obtain ⟨r, hi, rfl⟩ := release_eq h
    rw [getElem?_put hi] at hj
    split_ifs at hj with hij
    · subst hij
      cases hj
      exact .inl ⟨_, hi, hb⟩
    · exact .inl ⟨b, hj, hb⟩

/-- The call is there and its turn has come, or it was refused. -/
def Begun (q : OpQueue ρ ε) (i : ℕ) : Prop := ∃ c, q.calls[i]? = some c ∧ c ≠ .queued

theorem Moves.begun (h : q.Moves q') (hi : q.Begun i) : q'.Begun i := by
  obtain ⟨c, hc, hne⟩ := hi
  cases h with
  | call =>
    have hlen := (List.getElem?_eq_some_iff.mp hc).1
    exact ⟨c, by rwa [serialize, List.getElem?_append_left hlen], hne⟩
  | @step k a b hk hstep =>
    rw [Begun, getElem?_put hk]
    split_ifs
    · refine ⟨b, rfl, ?_⟩
      cases hstep with
      | turn _ => exact fun hb => begin_not_waiting (.inl hb)
      | _ => exact nofun
    · exact ⟨c, hc, hne⟩
  | dispose => exact ⟨c, hc, hne⟩
  | fireFatal e => exact ⟨c, hc, hne⟩

theorem Moves.length_le (h : q.Moves q') : q.calls.length ≤ q'.calls.length := by
  cases h with
  | call => simp [OpQueue.serialize]
  | step _ _ => simp [OpQueue.put]
  | dispose => exact Nat.le_refl _
  | fireFatal e => exact Nat.le_refl _

end OpQueue

open OpQueue

end Anyfs
