import Mathlib.Algebra.Group.Int.Defs
import Anyfs.Lib.Machine

/-!
# The fast semaphore

`WaitOnAddress` compares the counter before it sleeps; `fs_sem_up` increments the counter and then
wakes one sleeper. Each access to the counter, each sleep and each wake is a step.

That no wake is lost is a matter of counting (`FastSem.Inv.enough`): while a call sleeps, there are
no more permits than wakes to be issued and calls of `fs_sem_down` that are awake.
-/

namespace Anyfs

open List Option

/-- Where a call of `fs_sem_up` or `fs_sem_down` is. -/
inductive SemCall where
  /-- `fs_sem_up` before `InterlockedIncrement`. -/
  | increment
  /-- `fs_sem_up` before `WakeByAddressSingle`. -/
  | wake
  | upDone
  /-- `fs_sem_down` before it reads the counter. -/
  | read
  /-- `fs_sem_down` with the value it has read. -/
  | test (cur : Int32)
  /-- `fs_sem_down` asleep in `WaitOnAddress`. -/
  | asleep
  | downDone
  deriving DecidableEq

open SemCall

/-- The counter and the calls on it. -/
structure FastSem where
  count : Int32
  calls : List SemCall
  deriving DecidableEq

open FastSem

/-- The steps of the calls. -/
inductive SemAct where
  | up
  | down
  | increment (i : ℕ)
  /-- Call `i` wakes a sleeper, call `j` if any call sleeps. -/
  | wakeSingle (i j : ℕ)
  | read (i : ℕ)
  | compareExchange (i : ℕ)
  | wait (i : ℕ)
  /-- Call `j` wakes up by itself. -/
  | wakeUp (j : ℕ)
  deriving DecidableEq

namespace FastSem

/-- `fs_sem_alloc`. -/
def alloc (count : Int32) : FastSem := ⟨count, []⟩

def goto (s : FastSem) (i : ℕ) (c : SemCall) : FastSem := { s with calls := s.calls.set i c }

end FastSem

/-- The steps of `up` and `down`. -/
def semStep (s : FastSem) : SemAct → Option FastSem
  | .up => some { s with calls := s.calls ++ [.increment] }
  | .down => some { s with calls := s.calls ++ [.read] }
  | .increment i =>
    if s.calls[i]? = some .increment then some { s.goto i .wake with count := s.count + 1 }
    else none
  | .wakeSingle i j =>
    if s.calls[i]? = some .wake then
      if .asleep ∈ s.calls then
        if s.calls[j]? = some .asleep then some ((s.goto i .upDone).goto j .read) else none
      else some (s.goto i .upDone)
    else none
  | .read i => if s.calls[i]? = some .read then some (s.goto i (.test s.count)) else none
  | .compareExchange i =>
    match s.calls[i]? with
    | some (.test cur) =>
      if 0 < cur then
        -- a lost exchange starts over
        if s.count = cur then some { s.goto i .downDone with count := cur - 1 }
        else some (s.goto i .read)
      else none
    | _ => none
  | .wait i =>
    match s.calls[i]? with
    | some (.test cur) =>
      if 0 < cur then none
      -- `WaitOnAddress` returns at once if the counter has changed
      else if s.count = cur then some (s.goto i .asleep)
      else some (s.goto i .read)
    | _ => none
  | .wakeUp j => if s.calls[j]? = some .asleep then some (s.goto j .read) else none

def semMachine : Machine FastSem SemAct := .ofFun semStep

/-- Fewer than `2 ^ 31` permits are outstanding. -/
def PermitsFit (s : FastSem) : SemAct → Prop
  | .increment _ => s.count.toInt + 1 < 2 ^ 31
  | _ => True

instance (s : FastSem) (l : SemAct) : Decidable (PermitsFit s l) := by
  cases l <;> unfold PermitsFit <;> infer_instance

/-! ### Counting the calls -/

namespace SemCall

def hasIncremented : SemCall → Bool
  | wake | upDone => true
  | _ => false

def isDownDone : SemCall → Bool
  | downDone => true
  | _ => false

def isWake : SemCall → Bool
  | wake => true
  | _ => false

/-- The call is in `fs_sem_down` and not asleep. -/
def isAwake : SemCall → Bool
  | read | test _ => true
  | _ => false

def isAsleep : SemCall → Bool
  | asleep => true
  | _ => false

end SemCall

namespace FastSem

def increments (s : FastSem) : ℕ := s.calls.countP hasIncremented

/-- The calls of `fs_sem_down` that have returned. -/
def downs (s : FastSem) : ℕ := s.calls.countP isDownDone

/-- A lost wake-up: there is a permit, every call of `fs_sem_down` sleeps, and nobody is about to
wake one. -/
structure Stuck (s : FastSem) : Prop where
  permit : 0 < s.count.toInt
  sleeper : .asleep ∈ s.calls
  asleep : ∀ c ∈ s.calls, c.isAwake = false
  wakes : .wake ∉ s.calls

/-- What holds along every run from the count `n`. -/
structure Inv (n : Int32) (s : FastSem) : Prop where
  nonneg : 0 ≤ s.count.toInt
  balance : s.count.toInt = n.toInt + s.increments - s.downs
  enough : 0 < s.calls.countP isAsleep →
    s.count.toInt ≤ s.calls.countP isWake + s.calls.countP isAwake

end FastSem

theorem countP_set_add {α : Type*} {l : List α} {i : ℕ} {x : α} (h : l[i]? = some x) (p : α → Bool)
    (a : α) : (l.set i a).countP p + (p x).toNat = l.countP p + (p a).toNat := by
  obtain ⟨hi, rfl⟩ := List.getElem?_eq_some_iff.mp h
  have hnat : ∀ b : Bool, b.toNat = if b then 1 else 0 := by decide
  have hle := boole_getElem_le_countP (p := p) hi
  rw [countP_set hi, hnat, hnat]
  split_ifs at hle ⊢ <;> omega

/-! ### One step -/

section Step

variable {n : Int32} {s s' : FastSem} {i : ℕ} {c d : SemCall}

theorem toInt_add_one {x : Int32} (h : x.toInt + 1 < 2 ^ 31) : (x + 1).toInt = x.toInt + 1 := by
  have hlo := x.le_toInt
  rw [Int32.toInt_add, Int32.toInt_one]
  exact Int.bmod_eq_of_le (by omega) (by omega)

theorem toInt_sub_one {x : Int32} (h : 0 < x.toInt) : (x - 1).toInt = x.toInt - 1 := by
  have hhi := x.toInt_lt
  rw [Int32.toInt_sub, Int32.toInt_one]
  exact Int.bmod_eq_of_le (by omega) (by omega)

theorem toInt_pos {x : Int32} : 0 < x ↔ 0 < x.toInt := Int32.lt_iff_toInt_lt

theorem FastSem.Inv.goto (h : s.Inv n) (hi : s.calls[i]? = some c) {count : Int32}
    (hnonneg : 0 ≤ count.toInt)
    (hbalance : count.toInt + c.hasIncremented.toNat + d.isDownDone.toNat =
      s.count.toInt + d.hasIncremented.toNat + c.isDownDone.toNat)
    (henough : count.toInt ≤ 0 ∨ d.isAsleep = false ∧ (s.calls.countP SemCall.isAsleep = 0 ∨
      count.toInt + c.isWake.toNat + c.isAwake.toNat ≤
        s.count.toInt + d.isWake.toNat + d.isAwake.toNat)) :
    ({ s.goto i d with count := count } : FastSem).Inv n := by
  have hincremented := countP_set_add hi SemCall.hasIncremented d
  have hdowns := countP_set_add hi SemCall.isDownDone d
  have hwake := countP_set_add hi SemCall.isWake d
  have hawake := countP_set_add hi SemCall.isAwake d
  have hasleep := countP_set_add hi SemCall.isAsleep d
  obtain ⟨-, hb, he⟩ := h
  unfold FastSem.increments FastSem.downs at hb
  refine ⟨hnonneg, ?_, fun hpos => ?_⟩
  · simp only [FastSem.increments, FastSem.downs, FastSem.goto]
    omega
  · simp only [FastSem.goto] at hpos ⊢
    rcases henough with hle | ⟨hd, hzero | hle⟩
    · omega
    · rw [hd, Bool.toNat_false] at hasleep
      omega
    · rw [hd, Bool.toNat_false] at hasleep
      have := he (by omega)
      omega

theorem FastSem.Inv.begin (h : s.Inv n) (hincremented : c.hasIncremented = false)
    (hdown : c.isDownDone = false) (hasleep : c.isAsleep = false) :
    ({ s with calls := s.calls ++ [c] } : FastSem).Inv n := by
  obtain ⟨hnonneg, hbalance, henough⟩ := h
  unfold increments downs at hbalance
  refine ⟨hnonneg, ?_, fun hpos => ?_⟩
  · simpa [increments, downs, hincremented, hdown] using hbalance
  · simp only [countP_append, countP_singleton, hasleep] at hpos ⊢
    have := henough hpos
    omega

theorem FastSem.Inv.wakeSingle {j : ℕ} (h : s.Inv n) (hi : s.calls[i]? = some .wake)
    (hj : s.calls[j]? = some .asleep) : ((s.goto i .upDone).goto j .read).Inv n := by
  have hne : i ≠ j := by
    rintro rfl
    rw [hi] at hj
    cases hj
  have hj' : (s.calls.set i .upDone)[j]? = some .asleep := by rwa [List.getElem?_set_ne hne]
  have hincremented := countP_set_add hi SemCall.hasIncremented .upDone
  have hdowns := countP_set_add hi SemCall.isDownDone .upDone
  have hwake := countP_set_add hi SemCall.isWake .upDone
  have hawake := countP_set_add hi SemCall.isAwake .upDone
  have hasleep := countP_set_add hi SemCall.isAsleep .upDone
  have hincremented' := countP_set_add hj' SemCall.hasIncremented .read
  have hdowns' := countP_set_add hj' SemCall.isDownDone .read
  have hwake' := countP_set_add hj' SemCall.isWake .read
  have hawake' := countP_set_add hj' SemCall.isAwake .read
  have hasleep' := countP_set_add hj' SemCall.isAsleep .read
  obtain ⟨hnonneg, hbalance, henough⟩ := h
  unfold FastSem.increments FastSem.downs at hbalance
  simp only [SemCall.hasIncremented, SemCall.isDownDone, SemCall.isWake, SemCall.isAwake,
    SemCall.isAsleep, Bool.toNat_true, Bool.toNat_false] at *
  refine ⟨hnonneg, ?_, fun hpos => ?_⟩
  · simp only [FastSem.increments, FastSem.downs, FastSem.goto]
    omega
  · simp only [FastSem.goto] at hpos ⊢
    have := henough (by omega)
    omega

theorem countP_isAsleep_eq_zero {calls : List SemCall} (h : .asleep ∉ calls) :
    calls.countP isAsleep = 0 := by
  rw [countP_eq_zero]
  intro c hc
  cases c with
  | asleep => exact absurd hc h
  | _ => exact Bool.false_ne_true

theorem FastSem.Inv.step {l : SemAct} (h : s.Inv n) (hfit : PermitsFit s l)
    (hstep : semStep s l = some s') : s'.Inv n := by
  have hnonneg := h.nonneg
  cases l with
  | up =>
    cases hstep
    exact h.begin rfl rfl rfl
  | down =>
    cases hstep
    exact h.begin rfl rfl rfl
  | increment i =>
    obtain ⟨hi, ⟨⟩⟩ := ite_none_right_eq_some.mp hstep
    have hcount := toInt_add_one hfit
    refine h.goto hi (by omega) ?_ (.inr ⟨rfl, .inr ?_⟩) <;> rw [hcount]
    · simp [hasIncremented, isDownDone]
    · simp [isWake, isAwake]
  | wakeSingle i j =>
    obtain ⟨hi, hstep⟩ := ite_none_right_eq_some.mp hstep
    split_ifs at hstep with hsleep hj
    · cases hstep
      exact h.wakeSingle hi hj
    · cases hstep
      exact h.goto hi hnonneg rfl (.inr ⟨rfl, .inl (countP_isAsleep_eq_zero hsleep)⟩)
  | read i =>
    obtain ⟨hi, ⟨⟩⟩ := ite_none_right_eq_some.mp hstep
    exact h.goto hi hnonneg rfl (.inr ⟨rfl, .inr (Int.le_refl _)⟩)
  | compareExchange i =>
    simp only [semStep] at hstep
    split at hstep
    · rename_i cur hi
      obtain ⟨hcur, hstep⟩ := ite_none_right_eq_some.mp hstep
      split_ifs at hstep with heq <;> cases hstep
      · have hcount := toInt_sub_one (toInt_pos.mp hcur)
        have hpos := toInt_pos.mp hcur
        refine h.goto hi (by omega) ?_ (.inr ⟨rfl, .inr ?_⟩) <;> rw [hcount, heq]
        · simp [hasIncremented, isDownDone]
        · simp [isWake, isAwake]
      · exact h.goto hi hnonneg rfl (.inr ⟨rfl, .inr (Int.le_refl _)⟩)
    · cases hstep
  | wait i =>
    simp only [semStep] at hstep
    split at hstep
    · rename_i cur hi
      obtain ⟨hcur, hstep⟩ := ite_none_left_eq_some.mp hstep
      split_ifs at hstep with heq <;> cases hstep
      · -- a call goes to sleep only while there is no permit
        have hle : s.count.toInt ≤ 0 := Int.not_lt.mp fun hpos => hcur (toInt_pos.mpr (heq ▸ hpos))
        exact h.goto hi hnonneg rfl (.inl hle)
      · exact h.goto hi hnonneg rfl (.inr ⟨rfl, .inr (Int.le_refl _)⟩)
    · cases hstep
  | wakeUp j =>
    obtain ⟨hj, ⟨⟩⟩ := ite_none_right_eq_some.mp hstep
    refine h.goto hj hnonneg rfl (.inr ⟨rfl, .inr ?_⟩)
    simp only [isWake, isAwake, Bool.toNat_true, Bool.toNat_false]
    omega

end Step

/-! ### Every run -/

theorem FastSem.inv_alloc {n : Int32} (hn : 0 ≤ n.toInt) : (alloc n).Inv n :=
  ⟨hn, by simp [alloc, increments, downs], by simp [alloc]⟩

theorem FastSem.Inv.not_stuck {n : Int32} {s : FastSem} (h : s.Inv n) : ¬ s.Stuck := by
  rintro ⟨hpermit, hsleeper, hasleep, hwakes⟩
  have hpos : 0 < s.calls.countP isAsleep := countP_pos_iff.mpr ⟨_, hsleeper, rfl⟩
  have hawake : s.calls.countP isAwake = 0 :=
    countP_eq_zero.mpr fun c hc => by rw [hasleep c hc]; exact Bool.false_ne_true
  have hwake : s.calls.countP isWake = 0 := by
    rw [countP_eq_zero]
    intro c hc
    cases c with
    | wake => exact absurd hc hwakes
    | _ => exact Bool.false_ne_true
  have := h.enough hpos
  omega

/-- **The semaphore loses no wake-up.** In every interleaving of calls, the counter is not negative,
it is the initial count plus the increments minus the calls of `fs_sem_down` that have returned, and
there is never a permit while everybody sleeps and nobody is about to wake a sleeper. -/
theorem fsSem_noLostWake (n : Int32) (hn : 0 ≤ n.toInt) {s : FastSem}
    (h : semMachine.Reach PermitsFit (.alloc n) s) :
    0 ≤ s.count.toInt ∧ s.count.toInt = n.toInt + s.increments - s.downs ∧ ¬ s.Stuck := by
  have hinv : s.Inv n := h.invariant (P := fun s => s.Inv n) (inv_alloc hn)
    fun _ _ _ hs hfit hstep => hs.step hfit hstep
  exact ⟨hinv.nonneg, hinv.balance, hinv.not_stuck⟩

def stolenPermit : List SemAct :=
  [.down, .read 0, .wait 0, .up, .increment 1, .down, .read 2, .wakeSingle 1 0,
    .compareExchange 2, .read 0, .wait 0]

theorem fsSem_noLostWake_stolen :
    ∃ s, Machine.run semStep PermitsFit stolenPermit (.alloc 0) = some s ∧
      s.calls = [.asleep, .upDone, .downDone] ∧ s.count.toInt = 0 ∧ ¬ s.Stuck := by
  have hrun : Machine.run semStep PermitsFit stolenPermit (.alloc 0) =
      some ⟨0, [.asleep, .upDone, .downDone]⟩ := by decide
  exact ⟨_, hrun, rfl, rfl, (fsSem_noLostWake 0 (by decide) (.of_run hrun)).2.2⟩

end Anyfs
