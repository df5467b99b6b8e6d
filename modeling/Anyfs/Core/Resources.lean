import Anyfs.Lib.Custody
import Mathlib.Data.List.Nodup

/-!
# What a session holds of the engine

The part that `NodeWasmSession` and `NativeSession` share: the tracked descriptors, the handle, the
loop of `close`, and over it the custody of what the engine returned. An open resource is with the
call it was returned to, tracked, the session's disk, or named in a request to close it.
-/

namespace Anyfs

open List Option Function Custody

/-- A descriptor or a disk of the engine. -/
inductive Resource where
  | fd (n : ℕ)
  | disk (n : ℕ)
  deriving DecidableEq

def Resource.isDisk : Resource → Bool
  | .fd _ => false
  | .disk _ => true

/-- What the engine did. -/
inductive EngineEvent where
  | opened (r : Resource)
  | closed (r : Resource)
  deriving DecidableEq

def EngineEvent.closes : EngineEvent → Option Resource
  | .opened _ => none
  | .closed r => some r

def closedOf (log : List EngineEvent) : List Resource := log.filterMap EngineEvent.closes

@[simp]
theorem closedOf_opened (log : List EngineEvent) (r : Resource) :
    closedOf (log ++ [.opened r]) = closedOf log := by
  simp [closedOf, EngineEvent.closes]

@[simp]
theorem closedOf_closed (log : List EngineEvent) (r : Resource) :
    closedOf (log ++ [.closed r]) = closedOf log ++ [r] := by
  simp [closedOf, EngineEvent.closes]

theorem mem_closedOf {log : List EngineEvent} {r : Resource} :
    r ∈ closedOf log ↔ .closed r ∈ log := by
  rw [closedOf, mem_filterMap]
  constructor
  · rintro ⟨⟨⟩ | ⟨_⟩, he, ⟨⟩⟩
    exact he
  · exact fun h => ⟨_, h, rfl⟩

/-- Everything that was returned was closed exactly once, and no descriptor was closed after a
disk. -/
structure Balanced (log : List EngineEvent) : Prop where
  once : ∀ r, .opened r ∈ log → (closedOf log).count r = 1
  order : (closedOf log).Pairwise fun r r' => r.isDisk = true → r'.isDisk = true

/-- Where `close` stands: not called, waiting for the queue, at its `k`-th descriptor, waiting for
that or the disk to be closed, over. -/
inductive Closer where
  | idle
  | draining
  | loop (k : ℕ)
  | closing (k : ℕ) (answered : Bool)
  | disposing (answered : Bool)
  | finished
  deriving DecidableEq

open Closer

namespace Closer

/-- `close` has not gone past the tracked descriptors. -/
def collecting : Closer → Bool
  | .disposing _ => false
  | .finished => false
  | _ => true

def answer : Closer → Closer
  | .closing k _ => .closing k true
  | .disposing _ => .disposing true
  | c => c

def taken : Closer → ℕ
  | .loop k => k
  | .closing k _ => k + 1
  | _ => 0

@[simp]
theorem collecting_answer (c : Closer) : c.answer.collecting = c.collecting := by
  cases c <;> rfl

@[simp]
theorem taken_answer (c : Closer) : c.answer.taken = c.taken := by
  cases c <;> rfl

end Closer

/-- What a session keeps: the descriptors in the order in which they were added, the handle, and
where `close` stands. -/
structure SessionFds where
  fds : List ℕ
  handle : Option ℕ
  closer : Closer
  deriving DecidableEq

open SessionFds

namespace SessionFds

def init : SessionFds := ⟨[], none, .idle⟩

variable (b : SessionFds)

def disposed : Bool := b.closer != .idle

/-- What `openFd` and `attachPath` do with what they got. -/
def add : Resource → SessionFds
  | .fd n => { b with fds := if n ∈ b.fds then b.fds else b.fds ++ [n] }
  | .disk h => { b with handle := some h }

def delete (n : ℕ) : SessionFds := { b with fds := b.fds.erase n }

def finish : SessionFds := ⟨[], none, .finished⟩

def dispose : SessionFds :=
  match b.handle with
  | some _ => { b with closer := .disposing false }
  | none => finish

/-- `close` goes on. The loop is over a set that may grow under it. -/
def advance : Option SessionFds :=
  match b.closer with
  | .loop k => some (if k < b.fds.length then { b with closer := .closing k false } else b.dispose)
  | .closing k true => some { b with closer := .loop (k + 1) }
  | .disposing true => some finish
  | _ => none

def answer : SessionFds := { b with closer := b.closer.answer }

/-- What `close` waits for. -/
def request : Option Resource :=
  match b.closer with
  | .closing k false => b.fds[k]?.map .fd
  | .disposing false => b.handle.map .disk
  | _ => none

def untaken : List ℕ :=
  if b.closer.collecting then b.fds.drop b.closer.taken else []

def current : Option ℕ :=
  if b.closer.collecting then b.handle else none

theorem closer_of_not_disposed {b : SessionFds} (hd : ¬ b.disposed = true) : b.closer = .idle := by
  simpa [disposed] using hd

@[simp]
theorem untaken_answer : b.answer.untaken = b.untaken := by
  simp [untaken, answer]

@[simp]
theorem current_answer : b.answer.current = b.current := by
  simp [current, answer]

@[simp]
theorem request_answer : b.answer.request = none := by
  simp only [request, answer]
  cases b.closer <;> rfl

theorem request_add {b : SessionFds} {r r' : Resource} (hr : b.request = some r)
    (hc : b.closer.collecting = true) : (b.add r').request = some r := by
  simp only [request] at hr
  split at hr
  · next k hk =>
    obtain ⟨n, hn, rfl⟩ := map_eq_some_iff.mp hr
    have hlt : k < b.fds.length := (List.getElem?_eq_some_iff.mp hn).1
    cases r' with
    | fd m =>
      simp only [request, add, hk]
      split_ifs
      · rw [hn, map_some]
      · rw [List.getElem?_append_left hlt, hn, map_some]
    | disk d => simp [request, add, hk, hn]
  · next hk => simp [hk, collecting] at hc
  · cases hr

theorem advance_cases {b b' : SessionFds} (h : b.advance = some b') :
    (∃ k n, b.closer = .loop k ∧ b.fds[k]? = some n ∧ b' = { b with closer := .closing k false }) ∨
    (∃ k, b.closer = .closing k true ∧ b' = { b with closer := .loop (k + 1) }) ∨
    (∃ k d, b.closer = .loop k ∧ b.fds.length ≤ k ∧ b.handle = some d ∧
      b' = { b with closer := .disposing false }) ∨
    (∃ k, b.closer = .loop k ∧ b.fds.length ≤ k ∧ b.handle = none ∧ b' = finish) ∨
    (b.closer = .disposing true ∧ b' = finish) := by
  simp only [advance] at h
  split at h
  · next k hk =>
    cases h
    by_cases hlt : k < b.fds.length
    · exact .inl ⟨k, b.fds[k], hk, List.getElem?_eq_getElem hlt, by rw [if_pos hlt]⟩
    · rw [if_neg hlt, dispose]
      split
      · next d hd => exact .inr (.inr (.inl ⟨k, d, hk, Nat.le_of_not_lt hlt, hd, rfl⟩))
      · next hd => exact .inr (.inr (.inr (.inl ⟨k, hk, Nat.le_of_not_lt hlt, hd, rfl⟩)))
  · next k hk =>
    cases h
    exact .inr (.inl ⟨k, hk, rfl⟩)
  · next hk =>
    cases h
    exact .inr (.inr (.inr (.inr ⟨hk, rfl⟩)))
  · cases h

theorem request_of_advance {b b' : SessionFds} (h : b.advance = some b') : b.request = none := by
  rcases advance_cases h with ⟨k, n, hk, -⟩ | ⟨k, hk, -⟩ | ⟨k, d, hk, -⟩ | ⟨k, hk, -⟩ | ⟨hk, -⟩ <;>
    simp [request, hk]

theorem collecting_of_advance {b b' : SessionFds} {r : Resource} (h : b.advance = some b')
    (hr : b'.request = some r) : b.closer.collecting = true := by
  rcases advance_cases h with ⟨k, n, hk, -⟩ | ⟨k, hk, -⟩ | ⟨k, d, hk, -⟩ | ⟨k, hk, -⟩ | ⟨hk, rfl⟩
  · simp [hk, collecting]
  · simp [hk, collecting]
  · simp [hk, collecting]
  · simp [hk, collecting]
  · cases hr

end SessionFds

/-! ### Custody -/

/-- Who has a resource: the call it was returned to, the set of descriptors, the session as its
disk, a `closeFd` call, `close`. -/
inductive ResourceHolder where
  | call (i : ℕ)
  | tracked (n : ℕ)
  | current
  | ask (i : ℕ)
  | closer
  deriving DecidableEq

/-- What a session keeps, what the engine did, what was returned to a call and not yet kept, what a
`closeFd` call has asked to be closed. -/
structure Holdings where
  base : SessionFds
  log : List EngineEvent
  call : ℕ → Option Resource
  ask : ℕ → Option Resource

open Holdings

attribute [local simp] move

namespace Holdings

def init : Holdings := ⟨.init, [], fun _ => none, fun _ => none⟩

variable (H : Holdings)

def held : ResourceHolder → Option Resource
  | .call i => H.call i
  | .tracked n => if n ∈ H.base.untaken then some (.fd n) else none
  | .current => H.base.current.map .disk
  | .ask i => H.ask i
  | .closer => H.base.request

/-- Who holds what, as custody. -/
def custody : Custody ResourceHolder Resource :=
  ⟨H.held, fun r => .opened r ∈ H.log, fun r => .closed r ∈ H.log⟩

def returned (i : ℕ) (r : Resource) : Holdings :=
  { H with log := H.log ++ [EngineEvent.opened r], call := update H.call i (some r) }

def keep (i : ℕ) (r : Resource) : Holdings :=
  { H with base := H.base.add r, call := update H.call i none }

/-- `closeFd`. -/
def askFor (i n : ℕ) : Holdings :=
  { H with base := H.base.delete n, ask := update H.ask i (some (.fd n)) }

def closedAsk (i : ℕ) (r : Resource) : Holdings :=
  { H with log := H.log ++ [EngineEvent.closed r], ask := update H.ask i none }

def closedRequest (r : Resource) : Holdings :=
  { H with log := H.log ++ [EngineEvent.closed r], base := H.base.answer }

/-- The moves that keep everything in custody: what is returned is new, it is kept in time and where
nothing is dropped for it, a tracked descriptor is closed, and a disk only after the descriptors. -/
inductive Move (H : Holdings) : Holdings → Prop
  | returned {i : ℕ} {r : Resource} : H.call i = none → .opened r ∉ H.log → Move H (H.returned i r)
  | keep {i : ℕ} {r : Resource} : H.call i = some r → H.base.closer.collecting = true →
      (r.isDisk = true → H.base.handle = none) → Move H (H.keep i r)
  | askFor {i n : ℕ} : H.base.closer = .idle → n ∈ H.base.fds → H.ask i = none →
    Move H (H.askFor i n)
  | drain : H.base.closer = .idle → Move H { H with base := { H.base with closer := .draining } }
  | start : H.base.closer = .idle ∨ H.base.closer = .draining →
      Move H { H with base := { H.base with closer := .loop 0 } }
  | advance {b : SessionFds} : H.base.advance = some b → Move H { H with base := b }
  | closedAsk {i : ℕ} {r : Resource} : H.ask i = some r → (∀ h, .closed (.disk h) ∉ H.log) →
      Move H (H.closedAsk i r)
  | closedRequest {r : Resource} : H.base.request = some r → Move H (H.closedRequest r)

/-- What the moves keep. -/
structure Inv (H : Holdings) : Prop where
  owned : H.custody.Owned
  once : ∀ r, (closedOf H.log).count r ≤ 1
  order : (closedOf H.log).Pairwise fun r r' => r.isDisk = true → r'.isDisk = true
  sound : ∀ r, .closed r ∈ H.log → .opened r ∈ H.log
  nodup : H.base.fds.Nodup
  known : ∀ n ∈ H.base.fds, .opened (.fd n) ∈ H.log
  apart : ∀ i n, H.call i = some (.fd n) → n ∉ H.base.fds
  bound : H.base.closer.taken ≤ H.base.fds.length
  fdAsk : ∀ i r, H.ask i = some r → r.isDisk = false
  late : ∀ h, .closed (.disk h) ∈ H.log → H.base.closer = .disposing true ∨
    H.base.closer = .finished

attribute [local simp] custody held Holdings.returned keep

theorem inv_init : init.Inv where
  owned := by
    refine ⟨fun h h' r hr => ?_, fun h r hr => ?_, fun r hr => ?_⟩
    · cases h <;> simp [init, SessionFds.init, SessionFds.untaken, current, request] at hr
    · cases h <;> simp [init, SessionFds.init, SessionFds.untaken, current, request] at hr
    · exact absurd hr not_mem_nil
  once := fun r => by simp [init, closedOf]
  order := .nil
  sound := fun r hr => absurd hr not_mem_nil
  nodup := .nil
  known := fun n hn => absurd hn not_mem_nil
  apart := fun i n h => by simp [init] at h
  bound := Nat.le_refl _
  fdAsk := fun i r h => by simp [init] at h
  late := fun h hh => absurd hh not_mem_nil

variable {H H' : Holdings} {i n : ℕ} {r : Resource} {b : SessionFds}

/-! ### Each move keeps the invariant -/

theorem custody_base (hu : ∀ m, m ∈ b.untaken ↔ m ∈ H.base.untaken)
    (hc : b.current = H.base.current) (hr : b.request = H.base.request) :
    { H with base := b }.custody = H.custody := by
  refine Custody.ext (funext fun h => ?_) rfl rfl
  cases h with
  | tracked m => simp [hu]
  | current => simp [hc]
  | closer => exact hr
  | _ => rfl

theorem custody_returned : (H.returned i r).custody = H.custody.acquire (.call i) r := by
  refine Custody.ext (funext fun h => ?_) (funext fun x => ?_) (funext fun x => ?_)
  · cases h with
    | call j => by_cases hj : j = i <;> simp [acquire, returned, hj]
    | _ => simp [acquire, returned]
  · simp [acquire, returned]
  · simp [acquire, returned]

theorem Inv.returned (hH : H.Inv) (hi : H.call i = none) (hr : .opened r ∉ H.log) :
    (H.returned i r).Inv :=
  { hH with
    owned := custody_returned ▸ hH.owned.acquire hi hr fun hg => hr (hH.sound r hg)
    once := fun x => by simpa using hH.once x
    order := by simpa using hH.order
    sound := fun x hx => mem_append_left _ (hH.sound x (by simpa using hx))
    known := fun m hm => mem_append_left _ (hH.known m hm)
    apart := fun j m hj hm => by
      by_cases hji : j = i
      · subst hji
        obtain rfl : r = .fd m := by simpa [returned] using hj
        exact hr (hH.known m hm)
      · exact hH.apart j m (by simpa [hji] using hj) hm
    late := fun h hh => hH.late h (by simpa using hh) }

theorem custody_keep_fd (hi : H.call i = some (.fd n)) (hn : n ∉ H.base.fds)
    (hbound : H.base.closer.taken ≤ H.base.fds.length) (hc : H.base.closer.collecting = true) :
    (H.keep i (.fd n)).custody = H.custody.move (.call i) (.tracked n) := by
  have hfds : H.base.add (.fd n) = { H.base with fds := H.base.fds ++ [n] } := by
    simp [add, hn]
  refine Custody.ext (funext fun h => ?_) rfl rfl
  cases h with
  | call j => by_cases hj : j = i <;> simp [hj]
  | tracked m =>
    have hu : (H.base.add (.fd n)).untaken = H.base.untaken ++ [n] := by
      simp [untaken, hfds, hc, drop_append_of_le_length hbound]
    by_cases hm : m = n <;> simp [hu, hi, hm]
  | current => simp [hfds, current]
  | ask j => simp
  | closer =>
    -- the descriptor that `close` waits for is not at the end of the set
    have hreq : (H.base.add (.fd n)).request = H.base.request := by
      simp only [request, hfds]
      split
      · next k hk =>
        have hlt : k < H.base.fds.length :=
          Nat.lt_of_succ_le (by simpa [hk, taken] using hbound)
        rw [List.getElem?_append_left hlt]
      · rfl
      · rfl
    simp [hreq]

theorem custody_keep_disk (hi : H.call i = some (.disk n)) (hc : H.base.closer.collecting = true) :
    (H.keep i (.disk n)).custody = H.custody.move (.call i) .current := by
  refine Custody.ext (funext fun h => ?_) rfl rfl
  cases h with
  | call j => by_cases hj : j = i <;> simp [hj]
  | tracked m => simp [untaken, add]
  | current => simp [current, add, hc, hi]
  | ask j => simp
  | closer =>
    have hreq : (H.base.add (.disk n)).request = H.base.request := by
      simp only [request, add]
      split
      · rfl
      · next hd => simp [hd, collecting] at hc
      · rfl
    simp [hreq]

theorem Inv.not_mem_untaken (hH : H.Inv) (hi : H.call i = some (.fd n)) : n ∉ H.base.untaken := by
  intro hn
  rw [untaken] at hn
  split at hn
  · exact hH.apart i n hi (mem_of_mem_drop hn)
  · cases hn

theorem Inv.keep (hH : H.Inv) (hi : H.call i = some r) (hc : H.base.closer.collecting = true)
    (hd : r.isDisk = true → H.base.handle = none) : (H.keep i r).Inv := by
  have hcall (j : ℕ) (m : ℕ) (hj : (H.keep i r).call j = some (.fd m)) :
      j ≠ i ∧ H.call j = some (.fd m) := by
    by_cases hji : j = i
    · simp [Holdings.keep, hji] at hj
    · exact ⟨hji, by simpa [Holdings.keep, hji] using hj⟩
  have hlate (h : ℕ) (hh : .closed (.disk h) ∈ H.log) : False := by
    rcases hH.late h hh with hl | hl <;> simp [hl, collecting] at hc
  cases r with
  | fd n =>
    have hn : n ∉ H.base.fds := hH.apart i n hi
    have hfds : (H.keep i (.fd n)).base.fds = H.base.fds ++ [n] := by
      simp [add, hn]
    refine { hH with
      owned := ?_, nodup := ?_, known := fun m hm => ?_, apart := fun j m hj hm => ?_, bound := ?_
      late := fun h hh => (hlate h hh).elim }
    · rw [custody_keep_fd hi hn hH.bound hc]
      exact hH.owned.move nofun (if_neg (hH.not_mem_untaken hi))
    · rw [hfds]
      exact nodup_append.mpr ⟨hH.nodup, nodup_singleton n, by grind⟩
    · rw [hfds, mem_append, mem_singleton] at hm
      rcases hm with hm | rfl
      · exact hH.known m hm
      · exact (hH.owned.live (.call i) (.fd m) hi).1
    · obtain ⟨hji, hj'⟩ := hcall j m hj
      rw [hfds, mem_append, mem_singleton] at hm
      rcases hm with hm | rfl
      · exact hH.apart j m hj' hm
      · exact hji (ResourceHolder.call.inj (hH.owned.unique (.call j) (.call i) (.fd m) hj' hi))
    · rw [hfds, length_append]
      exact Nat.le_trans hH.bound (Nat.le_add_right _ _)
  | disk n =>
    refine { hH with
      owned := ?_, apart := fun j m hj hm => hH.apart j m (hcall j m hj).2 hm
      late := fun h hh => (hlate h hh).elim }
    rw [custody_keep_disk hi hc]
    refine hH.owned.move nofun ?_
    simp [current, hd rfl]

theorem custody_askFor (hidle : H.base.closer = .idle) (hn : n ∈ H.base.fds)
    (hnodup : H.base.fds.Nodup) :
    (H.askFor i n).custody = H.custody.move (.tracked n) (.ask i) := by
  have hu : H.base.untaken = H.base.fds := by
    simp [untaken, hidle, collecting, taken]
  have hu' : (H.base.delete n).untaken = H.base.fds.erase n := by
    simp [untaken, delete, hidle, collecting, taken]
  refine Custody.ext (funext fun h => ?_) rfl rfl
  cases h with
  | call j => simp [askFor]
  | tracked m =>
    by_cases hm : m = n <;>
      simp [askFor, hu, hu', hnodup.mem_erase_iff, hm]
  | current => simp [askFor, current, delete]
  | ask j => by_cases hj : j = i <;> simp [askFor, hj, hu, hn]
  | closer =>
    simp [askFor, request, delete, hidle]

theorem Inv.askFor (hH : H.Inv) (hidle : H.base.closer = .idle) (hn : n ∈ H.base.fds)
    (hi : H.ask i = none) : (H.askFor i n).Inv :=
  { hH with
    owned := by
      rw [custody_askFor hidle hn hH.nodup]
      exact hH.owned.move nofun hi
    nodup := hH.nodup.erase n
    known := fun m hm => hH.known m (mem_of_mem_erase hm)
    apart := fun j m hj hm => hH.apart j m hj (mem_of_mem_erase hm)
    bound := by simp [Holdings.askFor, SessionFds.delete, hidle, Closer.taken]
    fdAsk := fun j r hj => by
      by_cases hji : j = i
      · obtain rfl : Resource.fd n = r := by simpa [Holdings.askFor, hji] using hj
        rfl
      · exact hH.fdAsk j r (by simpa [Holdings.askFor, hji] using hj) }

theorem Inv.begin {c : Closer} (hH : H.Inv)
    (hidle : H.base.closer = .idle ∨ H.base.closer = .draining) (hc : c = .draining ∨ c = .loop 0) :
    { H with base := { H.base with closer := c } }.Inv := by
  have hcoll : c.collecting = true ∧ c.taken = 0 := by
    rcases hc with rfl | rfl <;> exact ⟨rfl, rfl⟩
  have hcoll' : H.base.closer.collecting = true ∧ H.base.closer.taken = 0 := by
    rcases hidle with h | h <;> rw [h] <;> exact ⟨rfl, rfl⟩
  refine { hH with owned := ?_, bound := ?_, late := fun h hh => ?_ }
  · rw [custody_base]
    · exact hH.owned
    · simp [untaken, hcoll, hcoll']
    · simp [current, hcoll, hcoll']
    · rcases hidle with h | h <;> rcases hc with rfl | rfl <;> simp [request, h]
  · simp [hcoll]
  · rcases hidle with hi | hi <;> rcases hH.late h hh with hl | hl <;> simp [hi] at hl

theorem custody_take_fd {k : ℕ} (hk : H.base.closer = .loop k) (hn : H.base.fds[k]? = some n)
    (hnodup : H.base.fds.Nodup) :
    { H with base := { H.base with closer := .closing k false } }.custody =
      H.custody.move (.tracked n) .closer := by
  obtain ⟨hlt, hget⟩ := List.getElem?_eq_some_iff.mp hn
  have hdrop : H.base.fds.drop k = n :: H.base.fds.drop (k + 1) := by
    rw [drop_eq_getElem_cons hlt, hget]
  have hnot : n ∉ H.base.fds.drop (k + 1) := by
    have hcons : (n :: H.base.fds.drop (k + 1)).Nodup := hdrop ▸ hnodup.drop
    exact (nodup_cons.mp hcons).1
  have hu : H.base.untaken = n :: H.base.fds.drop (k + 1) := by
    simp only [untaken, hk, collecting, taken, if_pos, hdrop]
  have hu' : untaken { H.base with closer := .closing k false } = H.base.fds.drop (k + 1) := rfl
  refine Custody.ext (funext fun h => ?_) rfl rfl
  cases h with
  | call j => simp
  | tracked m => by_cases hm : m = n <;> simp [hu, hu', hm, hnot]
  | current => simp [current, hk, collecting]
  | ask j => simp
  | closer => simp [request, hn, hu]

theorem custody_take_disk {k d : ℕ} (hk : H.base.closer = .loop k) (hlen : H.base.fds.length ≤ k)
    (hd : H.base.handle = some d) :
    { H with base := { H.base with closer := .disposing false } }.custody =
      H.custody.move .current .closer := by
  refine Custody.ext (funext fun h => ?_) rfl rfl
  cases h with
  | tracked m =>
    simp [untaken, hk, collecting, taken, drop_eq_nil_of_le hlen]
  | current => simp [current, collecting]
  | closer =>
    simp [current, request, hk, hd, collecting]
  | _ => simp

theorem custody_finish (hu : H.base.untaken = []) (hc : H.base.current = none)
    (hr : H.base.request = none) : { H with base := .finish }.custody = H.custody := by
  refine custody_base (fun m => ?_) hc.symm hr.symm
  rw [hu]
  rfl

theorem Inv.finish (hH : H.Inv) (hu : H.base.untaken = []) (hc : H.base.current = none)
    (hr : H.base.request = none) : { H with base := .finish }.Inv :=
  { hH with
    owned := custody_finish hu hc hr ▸ hH.owned
    nodup := .nil
    known := fun _ hm => absurd hm not_mem_nil
    apart := fun _ _ _ hm => absurd hm not_mem_nil
    bound := Nat.le_refl _
    late := fun _ _ => .inr rfl }

theorem Inv.advance (hH : H.Inv) (hb : H.base.advance = some b) : { H with base := b }.Inv := by
  have hlate (hc : H.base.closer.collecting = true) (h : ℕ) (hh : .closed (.disk h) ∈ H.log) :
      False := by
    rcases hH.late h hh with hl | hl <;> simp [hl, collecting] at hc
  rcases advance_cases hb with ⟨k, n, hk, hn, rfl⟩ | ⟨k, hk, rfl⟩ | ⟨k, d, hk, hlen, hd,
    rfl⟩ | ⟨k, hk, hlen, hd, rfl⟩ | ⟨hk, rfl⟩
  · refine { hH with
      owned := ?_, bound := (List.getElem?_eq_some_iff.mp hn).1
      late := fun h hh => (hlate (by rw [hk]; rfl) h hh).elim }
    rw [custody_take_fd hk hn hH.nodup]
    exact hH.owned.move nofun (by simp [request, hk])
  · refine { hH with
      owned := ?_, bound := ?_, late := fun h hh => (hlate (by rw [hk]; rfl) h hh).elim }
    · rw [custody_base]
      · exact hH.owned
      · simp [untaken, hk, collecting, taken]
      · simp [current, hk, collecting]
      · simp [request, hk]
    · simpa [hk, taken] using hH.bound
  · refine { hH with
      owned := ?_, bound := Nat.zero_le _
      late := fun h hh => (hlate (by rw [hk]; rfl) h hh).elim }
    rw [custody_take_disk hk hlen hd]
    exact hH.owned.move nofun (by simp [request, hk])
  · refine hH.finish ?_ ?_ ?_
    · simp [untaken, hk, collecting, taken, drop_eq_nil_of_le hlen]
    · simp [current, hd]
    · simp [request, hk]
  · refine hH.finish ?_ ?_ ?_
    · simp [untaken, hk, collecting]
    · simp [current, hk, collecting]
    · simp [request, hk]

theorem Inv.log_closed (hH : H.Inv) {h : ResourceHolder} (hr : H.held h = some r)
    (hfd : ∀ d, .closed (.disk d) ∉ H.log) :
    (∀ x, (closedOf (H.log ++ [.closed r])).count x ≤ 1) ∧
    ((closedOf (H.log ++ [.closed r])).Pairwise fun r r' => r.isDisk = true → r'.isDisk = true) ∧
    ∀ x, .closed x ∈ H.log ++ [.closed r] → .opened x ∈ H.log ++ [.closed r] := by
  obtain ⟨hborn, hgone⟩ := hH.owned.live h r hr
  have hnot : r ∉ closedOf H.log := fun h => hgone (mem_closedOf.mp h)
  refine ⟨fun x => ?_, ?_, fun x hx => mem_append_left _ ?_⟩
  · rw [closedOf_closed, count_append]
    by_cases hx : x = r
    · subst hx
      simp [count_eq_zero_of_not_mem hnot]
    · simpa [Ne.symm hx] using hH.once x
  · rw [closedOf_closed, pairwise_append]
    refine ⟨hH.order, pairwise_singleton _ _, fun x hx y hy hd => ?_⟩
    obtain rfl := mem_singleton.mp hy
    cases x with
    | fd m => cases hd
    | disk m => exact absurd (mem_closedOf.mp hx) (hfd m)
  · rcases mem_append.mp hx with hx | hx
    · exact hH.sound x hx
    · obtain rfl : x = r := by simpa using hx
      exact hborn

theorem custody_closedAsk (hi : H.ask i = some r) :
    (H.closedAsk i r).custody = H.custody.release (.ask i) := by
  refine Custody.ext (funext fun h => ?_) (funext fun x => ?_) (funext fun x => ?_)
  · cases h with
    | ask j => by_cases hj : j = i <;> simp [release, closedAsk, hj]
    | _ => simp [release, closedAsk]
  · simp [release, closedAsk]
  · simp [release, closedAsk, hi, eq_comm]

theorem custody_closedRequest (hr : H.base.request = some r) :
    (H.closedRequest r).custody = H.custody.release .closer := by
  refine Custody.ext (funext fun h => ?_) (funext fun x => ?_) (funext fun x => ?_)
  · cases h <;> simp [Custody.release, closedRequest]
  · simp [release, closedRequest]
  · simp [release, closedRequest, hr, eq_comm]

theorem Inv.closedAsk (hH : H.Inv) (hi : H.ask i = some r) (hfd : ∀ h, .closed (.disk h) ∉ H.log) :
    (H.closedAsk i r).Inv := by
  obtain ⟨honce, horder, hsound⟩ := hH.log_closed (h := .ask i) hi hfd
  refine { hH with
    owned := ?_, once := honce, order := horder, sound := hsound
    known := fun m hm => mem_append_left _ (hH.known m hm), fdAsk := fun j x hj => ?_
    late := fun h hh => ?_ }
  · rw [custody_closedAsk hi]
    exact hH.owned.release _
  · by_cases hji : j = i
    · simp [Holdings.closedAsk, hji] at hj
    · exact hH.fdAsk j x (by simpa [Holdings.closedAsk, hji] using hj)
  · rcases mem_append.mp hh with hh | hh
    · exact absurd hh (hfd h)
    · obtain rfl : Resource.disk h = r := by simpa using hh
      cases hH.fdAsk i _ hi

theorem closer_of_request (hr : H.base.request = some r) :
    (∃ k, H.base.closer = .closing k false ∧ r.isDisk = false) ∨
      H.base.closer = .disposing false ∧ r.isDisk = true := by
  rw [request] at hr
  split at hr
  · next k hk =>
    obtain ⟨n, -, rfl⟩ := map_eq_some_iff.mp hr
    exact .inl ⟨k, hk, rfl⟩
  · next hk =>
    obtain ⟨n, -, rfl⟩ := map_eq_some_iff.mp hr
    exact .inr ⟨hk, rfl⟩
  · cases hr

theorem Inv.closedRequest (hH : H.Inv) (hr : H.base.request = some r) :
    (H.closedRequest r).Inv := by
  -- no disk has been closed while `close` waits for one to be closed
  have hnone (h : ℕ) : .closed (.disk h) ∉ H.log := by
    intro hh
    rcases closer_of_request hr with ⟨k, hk, -⟩ | ⟨hk, -⟩ <;> rcases hH.late h hh with hl | hl <;>
      simp [hk] at hl
  obtain ⟨honce, horder, hsound⟩ := hH.log_closed (h := .closer) hr hnone
  refine { hH with
    owned := ?_, once := honce, order := horder, sound := hsound
    known := fun m hm => mem_append_left _ (hH.known m hm), bound := ?_, late := fun h hh => ?_ }
  · rw [custody_closedRequest hr]
    exact hH.owned.release _
  · simpa [Holdings.closedRequest, SessionFds.answer] using hH.bound
  · rcases mem_append.mp hh with hh | hh
    · exact absurd hh (hnone h)
    · obtain rfl : Resource.disk h = r := by simpa using hh
      rcases closer_of_request hr with ⟨k, -, hd⟩ | ⟨hk, -⟩
      · cases hd
      · exact .inl (by simp [Holdings.closedRequest, SessionFds.answer, hk, Closer.answer])

theorem Inv.move (hH : H.Inv) (h : H.Move H') : H'.Inv := by
  cases h with
  | returned hi hr => exact hH.returned hi hr
  | keep hi hc hd => exact hH.keep hi hc hd
  | askFor hidle hn hi => exact hH.askFor hidle hn hi
  | drain hidle => exact hH.begin (.inl hidle) (.inl rfl)
  | start hidle => exact hH.begin hidle (.inr rfl)
  | advance hb => exact hH.advance hb
  | closedAsk hi hfd => exact hH.closedAsk hi hfd
  | closedRequest hr => exact hH.closedRequest hr

/-- One view after another: nothing happened that it shows, or one of the moves did. -/
def Goes (H H' : Holdings) : Prop :=
  H' = H ∨ H.Move H'

theorem Inv.goes (hH : H.Inv) (h : H.Goes H') : H'.Inv := by
  rcases h with rfl | h
  · exact hH
  · exact hH.move h

theorem Inv.balanced (hH : H.Inv) (hfin : H.base.closer = .finished) (hcall : ∀ i, H.call i = none)
    (hask : ∀ i, H.ask i = none) : Balanced H.log := by
  have hnone (h : ResourceHolder) : H.held h = none := by
    cases h with
    | call i => exact hcall i
    | tracked n => simp [untaken, hfin, collecting]
    | current => simp [current, hfin, collecting]
    | ask i => exact hask i
    | closer => simp [request, hfin]
  refine ⟨fun r hr => Nat.le_antisymm (hH.once r) ?_, hH.order⟩
  by_contra hlt
  have hgone : .closed r ∉ H.log := fun hg => hlt (count_pos_iff.mpr (mem_closedOf.mpr hg))
  obtain ⟨h, hh⟩ := hH.owned.kept r hr hgone
  rw [show H.custody.held h = H.held h from rfl, hnone h] at hh
  cases hh

end Holdings

end Anyfs
