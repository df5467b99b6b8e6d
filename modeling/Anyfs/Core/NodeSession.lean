import Anyfs.Core.Resources
import Anyfs.Lib.Machine

/-!
# The resources of a `NodeWasmSession`

The API thread executes the requests in the order in which they were submitted. `close` closes the
tracked descriptors one by one and then the disk, with requests of its own.
-/

namespace Anyfs

open List Option

/-- A request to the API thread. -/
inductive ApiOp where
  | open
  | sessionOpen
  | close (r : Resource)
  deriving DecidableEq

/-- Where a call of `openFd`, `attachPath` or `closeFd` stands. -/
inductive NodeCall where
  | unused
  | waiting (op : ApiOp)
  | answered (r : Option Resource)
  | settled
  deriving DecidableEq

open NodeCall

def NodeCall.got : NodeCall → Option Resource
  | .answered r => r
  | _ => none

def NodeCall.asks : NodeCall → Option Resource
  | .waiting (.close r) => some r
  | _ => none

/-- What the session keeps, its calls, the requests that are not executed with who made them (`none`
is `close`), and what the engine did. -/
structure NodeWasmSession where
  base : SessionFds
  calls : ℕ → NodeCall
  api : List (Option ℕ × ApiOp)
  log : List EngineEvent

namespace NodeWasmSession

def init : NodeWasmSession := ⟨.init, fun _ => .unused, [], []⟩

variable (s : NodeWasmSession)

def put (i : ℕ) (c : NodeCall) : NodeWasmSession :=
  { s with calls := Function.update s.calls i c }

/-- A request of call `i` is queued. -/
def submit (i : ℕ) (op : ApiOp) : NodeWasmSession :=
  { s.put i (.waiting op) with api := s.api ++ [(some i, op)] }

def openFd (i : ℕ) : NodeWasmSession :=
  if s.base.disposed then s.put i .settled else s.submit i .open

def closeFd (i n : ℕ) : NodeWasmSession :=
  if s.base.disposed then s.put i .settled
  else { s with base := s.base.delete n }.submit i (.close (.fd n))

def attachPath (i : ℕ) : NodeWasmSession :=
  if s.base.disposed ∨ s.base.handle.isSome then s.put i .settled else s.submit i .sessionOpen

def close : NodeWasmSession :=
  if s.base.disposed then s else { s with base := { s.base with closer := .loop 0 } }

/-- `close` goes on, with a request where it has something to close. -/
def closeStep : Option NodeWasmSession :=
  s.base.advance.map fun b =>
    { s with base := b, api := s.api ++ (b.request.map fun r => (none, .close r)).toList }

def deliver (who : Option ℕ) (r : Option Resource) : NodeWasmSession :=
  match who with
  | some i => s.put i (.answered r)
  | none => { s with base := s.base.answer }

def yield (who : Option ℕ) (r : Option Resource) : Option NodeWasmSession :=
  match r with
  | some r =>
    if EngineEvent.opened r ∈ s.log then none
    else some ({ s with log := s.log ++ [EngineEvent.opened r] }.deliver who (some r))
  | none => some (s.deliver who none)

/-- The API thread executes the next request. The engine answers with `n`, or with an error. -/
def execute (n : Option ℕ) : Option NodeWasmSession :=
  match s.api with
  | [] => none
  | (who, .open) :: rest => { s with api := rest }.yield who (n.map .fd)
  | (who, .sessionOpen) :: rest => { s with api := rest }.yield who (n.map .disk)
  | (who, .close r) :: rest =>
    some ({ s with api := rest, log := s.log ++ [EngineEvent.closed r] }.deliver who none)

def resume (i : ℕ) : Option NodeWasmSession :=
  match s.calls i with
  | .answered (some r) => some ({ s with base := s.base.add r }.put i .settled)
  | .answered none => some (s.put i .settled)
  | _ => none

end NodeWasmSession

/-- The steps of the session and of the API thread. -/
inductive NodeAct where
  | openFd (i : ℕ)
  | closeFd (i n : ℕ)
  | attachPath (i : ℕ)
  | close
  | execute (n : Option ℕ)
  | resume (i : ℕ)
  | closeStep
  deriving DecidableEq

def nodeStep (s : NodeWasmSession) : NodeAct → Option NodeWasmSession
  | .openFd i => if s.calls i = .unused then some (s.openFd i) else none
  | .closeFd i n => if s.calls i = .unused then some (s.closeFd i n) else none
  | .attachPath i => if s.calls i = .unused then some (s.attachPath i) else none
  | .close => some s.close
  | .execute n => s.execute n
  | .resume i => s.resume i
  | .closeStep => s.closeStep

def nodeMachine : Machine NodeWasmSession NodeAct := .ofFun nodeStep

namespace NodeWasmSession

variable (s : NodeWasmSession)

/-- Nothing gets lost in a step: `closeFd` is given a descriptor that the session has, a call goes
on with what it got before `close` has gone past the descriptors, and with a handle only while the
session has no other. -/
def InTime : NodeAct → Prop
  | .closeFd _ n => s.base.disposed = false → n ∈ s.base.fds
  | .resume i => ∀ r, s.calls i = .answered (some r) → s.base.closer.collecting = true ∧
      (r.isDisk = true → s.base.handle = none)
  | _ => True

instance : (l : NodeAct) → Decidable (s.InTime l)
  | .closeFd _ n => inferInstanceAs (Decidable (s.base.disposed = false → n ∈ s.base.fds))
  | .resume i => decidable_of_iff (∀ r ∈ (s.calls i).got, s.base.closer.collecting = true ∧
      (r.isDisk = true → s.base.handle = none)) (by
        cases h : s.calls i <;> simp [InTime, h, got])
  | .openFd _ | .attachPath _ | .close | .execute _ | .closeStep => .isTrue trivial

/-- `close` is over and so is every call. -/
def Settled : Prop :=
  s.base.closer = .finished ∧ ∀ i, s.calls i = .unused ∨ s.calls i = .settled

def holdings : Holdings where
  base := s.base
  log := s.log
  call i := (s.calls i).got
  ask i := (s.calls i).asks

variable {s s' : NodeWasmSession} {l : NodeAct} {i : ℕ} {c : NodeCall} {op : ApiOp} {r : Resource}

theorem holdings_put : (s.put i c).holdings =
    { s.holdings with
      call := Function.update s.holdings.call i c.got
      ask := Function.update s.holdings.ask i c.asks } := by
  simp only [holdings, put, Holdings.mk.injEq, true_and]
  constructor <;> funext j <;> by_cases hj : j = i <;> simp [hj]

attribute [local simp] holdings

theorem holdings_put_of_eq (hgot : c.got = (s.calls i).got) (hasks : c.asks = (s.calls i).asks) :
    (s.put i c).holdings = s.holdings := by
  rw [holdings_put, hgot, hasks]
  simp

def closeOf : Option ℕ × ApiOp → Option Resource
  | (_, .close r) => some r
  | _ => none

/-- Who made the request waits for it. -/
def Waits (s : NodeWasmSession) : Option ℕ × ApiOp → Prop
  | (some i, op) => s.calls i = .waiting op
  | (none, op) => ∃ r, op = .close r ∧ s.base.request = some r

/-- The requests and who waits for them. What was closed and what is to be closed, in this order,
has no descriptor after a disk. -/
structure ApiInv (s : NodeWasmSession) : Prop where
  waits : ∀ q ∈ s.api, s.Waits q
  nodup : (s.api.map Prod.fst).Nodup
  order : (closedOf s.log ++ s.api.filterMap closeOf).Pairwise fun r r' => r.isDisk = true →
    r'.isDisk = true

def Moves (s s' : NodeWasmSession) : Prop :=
  s.holdings.Goes s'.holdings ∧ s'.ApiInv

theorem ApiInv.fd_of_collecting (hs : s.ApiInv) (hH : s.holdings.Inv)
    (hc : s.base.closer.collecting = true) {r : Resource}
    (hr : r ∈ closedOf s.log ++ s.api.filterMap closeOf) : r.isDisk = false := by
  rcases mem_append.mp hr with hr | hr
  · cases r with
    | fd n => rfl
    | disk n =>
      rcases hH.late n (mem_closedOf.mp hr) with hl | hl <;>
        simp [show s.base.closer = _ from hl, Closer.collecting] at hc
  · obtain ⟨⟨who, op⟩, hq, hop⟩ := mem_filterMap.mp hr
    cases op with
    | close r' =>
      obtain rfl := some.inj hop
      cases who with
      | some i =>
        have hi : s.calls i = .waiting (.close r') := hs.waits _ hq
        exact hH.fdAsk i r' (by simp [hi, asks])
      | none =>
        obtain ⟨r, hr, hreq⟩ := hs.waits _ hq
        obtain rfl := ApiOp.close.inj hr
        rcases Holdings.closer_of_request (H := s.holdings) hreq with ⟨-, -, hfd⟩ | ⟨hk, -⟩
        · exact hfd
        · simp [show s.base.closer = _ from hk, Closer.collecting] at hc
    | _ => cases hop

/-! ### The requests along a step -/

variable {q : Option ℕ × ApiOp}

theorem ApiInv.caller_ne (hs : s.ApiInv) (hi : ∀ op, s.calls i ≠ .waiting op)
    (hq : q ∈ s.api) : q.1 ≠ some i := by
  rintro heq
  obtain ⟨who, op⟩ := q
  obtain rfl : who = some i := heq
  exact hi op (hs.waits _ hq)

theorem waits_put (hq : q.1 ≠ some i) : (s.put i c).Waits q ↔ s.Waits q := by
  obtain ⟨who | j, op⟩ := q
  · rfl
  · have hj : j ≠ i := fun h => hq (by rw [h])
    simp [Waits, put, hj]

theorem ApiInv.put (hs : s.ApiInv) (hi : ∀ op, s.calls i ≠ .waiting op) : (s.put i c).ApiInv where
  waits q hq := (waits_put (hs.caller_ne hi hq)).mpr (hs.waits q hq)
  nodup := hs.nodup
  order := hs.order

theorem ApiInv.base {b : SessionFds} (hs : s.ApiInv)
    (hb : ∀ r, s.base.request = some r → b.request = some r) : { s with base := b }.ApiInv where
  waits q hq := by
    have hw := hs.waits q hq
    obtain ⟨who | j, op⟩ := q
    · obtain ⟨r, hop, hr⟩ := hw
      exact ⟨r, hop, hb r hr⟩
    · exact hw
  nodup := hs.nodup
  order := hs.order

theorem ApiInv.push (hs : s.ApiInv) (hne : ∀ q' ∈ s.api, q'.1 ≠ q.1)
    (hw : s.Waits q) (horder : ∀ r, closeOf q = some r →
      ∀ r' ∈ closedOf s.log ++ s.api.filterMap closeOf, r'.isDisk = true → r.isDisk = true) :
    { s with api := s.api ++ [q] }.ApiInv where
  waits q' hq' := by
    rcases mem_append.mp hq' with hq' | hq'
    · exact hs.waits q' hq'
    · obtain rfl := mem_singleton.mp hq'
      exact hw
  nodup := by
    rw [map_append, nodup_append]
    refine ⟨hs.nodup, nodup_singleton _, fun who hwho who' hwho' => ?_⟩
    obtain ⟨q', hq', rfl⟩ := mem_map.mp hwho
    obtain rfl : who' = q.1 := by simpa using hwho'
    exact hne q' hq'
  order := by
    rw [filterMap_append, ← append_assoc, pairwise_append]
    refine ⟨hs.order, ?_, fun r' hr' r hr => ?_⟩
    · cases hop : closeOf q <;> simp [hop]
    · exact horder r (by simpa using hr) r' hr'

theorem ApiInv.submit (hs : s.ApiInv) (hi : ∀ op, s.calls i ≠ .waiting op)
    (horder : ∀ r, closeOf (some i, op) = some r →
      ∀ r' ∈ closedOf s.log ++ s.api.filterMap closeOf, r'.isDisk = true → r.isDisk = true) :
    (s.submit i op).ApiInv :=
  (hs.put hi).push (fun _ hq => hs.caller_ne hi hq) (by simp [Waits, NodeWasmSession.put]) horder

theorem ApiInv.pop {who : Option ℕ} {rest : List (Option ℕ × ApiOp)} {log : List EngineEvent}
    (hs : s.ApiInv) (hapi : s.api = (who, op) :: rest)
    (hlog : closedOf log ++ rest.filterMap closeOf = closedOf s.log ++ s.api.filterMap closeOf)
    (x : Option Resource) : ({ s with api := rest, log := log }.deliver who x).ApiInv := by
  have hnodup := hs.nodup
  rw [hapi, map_cons, nodup_cons] at hnodup
  have hne (q : Option ℕ × ApiOp) (hq : q ∈ rest) : q.1 ≠ who := fun h =>
    hnodup.1 (mem_map.mpr ⟨q, hq, h⟩)
  have hw (q : Option ℕ × ApiOp) (hq : q ∈ rest) : s.Waits q :=
    hs.waits q (hapi ▸ mem_cons_of_mem _ hq)
  cases who with
  | some i => exact ⟨fun q hq => (waits_put (hne q hq)).mpr (hw q hq), hnodup.2, hlog ▸ hs.order⟩
  | none =>
    refine ⟨fun q hq => ?_, hnodup.2, hlog ▸ hs.order⟩
    have hq' := hw q hq
    obtain ⟨who | j, op'⟩ := q
    · exact absurd rfl (hne _ hq)
    · exact hq'

/-! ### The steps -/

theorem submit_moves (hi : s.calls i = .unused) (hop : op = .open ∨ op = .sessionOpen)
    (hs : s.ApiInv) : s.Moves (s.submit i op) := by
  refine ⟨.inl ?_, hs.submit (fun op' => by simp [hi]) fun r hr => ?_⟩
  · change (s.put i (.waiting op)).holdings = s.holdings
    refine holdings_put_of_eq ?_ ?_ <;> rcases hop with rfl | rfl <;> rw [hi] <;> rfl
  · rcases hop with rfl | rfl <;> cases hr

theorem put_settled_moves (hi : s.calls i = .unused) (hs : s.ApiInv) : s.Moves (s.put i .settled) :=
  ⟨.inl (holdings_put_of_eq (by rw [hi]; rfl) (by rw [hi]; rfl)), hs.put fun op => by simp [hi]⟩

theorem closeFd_moves {n : ℕ} (hi : s.calls i = .unused)
    (hn : s.base.disposed = false → n ∈ s.base.fds) (hs : s.ApiInv) (hH : s.holdings.Inv) :
    s.Moves (s.closeFd i n) := by
  rw [closeFd]
  by_cases hd : s.base.disposed = true
  · rw [if_pos hd]
    exact put_settled_moves hi hs
  · rw [if_neg hd]
    have hidle := SessionFds.closer_of_not_disposed hd
    have hreq : s.base.request = none := by simp [SessionFds.request, hidle]
    have hs' : { s with base := s.base.delete n }.ApiInv := hs.base fun r hr => by simp [hreq] at hr
    refine ⟨.inr ?_, hs'.submit (fun op => by simp [hi]) fun r hr r' hr' hdisk => ?_⟩
    · have hview : ({ s with base := s.base.delete n }.submit i (.close (.fd n))).holdings =
          s.holdings.askFor i n := by
        refine (holdings_put (s := { s with base := s.base.delete n })).trans ?_
        simp [Holdings.askFor, got, asks, hi]
      rw [hview]
      exact .askFor hidle (hn (by simpa using hd)) (by simp [hi, asks])
    · have := hs.fd_of_collecting hH (by rw [hidle]; rfl) hr'
      rw [this] at hdisk
      cases hdisk

section

variable (hs : s.ApiInv)
include hs

theorem ApiInv.caller {who : Option ℕ} (hq : (who, op) ∈ s.api)
    (hop : closeOf (who, op) = none) : ∃ i, who = some i ∧ s.calls i = .waiting op := by
  cases who with
  | some i => exact ⟨i, rfl, hs.waits _ hq⟩
  | none =>
    obtain ⟨r, rfl, -⟩ := hs.waits _ hq
    cases hop

theorem yield_moves {who : Option ℕ} {rest : List (Option ℕ × ApiOp)} {x : Option Resource}
    (hapi : s.api = (who, op) :: rest) (hop : closeOf (who, op) = none)
    (h : { s with api := rest }.yield who x = some s') : s.Moves s' := by
  obtain ⟨i, rfl, hi⟩ := hs.caller (hapi ▸ mem_cons_self) hop
  have hasks : (s.calls i).asks = none := by
    rw [hi]
    cases op with
    | close r => cases hop
    | _ => rfl
  have hlist : s.api.filterMap closeOf = rest.filterMap closeOf := by
    rw [hapi, filterMap_cons, hop]
  cases x with
  | none =>
    cases h
    refine ⟨.inl ?_, hs.pop hapi (by rw [hlist]) none⟩
    change (s.put i (.answered none)).holdings = s.holdings
    exact holdings_put_of_eq (by rw [hi]; rfl) hasks.symm
  | some r =>
    obtain ⟨hnew, ⟨⟩⟩ := ite_none_left_eq_some.mp h
    refine ⟨.inr ?_, hs.pop hapi (by simp [hlist]) (some r)⟩
    have hview :
        (({ s with api := rest, log := s.log ++ [EngineEvent.opened r] } : NodeWasmSession).deliver
        (some i) (some r)).holdings = s.holdings.returned i r := by
      refine holdings_put.trans ?_
      have hasks' : asks (.answered (some r)) = (s.calls i).asks := hasks.symm
      simp [Holdings.returned, got, hasks']
    exact hview ▸ .returned (by simp [hi, got]) hnew

theorem execute_moves {n : Option ℕ} (hH : s.holdings.Inv)
    (h : s.execute n = some s') : s.Moves s' := by
  rw [execute.eq_def] at h
  split at h
  · cases h
  · next who rest hapi => exact yield_moves hs hapi rfl h
  · next who rest hapi => exact yield_moves hs hapi rfl h
  · next who r rest hapi =>
    cases h
    have hlist : s.api.filterMap closeOf = r :: rest.filterMap closeOf := by
      rw [hapi, filterMap_cons]
      rfl
    refine ⟨.inr ?_, hs.pop hapi (by simp [hlist]) none⟩
    have hw := hs.waits (who, .close r) (hapi ▸ mem_cons_self)
    cases who with
    | some i =>
      have hi : s.calls i = .waiting (.close r) := hw
      have hask : s.holdings.ask i = some r := by simp [hi, asks]
      have hview : (({ s with api := rest, log := s.log ++ [EngineEvent.closed r] } :
            NodeWasmSession).deliver (some i) none).holdings = s.holdings.closedAsk i r := by
        refine holdings_put.trans ?_
        simp [Holdings.closedAsk, got, asks, hi]
      -- the request was made before that for the disk, so it is executed first
      refine hview ▸ .closedAsk hask fun d hd => ?_
      have horder := (pairwise_append.mp hs.order).2.2 (.disk d) (mem_closedOf.mpr hd) r
        (hlist ▸ mem_cons_self) rfl
      rw [hH.fdAsk i r hask] at horder
      cases horder
    | none =>
      obtain ⟨r', hr', hreq⟩ := hw
      obtain rfl := ApiOp.close.inj hr'
      exact .closedRequest hreq

theorem resume_moves (hk : s.InTime (.resume i)) (h : s.resume i = some s') : s.Moves s' := by
  rw [resume.eq_def] at h
  split at h
  · next r hi =>
    cases h
    obtain ⟨hc, hd⟩ := hk r hi
    have hs' : { s with base := s.base.add r }.ApiInv :=
      hs.base fun r' hr' => SessionFds.request_add hr' hc
    refine ⟨.inr ?_, hs'.put fun op => by simp [hi]⟩
    have hview : (({ s with base := s.base.add r } : NodeWasmSession).put i .settled).holdings =
        s.holdings.keep i r := by
      refine holdings_put.trans ?_
      simp [Holdings.keep, got, asks, hi]
    exact hview ▸ .keep (by simp [hi, got]) hc hd
  · next hi =>
    cases h
    exact ⟨.inl (holdings_put_of_eq (by rw [hi]; rfl) (by rw [hi]; rfl)),
      hs.put fun op => by simp [hi]⟩
  · cases h

theorem closeStep_moves (hH : s.holdings.Inv) (h : s.closeStep = some s') : s.Moves s' := by
  obtain ⟨b, hb, rfl⟩ := map_eq_some_iff.mp h
  refine ⟨.inr (.advance hb), ?_⟩
  have hreq : s.base.request = none := SessionFds.request_of_advance hb
  have hs' : { s with base := b }.ApiInv := hs.base fun r hr => by simp [hreq] at hr
  cases hr : b.request with
  | none => simpa [hr] using hs'
  | some r =>
    refine hs'.push (fun q hq heq => ?_) ⟨r, rfl, hr⟩ fun r' hr' r'' hr'' hdisk => ?_
    · obtain ⟨who, op⟩ := q
      obtain rfl : who = none := heq
      obtain ⟨_, -, hreq'⟩ := hs.waits _ hq
      simp [hreq] at hreq'
    · have := hs.fd_of_collecting hH (SessionFds.collecting_of_advance hb hr) hr''
      rw [this] at hdisk
      cases hdisk

theorem step_moves (hH : s.holdings.Inv) (hk : s.InTime l)
    (h : nodeStep s l = some s') : s.Moves s' := by
  cases l with
  | openFd i =>
    obtain ⟨hi, ⟨⟩⟩ := ite_none_right_eq_some.mp h
    rw [openFd]
    split_ifs
    · exact put_settled_moves hi hs
    · exact submit_moves hi (.inl rfl) hs
  | closeFd i n =>
    obtain ⟨hi, ⟨⟩⟩ := ite_none_right_eq_some.mp h
    exact closeFd_moves hi hk hs hH
  | attachPath i =>
    obtain ⟨hi, ⟨⟩⟩ := ite_none_right_eq_some.mp h
    rw [attachPath]
    split_ifs
    · exact put_settled_moves hi hs
    · exact submit_moves hi (.inr rfl) hs
  | close =>
    cases h
    rw [close]
    by_cases hd : s.base.disposed = true
    · rw [if_pos hd]
      exact ⟨.inl rfl, hs⟩
    · rw [if_neg hd]
      have hidle := SessionFds.closer_of_not_disposed hd
      refine ⟨.inr (.start (.inl hidle)), hs.base fun r hr => ?_⟩
      simp [SessionFds.request, hidle] at hr
  | execute n => exact execute_moves hs hH h
  | resume i => exact resume_moves hs hk h
  | closeStep => exact closeStep_moves hs hH h

end

theorem inv_of_reach (h : nodeMachine.Reach InTime init s) : s.ApiInv ∧ s.holdings.Inv := by
  have hinit : init.ApiInv := ⟨fun q hq => absurd hq not_mem_nil, .nil, .nil⟩
  refine h.invariant (P := fun s => s.ApiInv ∧ s.holdings.Inv) ⟨hinit, Holdings.inv_init⟩ ?_
  rintro s l s' ⟨hs, hH⟩ hk hstep
  obtain ⟨hmoves, hs'⟩ := step_moves hs hH hk hstep
  exact ⟨hs', hH.goes hmoves⟩

theorem balanced_of_settled (h : nodeMachine.Reach InTime init s) (hs : s.Settled) :
    Balanced s.log := by
  obtain ⟨hfin, hcalls⟩ := hs
  refine (inv_of_reach h).2.balanced hfin (fun i => ?_) fun i => ?_
  · rcases hcalls i with hi | hi <;> simp [hi, got]
  · rcases hcalls i with hi | hi <;> simp [hi, asks]

end NodeWasmSession

end Anyfs
