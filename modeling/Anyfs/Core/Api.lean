import Anyfs.Lib.LinkedQueue
import Anyfs.Lib.Machine
import Mathlib.Algebra.Order.BigOperators.Group.List
import Mathlib.Algebra.Order.Ring.Nat

/-!
# Calls through the API thread

A call of the wasm module writes a request into linear memory and submits it; the API thread takes
the requests off a linked queue, executes them one by one and posts the id back. The call then reads
the result and frees the request and its argument strings, unless the module is dead.
-/

namespace Anyfs

open Function List Option

/-- `(v as number) | 0`, and what a store to `HEAP32` keeps of a number. -/
@[irreducible]
def toInt32 (v : ℤ) : ℤ := v.bmod (2 ^ 32)

/-- `struct anyfs_ts_req`. -/
structure ApiReq where
  op : ℤ
  id : ℤ
  ret : ℤ
  arg : List ℤ
  next : ℕ
  deriving DecidableEq

/-- What `malloc` gave a block of memory for. -/
inductive ApiCell where
  | req (r : ApiReq)
  | string (t : String)
  deriving DecidableEq

def ApiCell.req? : ApiCell → Option ApiReq
  | .req r => some r
  | .string _ => none

def ApiCell.mapReq (f : ApiReq → ApiReq) : ApiCell → ApiCell
  | .req r => .req (f r)
  | .string t => .string t

@[simp]
theorem ApiCell.req?_mapReq (f : ApiReq → ApiReq) (x : ApiCell) :
    (x.mapReq f).req? = x.req?.map f := by
  cases x <;> rfl

/-- An argument of an operation. -/
inductive ApiArg where
  | num (v : ℤ)
  | str (t : String)
  deriving DecidableEq

def ApiArg.isStr : ApiArg → Bool
  | .num _ => false
  | .str _ => true

/-- What a call is rejected with; `aborted` is for an abort in `anyfs_ts_api_submit`. -/
inductive ApiError (ε : Type*) where
  | dead (e : ε)
  | tooManyArgs
  | unavailable
  | aborted (e : ε)
  deriving DecidableEq

/-- Where a call stands. -/
inductive ApiPhase (ε : Type*) where
  | waiting
  | resolved
  | rejected (e : ε)
  | settled (r : Except (ApiError ε) ℤ)

/-- A call. A call that was rejected before it wrote a request has no id, which is 0 here. -/
structure ApiCall (ε : Type*) where
  op : ℤ
  id : ℕ
  arg : List ℤ
  req : ℕ
  strings : List (ℕ × String)
  phase : ApiPhase ε

def ApiCall.goOn {ε : Type*} (c : ApiCall ε) (p : ApiPhase ε) : ApiCall ε := { c with phase := p }

def ApiCall.toReq {ε : Type*} (c : ApiCall ε) : ApiReq := ⟨c.op, toInt32 c.id, 0, c.arg, 0⟩

/-- What the API thread is at: it waits, it executes a request, it has executed one. -/
inductive ApiThread where
  | idle
  | running (a : ℕ)
  | ran (a : ℕ)
  deriving DecidableEq

def ApiThread.block : ApiThread → Option ℕ
  | .idle => none
  | .running a | .ran a => some a

/-- What `anyfs_ts_api_submit` does. -/
inductive ApiSubmit (ε : Type*) where
  | queues
  | noThread
  | aborts (e : ε)

/-- The memory of the module, the queue and the thread, the ids that were posted and are not
delivered, and the state of `WasmApi`. The last three fields are history. -/
structure WasmApi (ε : Type*) where
  heap : ℕ → Option ApiCell
  head : ℕ
  tail : ℕ
  started : Bool
  thread : ApiThread
  posted : List ℤ
  failure : Option ε
  nextId : ℕ
  pending : List ℕ
  calls : List (ApiCall ε)
  accepted : List ℤ
  executed : List (ℤ × ℤ)
  delivered : List ℤ

namespace WasmApi

variable {ε : Type*}

def maxArgs : ℕ := 6

def init : WasmApi ε := ⟨fun _ => none, 0, 0, false, .idle, [], none, 1, [], [], [], [], []⟩

/-- The words that the arguments become, with the strings that are copied to the addresses `ps`. -/
def place : List ApiArg → List ℕ → List ℤ × List (ℕ × String)
  | .num v :: as, ps => ((toInt32 v :: (place as ps).1), (place as ps).2)
  | .str t :: as, p :: ps => ((toInt32 p :: (place as ps).1), (p, t) :: (place as ps).2)
  | _, _ => ([], [])

variable (s : WasmApi ε)

/-- `malloc` may return these addresses. -/
def Allocates (as : List ℕ) : Prop :=
  as.Nodup ∧ ∀ a ∈ as, a ≠ 0 ∧ (s.heap a).isNone = true

instance (as : List ℕ) : Decidable (s.Allocates as) := inferInstanceAs (Decidable (_ ∧ _))

/-- A call that is rejected at once. -/
def refuse (op : ℤ) (e : ApiError ε) : WasmApi ε :=
  { s with calls := s.calls ++ [⟨toInt32 op, 0, [], 0, [], .settled (.error e)⟩] }

/-- The call with its request and strings in place. -/
def newCall (op : ℤ) (args : List ApiArg) (req : ℕ) (ps : List ℕ) : ApiCall ε :=
  ⟨toInt32 op, s.nextId, (place args ps).1 ++ replicate (maxArgs - args.length) 0, req,
    (place args ps).2, .waiting⟩

def withStrings (heap : ℕ → Option ApiCell) (strings : List (ℕ × String)) : ℕ → Option ApiCell :=
  strings.foldl (fun h p => update h p.1 (some (.string p.2))) heap

def without (heap : ℕ → Option ApiCell) (as : List ℕ) : ℕ → Option ApiCell :=
  fun a => if a ∈ as then none else heap a

/-- The request is written and registered. -/
def write (c : ApiCall ε) : WasmApi ε :=
  { s with
    heap := update (withStrings s.heap c.strings) c.req (some (.req c.toReq))
    nextId := s.nextId + 1
    pending := s.pending ++ [c.id]
    calls := s.calls ++ [c] }

def reqAt (a : ℕ) : Option ApiReq := (s.heap a).bind ApiCell.req?

/-- `r->next`. -/
def next (a : ℕ) : ℕ := (s.reqAt a).elim 0 ApiReq.next

/-- `r->id`. -/
def idAt (a : ℕ) : ℤ := (s.reqAt a).elim 0 ApiReq.id

def store (a : ℕ) (f : ApiReq → ApiReq) : WasmApi ε :=
  { s with heap := update s.heap a ((s.heap a).map (ApiCell.mapReq f)) }

/-- `a->next = b`. -/
def setNext (a b : ℕ) : WasmApi ε := s.store a fun r => { r with next := b }

/-- `a->ret = v`. -/
def setRet (a : ℕ) (v : ℤ) : WasmApi ε := s.store a fun r => { r with ret := toInt32 v }

/-- `r->next = NULL`, and the last request or `g_api_head` is made to point to `r`. -/
def link (r : ℕ) : WasmApi ε :=
  if s.tail = 0 then { s.setNext r 0 with head := r } else (s.setNext r 0).setNext s.tail r

/-- `anyfs_ts_api_submit` returns 0. -/
def accept (r : ℕ) : WasmApi ε :=
  { s.link r with tail := r, started := true, accepted := s.accepted ++ [s.idAt r] }

def rephase (f : ApiCall ε → ApiPhase ε) : WasmApi ε :=
  { s with calls := s.calls.map fun c => c.goOn (f c) }

def setPhase (id : ℕ) (p : ApiPhase ε) : WasmApi ε :=
  s.rephase fun c => if c.id = id then p else c.phase

/-- Call `n` is taken off `pending`. -/
def leave (n : ℕ) (p : ApiPhase ε) : WasmApi ε :=
  { s with pending := s.pending.erase n }.setPhase n p

/-- `free`, for the request and the strings of a call. -/
def release (c : ApiCall ε) : WasmApi ε :=
  if s.failure.isSome then s
  else { s with heap := without s.heap (c.req :: c.strings.map Prod.fst) }

def rejectAll (e : ε) : WasmApi ε :=
  s.rephase fun c => if c.id ∈ s.pending then .rejected e else c.phase

/-- `fail`: the first failure rejects every pending call. -/
def fail (e : ε) : WasmApi ε :=
  match s.failure with
  | some _ => s
  | none => { s.rejectAll e with failure := some e, pending := [] }

/-- The rest of `call` up to the `await`: the request is submitted. -/
def submit (c : ApiCall ε) : ApiSubmit ε → WasmApi ε
  | .aborts e => (s.fail e).setPhase c.id (.settled (.error (.aborted e)))
  | .noThread =>
    if s.started then s.accept c.req
    else (s.leave c.id (.settled (.error .unavailable))).release c
  | .queues => s.accept c.req

def call (op : ℤ) (args : List ApiArg) (req : ℕ) (ps : List ℕ) (o : ApiSubmit ε) :
    Option (WasmApi ε) :=
  match s.failure with
  | some e => some (s.refuse op (.dead e))
  | none =>
    if maxArgs < args.length then some (s.refuse op .tooManyArgs)
    else if s.Allocates (req :: ps) ∧ ps.length = (args.filter ApiArg.isStr).length then
      some ((s.write (s.newCall op args req ps)).submit (s.newCall op args req ps) o)
    else none

/-- The thread takes the first request. -/
def take : Option (WasmApi ε) :=
  if s.thread = .idle ∧ s.head ≠ 0 then
    some { s with
      head := s.next s.head
      tail := if s.next s.head = 0 then 0 else s.tail
      thread := .running s.head }
  else none

/-- `r->ret = api_run(r)`. -/
def finish (v : ℤ) : Option (WasmApi ε) :=
  match s.thread with
  | .running a => some { s.setRet a v with
      thread := .ran a, executed := s.executed ++ [(s.idAt a, toInt32 v)] }
  | _ => none

def post : Option (WasmApi ε) :=
  match s.thread with
  | .ran a => some { s with thread := .idle, posted := s.posted ++ [s.idAt a] }
  | _ => none

def anyfsApiDone (id : ℤ) : WasmApi ε :=
  match s.pending.find? fun n : ℕ => decide ((n : ℤ) = id) with
  | some n => s.leave n .resolved
  | none => s

/-- A message arrives. -/
def deliver (k : ℕ) : Option (WasmApi ε) :=
  s.posted[k]?.map fun id =>
    { s with posted := s.posted.eraseIdx k, delivered := s.delivered ++ [id] }.anyfsApiDone id

/-- A call goes on after its `await`: it reads the result or throws, and frees its memory. -/
def resume (i : ℕ) : Option (WasmApi ε) :=
  s.calls[i]?.bind fun c =>
    match c.phase with
    | .resolved =>
      some ((s.setPhase c.id (.settled (.ok ((s.reqAt c.req).elim (-1) ApiReq.ret)))).release c)
    | .rejected e => some ((s.setPhase c.id (.settled (.error (.dead e)))).release c)
    | _ => none

end WasmApi

/-- The steps of the thread that owns the module, and those of the API thread. -/
inductive ApiAct (ε : Type*) where
  | call (op : ℤ) (args : List ApiArg) (req : ℕ) (ps : List ℕ) (o : ApiSubmit ε)
  | take
  | finish (v : ℤ)
  | post
  | deliver (k : ℕ)
  | fail (e : ε)
  | resume (i : ℕ)

section Step

variable {ε : Type*}

def ApiAct.isJob : ApiAct ε → Bool
  | .resume _ => true
  | _ => false

/-- The steps of both threads. -/
def apiStep (s : WasmApi ε) : ApiAct ε → Option (WasmApi ε)
  | .call op args req ps o => s.call op args req ps o
  | .take => s.take
  | .finish v => s.finish v
  | .post => s.post
  | .deliver k => s.deliver k
  | .fail e => some (s.fail e)
  | .resume i => s.resume i

def apiMachine : Machine (WasmApi ε) (ApiAct ε) := .ofFun apiStep

end Step

namespace ApiPhase

variable {ε : Type*}

def isOpen : ApiPhase ε → Bool
  | .waiting | .rejected _ | .settled (.error (.dead _)) => true
  | _ => false

/-- Whether the call's blocks are its own. -/
def keeps : ApiPhase ε → Bool
  | .resolved => true
  | p => p.isOpen

def answered : ApiPhase ε → Bool
  | .resolved | .settled (.ok _) => true
  | _ => false

theorem keeps_of_isOpen {p : ApiPhase ε} (h : p.isOpen = true) : p.keeps = true := by
  cases p with
  | resolved => rfl
  | _ => exact h

end ApiPhase

namespace ApiCall

variable {ε : Type*}

def blocks (c : ApiCall ε) : List ℕ := c.req :: c.strings.map Prod.fst

def Keeps (c : ApiCall ε) : Prop := c.id ≠ 0 ∧ c.phase.keeps = true

end ApiCall

namespace WasmApi

variable {ε : Type*}

/-- The blocks of a call hold what it wrote. -/
def Intact (s : WasmApi ε) (c : ApiCall ε) : Prop :=
  (∃ r, s.reqAt c.req = some r ∧ r.op = c.op ∧ r.id = toInt32 c.id ∧ r.arg = c.arg) ∧
    ∀ p ∈ c.strings, s.heap p.1 = some (.string p.2)

/-- The requests that are linked from `head`. -/
inductive Queued (s : WasmApi ε) : ℕ → Prop
  | head : s.head ≠ 0 → Queued s s.head
  | next {a : ℕ} : Queued s a → s.next a ≠ 0 → Queued s (s.next a)

variable {s : WasmApi ε} {c : ApiCall ε} {a b : ℕ}

theorem reqAt_congr {s' : WasmApi ε} (h : s'.heap a = s.heap a) : s'.reqAt a = s.reqAt a := by
  rw [reqAt, h, reqAt]

variable {f : ApiReq → ApiReq} {op : ℤ} {r : ApiReq} {p : ApiPhase ε} {l : ApiAct ε}

theorem reqAt_store : (s.store a f).reqAt b = if b = a then (s.reqAt a).map f else s.reqAt b := by
  by_cases hb : b = a
  · subst hb
    cases h : s.heap b <;> simp [store, reqAt, h]
  · simp [store, reqAt, hb]

theorem string_store {t : String} (hb : s.heap b = some (.string t)) :
    (s.store a f).heap b = some (.string t) := by
  by_cases hba : b = a
  · subst hba
    simp [store, hb, ApiCell.mapReq]
  · simp [store, hba, hb]

theorem Intact.store (hc : s.Intact c)
    (hf : ∀ r, (f r).op = r.op ∧ (f r).id = r.id ∧ (f r).arg = r.arg) : (s.store a f).Intact c := by
  obtain ⟨⟨r, hr, hop, hid, harg⟩, hstrings⟩ := hc
  refine ⟨?_, fun p hp => string_store (hstrings p hp)⟩
  rw [reqAt_store]
  split_ifs with hca
  · obtain ⟨hop', hid', harg'⟩ := hf r
    exact ⟨f r, by rw [← hca, hr, map_some], hop'.trans hop, hid'.trans hid, harg'.trans harg⟩
  · exact ⟨r, hr, hop, hid, harg⟩

theorem idAt_store (hf : ∀ r, (f r).id = r.id) : (s.store a f).idAt b = s.idAt b := by
  rw [idAt, idAt, reqAt_store]
  split_ifs with hb
  · subst hb
    cases s.reqAt b <;> simp [hf]
  · rfl

theorem withStrings_apply (heap : ℕ → Option ApiCell) {strings : List (ℕ × String)} (a : ℕ)
    (ha : a ∉ strings.map Prod.fst) : withStrings heap strings a = heap a := by
  induction strings generalizing heap with
  | nil => rfl
  | cons p strings ih =>
    rw [map_cons, mem_cons, not_or] at ha
    rw [withStrings, foldl_cons]
    exact (ih _ ha.2).trans (update_of_ne ha.1 _ _)

theorem withStrings_of_mem (heap : ℕ → Option ApiCell) {strings : List (ℕ × String)}
    {p : ℕ × String} (hnodup : (strings.map Prod.fst).Nodup) (hp : p ∈ strings) :
    withStrings heap strings p.1 = some (.string p.2) := by
  induction strings generalizing heap with
  | nil => cases hp
  | cons q strings ih =>
    rw [map_cons, nodup_cons] at hnodup
    rw [withStrings, foldl_cons]
    rcases mem_cons.mp hp with rfl | hp
    · exact (withStrings_apply _ p.1 hnodup.1).trans (update_self _ _ _)
    · exact ih _ hnodup.2 hp

variable {args : List ApiArg} {ps : List ℕ} {n : ℕ}

theorem map_fst_place (h : ps.length = (args.filter ApiArg.isStr).length) :
    (place args ps).2.map Prod.fst = ps := by
  induction args generalizing ps with
  | nil =>
    have : ps = [] := length_eq_zero_iff.mp h
    subst this
    rfl
  | cons x args ih =>
    cases x with
    | num v => exact ih (by simpa [ApiArg.isStr] using h)
    | str t =>
      rw [filter_cons_of_pos rfl, length_cons] at h
      cases ps with
      | nil => cases h
      | cons p ps => rw [place, map_cons, ih (Nat.succ.inj h)]

/-! ### The calls and their memory -/

/-- Ids are given once, and what a call has not freed is its own and as it wrote it. -/
structure MemInv (s : WasmApi ε) : Prop where
  positive : 0 < s.nextId
  ids : ∀ c ∈ s.calls, c.id < s.nextId
  count : s.nextId ≤ s.calls.length + 1
  once : ((s.calls.map ApiCall.id).filter (· ≠ 0)).Nodup
  unique : ∀ c ∈ s.calls, ∀ d ∈ s.calls, c.id = d.id → c.id ≠ 0 → c = d
  intact : ∀ c ∈ s.calls, c.Keeps → s.Intact c
  apart : ∀ c ∈ s.calls, ∀ d ∈ s.calls, c.Keeps → d.Keeps → ∀ a ∈ c.blocks, a ∈ d.blocks → c = d

theorem toInt32_of_lt (h : n < 2 ^ 31) : toInt32 n = n := by
  rw [toInt32, Int.bmod_eq_of_le (by omega) (by omega)]

theorem MemInv.toInt32_id (hs : s.MemInv) (hlen : s.calls.length < 2 ^ 31) (hc : c ∈ s.calls) :
    toInt32 c.id = c.id := by
  have hid := hs.ids c hc
  have hcount := hs.count
  exact toInt32_of_lt (by omega)

theorem MemInv.eq_of_id (hs : s.MemInv) (hc : c ∈ s.calls) (h0 : c.id ≠ 0) :
    ∀ d ∈ s.calls, d.id = c.id → d = c :=
  fun d hd hdc => hs.unique d hd c hc hdc (hdc ▸ h0)

theorem MemInv.eq_of_toInt32 {d : ApiCall ε} (hs : s.MemInv) (hlen : s.calls.length < 2 ^ 31)
    (hc : c ∈ s.calls) (hd : d ∈ s.calls) (hne : c.id ≠ 0) (h : toInt32 c.id = toInt32 d.id) :
    c = d := by
  rw [hs.toInt32_id hlen hc, hs.toInt32_id hlen hd] at h
  exact hs.unique c hc d hd (by exact_mod_cast h) hne

theorem Intact.isSome (hc : s.Intact c) (ha : a ∈ c.blocks) : (s.heap a).isSome = true := by
  obtain ⟨⟨r, hr, -⟩, hstrings⟩ := hc
  rcases mem_cons.mp ha with rfl | ha
  · cases h : s.heap c.req with
    | none => simp [reqAt, h] at hr
    | some x => rfl
  · obtain ⟨p, hp, rfl⟩ := mem_map.mp ha
    simp [hstrings p hp]

theorem Intact.congr {s' : WasmApi ε} (hc : s.Intact c) (h : ∀ a ∈ c.blocks, s'.heap a = s.heap a) :
    s'.Intact c := by
  obtain ⟨hreq, hstrings⟩ := hc
  refine ⟨?_, fun p hp => ?_⟩
  · rw [reqAt, h c.req mem_cons_self]
    exact hreq
  · rw [h p.1 (mem_cons_of_mem _ (mem_map_of_mem hp))]
    exact hstrings p hp

theorem mem_rephase {f : ApiCall ε → ApiPhase ε} :
    c ∈ (s.rephase f).calls ↔ ∃ d ∈ s.calls, d.goOn (f d) = c :=
  mem_map

theorem MemInv.rephase {f : ApiCall ε → ApiPhase ε} (hs : s.MemInv)
    (hf : ∀ c ∈ s.calls, (f c).keeps = true → c.phase.keeps = true) : (s.rephase f).MemInv where
  positive := hs.positive
  ids c hc := by
    obtain ⟨d, hd, rfl⟩ := mem_rephase.mp hc
    exact hs.ids d hd
  count := by simpa [WasmApi.rephase] using hs.count
  once := by
    rw [WasmApi.rephase, List.map_map]
    exact hs.once
  unique c hc c' hc' hid hne := by
    obtain ⟨d, hd, rfl⟩ := mem_rephase.mp hc
    obtain ⟨d', hd', rfl⟩ := mem_rephase.mp hc'
    rw [hs.unique d hd d' hd' hid hne]
  intact c hc hk := by
    obtain ⟨d, hd, rfl⟩ := mem_rephase.mp hc
    exact hs.intact d hd ⟨hk.1, hf d hd hk.2⟩
  apart c hc c' hc' hk hk' a ha ha' := by
    obtain ⟨d, hd, rfl⟩ := mem_rephase.mp hc
    obtain ⟨d', hd', rfl⟩ := mem_rephase.mp hc'
    rw [hs.apart d hd d' hd' ⟨hk.1, hf d hd hk.2⟩ ⟨hk'.1, hf d' hd' hk'.2⟩ a ha ha']

theorem MemInv.store (hs : s.MemInv)
    (hf : ∀ r, (f r).op = r.op ∧ (f r).id = r.id ∧ (f r).arg = r.arg) : (s.store a f).MemInv :=
  { hs with intact := fun c hc hk => (hs.intact c hc hk).store hf }

theorem MemInv.without {as : List ℕ} (hs : s.MemInv)
    (has : ∀ d ∈ s.calls, d.Keeps → ∀ a ∈ as, a ∉ d.blocks) :
    { s with heap := WasmApi.without s.heap as }.MemInv :=
  { hs with
    intact := fun d hd hk => (hs.intact d hd hk).congr fun a ha =>
      if_neg fun hac => has d hd hk a hac ha }

theorem forall_write {P : ApiCall ε → Prop} (hold : ∀ d ∈ s.calls, P d) (hnew : P c) :
    ∀ d ∈ (s.write c).calls, P d :=
  forall_mem_append.mpr ⟨hold, forall_mem_singleton.mpr hnew⟩

theorem heap_write_of_notMem (ha : a ∉ c.blocks) : (s.write c).heap a = s.heap a := by
  obtain ⟨hreq, hstrings⟩ := not_or.mp (mem_cons.not.mp ha)
  exact (update_of_ne hreq _ _).trans (withStrings_apply _ _ hstrings)

theorem reqAt_write : (s.write c).reqAt c.req = some c.toReq := by
  simp [reqAt, write, ApiCell.req?]

theorem intact_write (hc : c.blocks.Nodup) : (s.write c).Intact c := by
  obtain ⟨hreq, hstrings⟩ := nodup_cons.mp hc
  refine ⟨⟨c.toReq, reqAt_write, rfl, rfl, rfl⟩, fun p hp => ?_⟩
  have hne : p.1 ≠ c.req := fun h => hreq (h ▸ mem_map_of_mem hp)
  exact (update_of_ne hne _ _).trans (withStrings_of_mem _ hstrings hp)

theorem blocks_newCall {req : ℕ} (hps : ps.length = (args.filter ApiArg.isStr).length) :
    (s.newCall op args req ps).blocks = req :: ps :=
  congrArg (req :: ·) (map_fst_place hps)

theorem MemInv.notMem_of_alloc {as : List ℕ} (hs : s.MemInv) (halloc : s.Allocates as)
    (hc : c ∈ s.calls) (hk : c.Keeps) (ha : a ∈ c.blocks) : a ∉ as := by
  intro has
  have hsome := (hs.intact c hc hk).isSome ha
  rw [isNone_iff_eq_none.mp (halloc.2 a has).2] at hsome
  cases hsome

theorem MemInv.write (hs : s.MemInv) (halloc : s.Allocates c.blocks) (hid : c.id = s.nextId) :
    (s.write c).MemInv := by
  have hnot (d : ApiCall ε) (hd : d ∈ s.calls) (hk : d.Keeps) (a : ℕ) (ha : a ∈ d.blocks) :
      a ∉ c.blocks :=
    hs.notMem_of_alloc halloc hd hk ha
  have hlt (d : ApiCall ε) (hd : d ∈ s.calls) : d.id ≠ c.id := by
    have := hs.ids d hd
    omega
  refine ⟨Nat.succ_pos _, forall_write (fun d hd => Nat.lt_succ_of_lt (hs.ids d hd)) ?_, ?_, ?_,
    forall_write (fun d hd => forall_write (hs.unique d hd) fun h => absurd h (hlt d hd)) ?_,
    forall_write (fun d hd hk => ?_) fun _ => intact_write halloc.1,
    forall_write (fun d hd => forall_write (hs.apart d hd) fun hk _ a ha ha' => ?_) ?_⟩
  · rw [hid]
    exact Nat.lt_succ_self _
  · simpa [WasmApi.write] using hs.count
  · rw [WasmApi.write, map_append, filter_append, nodup_append]
    refine ⟨hs.once, (nodup_singleton _).filter _, fun n hn m hm hnm => ?_⟩
    obtain ⟨d, hd, rfl⟩ := mem_map.mp (mem_of_mem_filter hn)
    obtain rfl : m = c.id := mem_singleton.mp (mem_of_mem_filter hm)
    exact hlt d hd hnm
  · exact forall_write (fun d hd h => absurd h.symm (hlt d hd)) fun _ _ => rfl
  · exact (hs.intact d hd hk).congr fun a ha => heap_write_of_notMem (hnot d hd hk a ha)
  · exact absurd ha' (hnot d hd hk a ha)
  · exact forall_write (fun d hd _ hk a ha ha' => absurd ha (hnot d hd hk a ha')) fun _ _ _ _ _ =>
      rfl

/-! ### The queue -/

def running (s : WasmApi ε) : List ℕ :=
  match s.thread with
  | .running a => [a]
  | _ => []

/-- The block is in the queue or with the thread. -/
def Taken (s : WasmApi ε) (q : List ℕ) (a : ℕ) : Prop := a ∈ q ∨ s.thread.block = some a

/-- The queue stands for the list `q` of requests. What was accepted is what was executed, what is
being executed and what is queued, in this order; a completion that was posted is for a request that
the thread no longer has. -/
structure QueueInv (s : WasmApi ε) (q : List ℕ) : Prop where
  queue : LinkedQueue s.next 0 s.head s.tail q
  taken : ∀ a, s.Taken q a → ∃ c ∈ s.calls, c.req = a ∧ c.id ≠ 0 ∧ c.phase.isOpen = true
  accepted : s.accepted = s.executed.map Prod.fst ++ s.running.map s.idAt ++ q.map s.idAt
  once : s.accepted.Nodup
  known : ∀ x ∈ s.accepted, ∃ c ∈ s.calls, c.id ≠ 0 ∧ toInt32 c.id = x
  posted : ∀ x ∈ s.posted, x ∈ s.executed.map Prod.fst
  delivered : ∀ x ∈ s.delivered, x ∈ s.executed.map Prod.fst
  ran : ∀ a, s.thread = .ran a → s.idAt a ∈ s.executed.map Prod.fst ∧ s.idAt a ∉ s.posted

variable {s' : WasmApi ε} {q : List ℕ}

theorem next_congr (h : s'.reqAt a = s.reqAt a) : s'.next a = s.next a := by
  rw [next, h, next]

theorem idAt_congr (h : s'.reqAt a = s.reqAt a) : s'.idAt a = s.idAt a := by
  rw [idAt, h, idAt]

theorem taken_of_running (ha : a ∈ s.running) : s.Taken q a := by
  rw [running] at ha
  split at ha
  · next b hb =>
    obtain rfl := mem_singleton.mp ha
    exact .inr (by rw [hb]; rfl)
  · cases ha

theorem QueueInv.congr (hq : s.QueueInv q)
    (hsame : s'.head = s.head ∧ s'.tail = s.tail ∧ s'.thread = s.thread ∧ s'.accepted = s.accepted ∧
      s'.executed = s.executed ∧ s'.posted = s.posted ∧ s'.delivered = s.delivered)
    (hreq : ∀ a, s.Taken q a → s'.reqAt a = s.reqAt a)
    (htaken : ∀ c ∈ s.calls, s.Taken q c.req → c.id ≠ 0 → c.phase.isOpen = true →
      ∃ d ∈ s'.calls, d.req = c.req ∧ d.id ≠ 0 ∧ d.phase.isOpen = true)
    (hknown : ∀ c ∈ s.calls, ∃ d ∈ s'.calls, d.id = c.id) : s'.QueueInv q := by
  obtain ⟨_, _, _, _, _, _, _, _, _, _, _, _, _⟩ := s'
  obtain ⟨rfl, rfl, rfl, rfl, rfl, rfl, rfl⟩ := hsame
  refine { hq with
    queue := hq.queue.congr fun b hb => next_congr (hreq b (.inl hb))
    taken := fun a ha => ?_
    accepted := ?_
    known := fun x hx => ?_
    ran := fun a ha => ?_ }
  · obtain ⟨c, hc, rfl, hid, hopen⟩ := hq.taken a ha
    exact htaken c hc ha hid hopen
  · refine hq.accepted.trans ?_
    rw [← map_congr_left fun b hb => idAt_congr (hreq b (taken_of_running hb)),
      ← map_congr_left fun b hb => idAt_congr (hreq b (.inl hb))]
    rfl
  · obtain ⟨c, hc, hne, hid⟩ := hq.known x hx
    obtain ⟨d, hd, hdid⟩ := hknown c hc
    exact ⟨d, hd, hdid ▸ hne, hdid ▸ hid⟩
  · rw [idAt_congr (hreq a (.inr (congrArg ApiThread.block ha)))]
    exact hq.ran a ha

theorem MemInv.reqAt_isSome (hs : s.MemInv) (hq : s.QueueInv q) (ha : s.Taken q a) :
    ∃ c ∈ s.calls, c.req = a ∧ c.Keeps ∧ ∃ r, s.reqAt a = some r ∧ r.id = toInt32 c.id := by
  obtain ⟨c, hc, rfl, hid, hopen⟩ := hq.taken a ha
  have hk : c.Keeps := ⟨hid, ApiPhase.keeps_of_isOpen hopen⟩
  obtain ⟨⟨r, hr, -, hrid, -⟩, -⟩ := hs.intact c hc hk
  exact ⟨c, hc, rfl, hk, r, hr, hrid⟩

theorem next_setNext (hb : b ≠ a) : (s.setNext a n).next b = s.next b := by
  rw [next, setNext, reqAt_store, if_neg hb, next]

theorem next_setNext_self (ha : s.reqAt a = some r) : (s.setNext a n).next a = n := by
  rw [next, setNext, reqAt_store, if_pos rfl, ha, map_some, elim_some]

theorem idAt_setNext : (s.setNext a n).idAt b = s.idAt b := idAt_store fun _ => rfl

theorem idAt_link : (s.link a).idAt b = s.idAt b := by
  rw [link]
  split_ifs
  · exact idAt_setNext
  · rw [idAt_setNext, idAt_setNext]

/-- Besides the queue, accepting a request changes the memory only. -/
theorem accept_eq (s : WasmApi ε) (a : ℕ) : ∃ heap head, s.accept a = { s with
    heap := heap, head := head, tail := a, started := true
    accepted := s.accepted ++ [s.idAt a] } := by
  rw [accept, link]
  split_ifs
  · exact ⟨_, _, rfl⟩
  · exact ⟨_, s.head, rfl⟩

theorem linkedQueue_link (hq : LinkedQueue s.next 0 s.head s.tail q) (ha : a ≠ 0)
    (hnew : a ∉ q) (hr : s.reqAt a = some r) (hsome : ∀ b ∈ q, ∃ r, s.reqAt b = some r) :
    LinkedQueue (s.link a).next 0 (s.link a).head a (q ++ [a]) := by
  rw [link]
  by_cases htail : s.tail = 0
  · obtain rfl := hq.eq_nil htail
    rw [if_pos htail]
    exact hq.push ha hnew (next_setNext_self hr) (fun h => absurd htail h) fun b hb =>
      absurd hb not_mem_nil
  · have hmem : s.tail ∈ q := hq.tail_mem htail
    have hne : a ≠ s.tail := fun h => hnew (h ▸ hmem)
    obtain ⟨t, ht⟩ := hsome s.tail hmem
    have ht' : (s.setNext a 0).reqAt s.tail = some t := by
      rw [setNext, reqAt_store, if_neg hne.symm, ht]
    rw [if_neg htail]
    have hpush : LinkedQueue ((s.setNext a 0).setNext s.tail a).next 0
        (if q = [] then a else s.head) a (q ++ [a]) := by
      refine hq.push ha hnew ?_ (fun _ => next_setNext_self ht') fun b hb hbt => ?_
      · rw [next_setNext hne, next_setNext_self hr]
      · rw [next_setNext hbt, next_setNext fun h : b = a => hnew (h ▸ hb)]
    rwa [if_neg (ne_nil_of_mem hmem)] at hpush

theorem MemInv.idAt (hs : s.MemInv) (hc : c ∈ s.calls) (hk : c.Keeps) :
    s.idAt c.req = toInt32 c.id := by
  obtain ⟨⟨r, hr, -, hrid, -⟩, -⟩ := hs.intact c hc hk
  rw [WasmApi.idAt, hr, elim_some, hrid]

theorem QueueInv.accept (hq : s.QueueInv q) (hs : s.MemInv) (hc : c ∈ s.calls) (hid : c.id ≠ 0)
    (hopen : c.phase.isOpen = true) (hreq : c.req ≠ 0) (hnew : ¬ s.Taken q c.req)
    (hfresh : toInt32 c.id ∉ s.accepted) : (s.accept c.req).QueueInv (q ++ [c.req]) := by
  have hk : c.Keeps := ⟨hid, ApiPhase.keeps_of_isOpen hopen⟩
  obtain ⟨⟨r, hr, -⟩, -⟩ := hs.intact c hc hk
  have hidAt := hs.idAt hc hk
  have hidAt' (b : ℕ) : (s.accept c.req).idAt b = s.idAt b := idAt_link
  have hsome (b : ℕ) (hb : b ∈ q) : ∃ r, s.reqAt b = some r := by
    obtain ⟨-, -, -, -, r, hr, -⟩ := hs.reqAt_isSome hq (.inl hb)
    exact ⟨r, hr⟩
  have hqueue : LinkedQueue (s.accept c.req).next 0 (s.accept c.req).head c.req (q ++ [c.req]) :=
    linkedQueue_link hq.queue hreq (fun h => hnew (.inl h)) hr hsome
  obtain ⟨heap, head, haccept⟩ := accept_eq s c.req
  rw [haccept] at hidAt' hqueue ⊢
  refine ⟨hqueue, fun a ha => ?_, ?_, ?_, fun x hx => ?_, hq.posted, hq.delivered, fun a ha => ?_⟩
  · rcases ha with ha | ha
    · rcases mem_append.mp ha with ha | ha
      · exact hq.taken a (.inl ha)
      · obtain rfl := mem_singleton.mp ha
        exact ⟨c, hc, rfl, hid, hopen⟩
    · exact hq.taken a (.inr ha)
  · rw [map_congr_left fun b _ => hidAt' b, map_congr_left fun b _ => hidAt' b, map_append,
      ← append_assoc]
    exact congrArg (· ++ [s.idAt c.req]) hq.accepted
  · refine nodup_append.mpr ⟨hq.once, nodup_singleton _, fun x hx y hy => ?_⟩
    rw [mem_singleton.mp hy, hidAt]
    exact fun hxc => hfresh (hxc ▸ hx)
  · rcases mem_append.mp hx with hx | hx
    · exact hq.known x hx
    · exact ⟨c, hc, hid, by rw [mem_singleton.mp hx, hidAt]⟩
  · rw [hidAt']
    exact hq.ran a ha

theorem QueueInv.take (hq : s.QueueInv q) (h : s.take = some s') : ∃ q', s'.QueueInv q' := by
  obtain ⟨⟨hidle, hhead⟩, ⟨⟩⟩ := ite_none_right_eq_some.mp h
  obtain ⟨q', rfl, hq'⟩ := hq.queue.pop hhead
  refine ⟨q', hq', fun a ha => ?_, ?_, hq.once, hq.known, hq.posted, hq.delivered, nofun⟩
  · refine hq.taken a (.inl ?_)
    rcases ha with ha | ha
    · exact mem_cons_of_mem _ ha
    · exact some.inj ha ▸ mem_cons_self
  · have hrunning : s.running = [] := by rw [running, hidle]
    refine hq.accepted.trans ?_
    change _ = s.executed.map Prod.fst ++ [s.head].map s.idAt ++ q'.map s.idAt
    simp [hrunning]

theorem QueueInv.not_executed (hq : s.QueueInv q) (ha : a ∈ s.running ∨ a ∈ q) :
    s.idAt a ∉ s.executed.map Prod.fst := by
  have honce := hq.once
  rw [hq.accepted, append_assoc, nodup_append] at honce
  intro hx
  refine honce.2.2 _ hx (s.idAt a) ?_ rfl
  rw [← map_append]
  exact mem_map_of_mem (mem_append.mpr ha)

theorem finish_eq {v : ℤ} (h : s.finish v = some s') : ∃ a, s.thread = .running a ∧
    s' = { s.setRet a v with
      thread := .ran a, executed := s.executed ++ [(s.idAt a, toInt32 v)] } := by
  rw [finish] at h
  split at h
  · next a ha => exact ⟨a, ha, (some.inj h).symm⟩
  · cases h

theorem post_eq (h : s.post = some s') : ∃ a, s.thread = .ran a ∧
    s' = { s with thread := .idle, posted := s.posted ++ [s.idAt a] } := by
  rw [post] at h
  split at h
  · next a ha => exact ⟨a, ha, (some.inj h).symm⟩
  · cases h

section

variable (hq : s.QueueInv q)
include hq

theorem QueueInv.finish {v : ℤ} (h : s.finish v = some s') : s'.QueueInv q := by
  obtain ⟨a, ha, rfl⟩ := finish_eq h
  have hrunning : s.running = [a] := by rw [running, ha]
  have hid (b : ℕ) : (s.setRet a v).idAt b = s.idAt b := idAt_store fun _ => rfl
  have hnext (b : ℕ) : (s.setRet a v).next b = s.next b := by
    rw [next, setRet, reqAt_store, next]
    split_ifs with hb
    · subst hb
      cases s.reqAt b <;> rfl
    · rfl
  have hexecuted : s.accepted =
      (s.executed ++ [(s.idAt a, toInt32 v)]).map Prod.fst ++ q.map s.idAt := by
    rw [hq.accepted, hrunning, map_append]
    rfl
  refine ⟨hq.queue.congr fun b _ => hnext b, fun b hb => hq.taken b ?_, ?_, hq.once, hq.known,
    fun x hx => ?_, fun x hx => ?_, fun b hb => ?_⟩
  · rcases hb with hb | hb
    · exact .inl hb
    · exact .inr (by rw [ha]; exact hb)
  · refine hexecuted.trans ?_
    change _ = _ ++ [].map _ ++ q.map (s.setRet a v).idAt
    rw [map_congr_left fun b _ => hid b, map_nil, append_nil]
  · rw [map_append]
    exact mem_append_left _ (hq.posted x hx)
  · rw [map_append]
    exact mem_append_left _ (hq.delivered x hx)
  · obtain rfl := ApiThread.ran.inj hb
    refine ⟨?_, fun hx => ?_⟩
    · rw [map_append]
      exact mem_append_right _ (mem_singleton.mpr (hid a))
    · exact hq.not_executed (.inl (by rw [hrunning]; exact mem_singleton_self a))
        (hid a ▸ hq.posted _ hx)

theorem QueueInv.post (h : s.post = some s') : s'.QueueInv q := by
  obtain ⟨a, ha, rfl⟩ := post_eq h
  have hrunning : s.running = [] := by rw [running, ha]
  refine ⟨hq.queue, fun b hb => hq.taken b (.inl (hb.resolve_right nofun)), ?_, hq.once, hq.known,
    fun x hx => ?_, hq.delivered, nofun⟩
  · refine hq.accepted.trans ?_
    change _ = s.executed.map Prod.fst ++ [].map s.idAt ++ q.map s.idAt
    rw [hrunning]
  · rcases mem_append.mp hx with hx | hx
    · exact hq.posted x hx
    · rw [mem_singleton.mp hx]
      exact (hq.ran a ha).1

theorem QueueInv.delivering {k : ℕ} {x : ℤ} (hx : s.posted[k]? = some x) :
    { s with posted := s.posted.eraseIdx k, delivered := s.delivered ++ [x] }.QueueInv q where
  queue := hq.queue
  taken := hq.taken
  accepted := hq.accepted
  once := hq.once
  known := hq.known
  posted y hy := hq.posted y (mem_of_mem_eraseIdx hy)
  delivered y hy := by
    rcases mem_append.mp hy with hy | hy
    · exact hq.delivered y hy
    · rw [mem_singleton.mp hy]
      exact hq.posted x (mem_of_getElem? hx)
  ran a ha := ⟨(hq.ran a ha).1, fun hmem => (hq.ran a ha).2 (mem_of_mem_eraseIdx hmem)⟩

theorem QueueInv.not_taken (hx : s.idAt a ∈ s.posted) : ¬ s.Taken q a := by
  rintro (ha | ha)
  · exact hq.not_executed (.inr ha) (hq.posted _ hx)
  · cases hthread : s.thread with
    | idle => simp [hthread, ApiThread.block] at ha
    | running b =>
      obtain rfl : b = a := by simpa [hthread, ApiThread.block] using ha
      exact hq.not_executed (.inl (by simp [running, hthread])) (hq.posted _ hx)
    | ran b =>
      obtain rfl : b = a := by simpa [hthread, ApiThread.block] using ha
      exact (hq.ran b hthread).2 hx

theorem QueueInv.mem_accepted {x : ℤ} (hx : x ∈ s.executed.map Prod.fst) : x ∈ s.accepted := by
  rw [hq.accepted, append_assoc]
  exact mem_append_left _ hx

end

/-! ### What calls get -/

/-- What is known of a call from its phase: if it was rejected, the module is dead, and its result
is what the API thread wrote. -/
structure CallOk (s : WasmApi ε) (c : ApiCall ε) : Prop where
  named : c.id = 0 → ∃ e, c.phase = .settled (.error e)
  rejects : c.id ≠ 0 → c.phase.isOpen = true → c.phase ≠ .waiting → s.failure.isSome = true
  results : c.Keeps → ∀ v, (toInt32 c.id, v) ∈ s.executed →
    ∃ r, s.reqAt c.req = some r ∧ r.ret = v
  resolved : c.phase = .resolved → toInt32 c.id ∈ s.delivered
  ok : ∀ v, c.phase = .settled (.ok v) → (toInt32 c.id, v) ∈ s.executed

/-- The calls and their promises: the pending ids are those of the waiting calls, and every call is
as its phase says. -/
structure SettleInv (s : WasmApi ε) : Prop where
  pending : ∀ n, n ∈ s.pending ↔ ∃ c ∈ s.calls, c.id = n ∧ c.phase = .waiting
  nodup : s.pending.Nodup
  dead : s.failure.isSome = true → s.pending = []
  call : ∀ c ∈ s.calls, s.CallOk c

/-- A call other than `n` waits while its request is accepted and not delivered. -/
def WaitsBut (n : ℕ) (s : WasmApi ε) : Prop :=
  s.failure = none → ∀ c ∈ s.calls, c.id ≠ n →
    (c.phase = .waiting ↔ c.id ≠ 0 ∧ toInt32 c.id ∈ s.accepted ∧ toInt32 c.id ∉ s.delivered) ∧
      (c.id ≠ 0 → toInt32 c.id ∈ s.delivered → c.phase.answered = true)

/-- What holds also while a call is between its steps. -/
structure Core (s : WasmApi ε) (q : List ℕ) : Prop where
  mem : s.MemInv
  queue : s.QueueInv q
  settle : s.SettleInv

/-- What holds between the steps. -/
structure Inv (s : WasmApi ε) (q : List ℕ) : Prop extends Core s q where
  waits : s.WaitsBut 0

theorem SettleInv.id_ne_zero (hs : s.SettleInv) (hc : c ∈ s.calls)
    (hp : ∀ e, c.phase ≠ .settled (.error e)) :
    c.id ≠ 0 := fun h0 => by
  obtain ⟨e, he⟩ := (hs.call c hc).named h0
  exact hp e he

theorem SettleInv.id_ne_zero_of_waiting (hs : s.SettleInv) (hc : c ∈ s.calls)
    (hw : c.phase = .waiting) : c.id ≠ 0 :=
  hs.id_ne_zero hc (by simp [hw])

theorem SettleInv.heap (hs : s.SettleInv) (h : s'.calls = s.calls ∧ s'.pending = s.pending ∧
      s'.failure = s.failure ∧ s'.executed = s.executed ∧ s'.delivered = s.delivered)
    (hret : ∀ c ∈ s.calls, c.Keeps → ∀ r, s.reqAt c.req = some r → ∃ r', s'.reqAt c.req = some r' ∧
      r'.ret = r.ret) :
    s'.SettleInv := by
  obtain ⟨_, _, _, _, _, _, _, _, _, _, _, _, _⟩ := s'
  obtain ⟨rfl, rfl, rfl, rfl, rfl⟩ := h
  refine { hs with call := fun c hc => { hs.call c hc with results := fun hk v hv => ?_ } }
  obtain ⟨r, hr, hret'⟩ := (hs.call c hc).results hk v hv
  obtain ⟨r', hr', hreteq⟩ := hret c hc hk r hr
  exact ⟨r', hr', hreteq.trans hret'⟩

theorem Inv.fresh (hs : s.Inv q) (hlen : s.calls.length + 1 < 2 ^ 31) :
    toInt32 s.nextId ∉ s.accepted := by
  intro hx
  obtain ⟨c, hc, -, hid⟩ := hs.queue.known _ hx
  have hlt := hs.mem.ids c hc
  have hcount := hs.mem.count
  rw [toInt32_of_lt (by omega), toInt32_of_lt (by omega)] at hid
  omega

theorem Inv.not_taken_of_alloc (hs : s.Inv q) (ha : (s.heap a).isNone = true) : ¬ s.Taken q a := by
  intro htaken
  obtain ⟨-, -, -, -, r, hr, -⟩ := hs.mem.reqAt_isSome hs.queue htaken
  rw [reqAt, isNone_iff_eq_none.mp ha] at hr
  cases hr

/-- The state after `write`, before `submit`. -/
structure Written (s : WasmApi ε) (q : List ℕ) (c : ApiCall ε) : Prop extends Core s q where
  waits : s.WaitsBut c.id
  alive : s.failure = none
  call : c ∈ s.calls
  phase : c.phase = .waiting
  notNull : c.req ≠ 0
  apart : ¬ s.Taken q c.req
  fresh : toInt32 c.id ∉ s.accepted

theorem Inv.write (hs : s.Inv q) (hlen : s.calls.length + 1 < 2 ^ 31) (halive : s.failure = none)
    (halloc : s.Allocates c.blocks) (hid : c.id = s.nextId) (hphase : c.phase = .waiting) :
    (s.write c).Written q c := by
  have hfresh : toInt32 c.id ∉ s.accepted := hid ▸ hs.fresh hlen
  have hsame (d : ApiCall ε) (hd : d ∈ s.calls) (hk : d.Keeps) :
      (s.write c).reqAt d.req = s.reqAt d.req := by
    exact reqAt_congr (heap_write_of_notMem (hs.mem.notMem_of_alloc halloc hd hk mem_cons_self))
  have htaken (a : ℕ) (ha : s.Taken q a) : (s.write c).reqAt a = s.reqAt a := by
    obtain ⟨d, hd, rfl, hk, -⟩ := hs.mem.reqAt_isSome hs.queue ha
    exact hsame d hd hk
  have hold (d : ApiCall ε) (hd : d ∈ s.calls) : d.id ≠ c.id := hid ▸ Nat.ne_of_lt (hs.mem.ids d hd)
  refine ⟨⟨hs.mem.write halloc hid, ?_, ?_⟩, fun _ d hd hne => ?_, halive,
    mem_append_right _ (mem_singleton_self c), hphase, (halloc.2 c.req mem_cons_self).1, ?_, hfresh⟩
  · exact hs.queue.congr ⟨rfl, rfl, rfl, rfl, rfl, rfl, rfl⟩ htaken
      (fun d hd _ hne hopen => ⟨d, mem_append_left _ hd, rfl, hne, hopen⟩)
      fun d hd => ⟨d, mem_append_left _ hd, rfl⟩
  · refine ⟨fun n => ?_, ?_, fun hf => ?_, forall_write (fun d hd => ?_) ?_⟩
    · rw [WasmApi.write, mem_append, mem_singleton, hs.settle.pending]
      constructor
      · rintro (⟨d, hd, hdn, hw⟩ | rfl)
        · exact ⟨d, mem_append_left _ hd, hdn, hw⟩
        · exact ⟨c, mem_append_right _ (mem_singleton_self c), rfl, hphase⟩
      · rintro ⟨d, hd, hdn, hw⟩
        rcases mem_append.mp hd with hd | hd
        · exact .inl ⟨d, hd, hdn, hw⟩
        · exact .inr (by rw [← hdn, mem_singleton.mp hd])
    · refine nodup_append.mpr ⟨hs.settle.nodup, nodup_singleton _, fun n hn m hm hnm => ?_⟩
      obtain ⟨d, hd, hdn, -⟩ := (hs.settle.pending n).mp hn
      exact hold d hd (hdn.trans (hnm.trans (mem_singleton.mp hm)))
    · simp [WasmApi.write, halive] at hf
    · refine { hs.settle.call d hd with results := fun hk => ?_ }
      rw [hsame d hd hk]
      exact (hs.settle.call d hd).results hk
    · -- nothing was executed for the new call
      exact ⟨fun h0 => absurd (hid.symm.trans h0) (Nat.ne_of_gt hs.mem.positive),
        fun _ _ hw => absurd hphase hw,
        fun _ v hv => absurd (hs.queue.mem_accepted (mem_map_of_mem hv)) hfresh,
        fun hr => absurd (hphase.symm.trans hr) nofun,
        fun v hv => absurd (hphase.symm.trans hv) nofun⟩
  · rcases mem_append.mp hd with hd | hd
    · by_cases h0 : d.id = 0
      · obtain ⟨e, he⟩ := (hs.settle.call d hd).named h0
        simp [he, h0]
      · exact hs.waits halive d hd h0
    · exact absurd (congrArg ApiCall.id (mem_singleton.mp hd)) hne
  · exact hs.not_taken_of_alloc (halloc.2 c.req mem_cons_self).2

theorem mem_setPhase : c ∈ (s.setPhase n p).calls ↔
    ∃ d ∈ s.calls, d.goOn (if d.id = n then p else d.phase) = c :=
  mem_rephase

theorem mem_leave (h : c ∈ (s.leave n p).calls) : c ∈ s.calls ∧ c.id ≠ n ∨
    ∃ d ∈ s.calls, d.id = n ∧ c = d.goOn p := by
  obtain ⟨d, hd, rfl⟩ := mem_setPhase.mp h
  by_cases hid : d.id = n
  · exact .inr ⟨d, hd, hid, by rw [if_pos hid]⟩
  · exact .inl ⟨by rwa [if_neg hid], hid⟩

theorem leave_mem (hc : c ∈ s.calls) (hid : c.id ≠ n) : c ∈ (s.leave n p).calls :=
  mem_setPhase.mpr ⟨c, hc, by rw [if_neg hid]; rfl⟩

theorem Core.leave (hs : s.Core q) (hn : n ≠ 0) (hp : p ≠ .waiting)
    (htaken : ∀ c ∈ s.calls, c.id = n → s.Taken q c.req → p.isOpen = true)
    (hopen : p.isOpen = true → s.failure.isSome = true)
    (hkeep : p.keeps = true → ∀ c ∈ s.calls, c.id = n → c.phase.keeps = true)
    (hok : ∀ v, p = .settled (.ok v) → (toInt32 n, v) ∈ s.executed)
    (hres : p = .resolved → toInt32 n ∈ s.delivered) : (s.leave n p).Core q := by
  have hmem : (s.setPhase n p).MemInv := hs.mem.rephase fun c hc hk => by
    by_cases hid : c.id = n
    · rw [if_pos hid] at hk
      exact hkeep hk c hc hid
    · rwa [if_neg hid] at hk
  refine ⟨{ hmem with }, ?_, ?_⟩
  · refine hs.queue.congr ⟨rfl, rfl, rfl, rfl, rfl, rfl, rfl⟩ (fun _ _ => rfl)
      (fun c hc ht hne hopen' => ?_) fun c hc => ⟨_, mem_setPhase.mpr ⟨c, hc, rfl⟩, rfl⟩
    by_cases hid : c.id = n
    · exact ⟨_, mem_setPhase.mpr ⟨c, hc, rfl⟩, rfl, hne,
        by rw [if_pos hid]; exact htaken c hc hid ht⟩
    · exact ⟨c, leave_mem hc hid, rfl, hne, hopen'⟩
  · refine ⟨fun m => ?_, hs.settle.nodup.erase n, fun hf => ?_, fun c hc => ?_⟩
    · change m ∈ s.pending.erase n ↔ _
      rw [hs.settle.nodup.mem_erase_iff, hs.settle.pending]
      constructor
      · rintro ⟨hmn, c, hc, rfl, hw⟩
        exact ⟨c, leave_mem hc hmn, rfl, hw⟩
      · rintro ⟨c, hc, rfl, hw⟩
        rcases mem_leave hc with ⟨hc, hcn⟩ | ⟨d, hd, hid, rfl⟩
        · exact ⟨hcn, c, hc, rfl, hw⟩
        · exact absurd hw hp
    · change s.pending.erase n = []
      rw [hs.settle.dead hf, erase_nil]
    · rcases mem_leave hc with ⟨hc, -⟩ | ⟨d, hd, rfl, rfl⟩
      · exact { hs.settle.call c hc with }
      · exact ⟨fun h0 => absurd h0 hn, fun _ hop _ => hopen hop,
          fun hk => (hs.settle.call d hd).results ⟨hk.1, hkeep hk.2 d hd rfl⟩, hres, hok⟩

theorem Core.release (hs : s.Core q)
    (hc : s.failure = none → ∀ d ∈ s.calls, d.Keeps → ∀ a ∈ c.blocks, a ∉ d.blocks) :
    (s.release c).Core q := by
  rw [WasmApi.release]
  split_ifs with hf
  · exact hs
  · have happart := hc (by simpa using hf)
    have hreq (d : ApiCall ε) (hd : d ∈ s.calls) (hk : d.Keeps) :
        ({ s with heap := without s.heap c.blocks } : WasmApi ε).reqAt d.req = s.reqAt d.req := by
      have hnot : d.req ∉ c.blocks := fun h => happart d hd hk _ h mem_cons_self
      exact reqAt_congr (if_neg hnot)
    refine ⟨hs.mem.without happart, ?_, ?_⟩
    · refine hs.queue.congr ⟨rfl, rfl, rfl, rfl, rfl, rfl, rfl⟩ (fun a ha => ?_)
        (fun d hd _ hne hopen => ⟨d, hd, rfl, hne, hopen⟩) fun d hd => ⟨d, hd, rfl⟩
      obtain ⟨d, hd, rfl, hk, -⟩ := hs.mem.reqAt_isSome hs.queue ha
      exact hreq d hd hk
    · refine hs.settle.heap ⟨rfl, rfl, rfl, rfl, rfl⟩ fun d hd hk r hr => ⟨r, ?_, rfl⟩
      rw [← hr]
      exact hreq d hd hk

theorem Core.mem_pending (hs : s.Core q) (hc : c ∈ s.calls) :
    c.id ∈ s.pending ↔ c.phase = .waiting := by
  refine ⟨fun hid => ?_, fun hw => (hs.settle.pending c.id).mpr ⟨c, hc, rfl, hw⟩⟩
  obtain ⟨d, hd, hdc, hw⟩ := (hs.settle.pending c.id).mp hid
  exact hs.mem.unique d hd c hc hdc (hs.settle.id_ne_zero_of_waiting hd hw) ▸ hw

theorem Core.fail (e : ε) (hs : s.Core q) :
    (s.fail e).Core q ∧ (s.fail e).failure.isSome = true := by
  rw [WasmApi.fail]
  split
  · next hf => exact ⟨hs, by rw [hf]; rfl⟩
  · next hf =>
    refine ⟨?_, rfl⟩
    -- a call either waited, and is rejected, or it stays where it was
    have hcases (c : ApiCall ε) (hc : c ∈ (s.rejectAll e).calls) :
        c ∈ s.calls ∧ c.phase ≠ .waiting ∨
          ∃ d ∈ s.calls, d.phase = .waiting ∧ c = d.goOn (.rejected e) := by
      obtain ⟨d, hd, rfl⟩ := mem_rephase.mp hc
      by_cases hw : d.phase = .waiting
      · exact .inr ⟨d, hd, hw, by rw [if_pos ((hs.mem_pending hd).mpr hw)]⟩
      · rw [if_neg ((hs.mem_pending hd).not.mpr hw)]
        exact .inl ⟨hd, hw⟩
    have hmem : (s.rejectAll e).MemInv := hs.mem.rephase fun c hc hk => by
      by_cases hid : c.id ∈ s.pending
      · rw [(hs.mem_pending hc).mp hid]
        rfl
      · rwa [if_neg hid] at hk
    refine ⟨{ hmem with }, ?_, ?_⟩
    · refine hs.queue.congr ⟨rfl, rfl, rfl, rfl, rfl, rfl, rfl⟩ (fun _ _ => rfl)
        (fun c hc _ hne hopen => ?_) fun c hc => ⟨_, mem_rephase.mpr ⟨c, hc, rfl⟩, rfl⟩
      refine ⟨_, mem_rephase.mpr ⟨c, hc, rfl⟩, rfl, hne, ?_⟩
      change (if c.id ∈ s.pending then ApiPhase.rejected e else c.phase).isOpen = true
      split_ifs
      · rfl
      · exact hopen
    · refine ⟨fun m => ?_, nodup_nil, fun _ => rfl, fun c hc => ?_⟩
      · refine ⟨fun hm => absurd hm not_mem_nil, ?_⟩
        rintro ⟨c, hc, -, hw⟩
        rcases hcases c hc with ⟨-, hnw⟩ | ⟨d, -, -, rfl⟩
        · exact absurd hw hnw
        · cases hw
      · rcases hcases c hc with ⟨hc, -⟩ | ⟨d, hd, hw, rfl⟩
        · exact { hs.settle.call c hc with rejects := fun _ _ _ => rfl }
        · have hne : d.id ≠ 0 := hs.settle.id_ne_zero_of_waiting hd hw
          exact ⟨fun h0 => absurd h0 hne, fun _ _ _ => rfl,
            fun hk => (hs.settle.call d hd).results ⟨hk.1, by rw [hw]; rfl⟩, nofun, nofun⟩

/-! ### The steps -/

theorem WaitsBut.of_failure (h : s.failure.isSome = true) : s.WaitsBut n := fun hf => by
  simp [hf] at h

theorem WaitsBut.release (h : s.WaitsBut n) : (s.release c).WaitsBut n := by
  rw [WasmApi.release]
  split_ifs
  · exact h
  · exact h

theorem release_of_failure (h : s.failure.isSome = true) : s.release c = s := if_pos h

theorem Inv.fail (e : ε) (hs : s.Inv q) : (s.fail e).Inv q :=
  ⟨(hs.toCore.fail e).1, .of_failure (hs.toCore.fail e).2⟩

theorem ret_setNext (hb : s.reqAt b = some r) :
    ∃ r', (s.setNext a n).reqAt b = some r' ∧ r'.ret = r.ret := by
  rw [setNext, reqAt_store]
  split_ifs with hba
  · refine ⟨{ r with next := n }, ?_, rfl⟩
    rw [← hba, hb, map_some]
  · exact ⟨r, hb, rfl⟩

theorem ret_link (hb : s.reqAt b = some r) :
    ∃ r', (s.link a).reqAt b = some r' ∧ r'.ret = r.ret := by
  rw [link]
  split_ifs
  · exact ret_setNext hb
  · obtain ⟨r', hr', hret⟩ := ret_setNext (a := a) (n := 0) hb
    obtain ⟨r'', hr'', hret'⟩ := ret_setNext (a := s.tail) (n := a) hr'
    exact ⟨r'', hr'', hret'.trans hret⟩

theorem MemInv.setNext (hs : s.MemInv) : (s.setNext a n).MemInv := hs.store fun _ => ⟨rfl, rfl, rfl⟩

theorem MemInv.link (hs : s.MemInv) : (s.link a).MemInv := by
  rw [WasmApi.link]
  split_ifs
  · exact { hs.setNext (a := a) (n := 0) with }
  · exact hs.setNext.setNext

theorem Written.id_ne_zero (hs : s.Written q c) : c.id ≠ 0 :=
  hs.settle.id_ne_zero_of_waiting hs.call hs.phase

theorem Written.accept (hs : s.Written q c) (hlen : s.calls.length < 2 ^ 31) :
    (s.accept c.req).Inv (q ++ [c.req]) := by
  have hid := hs.id_ne_zero
  have hopen : c.phase.isOpen = true := by rw [hs.phase]; rfl
  have hidAt := hs.mem.idAt hs.call ⟨hid, ApiPhase.keeps_of_isOpen hopen⟩
  have hmem : (s.accept c.req).MemInv := { hs.mem.link (a := c.req) with }
  have hqueue := hs.queue.accept hs.mem hs.call hid hopen hs.notNull hs.apart hs.fresh
  have hret (b : ℕ) (r : ApiReq) (hb : s.reqAt b = some r) :
      ∃ r', (s.accept c.req).reqAt b = some r' ∧ r'.ret = r.ret := ret_link hb
  obtain ⟨heap, head, haccept⟩ := accept_eq s c.req
  rw [haccept] at hmem hqueue hret ⊢
  refine ⟨⟨hmem, hqueue, ?_⟩, fun _ d hd _ => ?_⟩
  · exact hs.settle.heap ⟨rfl, rfl, rfl, rfl, rfl⟩ fun d _ _ r hr => hret d.req r hr
  · change (_ ↔ _ ∧ _ ∈ s.accepted ++ [s.idAt c.req] ∧ _ ∉ s.delivered) ∧ (_ → _ ∈ s.delivered → _)
    rw [hidAt, mem_append, mem_singleton]
    by_cases hdc : d.id = c.id
    · obtain rfl := hs.mem.unique d hd c hs.call hdc (hdc ▸ hid)
      have hnot : toInt32 d.id ∉ s.delivered := fun hx =>
        hs.fresh (hs.queue.mem_accepted (hs.queue.delivered _ hx))
      simp [hs.phase, hid, hnot]
    · have hne : toInt32 d.id ≠ toInt32 c.id := fun h =>
        hdc (congrArg ApiCall.id (hs.mem.eq_of_toInt32 hlen hs.call hd hid h.symm)).symm
      rw [or_iff_left hne]
      exact hs.waits hs.alive d hd hdc

theorem MemInv.apart_of_leave (hs : s.MemInv) (hc : c ∈ s.calls) (hid : c.id = n) (hk : c.Keeps)
    (hp : p.keeps = false) : ∀ d ∈ (s.leave n p).calls, d.Keeps → ∀ a ∈ c.blocks, a ∉ d.blocks := by
  intro d hd hkd a hac had
  rcases mem_leave hd with ⟨hd, hdn⟩ | ⟨d', -, -, rfl⟩
  · exact hdn (hs.apart c hc d hd hk hkd a hac had ▸ hid)
  · exact absurd hkd.2 (by simp [ApiCall.goOn, hp])

theorem Written.noThread (hs : s.Written q c) :
    ((s.leave c.id (.settled (.error .unavailable))).release c).Inv q := by
  have hid := hs.id_ne_zero
  have hk : c.Keeps := ⟨hid, by rw [hs.phase]; rfl⟩
  have hcore := hs.toCore.leave (p := .settled (.error .unavailable)) hid nofun
    (fun d hd hdc ht => absurd (hs.mem.eq_of_id hs.call hid d hd hdc ▸ ht) hs.apart) nofun nofun
    nofun nofun
  refine ⟨hcore.release fun _ => hs.mem.apart_of_leave hs.call rfl hk rfl,
    .release fun _ d hd _ => ?_⟩
  rcases mem_leave hd with ⟨hd, hdc⟩ | ⟨d', hd', hdc, rfl⟩
  · exact hs.waits hs.alive d hd hdc
  · have hnot : toInt32 d'.id ∉ s.accepted := by
      rw [hdc]
      exact hs.fresh
    exact ⟨⟨nofun, fun ⟨_, haccepted, _⟩ => absurd haccepted hnot⟩,
      fun _ hx => absurd (hs.queue.mem_accepted (hs.queue.delivered _ hx)) hnot⟩

theorem leave_of_notMem (hn : n ∉ s.pending) : s.leave n p = s.setPhase n p := by
  rw [leave, erase_of_not_mem hn]

theorem fail_of_alive (e : ε) (h : s.failure = none) :
    s.fail e = { s.rejectAll e with failure := some e, pending := [] } := by
  rw [WasmApi.fail, h]

theorem Written.aborts (e : ε) (hs : s.Written q c) :
    ((s.fail e).setPhase c.id (.settled (.error (.aborted e)))).Inv q := by
  obtain ⟨hcore, hfailure⟩ := hs.toCore.fail e
  refine ⟨?_, .of_failure hfailure⟩
  have hn : c.id ∉ (s.fail e).pending := by simp [hcore.settle.dead hfailure]
  rw [← leave_of_notMem hn]
  refine hcore.leave hs.id_ne_zero nofun (fun d hd hdc ht => ?_) nofun nofun nofun nofun
  -- the request was not queued
  rw [fail_of_alive e hs.alive] at hd ht
  obtain ⟨d', hd', rfl⟩ := mem_rephase.mp hd
  exact absurd (hs.mem.eq_of_id hs.call hs.id_ne_zero d' hd' hdc ▸ ht) hs.apart

section

variable (hs : s.Inv q)
include hs

theorem Inv.refuse {e : ApiError ε} : (s.refuse op e).Inv q := by
  have hcases (d : ApiCall ε) (hd : d ∈ (s.refuse op e).calls) :
      d ∈ s.calls ∨ d.id = 0 ∧ d.phase = .settled (.error e) := by
    rcases mem_append.mp hd with hd | hd
    · exact .inl hd
    · exact .inr (by rw [mem_singleton.mp hd]; exact ⟨rfl, rfl⟩)
  have hleft (d : ApiCall ε) (hd : d ∈ s.calls) : d ∈ (s.refuse op e).calls := mem_append_left _ hd
  have hnot (d : ApiCall ε) (hd : d ∈ (s.refuse op e).calls) (hne : d.id ≠ 0) : d ∈ s.calls :=
    (hcases d hd).resolve_right fun h => hne h.1
  refine ⟨⟨⟨hs.mem.positive, fun d hd => ?_, ?_, ?_, fun d hd d' hd' hid hne => ?_, fun d hd hk =>
    ?_,
    fun d hd d' hd' hk hk' => ?_⟩, ?_, ?_⟩, fun hf d hd hne => hs.waits hf d (hnot d hd hne) hne⟩
  · rcases hcases d hd with hd | ⟨h0, -⟩
    · exact hs.mem.ids d hd
    · exact h0 ▸ hs.mem.positive
  · simpa [WasmApi.refuse] using Nat.le_succ_of_le hs.mem.count
  · rw [WasmApi.refuse, map_append, filter_append]
    simpa using hs.mem.once
  · exact hs.mem.unique d (hnot d hd hne) d' (hnot d' hd' (hid ▸ hne)) hid hne
  · exact hs.mem.intact d (hnot d hd hk.1) hk
  · exact hs.mem.apart d (hnot d hd hk.1) d' (hnot d' hd' hk'.1) hk hk'
  · exact hs.queue.congr ⟨rfl, rfl, rfl, rfl, rfl, rfl, rfl⟩ (fun _ _ => rfl)
      (fun d hd _ hne hopen => ⟨d, hleft d hd, rfl, hne, hopen⟩) fun d hd => ⟨d, hleft d hd, rfl⟩
  · refine ⟨fun n => ?_, hs.settle.nodup, hs.settle.dead, fun d hd => ?_⟩
    · rw [show (s.refuse op e).pending = s.pending from rfl, hs.settle.pending]
      constructor
      · rintro ⟨d, hd, hdn, hw⟩
        exact ⟨d, hleft d hd, hdn, hw⟩
      · rintro ⟨d, hd, hdn, hw⟩
        rcases hcases d hd with hd | ⟨-, hp⟩
        · exact ⟨d, hd, hdn, hw⟩
        · cases hp.symm.trans hw
    · rcases hcases d hd with hd | ⟨h0, hp⟩
      · exact { hs.settle.call d hd with }
      · exact ⟨fun _ => ⟨e, hp⟩, fun hne => absurd h0 hne, fun hk => absurd h0 hk.1,
          fun hr => absurd (hp.symm.trans hr) nofun, fun v hv => absurd (hp.symm.trans hv) nofun⟩

theorem Inv.finish {v : ℤ} (hlen : s.calls.length < 2 ^ 31)
    (h : s.finish v = some s') : s'.Inv q := by
  have hq := hs.queue.finish h
  obtain ⟨a, ha, rfl⟩ := finish_eq h
  have hrunning : s.running = [a] := by rw [running, ha]
  obtain ⟨c, hc, rfl, hk, r, hr, -⟩ :=
    hs.mem.reqAt_isSome hs.queue (.inr (by rw [ha]; rfl) : s.Taken q a)
  have hidAt := hs.mem.idAt hc hk
  have hm : (s.setRet c.req v).MemInv := hs.mem.store fun _ => ⟨rfl, rfl, rfl⟩
  refine ⟨⟨{ hm with }, hq, { hs.settle with call := fun d hd => { hs.settle.call d hd with
    results := fun hkd w hw => ?_
    ok := fun w hw => mem_append_left _ ((hs.settle.call d hd).ok w hw) } }⟩, hs.waits⟩
  change ∃ r', (s.setRet c.req v).reqAt d.req = some r' ∧ r'.ret = w
  rw [setRet, reqAt_store]
  rcases mem_append.mp hw with hold | hnew
  · have hne : d.req ≠ c.req := by
      intro hreq
      obtain rfl := hs.mem.apart d hd c hc hkd hk d.req mem_cons_self (hreq ▸ mem_cons_self)
      exact hs.queue.not_executed (.inl (by rw [hrunning]; exact mem_singleton_self _))
        (hidAt ▸ mem_map_of_mem (f := Prod.fst) hold)
    rw [if_neg hne]
    exact (hs.settle.call d hd).results hkd w hold
  · obtain ⟨hdid, rfl⟩ := Prod.mk.inj (mem_singleton.mp hnew)
    obtain rfl := hs.mem.eq_of_toInt32 hlen hd hc hkd.1 (hdid.trans hidAt)
    rw [if_pos rfl, hr]
    exact ⟨_, rfl, rfl⟩

theorem Inv.deliver {k : ℕ} (hlen : s.calls.length < 2 ^ 31)
    (h : s.deliver k = some s') : s'.Inv q := by
  obtain ⟨x, hx', rfl⟩ := map_eq_some_iff.mp h
  have hcore : ({ s with posted := s.posted.eraseIdx k, delivered := s.delivered ++ [x] } :
      WasmApi ε).Core q := by
    exact ⟨{ hs.mem with }, hs.queue.delivering hx', { hs.settle with call := fun c hc =>
      { hs.settle.call c hc with
        resolved := fun hr => mem_append_left _ ((hs.settle.call c hc).resolved hr) } }⟩
  rw [anyfsApiDone]
  split
  · next n hn =>
    have hnx : (n : ℤ) = x := by simpa using List.find?_some hn
    obtain ⟨c, hc, rfl, hw⟩ := (hs.settle.pending n).mp (mem_of_find?_eq_some hn)
    have hid := hs.settle.id_ne_zero_of_waiting hc hw
    have hcx : toInt32 c.id = x := (hs.mem.toInt32_id hlen hc).trans hnx
    have heq := hs.mem.eq_of_id hc hid
    have hidAt := (hs.mem.idAt hc ⟨hid, by rw [hw]; rfl⟩).trans hcx
    refine ⟨hcore.leave hid nofun (fun d hd hdc ht => ?_) nofun (fun _ d hd hdc => ?_) nofun
      fun _ => ?_, fun hf d hd hne => ?_⟩
    · have hnot := hs.queue.not_taken (a := c.req) (hidAt ▸ mem_of_getElem? hx')
      exact absurd (heq d hd hdc ▸ ht) hnot
    · rw [heq d hd hdc, hw]
      rfl
    · exact mem_append_right _ (mem_singleton.mpr hcx)
    · change (_ ↔ _ ∧ _ ∈ s.accepted ∧ _ ∉ s.delivered ++ [x]) ∧ (_ → _ ∈ s.delivered ++ [x] → _)
      rcases mem_leave hd with ⟨hd, hdc⟩ | ⟨d', hd', hdc, rfl⟩
      · have hdx : toInt32 d.id ≠ x := fun h =>
          hdc (congrArg ApiCall.id (hs.mem.eq_of_toInt32 hlen hd hc hne (h.trans hcx.symm)))
        rw [mem_append, mem_singleton, or_iff_left hdx]
        exact hs.waits hf d hd hne
      · refine ⟨⟨nofun, fun ⟨_, _, hnot⟩ => absurd ?_ hnot⟩, fun _ _ => rfl⟩
        exact mem_append_right _ (mem_singleton.mpr (by rw [← hcx, ← hdc]; rfl))
  · next hn =>
    refine ⟨hcore, fun hf c hc hne => ?_⟩
    obtain ⟨hwait, hdone⟩ := hs.waits hf c hc hne
    -- a completion that finds no call is one that was delivered before
    have hold (hacc : toInt32 c.id ∈ s.accepted) (hcx : toInt32 c.id = x) :
        toInt32 c.id ∈ s.delivered := by
      by_contra hdel
      have hpending : c.id ∈ s.pending := (hs.mem_pending hc).mpr (hwait.mpr ⟨hne, hacc, hdel⟩)
      have := List.find?_eq_none.mp hn c.id hpending
      simp [← hcx, hs.mem.toInt32_id hlen hc] at this
    change (_ ↔ _ ∧ _ ∈ s.accepted ∧ _ ∉ s.delivered ++ [x]) ∧ (_ → _ ∈ s.delivered ++ [x] → _)
    rw [hwait, mem_append, mem_singleton, not_or]
    refine ⟨⟨fun ⟨h0, hacc, hdel⟩ => ⟨h0, hacc, hdel, fun hcx => hdel (hold hacc hcx)⟩,
      fun ⟨h0, hacc, hdel, _⟩ => ⟨h0, hacc, hdel⟩⟩, fun h0 hx => hdone h0 ?_⟩
    rcases hx with hx | hx
    · exact hx
    · refine hold ?_ hx
      rw [hx]
      exact hs.queue.mem_accepted (hs.queue.posted x (mem_of_getElem? hx'))

theorem Inv.resume {i : ℕ} (h : s.resume i = some s') : s'.Inv q := by
  obtain ⟨c, hi, h⟩ := bind_eq_some_iff.mp h
  have hc : c ∈ s.calls := mem_of_getElem? hi
  split at h
  · next hp =>
    cases h
    have h0 : c.id ≠ 0 := hs.settle.id_ne_zero hc (by simp [hp])
    have hk : c.Keeps := ⟨h0, by rw [hp]; rfl⟩
    have hpending : c.id ∉ s.pending := (hs.mem_pending hc).not.mpr (by simp [hp])
    have hdelivered := (hs.settle.call c hc).resolved hp
    obtain ⟨⟨x, v⟩, hv, hx⟩ := mem_map.mp (hs.queue.delivered _ hdelivered)
    obtain rfl : x = toInt32 c.id := hx
    obtain ⟨r, hr, hret⟩ := (hs.settle.call c hc).results hk v hv
    have hval : (s.reqAt c.req).elim (-1) ApiReq.ret = v := by rw [hr, elim_some, hret]
    rw [hval, ← leave_of_notMem hpending]
    have hcore :=
      hs.toCore.leave (p := .settled (.ok v)) h0 nofun (fun d hd hdc ht => ?_) nofun nofun
      (fun w hw => by injection hw with hw; injection hw with hw; exact hw ▸ hv) nofun
    · refine ⟨hcore.release fun _ => hs.mem.apart_of_leave hc rfl hk rfl,
        .release fun hf d hd hne => ?_⟩
      rcases mem_leave hd with ⟨hd, hdc⟩ | ⟨d', hd', hdc, rfl⟩
      · exact hs.waits hf d hd hne
      · refine ⟨⟨nofun, fun ⟨_, _, hnot⟩ => absurd ?_ hnot⟩, fun _ _ => rfl⟩
        change toInt32 d'.id ∈ s.delivered
        rwa [hdc]
    · -- the API thread has done with a request that has completed
      obtain ⟨d', hd', hreq, hne, hopen⟩ := hs.queue.taken _ (hs.mem.eq_of_id hc h0 d hd hdc ▸ ht)
      obtain rfl :=
        hs.mem.apart d' hd' c hc ⟨hne, ApiPhase.keeps_of_isOpen hopen⟩ hk d'.req mem_cons_self
        (hreq ▸ mem_cons_self)
      rw [hp] at hopen
      cases hopen
  · next e hp =>
    cases h
    have h0 : c.id ≠ 0 := hs.settle.id_ne_zero hc (by simp [hp])
    have hpending : c.id ∉ s.pending := (hs.mem_pending hc).not.mpr (by simp [hp])
    have hfailure := (hs.settle.call c hc).rejects h0 (by rw [hp]; rfl) (by simp [hp])
    have hcore := hs.toCore.leave (p := .settled (.error (.dead e))) h0 nofun (fun _ _ _ _ => rfl)
      (fun _ => hfailure)
      (fun _ d hd hdc => by rw [hs.mem.eq_of_id hc h0 d hd hdc, hp]; rfl) nofun nofun
    rw [leave_of_notMem hpending] at hcore
    rw [release_of_failure (s := s.setPhase _ _) hfailure]
    exact ⟨hcore, .of_failure hfailure⟩
  · cases h

theorem Inv.take (h : s.take = some s') : ∃ q', s'.Inv q' := by
  obtain ⟨q', hq'⟩ := hs.queue.take h
  obtain ⟨-, ⟨⟩⟩ := ite_none_right_eq_some.mp h
  exact ⟨q', ⟨{ hs.mem with }, hq', { hs.settle with
    call := fun c hc => { hs.settle.call c hc with } }⟩, hs.waits⟩

theorem Inv.post (h : s.post = some s') : s'.Inv q := by
  have hq := hs.queue.post h
  obtain ⟨a, -, rfl⟩ := post_eq h
  exact ⟨⟨{ hs.mem with }, hq, { hs.settle with
    call := fun c hc => { hs.settle.call c hc with } }⟩, hs.waits⟩

end

theorem Written.submit (hs : s.Written q c) (hlen : s.calls.length < 2 ^ 31) (o : ApiSubmit ε) :
    ∃ q', (s.submit c o).Inv q' := by
  cases o with
  | queues => exact ⟨_, hs.accept hlen⟩
  | noThread =>
    rw [WasmApi.submit]
    split_ifs
    · exact ⟨_, hs.accept hlen⟩
    · exact ⟨q, hs.noThread⟩
  | aborts e => exact ⟨q, hs.aborts e⟩

/-- What a step may do to the phase of a call: one that has settled stays, and one that was answered
stays answered. -/
def Onward (p p' : ApiPhase ε) : Prop :=
  (∀ r, p = .settled r → p' = p) ∧ (p.answered = true → p'.answered = true)

theorem Onward.refl (p : ApiPhase ε) : Onward p p := ⟨fun _ _ => rfl, id⟩

theorem Onward.trans {p' p'' : ApiPhase ε} (h : Onward p p') (h' : Onward p' p'') : Onward p p'' :=
  ⟨fun r hr => (h'.1 r ((h.1 r hr).trans hr)).trans (h.1 r hr), fun hp => h'.2 (h.2 hp)⟩

theorem onward_of_waiting {p' : ApiPhase ε} (h : p = .waiting) : Onward p p' := by
  subst h
  exact ⟨nofun, nofun⟩

def Grows (s s' : WasmApi ε) : Prop :=
  ∃ (f : ApiCall ε → ApiPhase ε) (new : List (ApiCall ε)),
    s'.calls = (s.calls.map fun c => c.goOn (f c)) ++ new ∧ ∀ c ∈ s.calls, Onward c.phase (f c)

theorem Grows.of_append {new : List (ApiCall ε)} (h : s'.calls = s.calls ++ new) : s.Grows s' :=
  ⟨ApiCall.phase, new, by rw [h]; congr 1; exact (map_id _).symm, fun _ _ => .refl _⟩

theorem Grows.of_eq (h : s'.calls = s.calls) : s.Grows s' :=
  .of_append (h.trans (append_nil _).symm)

theorem grows_rephase {f : ApiCall ε → ApiPhase ε} (hcalls : s'.calls = (s.rephase f).calls)
    (hf : ∀ c ∈ s.calls, Onward c.phase (f c)) : s.Grows s' :=
  ⟨f, [], by rw [hcalls, append_nil]; rfl, hf⟩

theorem calls_accept : (s.accept a).calls = s.calls := by
  obtain ⟨heap, head, haccept⟩ := accept_eq s a
  rw [haccept]

theorem calls_release : (s.release c).calls = s.calls := by
  rw [release]
  split_ifs <;> rfl

theorem Core.grows_fail (e : ε) (hs : s.Core q) : s.Grows (s.fail e) := by
  rw [WasmApi.fail]
  split
  · exact .of_eq rfl
  · change s.Grows { s.rejectAll e with failure := some e, pending := [] }
    refine grows_rephase rfl fun c hc => ?_
    split_ifs with hid
    · exact onward_of_waiting ((hs.mem_pending hc).mp hid)
    · exact .refl _

theorem grows_setPhase (hcalls : s'.calls = (s.setPhase n p).calls)
    (hn : ∀ c ∈ s.calls, c.id = n → Onward c.phase p) : s.Grows s' := by
  refine grows_rephase hcalls fun c hc => ?_
  split_ifs with hid
  · exact hn c hc hid
  · exact .refl _

theorem Grows.trans {s'' : WasmApi ε} (h : s.Grows s') (h' : s'.Grows s'') : s.Grows s'' := by
  obtain ⟨f, new, hcalls, hf⟩ := h
  obtain ⟨g, new', hcalls', hg⟩ := h'
  refine ⟨fun c => g (c.goOn (f c)), new.map (fun c => c.goOn (g c)) ++ new', ?_, fun c hc => ?_⟩
  · rw [hcalls', hcalls, map_append, List.map_map, append_assoc]
    rfl
  · refine (hf c hc).trans (hg (c.goOn (f c)) ?_)
    rw [hcalls]
    exact mem_append_left _ (mem_map_of_mem hc)

theorem Written.grows_submit (hs : s.Written q c) (o : ApiSubmit ε) : s.Grows (s.submit c o) := by
  have haccept : s.Grows (s.accept c.req) := .of_eq calls_accept
  have hcall (d : ApiCall ε) (hd : d ∈ s.calls) (hdc : d.id = c.id) : d.phase = .waiting :=
    hs.mem.eq_of_id hs.call hs.id_ne_zero d hd hdc ▸ hs.phase
  cases o with
  | queues => exact haccept
  | noThread =>
    rw [WasmApi.submit]
    split_ifs
    · exact haccept
    · exact grows_setPhase (n := c.id) (p := .settled (.error .unavailable)) calls_release
        fun d hd hdc =>
        onward_of_waiting (hcall d hd hdc)
  | aborts e =>
    refine (hs.toCore.grows_fail e).trans (grows_setPhase rfl fun d hd hdc => ?_)
    rw [fail_of_alive e hs.alive] at hd
    obtain ⟨d', hd', rfl⟩ := mem_rephase.mp hd
    have hw := (hs.mem_pending hd').mpr (hcall d' hd' hdc)
    change Onward (if d'.id ∈ s.pending then ApiPhase.rejected e else d'.phase) _
    rw [if_pos hw]
    exact ⟨nofun, nofun⟩

theorem call_cases {req : ℕ} {o : ApiSubmit ε}
    (h : s.call op args req ps o = some s') : (∃ e, s' = s.refuse op e) ∨
      s.failure = none ∧ s.Allocates (s.newCall op args req ps).blocks ∧
        s' = (s.write (s.newCall op args req ps)).submit (s.newCall op args req ps) o := by
  rw [call.eq_def] at h
  split at h
  · exact .inl ⟨_, (some.inj h).symm⟩
  · next hf =>
    split at h
    · exact .inl ⟨_, (some.inj h).symm⟩
    · obtain ⟨⟨halloc, hps⟩, ⟨⟩⟩ := ite_none_right_eq_some.mp h
      exact .inr ⟨hf, by rwa [blocks_newCall hps], rfl⟩

theorem length_rephase (f : ApiCall ε → ApiPhase ε) :
    (s.rephase f).calls.length = s.calls.length := length_map _

theorem length_fail (e : ε) : (s.fail e).calls.length = s.calls.length := by
  rw [fail]
  split
  · rfl
  · exact length_rephase _

theorem length_submit (o : ApiSubmit ε) : (s.submit c o).calls.length = s.calls.length := by
  cases o with
  | queues => rw [submit, calls_accept]
  | noThread =>
    rw [submit]
    split_ifs
    · rw [calls_accept]
    · rw [calls_release]
      exact length_rephase _
  | aborts e => exact (length_rephase _).trans (length_fail e)

theorem Inv.call {req : ℕ} {o : ApiSubmit ε} (hs : s.Inv q) (hlen : s'.calls.length < 2 ^ 31)
    (h : s.call op args req ps o = some s') : (∃ q', s'.Inv q') ∧ s.Grows s' := by
  rcases call_cases h with ⟨e, rfl⟩ | ⟨halive, halloc, rfl⟩
  · exact ⟨⟨q, hs.refuse⟩, .of_append rfl⟩
  · have hlen' : s.calls.length + 1 < 2 ^ 31 := by
      rwa [length_submit, WasmApi.write, length_append, length_singleton] at hlen
    have hw := hs.write hlen' halive halloc rfl rfl
    rw [length_submit] at hlen
    exact ⟨hw.submit hlen o, .trans (.of_append rfl) (hw.grows_submit o)⟩

theorem resume_cases {i : ℕ} (h : s.resume i = some s') : ∃ c ∈ s.calls, ∃ r,
    (c.phase = .resolved ∧ (∃ v, r = .ok v) ∨ ∃ e, c.phase = .rejected e) ∧
      s' = (s.setPhase c.id (.settled r)).release c := by
  obtain ⟨c, hi, h⟩ := bind_eq_some_iff.mp h
  refine ⟨c, mem_of_getElem? hi, ?_⟩
  split at h
  · next hp => exact ⟨_, .inl ⟨hp, _, rfl⟩, (some.inj h).symm⟩
  · next e hp => exact ⟨_, .inr ⟨e, hp⟩, (some.inj h).symm⟩
  · cases h

theorem Inv.grows_resume {i : ℕ} (hs : s.Inv q) (h : s.resume i = some s') : s.Grows s' := by
  obtain ⟨c, hc, r, hp, rfl⟩ := resume_cases h
  have hon : Onward c.phase (.settled r) := by
    rcases hp with ⟨hp, v, rfl⟩ | ⟨e, hp⟩
    · exact ⟨fun r hr => absurd (hp.symm.trans hr) nofun, fun _ => rfl⟩
    · rw [hp]
      exact ⟨nofun, nofun⟩
  refine grows_setPhase calls_release fun d hd hdc => ?_
  have h0 : c.id ≠ 0 := hs.settle.id_ne_zero hc (by rcases hp with ⟨hp, -⟩ | ⟨e, hp⟩ <;> simp [hp])
  rwa [hs.mem.eq_of_id hc h0 d hd hdc]

theorem calls_take (h : s.take = some s') : s'.calls = s.calls := by
  obtain ⟨-, ⟨⟩⟩ := ite_none_right_eq_some.mp h
  rfl

theorem calls_finish {v : ℤ} (h : s.finish v = some s') : s'.calls = s.calls := by
  obtain ⟨a, -, rfl⟩ := finish_eq h
  rfl

theorem calls_post (h : s.post = some s') : s'.calls = s.calls := by
  obtain ⟨a, -, rfl⟩ := post_eq h
  rfl

theorem length_le_of_step (h : apiStep s l = some s') : s.calls.length ≤ s'.calls.length := by
  cases l with
  | call op args req ps o =>
    rcases call_cases h with ⟨e, rfl⟩ | ⟨-, -, rfl⟩
    · simp [refuse]
    · simp [length_submit, write]
  | take => rw [calls_take h]
  | finish v => rw [calls_finish h]
  | post => rw [calls_post h]
  | deliver k =>
    obtain ⟨x, -, rfl⟩ := map_eq_some_iff.mp h
    rw [anyfsApiDone]
    split
    · exact Nat.le_of_eq (length_rephase _).symm
    · exact Nat.le_refl _
  | fail e =>
    cases h
    rw [length_fail]
  | resume i =>
    obtain ⟨c, -, r, -, rfl⟩ := resume_cases h
    rw [calls_release]
    exact Nat.le_of_eq (length_rephase _).symm

theorem Inv.step (hs : s.Inv q) (hlen : s'.calls.length < 2 ^ 31)
    (h : apiStep s l = some s') : (∃ q', s'.Inv q') ∧ s.Grows s' := by
  have hlen' := Nat.lt_of_le_of_lt (length_le_of_step h) hlen
  cases l with
  | call op args req ps o => exact hs.call hlen h
  | take => exact ⟨hs.take h, .of_eq (calls_take h)⟩
  | finish v => exact ⟨⟨q, hs.finish hlen' h⟩, .of_eq (calls_finish h)⟩
  | post => exact ⟨⟨q, hs.post h⟩, .of_eq (calls_post h)⟩
  | deliver k =>
    refine ⟨⟨q, hs.deliver hlen' h⟩, ?_⟩
    obtain ⟨x, hx, rfl⟩ := map_eq_some_iff.mp h
    rw [anyfsApiDone]
    split
    · next n hn =>
      exact grows_setPhase (n := n) (p := .resolved) rfl fun c hc hid =>
        onward_of_waiting ((hs.mem_pending hc).mp (hid ▸ mem_of_find?_eq_some hn))
    · exact .of_eq rfl
  | fail e =>
    cases h
    exact ⟨⟨q, hs.fail e⟩, hs.toCore.grows_fail e⟩
  | resume i => exact ⟨⟨q, hs.resume h⟩, hs.grows_resume h⟩

theorem inv_init : (init : WasmApi ε).Inv [] := by
  refine ⟨⟨⟨Nat.one_pos, nofun, Nat.le_refl _, nodup_nil, nofun, nofun, nofun⟩, ?_, ?_⟩, nofun⟩
  · exact ⟨.nil, nofun, rfl, nodup_nil, nofun, nofun, nofun, nofun⟩
  · exact ⟨fun n => ⟨nofun, nofun⟩, nodup_nil, nofun, nofun⟩

theorem inv_of_reach (h : apiMachine.Reach (fun _ _ => True) (init : WasmApi ε) s)
    (hlen : s.calls.length < 2 ^ 31) : ∃ q, s.Inv q := by
  refine h.invariant (P := fun s : WasmApi ε => s.calls.length < 2 ^ 31 → ∃ q, s.Inv q)
    (fun _ => ⟨[], inv_init⟩) (fun s l s' hs _ hstep hlen => ?_) hlen
  obtain ⟨q, hq⟩ := hs (Nat.lt_of_le_of_lt (length_le_of_step hstep) hlen)
  exact (hq.step hlen hstep).1

def Quiet (s : WasmApi ε) : Prop := ∀ l, l.isJob = true → apiStep s l = none

end WasmApi

open WasmApi

end Anyfs
