import Anyfs.Proxy.Spsc
import Anyfs.Proxy.Views

/-!
# What a connection relays

A direction is named by its destination. Each direction uses its ring as `spscMachine` says
(`Relays`), up to the point where all four flags of the connection are set. So what was written to
the destination is a prefix of what was read from the source.
-/

namespace Anyfs.Proxy

open Function List Option

/-! ### Where the threads move bytes -/

/-- Where in `lkl_io` the LKL thread is. -/
def LklAt.ioPc : LklAt → Option IoPc
  | .io pc => some pc
  | _ => none

/-- Where in `host_io` the host thread is. -/
def HostAt.ioPc : HostAt → Option IoPc
  | .io pc => some pc
  | _ => none

@[simp] theorem LklAt.ioPc_eq_some {w : LklAt} {pc : IoPc} : w.ioPc = some pc ↔ w = .io pc := by
  cases w <;> simp [ioPc]

@[simp] theorem HostAt.ioPc_eq_some {w : HostAt} {pc : IoPc} : w.ioPc = some pc ↔ w = .io pc := by
  cases w <;> simp [ioPc]

/-- Where the I/O of a side is. -/
def ConnSys.ioAt (v : ConnSys) : Side → Option IoPc
  | .lkl => v.lkl.ioPc
  | .host => v.host.ioPc

/-- All four flags that `conn_done` tests are set. -/
def Conn.Dead (c : Conn) : Prop :=
  ∀ sd, c.flag (.readEof sd) = true ∧ c.flag (.wrShut sd) = true

open Conn

@[simp] theorem Side.other_other (sd : Side) : sd.other.other = sd := by
  cases sd <;> rfl

theorem Conn.not_dead_of_readEof {c : Conn} {sd : Side} (h : c.flag (.readEof sd) = false) :
    ¬ c.Dead := fun hdead => Bool.false_ne_true (h.symm.trans (hdead sd).1)

theorem Conn.not_dead_of_wrShut {c : Conn} {sd : Side} (h : c.flag (.wrShut sd) = false) :
    ¬ c.Dead := fun hdead => Bool.false_ne_true (h.symm.trans (hdead sd).2)

theorem Conn.finished_iff {c : Conn} : c.Finished ↔ c.Dead ∧ ∀ sd, c.used sd = 0 := by
  constructor
  · intro h
    refine ⟨?_, ?_⟩
    · rintro (_ | _)
      · exact ⟨h.hostReadEof, h.hostWrShut⟩
      · exact ⟨h.lklReadEof, h.lklWrShut⟩
    · rintro (_ | _)
      · exact h.h2l
      · exact h.l2h
  · rintro ⟨hdead, hempty⟩
    exact ⟨(hdead .host).1, (hdead .host).2, (hdead .lkl).1, (hdead .lkl).2, hempty .host,
      hempty .lkl⟩

/-! ### One direction and its ring -/

/-- What was read from the source, with the source's thread at `i`. -/
def RdRel (t : Spsc) (received : Bytes) : Option IoPc → Prop
  | some (.rdCall p) => t.prod = .span p ∧ received = t.produced
  | some (.rdCommit p n) =>
    t.prod = .span p ∧ n ≤ p.len ∧ received = t.produced ++ t.ring.bytes p n
  | _ => t.prod = .idle ∧ received = t.produced

/-- What was written to the destination, with the destination's thread at `j`. -/
def WrRel (t : Spsc) (sent : Bytes) : Option IoPc → Prop
  | some (.wrCall p) | some (.wrFail p) => t.cons = .span p ∧ sent = t.consumed
  | some (.wrCommit p n) =>
    ∃ bs, t.cons = .taken p bs ∧ bs.length = n.toNat ∧ sent = t.consumed ++ bs
  | _ => t.cons = .idle ∧ sent = t.consumed

def IoPc.Reads : IoPc → Bool
  | .rdCall _ | .rdCommit _ _ => true
  | _ => false

def IoPc.Writes : IoPc → Bool
  | .wrCall _ | .wrFail _ | .wrCommit _ _ => true
  | _ => false

/-- The direction to `sd` uses its ring as the machine in state `t` does. -/
structure Relays (sd : Side) (c : Conn) (i j : Option IoPc) (t : Spsc) : Prop where
  reach : spscMachine.Reach (fun _ _ => True) .new t
  ring : c.ring sd.other = t.ring ∨ c.Dead
  read : RdRel t (c.received sd.other) i
  write : WrRel t (c.sent sd) j

section Spsc

variable {t : Spsc} {p : Span}

section

variable (h : spscMachine.Reach (fun _ _ => True) .new t)
include h

theorem reach_dropProd (hp : t.prod = .span p) :
    spscMachine.Reach (fun _ _ => True) .new { t with prod := .idle } := by
  have hstep : SpscStep t (.pcommit 0) _ := .pcommit hp (UInt64.zero_le)
  have hring : t.ring.pcommit 0 = t.ring := by simp [Ring.pcommit]
  have hbytes : t.produced ++ t.ring.bytes p 0 = t.produced := by
    simp [Ring.bytes, ByteStore.slice]
  rw [hring, hbytes] at hstep
  exact .step h trivial hstep

theorem reach_dropCons (hp : t.cons = .span p) :
    spscMachine.Reach (fun _ _ => True) .new { t with cons := .idle } := by
  have htake : spscMachine.Reach (fun _ _ => True) .new
      { t with cons := .taken p (t.ring.bytes p 0) } :=
    .step h trivial (SpscStep.take hp UInt64.zero_le)
  have hstep : SpscStep { t with cons := .taken p (t.ring.bytes p 0) } (.ccommit 0) _ :=
    .ccommit rfl (Nat.zero_le _)
  have hring : t.ring.ccommit 0 = t.ring := by simp [Ring.ccommit]
  simp only [hring, UInt64.toNat_zero, take_zero, append_nil] at hstep
  exact .step htake trivial hstep

theorem reach_writable (hp : t.prod = .idle) :
    spscMachine.Reach (fun _ _ => True) .new { t with prod := .span t.ring.writable } :=
  .step (.step h trivial (SpscStep.pLoad hp)) trivial (SpscStep.pSpan rfl)

theorem reach_readable (hp : t.cons = .idle) :
    spscMachine.Reach (fun _ _ => True) .new { t with cons := .span t.ring.readable } :=
  .step (.step h trivial (SpscStep.cLoad hp)) trivial (SpscStep.cSpan rfl)

end

end Spsc

attribute [local simp] IoPc.Writes IoPc.Reads

section Io

variable {sd : Side} {c c' : Conn} {pc : IoPc} {a : IoAct} {i j o : Option IoPc} {t : Spsc}

section

variable (h : io sd c pc a = some (c', o))
include h

theorem io_calls :
    (c'.received sd = c.received sd ∨ ∃ p, pc = .rdCall p) ∧
      (c'.sent sd = c.sent sd ∨ ∃ p, pc = .wrCall p) ∧
      (c'.shut sd = c.shut sd ∨ pc = .shut) := by
  cases pc <;> cases a <;> simp only [io, reduceCtorEq, ite_none_right_eq_some] at h
  case rdCall.data p bs =>
    obtain ⟨-, h⟩ := h
    cases h
    exact ⟨.inr ⟨p, rfl⟩, .inl rfl, .inl rfl⟩
  case wrCall.wrote p n =>
    obtain ⟨-, h⟩ := h
    cases h
    exact ⟨.inl rfl, .inr ⟨p, rfl⟩, .inl rfl⟩
  case shut.go =>
    cases h
    exact ⟨.inl rfl, .inl rfl, .inr rfl⟩
  all_goals
    cases h
    exact ⟨.inl rfl, .inl rfl, .inl rfl⟩

theorem io_grows (sd' : Side) :
    c.received sd' <+: c'.received sd' ∧ (c.shut sd' = true → c'.shut sd' = true) := by
  cases pc <;> cases a <;> simp only [io, reduceCtorEq, ite_none_right_eq_some] at h
  case rdCall.data p bs =>
    obtain ⟨-, h⟩ := h
    cases h
    refine ⟨?_, id⟩
    by_cases hsd : sd' = sd
    · subst hsd
      simp [receive]
    · simp [receive, setRing, hsd]
  case wrCall.wrote =>
    obtain ⟨-, h⟩ := h
    cases h
    exact ⟨prefix_rfl, id⟩
  case shut.go =>
    cases h
    refine ⟨prefix_rfl, fun hshut => ?_⟩
    by_cases hsd : sd' = sd
    · simp [shutdown, hsd]
    · simpa [shutdown, hsd] using hshut
  all_goals
    cases h
    exact ⟨prefix_rfl, id⟩

theorem io_socket :
    c'.received sd.other = c.received sd.other ∧ c'.sent sd.other = c.sent sd.other ∧
      c'.shut sd.other = c.shut sd.other := by
  cases pc <;> cases a <;> simp only [io, reduceCtorEq, ite_none_right_eq_some] at h
  case rdCall.data | wrCall.wrote =>
    obtain ⟨-, h⟩ := h
    cases h
    simp [receive, setRing, send]
  case shut.go =>
    cases h
    simp [shutdown]
  all_goals
    cases h
    exact ⟨rfl, rfl, rfl⟩

theorem io_own (hspan : pc ≠ .rdSpan) (hpc : pc.Reads = false) :
    c'.ring sd = c.ring sd ∧ c'.received sd = c.received sd ∧
      ∀ pc' ∈ o, pc'.Reads = false := by
  cases pc <;> cases a <;> simp only [io, reduceCtorEq, ite_none_right_eq_some] at h
  case rdSpan.go => exact absurd rfl hspan
  case rdCall.data | rdCall.again | rdCall.intr | rdCall.fail => cases hpc
  case rdCommit.go => cases hpc
  case wrCall.wrote =>
    obtain ⟨-, h⟩ := h
    cases h
    simp [send]
  case wrCommit.go =>
    cases h
    refine ⟨update_of_ne sd.ne_other _ _, rfl, ?_⟩
    split_ifs <;> simp
  case wrFail.go =>
    cases h
    refine ⟨rfl, rfl, ?_⟩
    cases sd <;> simp [afterWrFail]
  -- loads and stores of flags
  all_goals
    cases h
    refine ⟨rfl, rfl, ?_⟩
    first | (split_ifs <;> simp) | simp

theorem io_other (hspan : pc ≠ .wrSpan) (hpc : pc.Writes = false) :
    c'.ring sd.other = c.ring sd.other ∧ c'.sent sd = c.sent sd ∧
      ∀ pc' ∈ o, pc'.Writes = false := by
  cases pc <;> cases a <;> simp only [io, reduceCtorEq, ite_none_right_eq_some] at h
  case wrSpan.go => exact absurd rfl hspan
  case wrCall.wrote | wrCall.again | wrCall.intr | wrCall.fail => cases hpc
  case wrCommit.go => cases hpc
  case wrFail.go => cases hpc
  case rdCall.data =>
    obtain ⟨-, h⟩ := h
    cases h
    exact ⟨update_of_ne sd.other_ne _ _, rfl, by simp⟩
  case rdCommit.go =>
    cases h
    refine ⟨update_of_ne sd.other_ne _ _, rfl, ?_⟩
    split_ifs <;> simp
  -- loads and stores of flags
  all_goals
    cases h
    refine ⟨rfl, rfl, ?_⟩
    first | (split_ifs <;> simp) | simp

end

theorem rdRel_of_not_reads {r : Bytes} (hi : ∀ pc ∈ i, pc.Reads = false) :
    RdRel t r i ↔ t.prod = .idle ∧ r = t.produced := by
  rcases i with _ | pc
  · exact Iff.rfl
  · have hpc := hi pc rfl
    cases pc <;> first | exact Iff.rfl | cases hpc

theorem wrRel_of_not_writes {r : Bytes} (hj : ∀ pc ∈ j, pc.Writes = false) :
    WrRel t r j ↔ t.cons = .idle ∧ r = t.consumed := by
  rcases j with _ | pc
  · exact Iff.rfl
  · have hpc := hj pc rfl
    cases pc <;> first | exact Iff.rfl | cases hpc

theorem Conn.Dead.mono (hdead : c.Dead) (hmono : ∀ f, c.flag f = true → c'.flag f = true) :
    c'.Dead := fun sd => ⟨hmono _ (hdead sd).1, hmono _ (hdead sd).2⟩

theorem Relays.frame {i' j' : Option IoPc} (h : Relays sd c i j t)
    (hring : c'.ring sd.other = c.ring sd.other ∨ c'.Dead)
    (hmono : ∀ f, c.flag f = true → c'.flag f = true) (hrecv : RdRel t (c'.received sd.other) i')
    (hsent : WrRel t (c'.sent sd) j') : Relays sd c' i' j' t where
  reach := h.reach
  ring := by
    rcases hring with heq | hdead
    · exact h.ring.imp heq.trans fun hdead => hdead.mono hmono
    · exact .inr hdead
  read := hrecv
  write := hsent

theorem Relays.source (h : Relays sd c (some pc) j t) (hok : IoOk sd.other c pc)
    (hio : io sd.other c pc a = some (c', o)) : ∃ t', Relays sd c' o j t' := by
  have hmono := (io_guar hok hio).mono
  have hsent : WrRel t (c'.sent sd) j := by
    have hsocket := (io_socket hio).2.1
    rw [Side.other_other] at hsocket
    exact hsocket ▸ h.write
  cases pc with
  | rdSpan =>
    have hring := h.ring.resolve_right (not_dead_of_readEof hok)
    cases a <;> simp only [io, reduceCtorEq, some.injEq, Prod.mk.injEq] at hio
    obtain ⟨rfl, rfl⟩ := hio
    split_ifs
    · exact ⟨t, h.frame (.inl rfl) hmono h.read hsent⟩
    · refine ⟨{ t with prod := .span t.ring.writable }, ?_, .inl hring, ⟨?_, h.read.2⟩, hsent⟩
      · exact reach_writable h.reach h.read.1
      · rw [hring]
  | rdCall p =>
    obtain ⟨hread, -, -⟩ := hok
    have hring := h.ring.resolve_right (not_dead_of_readEof hread)
    obtain ⟨hp, hrecv⟩ := h.read
    cases a <;> simp only [io, reduceCtorEq, ite_none_right_eq_some] at hio
    case data bs =>
      obtain ⟨⟨-, hlen⟩, hio⟩ := hio
      cases hio
      have hn : (UInt64.ofNat bs.length).toNat = bs.length :=
        UInt64.toNat_ofNat_of_lt' (hlen.trans_lt p.len.toNat_lt)
      refine ⟨{ t with ring := t.ring.fill p bs }, ?_, .inl ?_, ⟨hp, ?_, ?_⟩, hsent⟩
      · exact .step h.reach trivial (SpscStep.fill hp hlen)
      · simp [receive, setRing, hring]
      · rw [UInt64.le_iff_toNat_le, hn]
        exact hlen
      · simp [receive, Ring.fill, Ring.bytes, hn, hrecv]
    -- nothing was read: the span is given up
    all_goals
      cases hio
      exact ⟨{ t with prod := .idle }, reach_dropProd h.reach hp, .inl hring, ⟨rfl, hrecv⟩, hsent⟩
  | rdCommit p n =>
    have hring := h.ring.resolve_right (not_dead_of_readEof hok.1)
    obtain ⟨hp, hn, hrecv⟩ := h.read
    cases a <;> simp only [io, reduceCtorEq, some.injEq, Prod.mk.injEq] at hio
    obtain ⟨rfl, rfl⟩ := hio
    refine ⟨_, .step h.reach trivial (SpscStep.pcommit hp hn), .inl ?_, ?_, hsent⟩
    · simp [setRing, hring]
    · refine (rdRel_of_not_reads ?_).mpr ⟨rfl, hrecv⟩
      split_ifs <;> simp
  | _ =>
    obtain ⟨hring, hrecv, ho⟩ := io_own hio (by rintro ⟨⟩) rfl
    refine ⟨t, h.frame (.inl hring) hmono ?_ hsent⟩
    rw [hrecv]
    exact (rdRel_of_not_reads ho).mpr h.read

theorem Relays.destination (h : Relays sd c i (some pc) t) (hok : IoOk sd c pc)
    (hio : io sd c pc a = some (c', o)) : ∃ t', Relays sd c' i o t' := by
  have hmono := (io_guar hok hio).mono
  have hrecv : RdRel t (c'.received sd.other) i := by
    rw [(io_socket hio).1]
    exact h.read
  cases pc with
  | wrSpan =>
    have hring := h.ring.resolve_right (not_dead_of_wrShut hok)
    cases a <;> simp only [io, reduceCtorEq, some.injEq, Prod.mk.injEq] at hio
    obtain ⟨rfl, rfl⟩ := hio
    split_ifs
    · exact ⟨t, h.frame (.inl rfl) hmono hrecv h.write⟩
    · refine ⟨{ t with cons := .span t.ring.readable }, ?_, .inl hring, hrecv, ?_, h.write.2⟩
      · exact reach_readable h.reach h.write.1
      · rw [hring]
  | wrCall p =>
    obtain ⟨hwrite, -, -⟩ := hok
    have hring := h.ring.resolve_right (not_dead_of_wrShut hwrite)
    obtain ⟨hp, hsent⟩ := h.write
    cases a <;> simp only [io, reduceCtorEq, ite_none_right_eq_some] at hio
    case wrote n =>
      obtain ⟨⟨-, hn⟩, hio⟩ := hio
      cases hio
      refine ⟨_, .step h.reach trivial (SpscStep.take hp hn), .inl hring, hrecv, _, rfl, ?_, ?_⟩
      · rw [Ring.bytes, ByteStore.length_slice]
      · simp [send, hring, hsent]
    case fail =>
      cases hio
      exact ⟨t, h.frame (.inl rfl) hmono hrecv h.write⟩
    -- nothing was written: the span is given up
    all_goals
      cases hio
      exact ⟨{ t with cons := .idle }, reach_dropCons h.reach hp, .inl hring, hrecv, rfl, hsent⟩
  | wrCommit p n =>
    have hring := h.ring.resolve_right (not_dead_of_wrShut hok.1)
    obtain ⟨bs, hp, hlen, hsent⟩ := h.write
    cases a <;> simp only [io, reduceCtorEq, some.injEq, Prod.mk.injEq] at hio
    obtain ⟨rfl, rfl⟩ := hio
    refine ⟨_, .step h.reach trivial (SpscStep.ccommit hp hlen.ge), .inl ?_, hrecv, ?_⟩
    · simp [setRing, hring]
    · have htake : bs.take n.toNat = bs := by rw [← hlen, take_length]
      refine (wrRel_of_not_writes ?_).mpr ⟨rfl, ?_⟩
      · split_ifs <;> simp
      · rw [htake]
        exact hsent
  | wrFail p =>
    have hring := h.ring.resolve_right (not_dead_of_wrShut hok.1)
    obtain ⟨hp, hsent⟩ := h.write
    cases a <;> simp only [io, reduceCtorEq, some.injEq, Prod.mk.injEq] at hio
    obtain ⟨rfl, rfl⟩ := hio
    refine ⟨{ t with cons := .idle }, reach_dropCons h.reach hp, .inl hring, hrecv, ?_⟩
    refine (wrRel_of_not_writes ?_).mpr ⟨rfl, hsent⟩
    cases sd <;> simp [afterWrFail]
  | _ =>
    obtain ⟨hring, hsent, ho⟩ := io_other hio (by rintro ⟨⟩) rfl
    refine ⟨t, h.frame (.inl hring) hmono hrecv ?_⟩
    rw [hsent]
    exact (wrRel_of_not_writes ho).mpr h.write

end Io

/-! ### The steps of a connection -/

/-- The flags that were stored before. -/
def LklDone (c : Conn) : LklAt → Prop
  | .connectFail .hostWrShut => c.flag (.readEof .host) = true
  | .connectFail .lklReadEof => c.flag (.readEof .host) = true ∧ c.flag (.wrShut .host) = true
  | .connectFail .lklWrShut =>
    (c.flag (.readEof .host) = true ∧ c.flag (.wrShut .host) = true) ∧
      c.flag (.readEof .lkl) = true
  | .force .lklWrShut | .errShut => c.flag (.readEof .lkl) = true
  | .force .h2l | .force .l2h => c.flag (.readEof .lkl) = true ∧ c.flag (.wrShut .lkl) = true
  | _ => True

def ConnSys.fresh : ConnSys := ⟨.new, .attached, .out, .out⟩

@[simp] theorem ConnSys.ioAt_fresh (sd : Side) : ConnSys.fresh.ioAt sd = none := by
  cases sd <;> rfl

/-- What a step does to the bytes of a connection. -/
inductive Moves (v v' : ConnSys) : Prop
  /-- The connection is made. -/
  | attach : v.life = .absent → v' = .fresh → Moves v v'
  /-- A thread moves bytes. -/
  | io (sd : Side) {pc : IoPc} {a : IoAct} {o : Option IoPc} : v.ioAt sd = some pc →
      io sd v.conn pc a = some (v'.conn, o) → v'.ioAt sd = o →
      v'.ioAt sd.other = v.ioAt sd.other → Moves v v'
  /-- Nothing goes through the sockets; the rings are left alone or were given up. -/
  | quiet : v'.conn.received = v.conn.received → v'.conn.sent = v.conn.sent →
      v'.conn.shut = v.conn.shut → (v'.conn.ring = v.conn.ring ∨ v'.conn.Dead) →
      (∀ f, v.conn.flag f = true → v'.conn.flag f = true) →
      (∀ sd, v'.ioAt sd = v.ioAt sd ∨ v.ioAt sd = none ∧ v'.ioAt sd = some .rd) → Moves v v'

section Steps

variable {v v' : ConnSys} {act : ConnAct} {c c' : Conn} {a : IoAct}

theorem LklDone.mono {w : LklAt} (hmono : ∀ f, c.flag f = true → c'.flag f = true)
    (h : LklDone c w) : LklDone c' w := by
  cases w with
  | connectFail st =>
    cases st with
    | hostReadEof => trivial
    | hostWrShut => exact hmono _ h
    | lklReadEof => exact ⟨hmono _ h.1, hmono _ h.2⟩
    | lklWrShut => exact ⟨⟨hmono _ h.1.1, hmono _ h.1.2⟩, hmono _ h.2⟩
  | force st =>
    cases st with
    | lklFd | lklReadEof => trivial
    | lklWrShut => exact hmono _ h
    | h2l | l2h => exact ⟨hmono _ h.1, hmono _ h.2⟩
  | errShut => exact hmono _ h
  | _ => trivial

theorem lklDone_lklCode {w w' : LklAt} (hdone : LklDone c w)
    (h : lklCode c w a = some (c', w')) : LklDone c' w' := by
  cases lklCode_cases h with
  | connectFail st =>
    cases st with
    | hostReadEof => simp [ConnectFail.next, ConnectFail.flag, LklDone]
    | hostWrShut | lklReadEof =>
      simpa [ConnectFail.next, ConnectFail.flag, LklDone] using hdone
    | lklWrShut => trivial
  | forceEof | errEof => simp [LklDone]
  | forceShut => simpa [LklDone] using hdone
  | forceH2l => exact hdone
  | @io _ _ _ o => cases o <;> trivial
  | forceFd | forceL2h | errShut => trivial

theorem moves_lklCode {w : LklAt} (hok : ConnOk v) (hdone : LklDone v.conn v.lkl)
    (h : lklCode v.conn v.lkl a = some (c', w)) : Moves v { v with conn := c', lkl := w } := by
  have hmono := (hok.lklGuar h).mono
  have hlkl := hok.lkl
  have hquiet : c'.received = v.conn.received → c'.sent = v.conn.sent → c'.shut = v.conn.shut →
      (c'.ring = v.conn.ring ∨ c'.Dead) →
      (w.ioPc = v.lkl.ioPc ∨ v.lkl.ioPc = none ∧ w.ioPc = some .rd) →
      Moves v { v with conn := c', lkl := w } := by
    intro hrecv hsent hshut hring hio
    refine .quiet hrecv hsent hshut hring hmono fun sd => ?_
    cases sd with
    | host => exact .inl rfl
    | lkl => exact hio
  obtain ⟨c, life, w₀, host⟩ := v
  cases lklCode_cases h with
  | connectFail st => cases st <;> exact hquiet rfl rfl rfl (.inl rfl) (.inl rfl)
  | forceH2l | forceL2h =>
    -- a ring is given up when all four flags are set
    refine hquiet rfl rfl rfl (.inr ?_) (.inl rfl)
    rintro (_ | _)
    · exact hok.closeReq hlkl
    · exact hdone
  | errShut => exact hquiet rfl rfl rfl (.inl rfl) (.inr ⟨rfl, rfl⟩)
  | @io pc a c' o hio => exact .io .lkl rfl hio (by cases o <;> rfl) rfl
  | forceFd | forceEof | forceShut | errEof => exact hquiet rfl rfl rfl (.inl rfl) (.inl rfl)

theorem moves_hostCode {w : HostAt} (hok : ConnOk v)
    (h : hostCode v.conn v.host a = some (c', w)) : Moves v { v with conn := c', host := w } := by
  have hmono := (hok.hostGuar h).mono
  have hquiet : c'.received = v.conn.received → c'.sent = v.conn.sent → c'.shut = v.conn.shut →
      c'.ring = v.conn.ring → w.ioPc = v.host.ioPc →
      Moves v { v with conn := c', host := w } := by
    intro hrecv hsent hshut hring hio
    refine .quiet hrecv hsent hshut (.inl hring) hmono fun sd => .inl ?_
    cases sd with
    | host => exact hio
    | lkl => rfl
  obtain ⟨c, life, lkl, w₀⟩ := v
  cases hostCode_cases h with
  | @io pc a c' o hio => exact .io .host rfl hio (by cases o <;> rfl) rfl
  | @done st => cases st <;> exact hquiet rfl rfl rfl rfl rfl
  | _ => exact hquiet rfl rfl rfl rfl rfl

theorem moves_lkl {w : LklAt} (hio : w.ioPc = v.lkl.ioPc ∨ v.lkl.ioPc = none ∧ w.ioPc = some .rd)
    (fd : Option ℕ) : Moves v { v with conn := { v.conn with lklFd := fd }, lkl := w } := by
  refine .quiet rfl rfl rfl (.inl rfl) (fun _ hf => hf) fun sd => ?_
  cases sd with
  | host => exact .inl rfl
  | lkl => exact hio

theorem moves_host {w : HostAt}
    (hio : w.ioPc = v.host.ioPc ∨ v.host.ioPc = none ∧ w.ioPc = some .rd) (l : Life) :
    Moves v { v with life := l, host := w } := by
  refine .quiet rfl rfl rfl (.inl rfl) (fun _ hf => hf) fun sd => ?_
  cases sd with
  | host => exact hio
  | lkl => exact .inl rfl

theorem ConnStep.moves (hok : ConnOk v) (hdone : LklDone v.conn v.lkl)
    (h : ConnStep v act v') : Moves v v' := by
  cases h with
  | attach hlife hhost =>
    refine .attach hlife ?_
    rw [hhost, (hok.absent hlife).1]
    rfl
  | lklList _ hlkl | lklForce _ hlkl | lklSnap _ hlkl =>
    exact moves_lkl (.inl (by rw [hlkl]; rfl)) _
  | lklConnect fd hlkl => exact moves_lkl (.inl (by rw [hlkl]; rfl)) (some fd)
  | lklConnectFail hlkl | lklDrop hlkl => exact moves_lkl (.inl (by rw [hlkl]; rfl)) _
  | lklStart err hlkl =>
    refine moves_lkl ?_ _
    rw [hlkl]
    cases err
    · exact .inr ⟨rfl, rfl⟩
    · exact .inl rfl
  | lklCode hcode => exact moves_lklCode hok hdone hcode
  | hostList _ hhost | hostSweep _ hhost => exact moves_host (.inl (by rw [hhost]; rfl)) _
  | hostStart hhost =>
    refine moves_host ?_ _
    rw [hhost]
    split_ifs
    · exact .inl rfl
    · exact .inr ⟨rfl, rfl⟩
  | hostCode hcode => exact moves_hostCode hok hcode
  | hostUnlist hhost | hostErr hhost | hostCheck hhost | unlink hhost | destroy hhost =>
    exact moves_host (.inl (by rw [hhost]; rfl)) _

theorem LklDone.step (hok : ConnOk v) (hdone : LklDone v.conn v.lkl) (h : ConnStep v act v') :
    LklDone v'.conn v'.lkl := by
  cases h with
  | attach hlife =>
    rw [(hok.absent hlife).1]
    trivial
  | lklStart err => cases err <;> trivial
  | lklCode hcode => exact lklDone_lklCode hdone hcode
  | hostCode hcode => exact hdone.mono (hok.hostGuar hcode).mono
  | lklList | lklConnect | lklConnectFail | lklForce | lklSnap | lklDrop => trivial
  | hostList | hostUnlist | hostErr | hostSweep | hostStart | hostCheck | unlink | destroy =>
    exact hdone

theorem ConnOk.ioOk {sd : Side} {pc : IoPc} (hok : ConnOk v) (h : v.ioAt sd = some pc) :
    IoOk sd v.conn pc := by
  cases sd with
  | host =>
    have hhost := hok.host
    cases hw : v.host <;> simp [ConnSys.ioAt, hw, HostAt.ioPc] at h
    subst h
    rwa [hw] at hhost
  | lkl =>
    have hlkl := hok.lkl
    cases hw : v.lkl <;> simp [ConnSys.ioAt, hw, LklAt.ioPc] at h
    subst h
    rwa [hw] at hlkl

theorem ConnStep.mono (hok : ConnOk v) (hdone : LklDone v.conn v.lkl) (h : ConnStep v act v') :
    (v.life = .absent ∧ v' = .fresh) ∨
      ∀ f, v.conn.flag f = true → v'.conn.flag f = true := by
  cases h.moves hok hdone with
  | attach hlife hfresh => exact .inl ⟨hlife, hfresh⟩
  | io sd hpc hio => exact .inr (io_guar (hok.ioOk hpc) hio).mono
  | quiet _ _ _ _ hmono => exact .inr hmono

theorem ConnStep.sockets (hok : ConnOk v) (hdone : LklDone v.conn v.lkl) (h : ConnStep v act v') :
    v' = .fresh ∨
      ∀ sd, v.conn.received sd <+: v'.conn.received sd ∧
        (v.conn.shut sd = true → v'.conn.shut sd = true) := by
  cases h.moves hok hdone with
  | attach _ hfresh => exact .inl hfresh
  | io sd hpc hio => exact .inr (io_grows hio)
  | quiet hrecv _ hshut =>
    rw [hrecv, hshut]
    exact .inr fun sd => ⟨prefix_rfl, id⟩

theorem io_used {sd : Side} {pc : IoPc} {o : Option IoPc} (h : io sd c pc a = some (c', o)) :
    c'.used sd = c.used sd ∨ ∃ p n, pc = .rdCommit p n := by
  cases pc with
  | rdCommit p n => exact .inr ⟨p, n, rfl⟩
  | rdSpan =>
    cases a <;> simp only [io, reduceCtorEq] at h
    cases h
    exact .inl rfl
  | rdCall p =>
    cases a <;> simp only [io, reduceCtorEq, ite_none_right_eq_some] at h
    case data =>
      obtain ⟨-, h⟩ := h
      cases h
      simp
    all_goals
      cases h
      exact .inl rfl
  | _ =>
    have hring := (io_own h (by rintro ⟨⟩) rfl).1
    exact .inl (congrArg Ring.used hring)

theorem lklCode_used {w w' : LklAt} (h : lklCode c w a = some (c', w')) :
    c'.used .lkl ≤ c.used .lkl ∨ ∃ p n, w = .io (.rdCommit p n) := by
  cases lklCode_cases h with
  | forceL2h => simp
  | io hio =>
    rcases io_used hio with heq | ⟨p, n, rfl⟩
    · exact .inl heq.le
    · exact .inr ⟨p, n, rfl⟩
  | _ => exact .inl le_rfl

theorem hostCode_used {w w' : HostAt} (h : hostCode c w a = some (c', w')) :
    c'.used .host ≤ c.used .host ∨ ∃ p n, w = .io (.rdCommit p n) := by
  cases hostCode_cases h with
  | io hio =>
    rcases io_used hio with heq | ⟨p, n, rfl⟩
    · exact .inl heq.le
    · exact .inr ⟨p, n, rfl⟩
  | _ => exact .inl le_rfl

theorem ConnStep.used (hok : ConnOk v) (hs : ConnStep v act v') (sd : Side) :
    v' = .fresh ∨ v'.conn.used sd ≤ v.conn.used sd ∨
      (act.side = sd ∧ ∃ p n, v.ioAt sd = some (.rdCommit p n)) := by
  cases hs with
  | attach hlife hhost =>
    refine .inl ?_
    rw [hhost, (hok.absent hlife).1]
    rfl
  | lklCode hcode =>
    refine .inr ?_
    cases sd with
    | host => exact .inl (hok.lklGuar hcode).h2l
    | lkl =>
      rcases lklCode_used hcode with hle | ⟨p, n, hw⟩
      · exact .inl hle
      · exact .inr ⟨rfl, p, n, LklAt.ioPc_eq_some.mpr hw⟩
  | hostCode hcode =>
    refine .inr ?_
    cases sd with
    | lkl => exact .inl (hok.hostGuar hcode).drains
    | host =>
      rcases hostCode_used hcode with hle | ⟨p, n, hw⟩
      · exact .inl hle
      · exact .inr ⟨rfl, p, n, HostAt.ioPc_eq_some.mpr hw⟩
  | _ => exact .inr (.inl le_rfl)

theorem ConnStep.used_of_readEof (hok : ConnOk v) (hs : ConnStep v act v') {sd : Side}
    (heof : v.conn.flag (.readEof sd) = true) (h : v.conn.used sd = 0) : v'.conn.used sd = 0 := by
  rcases hs.used hok sd with rfl | hle | ⟨-, p, n, hpc⟩
  · exact used_new sd
  · omega
  · have hread := (hok.ioOk hpc).1
    simp [heof] at hread

/-- Both rings relay what their producer received. -/
structure RelayOk (v : ConnSys) : Prop where
  done : LklDone v.conn v.lkl
  relays : ∀ sd, ∃ t, Relays sd v.conn (v.ioAt sd.other) (v.ioAt sd) t

theorem relayOk_absent : RelayOk .absent where
  done := trivial
  relays sd := by
    refine ⟨.new, .refl, .inl rfl, ?_, ?_⟩
    · cases sd <;> exact ⟨rfl, rfl⟩
    · cases sd <;> exact ⟨rfl, rfl⟩

theorem RelayOk.step (hok : ConnOk v) (h : RelayOk v) (hs : ConnStep v act v') : RelayOk v' := by
  refine ⟨h.done.step hok hs, fun sd => ?_⟩
  obtain ⟨t, ht⟩ := h.relays sd
  cases hs.moves hok h.done with
  | attach _ hfresh =>
    rw [hfresh, ConnSys.ioAt_fresh, ConnSys.ioAt_fresh]
    exact ⟨.new, .refl, .inl rfl, ⟨rfl, rfl⟩, ⟨rfl, rfl⟩⟩
  | io sd' hpc hio ho hother =>
    have hioOk := hok.ioOk hpc
    by_cases hsd : sd' = sd
    · subst hsd
      rw [hpc] at ht
      rw [ho, hother]
      exact ht.destination hioOk hio
    · obtain rfl : sd' = sd.other := by cases sd <;> cases sd' <;> simp_all [Side.other]
      rw [Side.other_other] at hother
      rw [hpc] at ht
      rw [ho, hother]
      exact ht.source hioOk hio
  | quiet hrecv hsent _ hring hmono hio =>
    have hreads : RdRel t (v.conn.received sd.other) (v'.ioAt sd.other) := by
      rcases hio sd.other with heq | ⟨hnone, hrd⟩
      · exact heq ▸ ht.read
      · rw [hrd]
        exact (rdRel_of_not_reads (by simp [hnone])).mp ht.read
    have hwrites : WrRel t (v.conn.sent sd) (v'.ioAt sd) := by
      rcases hio sd with heq | ⟨hnone, hrd⟩
      · exact heq ▸ ht.write
      · rw [hrd]
        exact (wrRel_of_not_writes (by simp [hnone])).mp ht.write
    refine ⟨t, ht.frame (hring.imp_left fun heq => by rw [heq]) hmono ?_ ?_⟩
    · rwa [hrecv]
    · rwa [hsent]

end Steps

/-! ### Streams -/

section Streams

variable {sd : Side} {c : Conn} {i j : Option IoPc} {t : Spsc}

section

variable (h : Relays sd c i j t)
include h

theorem Relays.produced_isPrefix : t.produced <+: c.received sd.other := by
  have hread := h.read
  by_cases hi : ∀ pc ∈ i, pc.Reads = false
  · rw [((rdRel_of_not_reads hi).mp hread).2]
  · push Not at hi
    obtain ⟨pc, rfl, hpc⟩ := hi
    cases pc <;> first | exact absurd rfl hpc | skip
    · rw [hread.2]
    · rw [hread.2.2]
      exact prefix_append ..

theorem Relays.sent_isPrefix_produced : c.sent sd <+: t.produced := by
  have hok := reach_spscOk h.reach
  have hstream : t.produced = t.consumed ++ t.produced.drop t.consumed.length := hok.fifo.stream
  have hconsumed : t.consumed <+: t.produced := ⟨_, hstream.symm⟩
  have hwrite := h.write
  by_cases hj : ∀ pc ∈ j, pc.Writes = false
  · rwa [((wrRel_of_not_writes hj).mp hwrite).2]
  · push Not at hj
    obtain ⟨pc, rfl, hpc⟩ := hj
    cases pc <;> first | exact absurd rfl hpc | skip
    case wrCommit p n =>
      obtain ⟨bs, hcons, -, hsent⟩ := hwrite
      obtain ⟨-, -, hbs⟩ : ConsOk t (.taken p bs) := hcons ▸ hok.cons
      rw [hsent, hstream]
      exact (prefix_append_right_inj _).mpr hbs
    all_goals
      rw [hwrite.2]
      exact hconsumed

theorem Relays.isPrefix : c.sent sd <+: c.received sd.other :=
  h.sent_isPrefix_produced.trans h.produced_isPrefix

theorem Relays.eq_of_used_eq_zero (halive : ¬ c.Dead)
    (hempty : c.used sd.other = 0) (hi : ∀ pc ∈ i, pc.Reads = false)
    (hj : ∀ pc ∈ j, pc.Writes = false) : c.sent sd = c.received sd.other := by
  have hok := reach_spscOk h.reach
  have hused : t.ring.used = 0 := by
    rw [← h.ring.resolve_right halive]
    exact hempty
  have hlen : t.consumed.length = t.produced.length := by
    have hle := hok.le
    have heq := hok.used_eq
    omega
  have hprefix : t.consumed <+: t.produced := ⟨_, hok.fifo.stream.symm⟩
  rw [((wrRel_of_not_writes hj).mp h.write).2, ((rdRel_of_not_reads hi).mp h.read).2,
    hprefix.eq_of_length hlen]

end

end Streams

/-! ### Every run -/

section Runs

variable {guard : ConnSys → ConnAct → Prop} {v v' : ConnSys} {act : ConnAct}

theorem reach_relayOk (h : connMachine.Reach guard .absent v) : RelayOk v := by
  have hinv : ConnOk v ∧ RelayOk v := by
    refine h.invariant (P := fun v => ConnOk v ∧ RelayOk v) ⟨connOk_absent, relayOk_absent⟩ ?_
    rintro v act v' ⟨hok, hrelay⟩ - hs
    exact ⟨hok.step hs, hrelay.step hok hs⟩
  exact hinv.2

theorem Conn.Finished.step (hok : ConnOk v) (hdone : LklDone v.conn v.lkl) (hs : ConnStep v act v')
    (hlife : v.life ≠ .absent) (h : v.conn.Finished) : v'.conn.Finished := by
  obtain ⟨hdead, hempty⟩ := finished_iff.mp h
  rcases hs.mono hok hdone with ⟨habsent, -⟩ | hmono
  · exact absurd habsent hlife
  · exact finished_iff.mpr ⟨hdead.mono hmono, fun sd =>
      hs.used_of_readEof hok (hdead sd).1 (hempty sd)⟩

theorem reach_finished (h : connMachine.Reach guard .absent v)
    (hlife : v.life = .unlinked ∨ v.life = .freed) : v.conn.Finished := by
  induction h with
  | refl => simp [ConnSys.absent] at hlife
  | @step v v' act hreach _ hs ih =>
    have hok := reach_connOk hreach
    have hkeep : v.life = .unlinked ∨ v.life = .freed → v'.conn.Finished := fun hlife =>
      (ih hlife).step hok (reach_relayOk hreach).done hs (by rcases hlife with h | h <;> simp [h])
    cases hs with
    | attach => simp at hlife
    | unlink hhost | destroy hhost =>
      have hhostOk := hok.host
      rw [hhost] at hhostOk
      exact hhostOk
    | _ => exact hkeep hlife

theorem ConnStep.life_ne_absent {v v' : ConnSys} {act : ConnAct} (hs : ConnStep v act v')
    (h : v.life ≠ .absent) : v'.life ≠ .absent := by
  cases hs <;> first | exact h | exact nofun

theorem closeReq_step (hok : ConnOk v) (hdone : LklDone v.conn v.lkl) (hs : ConnStep v act v')
    (h : v.life ≠ .absent ∧ v.conn.flag .closeReq = true) :
    v'.life ≠ .absent ∧ v'.conn.flag .closeReq = true := by
  refine ⟨hs.life_ne_absent h.1, ?_⟩
  rcases hs.mono hok hdone with ⟨hlife, -⟩ | hmono
  · exact absurd hlife h.1
  · exact hmono _ h.2

theorem ConnOk.not_commit_of_closeReq (hok : ConnOk v) (h : v.conn.flag .closeReq = true)
    (p : Span) (n : UInt64) : v.host ≠ .io (.rdCommit p n) ∧ v.host ≠ .io (.wrCommit p n) := by
  obtain ⟨hread, hwrite⟩ := hok.closeReq h
  have hhost := hok.host
  constructor
  · intro hpc
    rw [hpc] at hhost
    have hopen := hhost.1
    simp [hread] at hopen
  · intro hpc
    rw [hpc] at hhost
    have hopen := hhost.1
    simp [hwrite] at hopen

end Runs

section Proxy

variable {guard : ProxySys → ProxyAct → Prop} {s s' : ProxySys} {c : ℕ}

theorem ProxySys.reach_relayOk (h : proxyMachine.Reach guard .started s) (c : ℕ) :
    RelayOk (s.view c) := by
  have hview : connMachine.Reach (fun _ _ => True) .absent (s.view c) :=
    ProxySys.reach_view (fun _ _ _ _ _ _ _ => trivial) h c
  exact Proxy.reach_relayOk hview

theorem ProxySys.not_commit_of_force (h : proxyMachine.Reach guard .started s) {st : ForceClose}
    (hforce : s.lkl.atConn c = .force st) (h' : proxyMachine.Reach guard s s') (p : Span)
    (n : UInt64) :
    s'.host.atConn c ≠ .io (.rdCommit p n) ∧ s'.host.atConn c ≠ .io (.wrCommit p n) := by
  have hok := (reach_ok h).2 c
  have hlkl : LklOk (s.view c).conn (.force st) := by
    rw [← hforce]
    exact hok.lkl
  have hlife : (s.view c).life ≠ .absent := by
    intro habsent
    have hout : s.lkl.atConn c = .out := (hok.absent habsent).1
    simp [hforce] at hout
  have hclose : (s'.view c).life ≠ .absent ∧ (s'.view c).conn.flag .closeReq = true := by
    induction h' with
    | refl => exact ⟨hlife, hlkl⟩
    | @step s₁ s₂ l hreach hguard hs ih =>
      have hreach₁ := h.trans hreach
      rcases conn_step hreach₁ hs c with heq | ⟨act, hstep⟩
      · rw [heq]
        exact ih
      · exact closeReq_step ((reach_ok hreach₁).2 c) (reach_relayOk hreach₁ c).done hstep ih
  exact ((reach_ok (h.trans h')).2 c).not_commit_of_closeReq hclose.2 p n

/-- A ring is a bounded queue for one producer and one consumer, however their steps interleave: the
spans of the two are inside the buffer and apart, and what comes out is what went in. The proxy uses
its rings in this way until all four flags of a connection are set; the host commits nothing to a
ring that a forced close drains. -/
theorem ring_refines_fifo :
    (∀ r, spscMachine.Reach (fun _ _ => True) .new r →
      (r.ring.used ≤ ringCap.toNat ∧ r.fifo.queue.length = r.ring.used) ∧
      ((∀ p, r.prodSpan = some p → p.off.toNat + p.len.toNat ≤ ringCap.toNat) ∧
        (∀ q, r.consSpan = some q → q.off.toNat + q.len.toNat ≤ ringCap.toNat) ∧
        ∀ p q, r.prodSpan = some p → r.consSpan = some q → ∀ i, ¬ (p.Covers i ∧ q.Covers i)) ∧
      r.consumed <+: r.produced ∧
      (Fifo.machine UInt8 ringCap.toNat).Reach (fun _ _ => True) .empty r.fifo) ∧
    ∀ s, proxyMachine.Reach (fun _ _ => True) .started s → ∀ c,
      (∀ sd, (s.conn c).used sd ≤ ringCap.toNat ∧
        ∃ r, spscMachine.Reach (fun _ _ => True) .new r ∧
          ((s.conn c).ring sd = r.ring ∨ (s.conn c).Dead)) ∧
      ∀ st, s.lkl.atConn c = .force st → ∀ s', proxyMachine.Reach (fun _ _ => True) s s' →
        ∀ p n, s'.host.atConn c ≠ .io (.rdCommit p n) ∧ s'.host.atConn c ≠ .io (.wrCommit p n) := by
  constructor
  · intro r h
    have hok := reach_spscOk h
    have hqueue : r.fifo.queue.length = r.ring.used := by
      rw [hok.used_eq]
      exact length_drop
    refine ⟨⟨hqueue ▸ hok.fifo.bounded, hqueue⟩, ⟨?_, ?_, ?_⟩, ?_, reach_fifo h⟩
    · exact fun p hp => (hok.prodSpan_at hp).1.inside
    · exact fun q hq => (hok.consSpan_at hq).1.inside
    · intro p q hp hq i
      obtain ⟨hpAt, hfree⟩ := hok.prodSpan_at hp
      obtain ⟨hqAt, hfilled⟩ := hok.consSpan_at hq
      exact hpAt.disjoint hqAt hfilled hfree i
    · exact ⟨_, hok.fifo.stream.symm⟩
  · intro s h c
    refine ⟨fun sd => ⟨((ProxySys.reach_ok h).2 c).fits sd, ?_⟩, ?_⟩
    · obtain ⟨t, ht⟩ := (ProxySys.reach_relayOk h c).relays sd.other
      rw [← sd.other_other]
      exact ⟨t, ht.reach, ht.ring⟩
    · exact fun st hst s' h' p n => ProxySys.not_commit_of_force h hst h' p n

end Proxy

end Anyfs.Proxy
