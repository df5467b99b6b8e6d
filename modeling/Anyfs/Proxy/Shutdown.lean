import Anyfs.Proxy.Relay

/-!
# Ends and shutdowns

A destination is shut down for writing once its source has ended and everything read from the source
was written. The code loads `read_eof` first, and only a thread that has not set it fills the ring,
so the ring that is then found empty stays empty (`ShutOk`).
-/

namespace Anyfs.Proxy

open Option ProxySys

/-! ### The end of a source -/

/-- The thread of a side has seen the end of its socket and is about to set `read_eof`. -/
def ConnSys.Ending (v : ConnSys) : Side → Prop
  | .lkl => v.lkl = .errEof ∨ v.lkl = .io .rdEof
  | .host =>
    v.host = .err .hostReadEof ∨ v.host = .io .rdEof ∨ (∃ p, v.host = .io (.wrFail p)) ∨
      v.host = .io .wrFailEof

/-- In a step the end of a socket is seen: a read returns the end or an error, poll has reported an
error event, or a write of `host_io` failed because the peer is gone. -/
def EndSeen (v v' : ConnSys) : Side → Prop
  | .lkl =>
    (∃ p, v.lkl = .io (.rdCall p) ∧ v'.lkl = .io .rdEof) ∨ (v.lkl = .inSet ∧ v'.lkl = .errEof)
  | .host =>
    (∃ p, v.host = .io (.rdCall p) ∧ v'.host = .io .rdEof) ∨
      (v.host = .listed ∧ v'.host = .err .hostReadEof) ∨
      ∃ p, v.host = .io (.wrCall p) ∧ v'.host = .io (.wrFail p)

section Io

variable {sd : Side} {c c' : Conn} {pc : IoPc} {a : IoAct}

theorem io_ending {o : Option IoPc} (h : io sd c pc a = some (c', o)) :
    (o = some .rdEof → ∃ p, pc = .rdCall p) ∧ (∀ p, o = some (.wrFail p) → pc = .wrCall p) ∧
      (o = some .wrFailEof → ∃ p, pc = .wrFail p) := by
  cases pc <;> cases a <;> simp only [io, reduceCtorEq, ite_none_right_eq_some] at h
  case rdCall.data | wrCall.wrote =>
    obtain ⟨-, h⟩ := h
    cases h
    simp
  case wrFail.go =>
    cases h
    cases sd <;> simp [afterWrFail]
  all_goals
    cases h
    first | (split_ifs <;> simp) | simp

theorem io_store {o : Option IoPc} (h : io sd c pc a = some (c', o)) :
    (c'.flag (.readEof sd) = true →
      c.flag (.readEof sd) = true ∨ pc = .rdEof ∨ pc = .wrFailEof) ∧
    (c'.flag (.wrShut sd) = true →
      c.flag (.wrShut sd) = true ∨ (∃ p, pc = .wrFail p) ∨ pc = .shutStore) ∧
    (c'.flag .closeReq = true → c.flag .closeReq = true ∨ pc = .wrFailReq) := by
  cases pc <;> cases a <;> simp only [io, reduceCtorEq, ite_none_right_eq_some] at h
  case rdCall.data | wrCall.wrote =>
    obtain ⟨-, h⟩ := h
    cases h
    exact ⟨.inl, .inl, .inl⟩
  case rdEof.go | wrFailEof.go | wrFail.go | shutStore.go | wrFailReq.go =>
    cases h
    simp
  all_goals
    cases h
    exact ⟨.inl, .inl, .inl⟩

end Io

section Ends

variable {v v' : ConnSys} {act : ConnAct} {sd : Side} {seen : Prop} {a : IoAct} {c' : Conn}

theorem lklCode_ending {c : Conn} {w w' : LklAt} (h : lklCode c w a = some (c', w'))
    (hend : w' = .errEof ∨ w' = .io .rdEof) : ∃ p, w = .io (.rdCall p) ∧ w' = .io .rdEof := by
  cases lklCode_cases h with
  | connectFail st => cases st <;> simp [ConnectFail.next] at hend
  | @io pc a c' o hio =>
    cases o with
    | none => simp at hend
    | some pc' =>
      obtain rfl : pc' = .rdEof := by simpa using hend
      obtain ⟨p, rfl⟩ := (io_ending hio).1 rfl
      exact ⟨p, rfl, rfl⟩
  | _ => simp at hend

theorem hostCode_ending {c : Conn} {w w' : HostAt}
    (h : hostCode c w a = some (c', w'))
    (hend : w' = .err .hostReadEof ∨ w' = .io .rdEof ∨ (∃ p, w' = .io (.wrFail p)) ∨
      w' = .io .wrFailEof) :
    (∃ p, w = .io (.rdCall p) ∧ w' = .io .rdEof) ∨
      (∃ p, w = .io (.wrCall p) ∧ w' = .io (.wrFail p)) ∨ ∃ p, w = .io (.wrFail p) := by
  cases hostCode_cases h with
  | @done st => cases st <;> simp [Done.next] at hend
  | @io pc a c' o hio =>
    obtain ⟨hread, hfail, hfailEof⟩ := io_ending hio
    cases o with
    | none => simp at hend
    | some pc' =>
      rcases hend with hend | hend | ⟨p, hend⟩ | hend
      · cases hend
      · cases hend
        obtain ⟨p, rfl⟩ := hread rfl
        exact .inl ⟨p, rfl, rfl⟩
      · cases hend
        obtain rfl := hfail p rfl
        exact .inr (.inl ⟨p, rfl, rfl⟩)
      · cases hend
        obtain ⟨p, rfl⟩ := hfailEof rfl
        exact .inr (.inr ⟨p, rfl⟩)
  | _ => simp at hend

theorem ending_step (hs : ConnStep v act v') (h : v'.Ending sd) :
    v.Ending sd ∨ EndSeen v v' sd := by
  cases hs with
  | lklStart err hlkl =>
    cases sd with
    | host => exact .inl h
    | lkl =>
      cases err with
      | false => simp [ConnSys.Ending] at h
      | true => exact .inr (.inr ⟨hlkl, rfl⟩)
  | lklCode hcode =>
    cases sd with
    | host => exact .inl h
    | lkl => exact .inr (.inl (lklCode_ending hcode h))
  | hostErr hhost =>
    cases sd with
    | host => exact .inr (.inr (.inl ⟨hhost, rfl⟩))
    | lkl => exact .inl h
  | hostStart hhost =>
    cases sd with
    | host =>
      dsimp only [ConnSys.Ending] at h
      split_ifs at h <;> simp at h
    | lkl => exact .inl h
  | hostCode hcode =>
    cases sd with
    | host =>
      rcases hostCode_ending hcode h with hread | hfail | ⟨p, hp⟩
      · exact .inr (.inl hread)
      · exact .inr (.inr (.inr hfail))
      · exact .inl (.inr (.inr (.inl ⟨p, hp⟩)))
    | lkl => exact .inl h
  | _ => cases sd <;> first | exact .inl h | simp [ConnSys.Ending] at h

/-- What is known when `read_eof` of a side is set or about to be set. -/
structure EndOk (sd : Side) (v : ConnSys) (seen : Prop) : Prop where
  ending : v.Ending sd → seen
  /-- Without an end, `read_eof` is only set together with `wr_shut` of the other side. -/
  eof : v.conn.flag (.readEof sd) = true →
    seen ∨ v.conn.flag (.wrShut sd.other) = true ∨ ∃ st, v.lkl = .connectFail st

theorem Conn.flag_of_store {c : Conn} {f g : Flag} (h : (c.store f).flag g = true) :
    g = f ∨ c.flag g = true := by
  simpa using h

theorem lklCode_readEof {w : LklAt} (hok : ConnOk v)
    (hcode : lklCode v.conn v.lkl a = some (c', w)) (h : c'.flag (.readEof sd) = true) :
    v.conn.flag (.readEof sd) = true ∨ v.Ending sd ∨ (∃ st, w = .connectFail st) ∨
      (sd = .lkl ∧ ∃ st, v.lkl = .force st) := by
  have hlkl := hok.lkl
  obtain ⟨c, life, w₀, host⟩ := v
  cases lklCode_cases hcode with
  | connectFail st =>
    cases st with
    | lklWrShut => exact .inl ((Conn.flag_of_store h).resolve_left nofun)
    | _ => exact .inr (.inr (.inl ⟨_, rfl⟩))
  | forceEof =>
    rcases Conn.flag_of_store h with heq | h
    · cases heq
      exact .inr (.inr (.inr ⟨rfl, _, rfl⟩))
    · exact .inl h
  | errEof =>
    rcases Conn.flag_of_store h with heq | h
    · cases heq
      exact .inr (.inl (.inl rfl))
    · exact .inl h
  | forceShut | errShut => exact .inl ((Conn.flag_of_store h).resolve_left nofun)
  | io hio =>
    cases sd with
    | host => exact .inl ((io_guar hlkl hio).readEof.symm.trans h)
    | lkl =>
      rcases (io_store hio).1 h with h | rfl | rfl
      · exact .inl h
      · exact .inr (.inl (.inr rfl))
      · cases hlkl.1
  | forceFd | forceH2l | forceL2h => exact .inl h

theorem hostCode_readEof {w : HostAt} (hok : ConnOk v)
    (hcode : hostCode v.conn v.host a = some (c', w)) (h : c'.flag (.readEof sd) = true) :
    v.conn.flag (.readEof sd) = true ∨ v.Ending sd := by
  have hhost := hok.host
  obtain ⟨c, life, lkl, w₀⟩ := v
  cases hostCode_cases hcode with
  | errEof =>
    rcases Conn.flag_of_store h with heq | h
    · cases heq
      exact .inr (.inl rfl)
    · exact .inl h
  | errShut | errReq => exact .inl ((Conn.flag_of_store h).resolve_left nofun)
  | io hio =>
    cases sd with
    | lkl => exact .inl ((io_guar hhost hio).readEof.symm.trans h)
    | host =>
      rcases (io_store hio).1 h with h | rfl | rfl
      · exact .inl h
      · exact .inr (.inr (.inl rfl))
      · exact .inr (.inr (.inr (.inr rfl)))
  | errSkip | errAsk | done | undone => exact .inl h

theorem readEof_step (hok : ConnOk v) (hs : ConnStep v act v')
    (h : v'.conn.flag (.readEof sd) = true) :
    v.conn.flag (.readEof sd) = true ∨ v.Ending sd ∨ (∃ st, v'.lkl = .connectFail st) ∨
      (sd = .lkl ∧ ∃ st, v.lkl = .force st) := by
  cases hs with
  | attach => cases h
  | lklCode hcode => exact lklCode_readEof hok hcode h
  | hostCode hcode => exact (hostCode_readEof hok hcode h).imp_right .inl
  | _ => exact .inl h

theorem connectFail_step {st : ConnectFail} (hdone : LklDone v.conn v.lkl) (hs : ConnStep v act v')
    (h : v.lkl = .connectFail st) : v'.conn.Dead ∨ ∃ st', v'.lkl = .connectFail st' := by
  cases hs with
  | attach hlife => exact .inr ⟨st, h⟩
  | @lklCode a c' w hcode =>
    rw [h] at hcode hdone
    cases lklCode_cases hcode
    cases st with
    | lklWrShut =>
      refine .inl ?_
      rintro (_ | _)
      · exact ⟨by simp [hdone.1.1], by simp [hdone.1.2]⟩
      · exact ⟨by simp [hdone.2], by simp [ConnectFail.flag]⟩
    | _ => exact .inr ⟨_, rfl⟩
  | lklList _ hlkl | lklConnect _ hlkl | lklForce _ hlkl | lklSnap _ hlkl | lklStart _ hlkl =>
    simp [h] at hlkl
  | lklConnectFail hlkl | lklDrop hlkl => simp [h] at hlkl
  | _ => exact .inr ⟨st, h⟩

theorem EndOk.step (hok : ConnOk v) (hdone : LklDone v.conn v.lkl) (h : EndOk sd v seen)
    (hs : ConnStep v act v') : EndOk sd v' (seen ∨ EndSeen v v' sd) := by
  refine ⟨fun hend => ?_, fun heof => ?_⟩
  · exact (ending_step hs hend).imp_left h.ending
  · rcases hs.mono hok hdone with ⟨-, rfl⟩ | hmono
    · cases heof
    · rcases readEof_step hok hs heof with heof | hend | hfail | ⟨rfl, st, hst⟩
      · rcases h.eof heof with hseen | hshut | ⟨st, hst⟩
        · exact .inl (.inl hseen)
        · exact .inr (.inl (hmono _ hshut))
        · exact .inr ((connectFail_step hdone hs hst).imp_left fun hdead => (hdead sd.other).2)
      · exact .inl (.inl (h.ending hend))
      · exact .inr (.inr hfail)
      · -- a forced close is asked for by a host that has stopped writing
        have hlkl := hok.lkl
        rw [hst] at hlkl
        exact .inr (.inl (hmono _ (hok.closeReq hlkl).2))

end Ends

/-! ### Shutting down a destination -/

/-- When a socket was shut down for writing, or is about to be, the end of the source was seen, and
everything read from it was written. -/
structure ShutOk (sd : Side) (v : ConnSys) (seen : Prop) : Prop where
  eof : v.ioAt sd = some .halfEmpty ∨ v.ioAt sd = some .shut →
    v.conn.flag (.readEof sd.other) = true
  empty : v.ioAt sd = some .shut → v.conn.used sd.other = 0
  shut : v.conn.shut sd = true →
    (v.conn.flag (.readEof sd.other) = true ∧ seen) ∧
      v.conn.sent sd = v.conn.received sd.other ∧
      (v.conn.flag (.wrShut sd) = true ∨ v.ioAt sd = some .shutStore)

section Shut

variable {v v' : ConnSys} {act : ConnAct} {sd : Side} {seen : Prop} {pc : IoPc} {a : IoAct}
  {o : Option IoPc} {c c' : Conn}

theorem io_half (h : io sd c pc a = some (c', o)) :
    (o = some .halfEmpty → c.flag (.readEof sd.other) = true) ∧
      (o = some .shut → pc = .halfEmpty ∧ c'.used sd.other = 0) ∧
      (pc = .shut → o = some .shutStore ∧ c' = c.shutdown sd) ∧
      (o = some .shutStore → pc = .shut) ∧
      (pc = .shutStore → c' = c.store (.wrShut sd)) := by
  cases pc <;> cases a <;> simp only [io, reduceCtorEq, ite_none_right_eq_some] at h
  case rdCall.data | wrCall.wrote =>
    obtain ⟨-, h⟩ := h
    cases h
    simp
  case wrFail.go =>
    cases h
    cases sd <;> simp [afterWrFail]
  case halfEmpty.go =>
    cases h
    split_ifs with hempty
    · have hused : c.used sd.other = 0 := Ring.empty_iff.mp hempty
      simpa using hused
    · simp
  case halfEof.go =>
    cases h
    split_ifs with heof
    · simpa using heof
    · simp
  all_goals
    cases h
    first | (split_ifs <;> simp) | simp

theorem ConnOk.not_reads (hok : ConnOk v) (heof : v.conn.flag (.readEof sd) = true) :
    ∀ pc ∈ v.ioAt sd, pc.Reads = false := by
  intro pc hpc
  have hio := hok.ioOk hpc
  cases pc with
  | rdCall | rdCommit => simp [IoOk, heof] at hio
  | _ => rfl

theorem EndOk.seen_of_shut (hok : ConnOk v) (hdone : LklDone v.conn v.lkl)
    (h : EndOk sd.other v seen) (hpc : v.ioAt sd = some .shut)
    (heof : v.conn.flag (.readEof sd.other) = true) : seen := by
  have hopen : v.conn.flag (.wrShut sd) = false := hok.ioOk hpc
  rcases h.eof heof with hseen | hshut | ⟨st, hst⟩
  · exact hseen
  · simp [hopen] at hshut
  · -- a connection that could not be made does not get here
    cases sd with
    | lkl => simp [ConnSys.ioAt, hst, LklAt.ioPc] at hpc
    | host =>
      have hlkl := hok.lkl
      rw [hst] at hlkl hdone
      rcases hlkl.2 with rfl | hread
      · have hshut : v.conn.flag (.wrShut .host) = true := hdone.1.2
        simp [hopen] at hshut
      · simp [Side.other, hread] at heof

theorem ShutOk.destination (hok : ConnOk v) (hrelay : RelayOk v) (hend : EndOk sd.other v seen)
    (h : ShutOk sd v seen) (hpc : v.ioAt sd = some pc)
    (hio : io sd v.conn pc a = some (v'.conn, o)) (ho : v'.ioAt sd = o) : ShutOk sd v' seen := by
  have hguar := io_guar (hok.ioOk hpc) hio
  have hsocket := io_socket hio
  obtain ⟨-, hsent, hshut⟩ := io_calls hio
  obtain ⟨hhalf, hempty, hcall, -, hstore⟩ := io_half hio
  refine ⟨?_, ?_, ?_⟩
  · rintro (hpc' | hpc')
    · exact hguar.mono _ (hhalf (ho ▸ hpc'))
    · obtain ⟨rfl, -⟩ := hempty (ho ▸ hpc')
      exact hguar.mono _ (h.eof (.inl hpc))
  · exact fun hpc' => (hempty (ho ▸ hpc')).2
  · intro hshut'
    by_cases hp : pc = .shut
    · -- the shutdown itself
      subst hp
      obtain ⟨rfl, hconn⟩ := hcall rfl
      have heof := h.eof (.inr hpc)
      have hopen : v.conn.flag (.wrShut sd) = false := hok.ioOk hpc
      obtain ⟨t, ht⟩ := hrelay.relays sd
      have heq : v.conn.sent sd = v.conn.received sd.other :=
        ht.eq_of_used_eq_zero (Conn.not_dead_of_wrShut hopen) (h.empty hpc) (hok.not_reads heof)
          (by simp [hpc, IoPc.Writes])
      rw [hconn]
      exact ⟨⟨heof, hend.seen_of_shut hok hrelay.done hpc heof⟩, heq, .inr ho⟩
    · obtain ⟨⟨heof, hseen⟩, heq, hstop⟩ := h.shut ((hshut.resolve_right hp) ▸ hshut')
      refine ⟨⟨hguar.mono _ heof, hseen⟩, ?_, ?_⟩
      · rcases hsent with hsent | ⟨p, rfl⟩
        · rw [hsent, hsocket.1, heq]
        · -- it has stopped writing
          have hopen := (hok.ioOk hpc).1
          rcases hstop with hstop | hstop
          · simp [hopen] at hstop
          · simp [hpc] at hstop
      · rcases hstop with hstop | hstop
        · exact .inl (hguar.mono _ hstop)
        · obtain rfl : pc = .shutStore := by simpa [hpc] using hstop
          rw [hstore rfl]
          exact .inl (by simp)

theorem ShutOk.source (hok : ConnOk v) (h : ShutOk sd v seen) (hpc : v.ioAt sd.other = some pc)
    (hio : io sd.other v.conn pc a = some (v'.conn, o)) (hother : v'.ioAt sd = v.ioAt sd) :
    ShutOk sd v' seen := by
  have hguar := io_guar (hok.ioOk hpc) hio
  have hsocket := io_socket hio
  rw [Side.other_other] at hsocket
  refine ⟨?_, ?_, ?_⟩
  · rw [hother]
    exact fun hpc' => hguar.mono _ (h.eof hpc')
  · rw [hother]
    intro hpc'
    rw [hguar.filled (h.eof (.inr hpc'))]
    exact h.empty hpc'
  · rw [hsocket.2.2, hsocket.2.1, hother]
    intro hshut
    obtain ⟨⟨heof, hseen⟩, heq, hstop⟩ := h.shut hshut
    refine ⟨⟨hguar.mono _ heof, hseen⟩, ?_, hstop.imp_left (hguar.mono _)⟩
    rcases (io_calls hio).1 with hrecv | ⟨p, rfl⟩
    · rw [hrecv, heq]
    · have hread := (hok.ioOk hpc).1
      simp [hread] at heof

theorem ShutOk.step (hok : ConnOk v) (hrelay : RelayOk v) (hend : EndOk sd.other v seen)
    (h : ShutOk sd v seen) (hs : ConnStep v act v') : ShutOk sd v' seen := by
  have hok' := hok.step hs
  cases hs.moves hok hrelay.done with
  | attach _ hfresh =>
    subst hfresh
    exact ⟨by simp, by simp, by rintro ⟨⟩⟩
  | io sd' hpc hio ho hother =>
    by_cases hsd : sd' = sd
    · subst hsd
      exact h.destination hok hrelay hend hpc hio ho
    · obtain rfl : sd' = sd.other := by cases sd <;> cases sd' <;> simp_all [Side.other]
      rw [Side.other_other] at hother
      exact h.source hok hpc hio hother
  | quiet hrecv hsent hshut hring hmono hio =>
    -- a thread that starts to move bytes is not at the shutdown
    have hback : ∀ pc, pc ≠ .rd → v'.ioAt sd = some pc → v.ioAt sd = some pc := by
      intro pc hpc hpc'
      rcases hio sd with heq | ⟨-, hrd⟩
      · rwa [← heq]
      · rw [hrd] at hpc'
        exact absurd (some.inj hpc').symm hpc
    refine ⟨?_, ?_, ?_⟩
    · exact fun hpc' => hmono _ (h.eof (hpc'.imp (hback _ (by rintro ⟨⟩)) (hback _ (by rintro ⟨⟩))))
    · intro hpc'
      rcases hring with heq | hdead
      · rw [Conn.used, heq]
        exact h.empty (hback _ (by rintro ⟨⟩) hpc')
      · exact absurd hdead (Conn.not_dead_of_wrShut (hok'.ioOk hpc'))
    · rw [hshut, hsent, hrecv]
      intro hshut'
      obtain ⟨⟨heof, hseen⟩, heq, hstop⟩ := h.shut hshut'
      refine ⟨⟨hmono _ heof, hseen⟩, heq, ?_⟩
      rcases hstop with hstop | hstop
      · exact .inl (hmono _ hstop)
      · rcases hio sd with heq' | ⟨hnone, -⟩
        · exact .inr (heq'.trans hstop)
        · simp [hnone] at hstop

end Shut

/-! ### Every run -/

theorem EndOk.mono {sd : Side} {v : ConnSys} {seen seen' : Prop} (h : EndOk sd v seen)
    (hseen : seen → seen') : EndOk sd v seen' :=
  ⟨fun hend => hseen (h.ending hend), fun heof => (h.eof heof).imp_left hseen⟩

theorem ShutOk.mono {sd : Side} {v : ConnSys} {seen seen' : Prop} (h : ShutOk sd v seen)
    (hseen : seen → seen') : ShutOk sd v seen' :=
  ⟨h.eof, h.empty, fun hshut => (h.shut hshut).imp_left fun heof => heof.imp_right hseen⟩

def noteEnds (s s' : ProxySys) (seen : ℕ → Side → Prop) (c : ℕ) (sd : Side) : Prop :=
  seen c sd ∨ EndSeen (s.view c) (s'.view c) sd

def endsMachine : Machine (ProxySys × (ℕ → Side → Prop)) ProxyAct := proxyMachine.record noteEnds

section Runs

variable {guard : ProxySys × (ℕ → Side → Prop) → ProxyAct → Prop}
  {r : ProxySys × (ℕ → Side → Prop)}

theorem shutOk_started (sd : Side) (c : ℕ) (seen : Prop) : ShutOk sd (started.view c) seen := by
  cases sd <;> exact ⟨nofun, nofun, nofun⟩

theorem reach_shutOk (h : endsMachine.Reach guard (.started, fun _ _ => False) r) (c : ℕ) :
    (∀ sd, EndOk sd (r.1.view c) (r.2 c sd)) ∧
      ∀ sd, ShutOk sd (r.1.view c) (r.2 c sd.other) := by
  induction h with
  | refl =>
    constructor
    · rintro (_ | _)
      · exact ⟨by simp [ConnSys.Ending, view, started, HostPc.atConn], by rintro ⟨⟩⟩
      · exact ⟨by simp [ConnSys.Ending, view, started, LklPc.atConn], by rintro ⟨⟩⟩
    · exact fun sd => shutOk_started sd c _
  | @step r r' l hreach hguard hs ih =>
    obtain ⟨hstep, hnote⟩ := hs
    have hproxy : proxyMachine.Reach (fun _ _ => True) .started r.1 :=
      hreach.of_record fun _ _ _ => trivial
    have hok := (reach_ok hproxy).2 c
    have hrelay := ProxySys.reach_relayOk hproxy c
    have hseen : ∀ sd, r'.2 c sd = (r.2 c sd ∨ EndSeen (r.1.view c) (r'.1.view c) sd) :=
      fun sd => by
      rw [hnote]
      rfl
    rcases conn_step hproxy hstep c with heq | ⟨act, hconn⟩
    · rw [heq]
      refine ⟨fun sd => ?_, fun sd => ?_⟩
      · rw [hseen]
        exact (ih.1 sd).mono .inl
      · rw [hseen]
        exact (ih.2 sd).mono .inl
    · refine ⟨fun sd => ?_, fun sd => ?_⟩
      · rw [hseen]
        exact (ih.1 sd).step hok hrelay.done hconn
      · rw [hseen]
        exact ((ih.2 sd).step hok hrelay (ih.1 sd.other) hconn).mono .inl

theorem ProxySys.exists_shutOk {guard : ProxySys → ProxyAct → Prop} {s : ProxySys}
    (h : proxyMachine.Reach guard .started s) (c : ℕ) (sd : Side) :
    ∃ seen, ShutOk sd (s.view c) seen := by
  obtain ⟨seen, hreach⟩ : ∃ seen, endsMachine.Reach (fun r l => guard r.1 l)
      (.started, fun _ _ => False) (s, seen) := h.exists_record _
  exact ⟨_, (reach_shutOk hreach c).2 sd⟩

/-- In each direction, what was written to the destination is at all times a prefix of what was
read from the source, and the destination was shut down for writing only if the end of the source
was seen and everything read from it was written. -/
theorem sent_isPrefix_received
    (h : endsMachine.Reach (fun _ _ => True) (.started, fun _ _ => False) r) (c : ℕ) (sd : Side) :
    (r.1.conn c).sent sd <+: (r.1.conn c).received sd.other ∧
      ((r.1.conn c).shut sd = true →
        r.2 c sd.other ∧ (r.1.conn c).sent sd = (r.1.conn c).received sd.other) := by
  have hproxy : proxyMachine.Reach (fun _ _ => True) .started r.1 :=
    h.of_record fun _ _ _ => trivial
  obtain ⟨t, ht⟩ := (ProxySys.reach_relayOk hproxy c).relays sd
  refine ⟨ht.isPrefix, fun hshut => ?_⟩
  obtain ⟨⟨-, hseen⟩, heq, -⟩ := ((reach_shutOk h c).2 sd).shut hshut
  exact ⟨hseen, heq⟩

end Runs

def hostReadRound : List ProxyAct :=
  goSteps .host 2 ++ [.step .host (.pollOk false fun _ => false)] ++ goSteps .host 6 ++
    [.step .host (.io (.data [7]))] ++ goSteps .host 9

def lklWriteRound : List ProxyAct :=
  [.step .lkl (.pollOk false fun _ => false)] ++ goSteps .lkl 3 ++ [.step .lkl (.io .again)] ++
    goSteps .lkl 2 ++ [.step .lkl (.io (.wrote 1))] ++ goSteps .lkl 6

/-- A client sends a byte and half-closes; the byte is written to the server before the shutdown. -/
theorem sent_isPrefix_received_of_client :
    ∃ r, endsMachine.Reach (fun _ _ => True) (.started, fun _ _ => False) r ∧
      (r.1.conn 0).shut .lkl = true ∧ (r.1.conn 0).received .host = [7] ∧ r.2 0 .host ∧
      (r.1.conn 0).sent .lkl = (r.1.conn 0).received .host := by
  have htrace : (Machine.run step (fun _ _ => True)
      (acceptRound ++ connectRound ++ hostReadRound ++ hostEofRound ++ lklWriteRound)
      .started).any (fun s => decide
        ((s.conn 0).shut .lkl = true ∧ (s.conn 0).received .host = [7])) = true := by
    decide +kernel
  obtain ⟨s, hrun, hshut, hrecv⟩ := Machine.exists_of_run htrace
  have hproxy : proxyMachine.Reach (fun _ _ => True) .started s := Machine.Reach.of_run hrun
  obtain ⟨seen, hreach⟩ : ∃ seen, endsMachine.Reach (fun _ _ => True)
      (.started, fun _ _ => False) (s, seen) := hproxy.exists_record _
  exact ⟨(s, seen), hreach, hshut, hrecv, (sent_isPrefix_received hreach 0 .lkl).2 hshut⟩

end Anyfs.Proxy
