import Anyfs.Proxy.Progress
import Anyfs.Proxy.Shutdown

/-!
# Connections that cannot be freed

A connection whose flags are all set is stuck in its slot if there is something left in a ring and
no forced close is asked for. This comes about in four ways: the LKL side stops writing with bytes
in `h2l`; the host goes on to fill `h2l` after that; the host side stops writing with bytes in `l2h`
when LKL has seen the end of its input; or LKL sees this end just before the host looks whether it
has.
-/

namespace Anyfs.Proxy

open Option

/-! ### Steps that leave bytes behind -/

/-- The step leaves a way to empty the rings. -/
def ConnSys.Recoverable (v : ConnSys) : Side → Prop
  | .lkl =>
    match v.lkl with
    | .errShut | .io (.wrFail _) =>
      v.conn.flag (.wrShut .lkl) = true ∨ v.conn.used .host = 0 ∨ v.conn.flag .closeReq = true
    | .errEof | .io .rdEof =>
      v.conn.flag (.readEof .lkl) = true ∨ v.conn.used .lkl = 0 ∨
        v.conn.flag (.wrShut .host) = false ∨ v.conn.flag .closeReq = true
    | _ => True
  | .host =>
    match v.host with
    | .err .hostWrShut | .io (.wrFail _) =>
      v.conn.flag (.wrShut .host) = true ∨ v.conn.used .lkl = 0 ∨
        v.conn.flag (.readEof .lkl) = false
    | .io (.rdCommit _ _) => v.conn.flag (.wrShut .lkl) = false
    | _ => True

open ConnSys

instance (v : ConnSys) (sd : Side) : Decidable (v.Recoverable sd) := by
  unfold Recoverable
  split
  · split <;> infer_instance
  · split <;> infer_instance

def LklAt.Drains : LklAt → Side → Bool
  | .force .l2h, .host => false
  | .force _, _ => true
  | _, _ => false

def ConnSys.Asks (v : ConnSys) : Prop :=
  match v.host with
  | .err .check | .io .wrFailEof | .io .wrFailCheck => v.conn.flag (.readEof .lkl) = false
  | .err .closeReq | .io .wrFailReq => True
  | _ => False

/-- What is known of the rings besides. -/
structure DrainOk (v : ConnSys) : Prop where
  cset : v.lkl.InCset → v.conn.lklFd ≠ none
  forced : v.host.InIo → v.conn.lklFd ≠ none ∨ v.conn.flag .closeReq = true
  /-- A connection that LKL does not have has empty rings. -/
  unmade : v.conn.lklFd = none → ∀ sd, v.conn.used sd = 0 ∨ v.lkl.Drains sd = true
  store : ∀ sd, v.ioAt sd = some .shutStore →
    v.conn.flag (.readEof sd.other) = true ∧ v.conn.used sd.other = 0
  h2l : v.conn.flag (.wrShut .lkl) = true → v.conn.used .host = 0 ∨ v.conn.flag .closeReq = true
  l2h : v.conn.flag (.wrShut .host) = true →
    (v.conn.used .lkl = 0 ∧
        (v.conn.flag (.readEof .lkl) = true ∨ ∃ st, v.lkl = .connectFail st)) ∨
      v.conn.flag .closeReq = true ∨ v.Asks

attribute [local simp] Recoverable

section Step

variable {v v' : ConnSys} {act : ConnAct} {c c' : Conn} {a : IoAct}

/-! ### The steps keep it -/

theorem drainOk_new (l : Life) : DrainOk ⟨.new, l, .out, .out⟩ where
  cset := nofun
  forced := nofun
  unmade _ sd := .inl (Conn.used_new sd)
  store sd h := by cases sd <;> cases h
  h2l := nofun
  l2h := nofun

theorem ConnStep.lklFd (hok : ConnOk v) (hs : ConnStep v act v') :
    v' = .fresh ∨ v'.conn.lklFd = v.conn.lklFd ∨ (v'.conn.lklFd ≠ none ∧ v'.lkl = .out) ∨
      v'.lkl = .force .lklReadEof := by
  cases hs with
  | attach hlife hhost =>
    refine .inl ?_
    rw [hhost, (hok.absent hlife).1]
    rfl
  | lklConnect fd hlkl => exact .inr (.inr (.inl ⟨nofun, rfl⟩))
  | lklCode hcode =>
    rcases lklFd_lklCode hok.lkl hcode with heq | hforce
    · exact .inr (.inl heq)
    · exact .inr (.inr (.inr hforce))
  | hostCode hcode => exact .inr (.inl (hok.hostGuar hcode).lklFd)
  | _ => exact .inr (.inl rfl)

variable {w w' : LklAt}

theorem inCset_of_lklCode (h : lklCode c w a = some (c', w')) (hcset : w'.InCset) : w.InCset := by
  cases lklCode_cases h with
  | connectFail st => cases st <;> exact hcset
  | errEof | errShut | io => trivial
  | _ => exact hcset

theorem DrainOk.cset_step (h : DrainOk v) (hok : ConnOk v) (hs : ConnStep v act v')
    (hcset : v'.lkl.InCset) : v'.conn.lklFd ≠ none := by
  rcases hs.lklFd hok with rfl | heq | ⟨hfd, -⟩ | hforce
  · exact hcset.elim
  · rw [heq]
    cases hs with
    | attach => exact h.cset hcset
    | lklList | lklConnect | lklConnectFail | lklForce | lklDrop => exact hcset.elim
    | lklSnap _ _ hfd => exact hfd
    | lklStart err hlkl => exact h.cset (by rw [hlkl]; trivial)
    | lklCode hcode => exact h.cset (inCset_of_lklCode hcode hcset)
    | _ => exact h.cset hcset
  · exact hfd
  · rw [hforce] at hcset
    exact hcset.elim

theorem DrainOk.forced_step (h : DrainOk v) (hok : ConnOk v) (hs : ConnStep v act v')
    (hmono : ∀ f, v.conn.flag f = true → v'.conn.flag f = true) (hio : v'.host.InIo) :
    v'.conn.lklFd ≠ none ∨ v'.conn.flag .closeReq = true := by
  rcases hs.lklFd hok with rfl | heq | ⟨hfd, -⟩ | hforce
  · exact hio.elim
  · have hold : v.host.InIo → v'.conn.lklFd ≠ none ∨ v'.conn.flag .closeReq = true := by
      rw [heq]
      exact fun hio => (h.forced hio).imp_right (hmono _)
    cases hs with
    | hostStart =>
      by_cases hfd : v.conn.lklFd = none
      · simp [hfd, HostAt.InIo] at hio
      · exact .inl hfd
    | hostList | hostUnlist | hostErr | hostSweep | hostCheck | unlink | destroy => exact hio.elim
    | hostCode hcode => exact hold (inIo_of_hostCode hcode hio)
    | _ => exact hold hio
  · exact .inl hfd
  · have hlkl := (hok.step hs).lkl
    rw [hforce] at hlkl
    exact .inr hlkl

theorem drains_lklCode {sd : Side} (h : lklCode c w a = some (c', w'))
    (hdrains : w.Drains sd = true) : c'.used sd = 0 ∨ w'.Drains sd = true := by
  cases lklCode_cases h with
  | forceFd | forceEof | forceShut => exact .inr rfl
  | forceH2l =>
    cases sd with
    | host => exact .inl (by simp)
    | lkl => exact .inr rfl
  | forceL2h =>
    cases sd with
    | host => cases hdrains
    | lkl => exact .inl (by simp)
  | connectFail | errEof | errShut | io => cases hdrains

theorem DrainOk.unmade_step (h : DrainOk v) (hok : ConnOk v) (hs : ConnStep v act v')
    (hfd : v'.conn.lklFd = none) (sd : Side) : v'.conn.used sd = 0 ∨ v'.lkl.Drains sd = true := by
  rcases hs.lklFd hok with rfl | heq | ⟨hfd', -⟩ | hforce
  · exact .inl (Conn.used_new sd)
  · have hfd := heq ▸ hfd
    rcases h.unmade hfd sd with hempty | hdrains
    · rcases hs.used hok sd with rfl | hle | ⟨-, p, n, hpc⟩
      · exact .inl (Conn.used_new sd)
      · exact .inl (by omega)
      · -- nobody moves bytes of such a connection
        cases sd with
        | lkl =>
          have hlkl := LklAt.ioPc_eq_some.mp hpc
          exact absurd hfd (h.cset (by rw [hlkl]; trivial))
        | host =>
          have hhost := HostAt.ioPc_eq_some.mp hpc
          have hreq := (h.forced (by rw [hhost]; trivial)).resolve_left (not_not.mpr hfd)
          exact absurd hhost (hok.not_commit_of_closeReq hreq p n).1
    · cases hs with
      | lklCode hcode => exact drains_lklCode hcode hdrains
      | lklList _ hlkl | lklForce _ hlkl | lklSnap _ hlkl =>
        rw [hlkl] at hdrains
        cases hdrains
      | lklConnect _ hlkl | lklConnectFail hlkl | lklDrop hlkl | lklStart _ hlkl =>
        rw [hlkl] at hdrains
        cases hdrains
      | _ => exact .inr hdrains
  · exact absurd hfd hfd'
  · rw [hforce]
    exact .inr rfl

theorem DrainOk.store_step (h : DrainOk v) (hok : ConnOk v) (hdone : LklDone v.conn v.lkl)
    (hshut : ∀ sd, ∃ seen, ShutOk sd v seen) (hs : ConnStep v act v') (sd : Side)
    (hpc' : v'.ioAt sd = some .shutStore) :
    v'.conn.flag (.readEof sd.other) = true ∧ v'.conn.used sd.other = 0 := by
  have hkeep : v.conn.flag (.readEof sd.other) = true ∧ v.conn.used sd.other = 0 →
      v'.conn.flag (.readEof sd.other) = true ∧ v'.conn.used sd.other = 0 := by
    rintro ⟨heof, hempty⟩
    refine ⟨?_, hs.used_of_readEof hok heof hempty⟩
    rcases hs.mono hok hdone with ⟨-, rfl⟩ | hmono
    · simp at hpc'
    · exact hmono _ heof
  refine hkeep ?_
  cases hs.moves hok hdone with
  | attach _ hfresh =>
    rw [hfresh] at hpc'
    simp at hpc'
  | io sd' hpc hio ho hother =>
    by_cases hsd : sd' = sd
    · subst hsd
      obtain rfl := (io_half hio).2.2.2.1 (ho ▸ hpc')
      obtain ⟨seen, hshut⟩ := hshut sd'
      exact ⟨hshut.eof (.inr hpc), hshut.empty hpc⟩
    · obtain rfl : sd' = sd.other := by cases sd <;> cases sd' <;> simp_all [Side.other]
      rw [Side.other_other] at hother
      exact h.store sd (hother ▸ hpc')
  | quiet _ _ _ _ _ hio =>
    rcases hio sd with heq | ⟨-, hrd⟩
    · exact h.store sd (heq ▸ hpc')
    · simp [hrd] at hpc'

theorem lklCode_wrShut (h : lklCode c w a = some (c', w')) (hflag : c'.flag (.wrShut .lkl) = true) :
    c.flag (.wrShut .lkl) = true ∨ (w = .errShut ∨ ∃ p, w = .io (.wrFail p)) ∨
      w = .io .shutStore ∨ w = .connectFail .lklWrShut ∨ w = .force .lklWrShut := by
  cases lklCode_cases h with
  | connectFail st =>
    cases st with
    | lklWrShut => simp
    | _ => exact .inl (by simpa [ConnectFail.flag] using hflag)
  | forceShut | errShut => simp
  | forceEof | errEof => exact .inl (by simpa using hflag)
  | forceFd | forceH2l | forceL2h => exact .inl hflag
  | io hio =>
    rcases (io_store hio).2.1 hflag with hold | ⟨p, rfl⟩ | rfl
    · exact .inl hold
    · simp
    · simp

theorem DrainOk.h2l_step (h : DrainOk v) (hok : ConnOk v) (hs : ConnStep v act v')
    (hmono : ∀ f, v.conn.flag f = true → v'.conn.flag f = true)
    (hguard : v.Recoverable act.side) (hshut : v'.conn.flag (.wrShut .lkl) = true) :
    v'.conn.used .host = 0 ∨ v'.conn.flag .closeReq = true := by
  -- a ring that was empty is empty, because the host does not commit to it any more
  have hkeep : v.conn.flag (.wrShut .lkl) = true ∨ act.side = .lkl →
      v.conn.used .host = 0 ∨ v.conn.flag .closeReq = true →
      v'.conn.used .host = 0 ∨ v'.conn.flag .closeReq = true := by
    intro hstop hor
    refine hor.imp (fun hempty => ?_) (hmono _)
    rcases hs.used hok .host with rfl | hle | ⟨hside, p, n, hpc⟩
    · rfl
    · omega
    · rcases hstop with hstop | hlkl
      · rw [hside] at hguard
        have hhost := HostAt.ioPc_eq_some.mp hpc
        simp [hhost, hstop] at hguard
      · simp [hside] at hlkl
  by_cases hold : v.conn.flag (.wrShut .lkl) = true
  · exact hkeep (.inl hold) (h.h2l hold)
  cases hs with
  | attach => cases hshut
  | @lklCode a c' w hcode =>
    refine hkeep (.inr rfl) ?_
    have hlkl := hok.lkl
    rcases (lklCode_wrShut hcode hshut).resolve_left hold with (hw | ⟨p, hw⟩) | hw | hw | hw
    · simpa [ConnAct.side, hw, hold] using hguard
    · simpa [ConnAct.side, hw, hold] using hguard
    · exact .inl (h.store .lkl (LklAt.ioPc_eq_some.mpr hw)).2
    · rw [hw] at hlkl
      refine .inl ((h.unmade hlkl.1 .host).resolve_right ?_)
      rw [hw]
      exact nofun
    · rw [hw] at hlkl
      exact .inr hlkl
  | hostCode hcode =>
    exact absurd ((hok.hostGuar hcode).wrShut.symm.trans hshut) hold
  | _ => exact absurd hshut hold

theorem lklCode_hostWrShut (hok : LklOk c w) (h : lklCode c w a = some (c', w'))
    (hflag : c'.flag (.wrShut .host) = true) :
    c.flag (.wrShut .host) = true ∨ ∃ st, w' = .connectFail st := by
  cases lklCode_cases h with
  | connectFail st =>
    cases st with
    | hostWrShut => exact .inr ⟨_, rfl⟩
    | _ => exact .inl (by simpa [ConnectFail.flag] using hflag)
  | forceEof | forceShut | errEof | errShut => exact .inl (by simpa using hflag)
  | forceFd | forceH2l | forceL2h => exact .inl hflag
  | io hio => exact .inl ((io_guar hok hio).wrShut.symm.trans hflag)

theorem hostCode_wrShut {w w' : HostAt} (h : hostCode c w a = some (c', w'))
    (hflag : c'.flag (.wrShut .host) = true) :
    c.flag (.wrShut .host) = true ∨ (w = .err .hostWrShut ∧ w' = .err .check) ∨
      (∃ p, w = .io (.wrFail p) ∧ w' = .io .wrFailEof) ∨ w = .io .shutStore := by
  cases hostCode_cases h with
  | errShut => exact .inr (.inl ⟨rfl, rfl⟩)
  | errEof | errReq => exact .inl (by simpa using hflag)
  | errSkip | errAsk | done | undone => exact .inl hflag
  | @io pc a c' o hio =>
    rcases (io_store hio).2.1 hflag with hold | ⟨p, rfl⟩ | rfl
    · exact .inl hold
    · cases a <;> cases hio
      exact .inr (.inr (.inl ⟨p, rfl, rfl⟩))
    · exact .inr (.inr (.inr rfl))

theorem asks_hostCode {w' : HostAt} (h : hostCode v.conn v.host a = some (c', w'))
    (hasks : v.Asks) :
    c'.flag .closeReq = true ∨ Asks { v with conn := c', host := w' } := by
  obtain ⟨c, life, lkl, w₀⟩ := v
  cases hostCode_cases h with
  | errEof | errShut | done | undone => exact hasks.elim
  | errSkip heof => cases heof.symm.trans hasks
  | errAsk => exact .inr trivial
  | errReq => exact .inl (by simp)
  | @io pc a c' o hio =>
    cases pc with
    | wrFailEof =>
      cases a <;> cases hio
      exact .inr (by simpa [Asks] using hasks)
    | wrFailCheck =>
      cases a <;> cases hio
      have hopen : c.flag (.readEof .lkl) = false := hasks
      exact .inr (by simp [Asks, Side.other, hopen])
    | wrFailReq =>
      cases a <;> cases hio
      exact .inl (by simp)
    | _ => exact hasks.elim

theorem DrainOk.asks_lklCode (hok : ConnOk v) (hcode : lklCode v.conn v.lkl a = some (c', w))
    (hguard : v.Recoverable .lkl) (hshut : v.conn.flag (.wrShut .host) = true) (hasks : v.Asks) :
    v.conn.flag .closeReq = true ∨ (c'.flag (.readEof .lkl) = true ∧
        (c'.used .lkl = 0 ∨ ∃ st, w = .connectFail st)) ∨
      Asks { v with conn := c', lkl := w } := by
  by_cases heq : c'.flag (.readEof .lkl) = v.conn.flag (.readEof .lkl)
  · refine .inr (.inr ?_)
    unfold Asks at hasks ⊢
    simpa only [heq] using hasks
  -- LKL sees the end of its input: the host will not ask
  have hopen : v.conn.flag (.readEof .lkl) = false := by
    refine Bool.eq_false_iff.mpr fun htrue => heq ?_
    rw [htrue, (hok.lklGuar hcode).mono _ htrue]
  have hset : c'.flag (.readEof .lkl) = true := by
    rw [hopen] at heq
    exact Bool.eq_true_of_not_eq_false heq
  have hlkl := hok.lkl
  rcases lklCode_readEof hok hcode hset with hold | hend | hfail | ⟨-, st, hst⟩
  · simp [hopen] at hold
  · have hor : v.conn.used .lkl = 0 ∨ v.conn.flag .closeReq = true := by
      rcases hend with hw | hw
      · simpa [hw, hopen, hshut] using hguard
      · simpa [hw, hopen, hshut] using hguard
    rcases hor with hempty | hreq
    · rcases lklCode_used hcode with hle | ⟨p, n, hw⟩
      · exact .inr (.inl ⟨hset, .inl (by omega)⟩)
      · simp [Ending, hw] at hend
    · exact .inl hreq
  · exact .inr (.inl ⟨hset, .inr hfail⟩)
  · rw [hst] at hlkl
    exact .inl hlkl

theorem DrainOk.l2h_of_connectFail (h : DrainOk v) (hok : ConnOk v) (hs : ConnStep v act v')
    (hfail : ∃ st, v'.lkl = .connectFail st) : v'.conn.used .lkl = 0 := by
  obtain ⟨st, hst⟩ := hfail
  have hlkl := (hok.step hs).lkl
  rw [hst] at hlkl
  refine (h.unmade_step hok hs hlkl.1 .lkl).resolve_right ?_
  rw [hst]
  exact nofun

theorem DrainOk.l2h_keep (h : DrainOk v) (hok : ConnOk v) (hdone : LklDone v.conn v.lkl)
    (hs : ConnStep v act v') (hmono : ∀ f, v.conn.flag f = true → v'.conn.flag f = true)
    (hguard : v.Recoverable act.side) (hold : v.conn.flag (.wrShut .host) = true) :
    (v'.conn.used .lkl = 0 ∧
        (v'.conn.flag (.readEof .lkl) = true ∨ ∃ st, v'.lkl = .connectFail st)) ∨
      v'.conn.flag .closeReq = true ∨ v'.Asks := by
  rcases h.l2h hold with ⟨hempty, heof | ⟨st, hst⟩⟩ | hreq | hasks
  · exact .inl ⟨hs.used_of_readEof hok heof hempty, .inl (hmono _ heof)⟩
  · rcases connectFail_step hdone hs hst with hdead | hnext
    · refine .inl ⟨?_, .inl (hdead .lkl).1⟩
      rcases hs.used hok .lkl with rfl | hle | ⟨-, p, n, hpc⟩
      · rfl
      · omega
      · simp [ioAt, hst] at hpc
    · exact .inl ⟨h.l2h_of_connectFail hok hs hnext, .inr hnext⟩
  · exact .inr (.inl (hmono _ hreq))
  · have hfail := h.l2h_of_connectFail hok hs
    cases hs with
    | attach _ hhost => simp [Asks, hhost] at hasks
    | lklCode hcode =>
      rcases DrainOk.asks_lklCode hok hcode hguard hold hasks with hreq | ⟨heof, hor⟩ | hasks
      · exact .inr (.inl (hmono _ hreq))
      · exact .inl ⟨hor.elim id hfail, .inl heof⟩
      · exact .inr (.inr hasks)
    | hostCode hcode => exact .inr (asks_hostCode hcode hasks)
    | lklList | lklConnect | lklConnectFail | lklForce | lklSnap | lklDrop | lklStart =>
      exact .inr (.inr hasks)
    | hostList _ hhost | hostSweep _ hhost => simp [Asks, hhost] at hasks
    | hostUnlist hhost | hostErr hhost | hostStart hhost | hostCheck hhost | unlink hhost
    | destroy hhost => simp [Asks, hhost] at hasks

theorem DrainOk.l2h_step (h : DrainOk v) (hok : ConnOk v) (hdone : LklDone v.conn v.lkl)
    (hs : ConnStep v act v') (hmono : ∀ f, v.conn.flag f = true → v'.conn.flag f = true)
    (hguard : v.Recoverable act.side) (hshut : v'.conn.flag (.wrShut .host) = true) :
    (v'.conn.used .lkl = 0 ∧
        (v'.conn.flag (.readEof .lkl) = true ∨ ∃ st, v'.lkl = .connectFail st)) ∨
      v'.conn.flag .closeReq = true ∨ v'.Asks := by
  by_cases hold : v.conn.flag (.wrShut .host) = true
  · exact h.l2h_keep hok hdone hs hmono hguard hold
  have hfail := h.l2h_of_connectFail hok hs
  have hkeep : v.conn.flag (.readEof .lkl) = true → v.conn.used .lkl = 0 → v'.conn.used .lkl = 0 ∧
        (v'.conn.flag (.readEof .lkl) = true ∨ ∃ st, v'.lkl = .connectFail st) :=
    fun heof hempty => ⟨hs.used_of_readEof hok heof hempty, .inl (hmono _ heof)⟩
  cases hs with
  | attach => cases hshut
  | lklCode hcode =>
    have hnext := (lklCode_hostWrShut hok.lkl hcode hshut).resolve_left hold
    exact .inl ⟨hfail hnext, .inr hnext⟩
  | @hostCode a c' w hcode =>
    have heq : c'.flag (.readEof .lkl) = v.conn.flag (.readEof .lkl) := (hok.hostGuar hcode).readEof
    by_cases hw : v.host = .io .shutStore
    · obtain ⟨heof, hempty⟩ := h.store .host (HostAt.ioPc_eq_some.mpr hw)
      exact .inl (hkeep heof hempty)
    -- the host fails; it asks for a forced close unless LKL has seen the end of its input
    have hor : v.conn.used .lkl = 0 ∨ v.conn.flag (.readEof .lkl) = false := by
      rcases (hostCode_wrShut hcode hshut).resolve_left hold with ⟨hw', -⟩ | ⟨p, hw', -⟩ | hw'
      · simpa [ConnAct.side, hw', hold] using hguard
      · simpa [ConnAct.side, hw', hold] using hguard
      · exact absurd hw' hw
    by_cases heof : v.conn.flag (.readEof .lkl) = true
    · exact .inl (hkeep heof (hor.resolve_right (by simp [heof])))
    · refine .inr (.inr ?_)
      rcases (hostCode_wrShut hcode hshut).resolve_left hold with ⟨-, rfl⟩ | ⟨p, -, rfl⟩ | hw'
      · simpa [Asks, heq] using heof
      · simpa [Asks, heq] using heof
      · exact absurd hw' hw
  | _ => exact absurd hshut hold

theorem DrainOk.step (h : DrainOk v) (hok : ConnOk v) (hdone : LklDone v.conn v.lkl)
    (hshut : ∀ sd, ∃ seen, ShutOk sd v seen) (hs : ConnStep v act v')
    (hguard : v.Recoverable act.side) : DrainOk v' := by
  rcases hs.mono hok hdone with ⟨-, rfl⟩ | hmono
  · exact drainOk_new .attached
  · exact ⟨h.cset_step hok hs, h.forced_step hok hs hmono, h.unmade_step hok hs,
      h.store_step hok hdone hshut hs, h.h2l_step hok hs hmono hguard,
      h.l2h_step hok hdone hs hmono hguard⟩

end Step

theorem ConnOk.recoverable_of_dead {v : ConnSys} (hok : ConnOk v) (hdead : v.conn.Dead)
    (sd : Side) : v.Recoverable sd := by
  unfold Recoverable
  split
  · split
    · exact .inl (hdead .lkl).2
    · exact .inl (hdead .lkl).2
    · exact .inl (hdead .lkl).1
    · exact .inl (hdead .lkl).1
    · trivial
  · split
    · exact .inl (hdead .host).2
    · exact .inl (hdead .host).2
    · rename_i p n hhost
      have hpc : v.ioAt .host = some (.rdCommit p n) := HostAt.ioPc_eq_some.mpr hhost
      exact absurd hdead (Conn.not_dead_of_readEof (hok.ioOk hpc).1)
    · trivial

/-! ### The table -/

theorem unlinked_step {v v' : ConnSys} {act : ConnAct} (hs : ConnStep v act v')
    (h : v.life = .unlinked → v.host = .destroy) : v'.life = .unlinked → v'.host = .destroy := by
  intro hlife
  cases hs with
  | attach => cases hlife
  | unlink => rfl
  | destroy => cases hlife
  | hostList hattached | hostSweep hattached => simp [hattached] at hlife
  | hostUnlist hhost | hostErr hhost | hostStart hhost | hostCheck hhost => simp [h hlife] at hhost
  | hostCode hcode =>
    rw [h hlife] at hcode
    cases hcode
  | _ => exact h hlife

/-! ### Runs -/

/-- The proxy goes on. -/
def ProxyAct.Continues : ProxyAct → Prop
  | .stop | .step _ .pollFail => False
  | _ => True

instance (l : ProxyAct) : Decidable l.Continues := by
  unfold ProxyAct.Continues
  split <;> infer_instance

def ProxySys.Recoverable (c : ℕ) (s : ProxySys) : ProxyAct → Prop
  | .stop => True
  | .step sd _ => (s.view c).Recoverable sd

instance (c : ℕ) (s : ProxySys) (l : ProxyAct) : Decidable (s.Recoverable c l) := by
  unfold ProxySys.Recoverable
  split <;> infer_instance

theorem Alone.continues {sd : Side} {s : ProxySys} {l : ProxyAct} (h : Alone sd s l) :
    l.Continues := by
  obtain ⟨a, rfl, ha⟩ := h
  cases a with
  | pollFail => exact absurd rfl ha
  | _ => trivial

namespace ProxySys

variable {s s' : ProxySys} {l : ProxyAct} {c : ℕ}

/-- The proxy runs. -/
structure Up (s : ProxySys) : Prop where
  running : s.running = true
  lkl : s.lkl ≠ .exit
  host : s.host ≠ .exit

theorem forceSlot_ne_exit (s : ProxySys) (i : ℕ) : s.forceSlot i ≠ .exit := by
  unfold forceSlot
  split
  · split
    · split_ifs <;> exact nofun
    · exact nofun
  · exact nofun

theorem lklStep_ne_exit {a : Answer} (hrunning : s.running = true) (ha : a ≠ .pollFail)
    (hs : s.lklStep a = some s') : s'.lkl ≠ .exit := by
  unfold lklStep at hs
  split at hs
  case h_1 =>
    cases hs
    simp [hrunning]
  case h_7 i _ =>
    cases hs
    exact s.forceSlot_ne_exit i
  case h_10 => exact absurd rfl ha
  case h_14 =>
    obtain ⟨r, -, rfl⟩ := map_eq_some_iff.mp hs
    dsimp only
    split_ifs <;> exact nofun
  case h_15 => cases hs
  all_goals
    cases hs
    exact nofun

theorem hostStep_ne_exit {a : Answer} (hrunning : s.running = true) (ha : a ≠ .pollFail)
    (hs : s.hostStep a = some s') : s'.host ≠ .exit := by
  unfold hostStep at hs
  split at hs
  case h_1 =>
    cases hs
    simp [hrunning]
  case h_2 | h_11 | h_16 =>
    obtain ⟨-, hs⟩ := ite_none_left_eq_some.mp hs
    cases hs
    exact nofun
  case h_4 => exact absurd rfl ha
  case h_5 | h_10 | h_13 =>
    cases hs
    dsimp only
    split_ifs <;> exact nofun
  case h_6 hpc =>
    obtain ⟨-, hs⟩ := ite_none_left_eq_some.mp hs
    cases hs
    rcases s.connAttach_cases with heq | ⟨i, -, heq⟩
    · rw [heq, hpc]
      exact nofun
    · have hhost : (s.attachAt i).host = s.host := rfl
      rw [heq, hhost, hpc]
      exact nofun
  case h_7 hpc =>
    cases hs
    rw [hpc]
    exact nofun
  case h_18 =>
    obtain ⟨r, -, rfl⟩ := map_eq_some_iff.mp hs
    dsimp only
    split_ifs <;> exact nofun
  case h_19 => cases hs
  all_goals
    cases hs
    exact nofun

theorem Up.step (h : s.Up) (hl : l.Continues) (hs : s.step l = some s') : s'.Up := by
  cases l with
  | stop => exact hl.elim
  | step sd a =>
    have ha : a ≠ .pollFail := by
      rintro rfl
      exact hl
    cases sd with
    | lkl =>
      obtain ⟨hrunning, hhost, -⟩ := lklStep_frame hs
      exact ⟨hrunning.trans h.running, lklStep_ne_exit h.running ha hs, hhost ▸ h.host⟩
    | host =>
      obtain ⟨hrunning, hlkl, -⟩ := hostStep_frame hs
      exact ⟨hrunning.trans h.running, hlkl ▸ h.lkl, hostStep_ne_exit h.running ha hs⟩

/-- What holds in a run of a proxy that is up, with a connection of which nothing is left
behind. -/
structure RunOk (c : ℕ) (s : ProxySys) : Prop where
  reach : proxyMachine.Reach (fun _ _ => True) .started s
  up : s.Up
  drain : DrainOk (s.view c)
  slotted : s.Slotted
  unlinked : s.life c = .unlinked → s.host.atConn c = .destroy

theorem RunOk.step (h : RunOk c s) (hl : l.Continues) (hguard : s.Recoverable c l)
    (hs : s.step l = some s') : RunOk c s' := by
  obtain ⟨hwf, hok⟩ := reach_ok h.reach
  have hview : DrainOk (s'.view c) ∧ (s'.life c = .unlinked → s'.host.atConn c = .destroy) := by
    have hkeep : s'.view c = s.view c →
        DrainOk (s'.view c) ∧ ((s'.view c).life = .unlinked → (s'.view c).host = .destroy) := by
      intro heq
      rw [heq]
      exact ⟨h.drain, h.unlinked⟩
    rcases (view_step hwf hok hs).2 c with heq | ⟨sd, a, rfl, heq | ⟨act, htakes, hstep⟩⟩
    · exact hkeep heq
    · exact hkeep heq
    · have hside : (s.view c).Recoverable act.side := htakes.side ▸ hguard
      exact ⟨h.drain.step (hok c) (reach_relayOk h.reach c).done (exists_shutOk h.reach c) hstep
        hside, unlinked_step hstep h.unlinked⟩
  exact ⟨.step h.reach trivial hs, h.up.step hl hs, hview.1, h.slotted.step hs, hview.2⟩

theorem reach_runOk
    (h : proxyMachine.Reach (fun s l => l.Continues ∧ s.Recoverable c l) .started s) :
    RunOk c s := by
  refine h.invariant (P := RunOk c)
    ⟨.refl, ⟨rfl, nofun, nofun⟩, drainOk_new .absent, nofun, nofun⟩ ?_
  rintro s l s' hok ⟨hl, hguard⟩ hs
  exact hok.step hl hguard hs

/-- The connection has all four flags set and was attached. -/
structure Closing (c : ℕ) (s : ProxySys) : Prop extends RunOk c s where
  dead : (s.conn c).Dead
  life : s.life c ≠ .absent

section

variable (h : Closing c s)
include h

theorem Closing.step (hl : l.Continues) (hs : s.step l = some s') : Closing c s' := by
  have hok := (reach_ok h.reach).2 c
  have hguard : s.Recoverable c l := by
    cases l with
    | stop => trivial
    | step sd a => exact hok.recoverable_of_dead h.dead sd
  have hdead : (s'.conn c).Dead ∧ s'.life c ≠ .absent := by
    rcases conn_step h.reach hs c with heq | ⟨act, hstep⟩
    · have hconn : s'.conn c = s.conn c := congrArg ConnSys.conn heq
      have hlife : s'.life c = s.life c := congrArg ConnSys.life heq
      rw [hconn, hlife]
      exact ⟨h.dead, h.life⟩
    · rcases hstep.mono hok (reach_relayOk h.reach c).done with ⟨habsent, -⟩ | hmono
      · exact absurd habsent h.life
      · exact ⟨h.dead.mono hmono, hstep.life_ne_absent h.life⟩
  exact ⟨h.toRunOk.step hl hguard hs, hdead.1, hdead.2⟩

theorem Closing.of_reach {guard : ProxySys → ProxyAct → Prop}
    (hguard : ∀ s l, guard s l → l.Continues) (hs : proxyMachine.Reach guard s s') : Closing c s' :=
  hs.invariant h fun _ _ _ h hl hs => h.step (hguard _ _ hl) hs

theorem Closing.attached_or_freed (hout : s.host.atConn c = .out) :
    s.life c = .attached ∨ s.life c = .freed := by
  cases hlife : s.life c with
  | absent => exact absurd hlife h.life
  | attached => exact .inl rfl
  | unlinked =>
    have hdestroy := h.unlinked hlife
    simp [hout] at hdestroy
  | freed => exact .inr rfl

theorem Closing.finished (hlkl : s.lkl = .snap) (hhost : s.host = .start)
    (hforced : s.Forced maxConns) (hattached : s.life c = .attached) : (s.conn c).Finished := by
  obtain ⟨i, -, hi⟩ := h.slotted c hattached
  have hdrains : ∀ sd, (s.view c).lkl.Drains sd ≠ true := by
    simp [view, hlkl, LklPc.atConn, LklAt.Drains]
  have hasks : ¬ (s.view c).Asks := by
    simp [Asks, view, hhost, HostPc.atConn]
  refine Conn.finished_iff.mpr ⟨h.dead, ?_⟩
  by_cases hreq : (s.conn c).flag .closeReq = true
  · -- a forced close was asked for, and done
    have hfd := hforced i c i.isLt hi hreq
    exact fun sd => (h.drain.unmade hfd sd).resolve_right (hdrains sd)
  · rintro (_ | _)
    · exact (h.drain.h2l (h.dead .lkl).2).resolve_right hreq
    · rcases h.drain.l2h (h.dead .host).2 with ⟨hempty, -⟩ | hreq' | hasks'
      · exact hempty
      · exact absurd hreq' hreq
      · exact absurd hasks' hasks

theorem Closing.can_settle :
    proxyMachine.Can (fun _ l => l.Continues) (fun s' => (s'.lkl = .snap ∧ s'.host = .start) ∧
      s'.locked = false ∧ s'.Forced maxConns) s := by
  have hcont : ∀ {sd : Side} (s : ProxySys) (l : ProxyAct), Alone sd s l → l.Continues :=
    fun _ _ => Alone.continues
  -- the LKL thread gives the lock back, so that the host thread can end its round
  obtain ⟨s₁, hs₁, hpc₁⟩ := lkl_can_start (reach_ok h.reach).1.lkl h.up.lkl
  have h₁ := h.of_reach hcont hs₁
  obtain ⟨s₂, hs₂, hpc₂, hlock₂, -⟩ := lkl_can_round hpc₁ h₁.up.running
  have h₂ := h₁.of_reach hcont hs₂
  obtain ⟨s₃, hs₃, hpc₃, -⟩ := host_can_start (reach_ok h₂.reach).1.host h₂.up.host hlock₂
  have h₃ := h₂.of_reach hcont hs₃
  -- then the LKL thread takes a whole round
  obtain ⟨s₄, hs₄, hpc₄⟩ := lkl_can_start_of_snap ((lkl_of_alone hs₃).trans hpc₂)
  have h₄ := h₃.of_reach hcont hs₄
  obtain ⟨s₅, hs₅, hpc₅, hlock₅, hforced⟩ := lkl_can_round hpc₄ h₄.up.running
  have hhost : s₅.host = .start :=
    (host_of_alone hs₅).trans ((host_of_alone hs₄).trans hpc₃)
  have hreach : proxyMachine.Reach (fun _ l => l.Continues) s s₃ :=
    ((hs₁.mono hcont).trans (hs₂.mono hcont)).trans (hs₃.mono hcont)
  exact ⟨s₅, (hreach.trans (hs₄.mono hcont)).trans (hs₅.mono hcont), ⟨hpc₅, hhost⟩, hlock₅, hforced⟩

theorem Closing.can_free :
    proxyMachine.Can (fun _ l => l.Continues) (fun s' => s'.life c = .freed) s := by
  refine h.can_settle.bind fun s₁ hs₁ hsettled => ?_
  obtain ⟨⟨hlkl, hhost⟩, hlock, hforced⟩ := hsettled
  have h₁ := h.of_reach (fun _ _ => id) hs₁
  have hout : s₁.host.atConn c = .out := by rw [hhost]; rfl
  rcases h₁.attached_or_freed hout with hattached | hfreed
  · suffices hround : proxyMachine.Can (Alone .host) (·.life c = .freed) s₁ from
      hround.mono fun _ _ => Alone.continues
    refine host_can_round ⟨hhost, hlock⟩ h₁.up.running (fun s' hs' => ?_) fun s' hs' hsweep => ?_
    · -- a finished connection stays finished
      have hinv : Closing c s' ∧ (s'.conn c).Finished := by
        refine hs'.invariant (P := fun s' => Closing c s' ∧ (s'.conn c).Finished)
          ⟨h₁, h₁.finished hlkl hhost hforced hattached⟩ ?_
        rintro s l s' ⟨hclosing, hfin⟩ hl hs
        refine ⟨hclosing.step hl.continues hs, ?_⟩
        rcases conn_step hclosing.reach hs c with heq | ⟨act, hstep⟩
        · have hconn : s'.conn c = s.conn c := congrArg ConnSys.conn heq
          rwa [hconn]
        · exact hfin.step ((reach_ok hclosing.reach).2 c) (reach_relayOk hclosing.reach c).done
            hstep hclosing.life
      exact hinv.2
    · have h' := h₁.of_reach (fun _ _ => Alone.continues) hs'
      have hout' : s'.host.atConn c = .out := by rw [hsweep]; rfl
      rcases h'.attached_or_freed hout' with hattached' | hfreed
      · obtain ⟨i, -, hi⟩ := h'.slotted c hattached'
        exact .inr (mem_listed.mpr ⟨⟨i, hi⟩, rfl⟩)
      · exact .inl hfreed
  · exact .now hfreed

end

/-- A ring stays filled whatever happens. -/
def Stuck (s : ProxySys) (c : ℕ) : Prop :=
  s.life c = .attached ∧ (s.conn c).Dead ∧
    ∃ sd, ∀ s', proxyMachine.Reach (fun _ _ => True) s s' → (s'.conn c).used sd ≠ 0

end ProxySys

/-- In every run of a proxy that is not stopped, a connection of which nothing is left behind is
never stuck: once all four flags are set, it can be freed. -/
theorem not_stuck_of_recoverable {s : ProxySys} {c : ℕ}
    (h : proxyMachine.Reach (fun s l => l.Continues ∧ s.Recoverable c l) .started s) :
    ¬ s.Stuck c ∧ (s.life c = .attached → (s.conn c).Dead →
      ∃ s', proxyMachine.Reach (fun _ l => l.Continues) s s' ∧ (s'.conn c).Finished ∧
        s'.life c = .freed ∧ ∀ i, s'.table i ≠ some c) := by
  have hfree : s.life c = .attached → (s.conn c).Dead →
      ∃ s', proxyMachine.Reach (fun _ l => l.Continues) s s' ∧ (s'.conn c).Finished ∧
        s'.life c = .freed ∧ ∀ i, s'.table i ≠ some c := by
    intro hattached hdead
    have hclosing : ProxySys.Closing c s :=
      ⟨ProxySys.reach_runOk h, hdead, by simp [hattached]⟩
    obtain ⟨s', hs', hfreed⟩ := hclosing.can_free
    have h' := hclosing.of_reach (fun _ _ => id) hs'
    have hview : connMachine.Reach (fun _ _ => True) .absent (s'.view c) :=
      ProxySys.reach_view (fun _ _ _ _ _ _ _ => trivial) h'.reach c
    refine ⟨s', hs', reach_finished hview (.inr hfreed), hfreed, fun i hi => ?_⟩
    have hattached' := ((ProxySys.reach_ok h'.reach).1.table i c hi).2
    simp [hfreed] at hattached'
  refine ⟨?_, hfree⟩
  rintro ⟨hattached, hdead, sd, hstuck⟩
  obtain ⟨s', hs', hfin, -⟩ := hfree hattached hdead
  exact hstuck s' (hs'.mono fun _ _ _ => trivial) ((Conn.finished_iff.mp hfin).2 sd)

instance (c : Conn) : Decidable c.Dead :=
  decidable_of_iff
    ((c.flag (.readEof .host) = true ∧ c.flag (.wrShut .host) = true) ∧
      c.flag (.readEof .lkl) = true ∧ c.flag (.wrShut .lkl) = true)
    ⟨fun h sd => by cases sd <;> simp [h], fun h => ⟨h .host, h .lkl⟩⟩

/-- The host thread asks for a forced close, and the LKL thread sets its flags. -/
def forceRound : List ProxyAct :=
  goSteps .host 2 ++ [.step .host (.pollOk false fun _ => true)] ++ goSteps .host 5 ++
    [.step .lkl .pollIntr] ++ goSteps .lkl 8

/-- In the middle of a forced close all flags are set and a byte is still there; then the connection
is freed. -/
theorem not_stuck_of_reset :
    ∃ s, proxyMachine.Reach (fun s l => l.Continues ∧ s.Recoverable 0 l) .started s ∧
      (s.conn 0).used .host = 1 ∧ ∃ s', proxyMachine.Reach (fun _ l => l.Continues) s s' ∧
        s'.life 0 = .freed := by
  have htrace : (Machine.run ProxySys.step (fun s l => l.Continues ∧ s.Recoverable 0 l)
      (acceptRound ++ connectRound ++ hostReadRound ++ forceRound) .started).any (fun s => decide
        (s.life 0 = .attached ∧ (s.conn 0).Dead ∧ (s.conn 0).used .host = 1)) = true := by
    decide +kernel
  obtain ⟨s, hrun, hattached, hdead, hused⟩ := Machine.exists_of_run htrace
  have hreach : proxyMachine.Reach (fun s l => l.Continues ∧ s.Recoverable 0 l) .started s :=
    Machine.Reach.of_run hrun
  obtain ⟨s', hs', -, hfreed, -⟩ := (not_stuck_of_recoverable hreach).2 hattached hdead
  exact ⟨s, hreach, hused, s', hs', hfreed⟩

/-! ### A connection that is stuck -/

def IoPc.Past : IoPc → Prop
  | .rd | .wr | .half => True
  | _ => False

def LklAt.Past : LklAt → Prop
  | .out | .inSet | .errEof | .errShut => True
  | .io pc => pc.Past
  | _ => False

/-- Where the host thread changes nothing of a connection whose flags are all set and that has
something left in `h2l`. -/
def HostAt.Past : HostAt → Prop
  | .err .closeReq | .done .l2h | .unlink | .destroy => False
  | .io pc => pc.Past
  | _ => True

/-- All flags are set, something is left in `h2l`, and no forced close will be asked for. -/
structure Wedged (v : ConnSys) : Prop where
  life : v.life = .attached
  dead : v.conn.Dead
  closeReq : v.conn.flag .closeReq = false
  h2l : v.conn.used .host ≠ 0
  lkl : v.lkl.Past
  host : v.host.Past

section Wedged

variable {v v' : ConnSys} {act : ConnAct} {c c' : Conn} {a : IoAct}

theorem io_past {sd : Side} {pc : IoPc} {o : Option IoPc} (hpc : pc.Past) (hdead : c.Dead)
    (h : io sd c pc a = some (c', o)) : c' = c ∧ ∀ pc' ∈ o, pc'.Past := by
  obtain ⟨hread, hwrite⟩ := hdead sd
  cases pc with
  | rd | wr | half =>
    cases a <;> simp only [io, reduceCtorEq] at h
    cases h
    simp [hread, hwrite, IoPc.Past]
  | _ => exact hpc.elim

theorem Wedged.store {f : Flag} (h : Wedged v) (hf : f ≠ .closeReq) :
    Wedged { v with conn := v.conn.store f } :=
  { h with
    dead := h.dead.mono fun g hg => by simp [hg]
    closeReq := by simp [h.closeReq, hf.symm] }

theorem Wedged.lklCode {w : LklAt} (h : Wedged v)
    (hcode : Proxy.lklCode v.conn v.lkl a = some (c', w)) :
    Wedged { v with conn := c', lkl := w } := by
  obtain ⟨c, life, w₀, host⟩ := v
  cases lklCode_cases hcode with
  | errEof => exact { h.store (f := .readEof .lkl) nofun with lkl := trivial }
  | errShut => exact { h.store (f := .wrShut .lkl) nofun with lkl := trivial }
  | @io pc a c' o hio =>
    obtain ⟨rfl, hnext⟩ := io_past h.lkl h.dead hio
    refine { h with lkl := ?_ }
    cases o with
    | none => trivial
    | some pc' => exact hnext pc' rfl
  | _ => exact h.lkl.elim

theorem Wedged.hostCode {w : HostAt} (h : Wedged v)
    (hcode : Proxy.hostCode v.conn v.host a = some (c', w)) :
    Wedged { v with conn := c', host := w } := by
  obtain ⟨c, life, lkl, w₀⟩ := v
  cases hostCode_cases hcode with
  | errEof => exact { h.store (f := .readEof .host) nofun with host := trivial }
  | errShut => exact { h.store (f := .wrShut .host) nofun with host := trivial }
  | errSkip | undone => exact { h with host := trivial }
  | errAsk hopen => cases hopen.symm.trans (h.dead .lkl).1
  | errReq => exact h.host.elim
  | @io pc a c' o hio =>
    obtain ⟨rfl, hnext⟩ := io_past h.host h.dead hio
    refine { h with host := ?_ }
    cases o with
    | none => trivial
    | some pc' => exact hnext pc' rfl
  | @done st hb =>
    cases st with
    | h2l => exact absurd (Ring.empty_iff.mp hb) h.h2l
    | l2h => exact h.host.elim
    | _ => exact { h with host := trivial }

theorem Wedged.step (h : Wedged v) (hs : ConnStep v act v') : Wedged v' := by
  have hlkl := h.lkl
  have hhost := h.host
  cases hs with
  | attach habsent => simp [h.life] at habsent
  | lklList _ _ _ heof => simp [h.dead .lkl] at heof
  | lklConnect _ hpc | lklConnectFail hpc =>
    rw [hpc] at hlkl
    exact hlkl.elim
  | lklForce _ _ _ hreq => simp [h.closeReq] at hreq
  | lklSnap | lklDrop => exact { h with lkl := trivial }
  | lklStart err =>
    refine { h with lkl := ?_ }
    cases err <;> trivial
  | lklCode hcode => exact h.lklCode hcode
  | hostCode hcode => exact h.hostCode hcode
  | hostStart =>
    refine { h with host := ?_ }
    split_ifs <;> trivial
  | hostList | hostUnlist | hostErr | hostSweep | hostCheck => exact { h with host := trivial }
  | unlink hpc | destroy hpc =>
    rw [hpc] at hhost
    exact hhost.elim

theorem Wedged.stuck {s : ProxySys} {n : ℕ}
    (hreach : proxyMachine.Reach (fun _ _ => True) .started s) (h : Wedged (s.view n)) :
    s.Stuck n := by
  refine ⟨h.life, h.dead, .host, fun s' hs' => ?_⟩
  have hinv : proxyMachine.Reach (fun _ _ => True) .started s' ∧ Wedged (s'.view n) := by
    refine hs'.invariant (P := fun s' =>
      proxyMachine.Reach (fun _ _ => True) .started s' ∧ Wedged (s'.view n)) ⟨hreach, h⟩ ?_
    rintro s₁ l s₂ ⟨hreach₁, h₁⟩ - hs
    refine ⟨.step hreach₁ trivial hs, ?_⟩
    rcases ProxySys.conn_step hreach₁ hs n with heq | ⟨act, hstep⟩
    · rw [heq]
      exact h₁
    · exact h₁.step hstep
  exact hinv.2.h2l

end Wedged

instance (v : ConnSys) : Decidable (Wedged v) := by
  have : Decidable v.lkl.Past := by
    unfold LklAt.Past IoPc.Past
    split <;> (try split) <;> infer_instance
  have : Decidable v.host.Past := by
    unfold HostAt.Past IoPc.Past
    split <;> (try split) <;> infer_instance
  exact decidable_of_iff
    (v.life = .attached ∧ v.conn.Dead ∧ v.conn.flag .closeReq = false ∧ v.conn.used .host ≠ 0 ∧
      v.lkl.Past ∧ v.host.Past)
    ⟨fun ⟨h₁, h₂, h₃, h₄, h₅, h₆⟩ => ⟨h₁, h₂, h₃, h₄, h₅, h₆⟩,
      fun h => ⟨h.life, h.dead, h.closeReq, h.h2l, h.lkl, h.host⟩⟩

/-- A client sends a byte; poll reports an error event on the LKL socket before the byte is
written; and the client closes. The connection keeps its slot for good. -/
theorem stuck_of_lklErr :
    ∃ s, proxyMachine.Reach (fun _ l => l.Continues) .started s ∧ s.Stuck 0 := by
  have htrace : (Machine.run ProxySys.step (fun _ l => l.Continues)
      (acceptRound ++ connectRound ++ hostReadRound ++ lklErrRound ++ hostEofRound) .started).any
        (fun s => decide (Wedged (s.view 0))) = true := by
    decide +kernel
  obtain ⟨s, hrun, hwedged⟩ := Machine.exists_of_run htrace
  have hreach : proxyMachine.Reach (fun _ l => l.Continues) .started s := Machine.Reach.of_run hrun
  exact ⟨s, hreach, hwedged.stuck (hreach.mono fun _ _ _ => trivial)⟩

end Anyfs.Proxy
