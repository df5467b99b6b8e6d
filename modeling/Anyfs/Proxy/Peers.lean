import Anyfs.Proxy.Shutdown

/-!
# The peers of a connection

`Net` is what the two peers of a connection have sent and closed, and `Net.Allows` says what the
sockets may answer while both are orderly. Poll reports an error event when both directions of a
socket are shut down, whether or not there is something left to read.
-/

namespace Anyfs.Proxy

open List Option ProxySys ConnSys

/-- The peers at the sockets. -/
structure Net where
  /-- What the peer has sent. -/
  arrived : Side → Bytes
  /-- Whether the peer has closed its sending side. -/
  closed : Side → Bool

namespace Net

def idle : Net := ⟨fun _ => [], fun _ => false⟩

def send (n : Net) (sd : Side) (bs : Bytes) : Net :=
  { n with arrived := Function.update n.arrived sd (n.arrived sd ++ bs) }

def close (n : Net) (sd : Side) : Net := { n with closed := Function.update n.closed sd true }

/-- All that the peer sent was read. -/
def Ended (n : Net) (c : Conn) (sd : Side) : Prop :=
  n.closed sd = true ∧ c.received sd = n.arrived sd

/-- Both directions are shut. -/
def HungUp (n : Net) (c : Conn) (sd : Side) : Prop := n.closed sd = true ∧ c.shut sd = true

/-- A socket's answers. -/
def Answers (n : Net) (c : Conn) (sd : Side) : IoPc → IoAct → Prop
  | .rdCall _, .data bs => c.received sd ++ bs <+: n.arrived sd
  | .rdCall _, .fail => n.Ended c sd
  | .wrCall _, .fail => False
  | _, _ => True

/-- What the sockets of connection `c` may answer in a step of the proxy. -/
def Allows (n : Net) (c : ℕ) (s : ProxySys) : ProxyAct → Prop
  | .stop => True
  | .step .lkl a =>
    match s.lkl, a with
    | .inLoop (.connect (c' :: _)), .connect none => c' ≠ c
    | .poll cs, .pollOk _ errs => c ∈ cs → (errs c = true ↔ n.HungUp (s.conn c) .lkl)
    | .work c' (.io pc) _, .io a => c' = c → n.Answers (s.conn c) .lkl pc a
    | _, _ => True
  | .step .host a =>
    match s.host, a with
    | .poll cs, .pollOk _ errs => c ∈ cs → (errs c = true ↔ n.HungUp (s.conn c) .host)
    | .work c' (.io pc) _, .io a => c' = c → n.Answers (s.conn c) .host pc a
    | _, _ => True

instance (n : Net) (c : Conn) (sd : Side) : Decidable (n.Ended c sd) :=
  inferInstanceAs (Decidable (_ ∧ _))

instance (n : Net) (c : Conn) (sd : Side) : Decidable (n.HungUp c sd) :=
  inferInstanceAs (Decidable (_ ∧ _))

instance (n : Net) (c : Conn) (sd : Side) (pc : IoPc) (a : IoAct) :
    Decidable (n.Answers c sd pc a) := by
  unfold Answers
  split <;> infer_instance

instance (n : Net) (c : ℕ) (s : ProxySys) (l : ProxyAct) : Decidable (n.Allows c s l) := by
  unfold Allows
  split
  · infer_instance
  · split <;> infer_instance
  · split <;> infer_instance

end Net

/-- A step of the proxy or of a peer. -/
inductive NetAct where
  | proxy (l : ProxyAct)
  | send (sd : Side) (bs : Bytes)
  | close (sd : Side)

/-- The steps of proxy and peers. -/
def netStep (c : ℕ) (w : ProxySys × Net) : NetAct → Option (ProxySys × Net)
  | .proxy l => if w.2.Allows c w.1 l then (w.1.step l).map fun s => (s, w.2) else none
  | .send sd bs => if w.2.closed sd then none else some (w.1, w.2.send sd bs)
  | .close sd => some (w.1, w.2.close sd)

def netMachine (c : ℕ) : Machine (ProxySys × Net) NetAct := .ofFun (netStep c)

/-- Poll reports an error event on a socket of connection `c` only when everything that the peer
has sent was read. -/
def HangUpRead (c : ℕ) (w : ProxySys × Net) : NetAct → Prop
  | .proxy (.step sd (.pollOk _ errs)) =>
    errs c = true → (w.1.conn c).received sd = w.2.arrived sd
  | _ => True

instance (c : ℕ) (w : ProxySys × Net) (l : NetAct) : Decidable (HangUpRead c w l) := by
  unfold HangUpRead
  split <;> infer_instance

/-! ### One connection -/

/-- An error event is handled. -/
def ErrEvent (v v' : ConnSys) : Side → Prop
  | .lkl => v.lkl = .inSet ∧ v'.lkl = .errEof
  | .host => v.host = .listed ∧ v'.host = .err .hostReadEof

/-- The step answers the proxy as the peers' doings allow. -/
structure Orderly (n : Net) (v v' : ConnSys) : Prop where
  read : ∀ sd, v.conn.received sd <+: n.arrived sd → v'.conn.received sd <+: n.arrived sd
  eof : ∀ sd p, v.ioAt sd = some (.rdCall p) → v'.ioAt sd = some .rdEof → n.Ended v.conn sd
  write : ∀ sd p, v.ioAt sd = some (.wrCall p) → v'.ioAt sd ≠ some (.wrFail p)
  event : ∀ sd, ErrEvent v v' sd → n.Ended v.conn sd ∧ v.conn.shut sd = true
  connect : v.lkl = .pending → v'.lkl ≠ .connectFail .hostReadEof

def IoPc.Fails : IoPc → Bool
  | .wrFail _ | .wrFailEof | .wrFailCheck | .wrFailReq => true
  | _ => false

/-- Where the LKL thread can be with a connection of orderly peers. -/
def LklCalm (c : Conn) : LklAt → Prop
  | .errEof | .errShut => c.shut .lkl = true
  | .connectFail _ | .force _ => False
  | .io pc => pc.Fails = false
  | _ => True

/-- The host thread met no failure. -/
def HostCalm (c : Conn) : HostAt → Prop
  | .err .closeReq => False
  | .err _ => c.shut .host = true
  | .io pc => pc.Fails = false
  | _ => True

/-- What holds of a connection of orderly peers when no error event comes early. -/
structure PeersOk (n : Net) (v : ConnSys) : Prop where
  read : ∀ sd, v.conn.received sd <+: n.arrived sd
  ending : ∀ sd, v.Ending sd → n.Ended v.conn sd
  eof : ∀ sd, v.conn.flag (.readEof sd) = true → n.Ended v.conn sd
  wrShut : ∀ sd, v.conn.flag (.wrShut sd) = true → v.conn.shut sd = true
  store : ∀ sd, v.ioAt sd = some .shutStore → v.conn.shut sd = true
  closeReq : v.conn.flag .closeReq = false
  lkl : LklCalm v.conn v.lkl
  host : HostCalm v.conn v.host

theorem peersOk_new (n : Net) (l : Life) : PeersOk n ⟨.new, l, .out, .out⟩ where
  read _ := nil_prefix
  ending sd h := by cases sd <;> simp [Ending] at h
  eof _ h := by cases h
  wrShut _ h := by cases h
  store sd h := by cases sd <;> cases h
  closeReq := rfl
  lkl := trivial
  host := trivial

namespace PeersOk

variable {n : Net} {v v' : ConnSys} {act : ConnAct} {sd : Side}

theorem ended_send {x : Conn} {sd' : Side} (hopen : n.closed sd = false) (bs : Bytes)
    (h : n.Ended x sd') : (n.send sd bs).Ended x sd' := by
  obtain ⟨hclosed, heq⟩ := h
  have hne : sd' ≠ sd := by
    rintro rfl
    simp [hopen] at hclosed
  exact ⟨hclosed, by simp [Net.send, hne, heq]⟩

theorem ended_close {x : Conn} {sd' : Side} (sd : Side) (h : n.Ended x sd') :
    (n.close sd).Ended x sd' := by
  refine ⟨?_, h.2⟩
  by_cases hsd : sd' = sd
  · simp [Net.close, hsd]
  · simpa [Net.close, hsd] using h.1

theorem send (h : PeersOk n v) (hopen : n.closed sd = false) (bs : Bytes) :
    PeersOk (n.send sd bs) v := by
  refine { h with
    read := fun sd' => ?_, ending := fun sd' hend => ended_send hopen bs (h.ending sd' hend)
    eof := fun sd' heof => ended_send hopen bs (h.eof sd' heof) }
  by_cases hsd : sd' = sd
  · subst hsd
    simpa [Net.send] using (h.read sd').trans (prefix_append _ bs)
  · simpa [Net.send, hsd] using h.read sd'

theorem close (h : PeersOk n v) (sd : Side) : PeersOk (n.close sd) v :=
  { h with
    ending := fun sd' hend => ended_close sd (h.ending sd' hend)
    eof := fun sd' heof => ended_close sd (h.eof sd' heof) }

variable {c' : Conn}

theorem ended_mono {c : Conn} (hmono : c.received sd <+: c'.received sd)
    (hread : c'.received sd <+: n.arrived sd) (h : n.Ended c sd) : n.Ended c' sd := by
  refine ⟨h.1, ?_⟩
  have hle := hmono.length_le
  rw [h.2] at hle
  exact hread.eq_of_length_le hle

theorem ended_of_endSeen (ho : Orderly n v v') (h : EndSeen v v' sd) : n.Ended v.conn sd := by
  cases sd with
  | lkl =>
    rcases h with ⟨p, hpc, hpc'⟩ | hevent
    · refine ho.eof .lkl p ?_ ?_
      · simp [ioAt, hpc, LklAt.ioPc]
      · simp [ioAt, hpc', LklAt.ioPc]
    · exact (ho.event .lkl hevent).1
  | host =>
    rcases h with ⟨p, hpc, hpc'⟩ | hevent | ⟨p, hpc, hpc'⟩
    · refine ho.eof .host p ?_ ?_
      · simp [ioAt, hpc, HostAt.ioPc]
      · simp [ioAt, hpc', HostAt.ioPc]
    · exact (ho.event .host hevent).1
    · -- no write fails
      refine absurd ?_ (ho.write .host p ?_)
      · simp [ioAt, hpc', HostAt.ioPc]
      · simp [ioAt, hpc, HostAt.ioPc]

variable {a : IoAct}

theorem io_fails {c : Conn} {pc pc' : IoPc} (h : io sd c pc a = some (c', some pc'))
    (hpc : pc.Fails = false) (hpc' : pc'.Fails = true) : ∃ p, pc = .wrCall p ∧ pc' = .wrFail p := by
  generalize ho : some pc' = o at h
  cases pc <;> cases a <;> simp only [io, reduceCtorEq, ite_none_right_eq_some] at h
  case wrCall.fail p =>
    cases h
    cases ho
    exact ⟨p, rfl, rfl⟩
  case rdCall.data | wrCall.wrote =>
    obtain ⟨-, h⟩ := h
    cases h
    cases ho
    cases hpc'
  case wrFail.go | wrFailEof.go | wrFailCheck.go | wrFailReq.go => cases hpc
  all_goals
    cases h
    first
      | (split_ifs at ho <;> cases ho <;> cases hpc')
      | (cases ho <;> cases hpc')

theorem lklCalm_lklCode {w : LklAt} (h : PeersOk n v)
    (hwrite : ∀ p, v.lkl = .io (.wrCall p) → w ≠ .io (.wrFail p))
    (hshut : v.conn.shut .lkl = true → c'.shut .lkl = true)
    (hcode : lklCode v.conn v.lkl a = some (c', w)) : LklCalm c' w := by
  obtain ⟨c, life, w₀, host⟩ := v
  cases lklCode_cases hcode with
  | errEof => exact hshut h.lkl
  | errShut => rfl
  | @io pc a c' o hio =>
    cases o with
    | none => trivial
    | some pc' =>
      refine Bool.eq_false_iff.mpr fun hfails => ?_
      obtain ⟨p, rfl, rfl⟩ := io_fails hio h.lkl hfails
      exact hwrite p rfl rfl
  | _ => exact h.lkl.elim

theorem hostCalm_hostCode {w : HostAt} (h : PeersOk n v)
    (hwrite : ∀ p, v.host = .io (.wrCall p) → w ≠ .io (.wrFail p))
    (heof : v.conn.shut .host = true → v.conn.flag (.readEof .lkl) = true)
    (hshut : v.conn.shut .host = true → c'.shut .host = true)
    (hcode : hostCode v.conn v.host a = some (c', w)) : HostCalm c' w := by
  obtain ⟨c, life, lkl, w₀⟩ := v
  cases hostCode_cases hcode with
  | errEof | errShut => exact hshut h.host
  | errSkip | undone => trivial
  | errAsk hopen =>
    -- the end of the server was seen, or the socket would not be shut down
    cases hopen.symm.trans (heof h.host)
  | errReq => exact h.host.elim
  | @io pc a c' o hio =>
    cases o with
    | none => trivial
    | some pc' =>
      refine Bool.eq_false_iff.mpr fun hfails => ?_
      obtain ⟨p, rfl, rfl⟩ := io_fails hio h.host hfails
      exact hwrite p rfl rfl
  | @done st => cases st <;> trivial

theorem lklCalm_step (h : PeersOk n v) (ho : Orderly n v v')
    (hshut : v.conn.shut .lkl = true → v'.conn.shut .lkl = true) (hs : ConnStep v act v') :
    LklCalm v'.conn v'.lkl := by
  have hkeep : v'.lkl = v.lkl → LklCalm v'.conn v'.lkl := by
    intro heq
    have hlkl := h.lkl
    rw [heq]
    cases hw : v.lkl <;> rw [hw] at hlkl
    case errEof | errShut => exact hshut hlkl
    all_goals exact hlkl
  cases hs with
  | lklConnectFail hpc => exact absurd rfl (ho.connect hpc)
  | lklForce _ _ _ hclose => simp [h.closeReq] at hclose
  | lklStart err hpc =>
    cases err with
    | false => rfl
    | true => exact hshut (ho.event .lkl ⟨hpc, rfl⟩).2
  | lklCode hcode =>
    refine h.lklCalm_lklCode (fun p hpc hpc' => ?_) hshut hcode
    subst hpc'
    exact ho.write .lkl p (by simp [ioAt, hpc, LklAt.ioPc]) rfl
  | lklList | lklConnect | lklSnap | lklDrop => trivial
  | _ => exact hkeep rfl

theorem hostCalm_step (h : PeersOk n v) (ho : Orderly n v v')
    (heof : v.conn.shut .host = true → v.conn.flag (.readEof .lkl) = true)
    (hshut : v.conn.shut .host = true → v'.conn.shut .host = true) (hs : ConnStep v act v') :
    HostCalm v'.conn v'.host := by
  have hkeep : v'.host = v.host → HostCalm v'.conn v'.host := by
    intro heq
    have hhost := h.host
    rw [heq]
    cases hw : v.host <;> rw [hw] at hhost
    case err st =>
      cases st with
      | closeReq => exact hhost
      | _ => exact hshut hhost
    all_goals exact hhost
  cases hs with
  | hostErr hpc => exact hshut (ho.event .host ⟨hpc, rfl⟩).2
  | hostStart =>
    dsimp only
    split_ifs <;> trivial
  | hostCode hcode =>
    refine h.hostCalm_hostCode (fun p hpc hpc' => ?_) heof hshut hcode
    subst hpc'
    exact ho.write .host p (by simp [ioAt, hpc, HostAt.ioPc]) rfl
  | hostList | hostUnlist | hostSweep | hostCheck | unlink | destroy => trivial
  | _ => exact hkeep rfl

theorem shut_of_lklCode {w : LklAt} (hok : ConnOk v) (h : PeersOk n v)
    (hcode : lklCode v.conn v.lkl a = some (c', w)) (hset : c'.flag (.wrShut sd) = true) :
    v.conn.shut sd = true := by
  obtain ⟨c, life, w₀, host⟩ := v
  cases lklCode_cases hcode with
  | errEof => exact h.wrShut sd ((Conn.flag_of_store hset).resolve_left nofun)
  | errShut =>
    rcases Conn.flag_of_store hset with heq | hset
    · cases heq
      exact h.lkl
    · exact h.wrShut sd hset
  | io hio =>
    cases sd with
    | host => exact h.wrShut .host ((io_guar hok.lkl hio).wrShut.symm.trans hset)
    | lkl =>
      rcases (io_store hio).2.1 hset with hset | ⟨p, rfl⟩ | rfl
      · exact h.wrShut .lkl hset
      · cases h.lkl
      · exact h.store .lkl rfl
  | _ => exact h.lkl.elim

theorem shut_of_hostCode {w : HostAt} (hok : ConnOk v) (h : PeersOk n v)
    (hcode : hostCode v.conn v.host a = some (c', w)) (hset : c'.flag (.wrShut sd) = true) :
    v.conn.shut sd = true := by
  obtain ⟨c, life, lkl, w₀⟩ := v
  cases hostCode_cases hcode with
  | errEof => exact h.wrShut sd ((Conn.flag_of_store hset).resolve_left nofun)
  | errShut =>
    rcases Conn.flag_of_store hset with heq | hset
    · cases heq
      exact h.host
    · exact h.wrShut sd hset
  | errReq => exact h.host.elim
  | io hio =>
    cases sd with
    | lkl => exact h.wrShut .lkl ((io_guar hok.host hio).wrShut.symm.trans hset)
    | host =>
      rcases (io_store hio).2.1 hset with hset | ⟨p, rfl⟩ | rfl
      · exact h.wrShut .host hset
      · cases h.host
      · exact h.store .host rfl
  | errSkip | errAsk | done | undone => exact h.wrShut sd hset

theorem closeReq_of_hostCode {w : HostAt} (h : PeersOk n v)
    (hcode : hostCode v.conn v.host a = some (c', w)) : c'.flag .closeReq = false := by
  refine Bool.eq_false_iff.mpr fun hset => Bool.false_ne_true (h.closeReq.symm.trans ?_)
  obtain ⟨c, life, lkl, w₀⟩ := v
  cases hostCode_cases hcode with
  | errEof | errShut => exact (Conn.flag_of_store hset).resolve_left nofun
  | errReq => exact h.host.elim
  | io hio =>
    rcases (io_store hio).2.2 hset with hset | rfl
    · exact hset
    · cases h.host
  | errSkip | errAsk | done | undone => exact hset

theorem shut_of_shutStore (hok : ConnOk v) (hdone : LklDone v.conn v.lkl) (h : PeersOk n v)
    (hs : ConnStep v act v') (hpc : v'.ioAt sd = some .shutStore) : v'.conn.shut sd = true := by
  cases hs.moves hok hdone with
  | attach _ hfresh => simp [hfresh] at hpc
  | @io sd' pc a o hpc₀ hio ho hother =>
    by_cases hsd : sd' = sd
    · subst hsd
      obtain ⟨-, -, hcall, hstore, -⟩ := io_half hio
      obtain rfl : pc = .shut := hstore (ho.symm.trans hpc)
      rw [(hcall rfl).2]
      simp [Conn.shutdown]
    · obtain rfl : sd' = sd.other := by cases sd <;> cases sd' <;> simp_all [Side.other]
      rw [Side.other_other] at hother
      exact (io_grows hio sd).2 (h.store sd (hother ▸ hpc))
  | quiet _ _ hshut _ _ hio =>
    rw [hshut]
    rcases hio sd with heq | ⟨-, hrd⟩
    · exact h.store sd (heq ▸ hpc)
    · simp [hrd] at hpc

theorem step (hok : ConnOk v) (hdone : LklDone v.conn v.lkl)
    (heof : v.conn.shut .host = true → v.conn.flag (.readEof .lkl) = true) (h : PeersOk n v)
    (ho : Orderly n v v') (hs : ConnStep v act v') : PeersOk n v' := by
  have hread : ∀ sd, v'.conn.received sd <+: n.arrived sd := fun sd => ho.read sd (h.read sd)
  have hstore : ∀ sd, v'.ioAt sd = some .shutStore → v'.conn.shut sd = true :=
    fun sd => h.shut_of_shutStore hok hdone hs
  rcases hs.sockets hok hdone with rfl | hgrows
  · exact peersOk_new n .attached
  · have hended : ∀ sd, n.Ended v.conn sd → n.Ended v'.conn sd := fun sd =>
      ended_mono (hgrows sd).1 (hread sd)
    have hlkl := h.lklCalm_step ho (hgrows .lkl).2 hs
    have hhost := h.hostCalm_step ho heof (hgrows .host).2 hs
    refine ⟨hread, fun sd hend => ?_, fun sd hset => ?_, fun sd hset => ?_, hstore, ?_, hlkl, hhost⟩
    · rcases ending_step hs hend with hend | hseen
      · exact hended sd (h.ending sd hend)
      · exact hended sd (ended_of_endSeen ho hseen)
    · rcases readEof_step hok hs hset with hset | hend | ⟨st, hst⟩ | ⟨-, st, hst⟩
      · exact hended sd (h.eof sd hset)
      · exact hended sd (h.ending sd hend)
      · rw [hst] at hlkl
        exact hlkl.elim
      · have hcalm := h.lkl
        rw [hst] at hcalm
        exact hcalm.elim
    · refine (hgrows sd).2 ?_
      cases hs with
      | attach => cases hset
      | lklCode hcode => exact h.shut_of_lklCode hok hcode hset
      | hostCode hcode => exact h.shut_of_hostCode hok hcode hset
      | _ => exact h.wrShut sd hset
    · cases hs with
      | attach => rfl
      | lklCode hcode => exact (hok.lklGuar hcode).closeReq.trans h.closeReq
      | hostCode hcode => exact h.closeReq_of_hostCode hcode
      | _ => exact h.closeReq

end PeersOk

/-! ### The threads -/

section Threads

variable {n : Net} {s s' : ProxySys} {a : Answer} {c : ℕ}

variable {x' : Conn} {b : IoAct}

theorem Net.Answers.io {sd : Side} {x : Conn} {pc : IoPc} {o : Option IoPc}
    (h : n.Answers x sd pc b) (hio : Proxy.io sd x pc b = some (x', o)) :
    (x.received sd <+: n.arrived sd → x'.received sd <+: n.arrived sd) ∧
      (∀ p, pc = .rdCall p → o = some .rdEof → n.Ended x sd) ∧
      ∀ p, pc = .wrCall p → o ≠ some (.wrFail p) := by
  rcases (io_calls hio).1 with hrecv | ⟨p, rfl⟩
  · rw [hrecv]
    refine ⟨id, ?_, ?_⟩
    · rintro p rfl rfl
      cases b <;> simp [Proxy.io] at hio
      exact h
    · rintro p rfl rfl
      cases b <;> simp [Proxy.io] at hio
      exact h
  · cases b <;> simp only [Proxy.io, reduceCtorEq, ite_none_right_eq_some] at hio
    case data bs =>
      obtain ⟨-, hio⟩ := hio
      cases hio
      have hnext : x.received sd ++ bs <+: n.arrived sd := h
      exact ⟨fun _ => by simpa [Conn.receive] using hnext, by rintro _ _ ⟨⟩, by rintro _ ⟨⟩⟩
    case fail =>
      cases hio
      exact ⟨id, fun _ _ _ => h, by rintro _ ⟨⟩⟩
    all_goals
      cases hio
      exact ⟨id, by rintro _ _ ⟨⟩, by rintro _ ⟨⟩⟩

theorem lklStep_work {w : LklAt} {l : LklLoop} (hpc : s.lkl = .work c w l)
    (h : s.lklStep a = some s') :
    ∃ b r, a = .io b ∧ lklCode (s.conn c) w b = some r ∧
      s' = { s.setConn c r.1 with lkl := if r.2 = .out then .inLoop l else .work c r.2 l } := by
  unfold lklStep at h
  rw [hpc] at h
  cases a with
  | io b =>
    obtain ⟨r, hr, rfl⟩ := map_eq_some_iff.mp h
    exact ⟨b, r, rfl, hr, rfl⟩
  | _ => cases h

theorem lklStep_other (h : s.lklStep a = some s') (hwork : ∀ w l, s.lkl ≠ .work c w l) :
    (s'.conn c).received = (s.conn c).received := by
  cases lklStep_move h with
  | @connect c' _ _ hpc =>
    by_cases hc : c = c'
    · subst hc
      simp [setConn]
    · simp [setConn, hc]
  | @code c' w l _ _ hpc =>
    have hc : c ≠ c' := by
      rintro rfl
      exact hwork w l hpc
    simp [setConn, hc]
  | _ => rfl

theorem lklStep_enter {w : LklAt} (h : s.lklStep a = some s')
    (hpc : ∀ w l, s.lkl ≠ .work c w l) (hpc' : s'.lkl.atConn c = w) (hw : w.Works) :
    (∃ cs, s.lkl = .inLoop (.connect (c :: cs)) ∧ w = .connectFail .hostReadEof) ∨
      w = .force .lklFd ∨
      ∃ err es, s.lkl = .inLoop (.handle ((c, err) :: es)) ∧
        w = if err then .errEof else .io .rd := by
  obtain ⟨l, hl⟩ := LklPc.eq_work hpc' hw
  cases lklStep_move h with
  | idle b _ hout => exact ((hout c ▸ hpc') ▸ hw).elim
  | drop _ hout => exact ((hout c ▸ hpc') ▸ hw).elim
  | list | connect | ready | snap => cases hl
  | connectFail hs =>
    cases hl
    exact .inl ⟨_, hs, rfl⟩
  | force =>
    cases hl
    exact .inr (.inl rfl)
  | start hs =>
    cases hl
    exact .inr (.inr ⟨_, _, hs, rfl⟩)
  | code hs =>
    dsimp only at hl
    split_ifs at hl
    cases hl
    exact absurd hs (hpc _ _)

theorem lklCode_received {x : Conn} {w w' : LklAt} (hw : w.ioPc = none)
    (h : lklCode x w b = some (x', w')) : x'.received = x.received := by
  cases lklCode_cases h with
  | io => cases hw
  | _ => rfl

variable {v : ConnSys}

theorem orderly_quiet {v' : ConnSys}
    (hread : ∀ sd, v.conn.received sd <+: n.arrived sd → v'.conn.received sd <+: n.arrived sd)
    (hio : ∀ sd, v'.ioAt sd = v.ioAt sd ∨ v.ioAt sd = none)
    (hevent : ∀ sd, ErrEvent v v' sd → n.Ended v.conn sd ∧ v.conn.shut sd = true)
    (hconnect : v.lkl = .pending → v'.lkl ≠ .connectFail .hostReadEof) : Orderly n v v' := by
  refine ⟨hread, fun sd p hpc hpc' => ?_, fun sd p hpc hpc' => ?_, hevent, hconnect⟩
  · rcases hio sd with heq | heq <;> simp_all
  · rcases hio sd with heq | heq <;> simp_all

theorem orderly_code (sd : Side) {v' : ConnSys} (hother : v'.ioAt sd.other = v.ioAt sd.other)
    (hquiet : v.ioAt sd = none → v'.conn.received = v.conn.received)
    (hio : ∀ pc, v.ioAt sd = some pc →
      n.Answers v.conn sd pc b ∧ io sd v.conn pc b = some (v'.conn, v'.ioAt sd))
    (hevent : ∀ sd, ¬ ErrEvent v v' sd)
    (hconnect : v.lkl = .pending → v'.lkl ≠ .connectFail .hostReadEof) : Orderly n v v' := by
  have hsd (sd' : Side) : sd' = sd ∨ sd' = sd.other := by
    cases sd <;> cases sd' <;> simp [Side.other]
  cases hpc : v.ioAt sd with
  | none =>
    refine orderly_quiet (fun sd' => ?_) (fun sd' => ?_) (fun sd' he => (hevent sd' he).elim)
      hconnect
    · rw [hquiet hpc]
      exact id
    · rcases hsd sd' with rfl | rfl
      · exact .inr hpc
      · exact .inl hother
  | some pc =>
    obtain ⟨hanswers, hstep⟩ := hio pc hpc
    obtain ⟨hread, heof, hwrite⟩ := hanswers.io hstep
    refine ⟨fun sd' => ?_, fun sd' p hp hp' => ?_, fun sd' p hp hp' => ?_,
      fun sd' he => (hevent sd' he).elim, hconnect⟩
    · rcases hsd sd' with rfl | rfl
      · exact hread
      · rw [(io_socket hstep).1]
        exact id
    · rcases hsd sd' with rfl | rfl
      · exact heof p (some.inj (hpc.symm.trans hp)) hp'
      · simp_all
    · rcases hsd sd' with rfl | rfl
      · exact hwrite p (some.inj (hpc.symm.trans hp)) hp'
      · simp_all

theorem orderly_lklCode {w' : LklAt} (hanswers : ∀ pc, v.lkl = .io pc → n.Answers v.conn .lkl pc b)
    (hcode : lklCode v.conn v.lkl b = some (x', w')) :
    Orderly n v { v with conn := x', lkl := w' } := by
  refine orderly_code (b := b) .lkl rfl (fun hio => lklCode_received hio hcode)
    (fun pc hpc => ?_) ?_ fun hp => ?_
  · have hio : v.lkl = .io pc := LklAt.ioPc_eq_some.mp hpc
    rw [hio] at hcode
    obtain ⟨⟨x₁, o⟩, hstep, heq⟩ := map_eq_some_iff.mp hcode
    cases heq
    exact ⟨hanswers pc hio, by cases o <;> exact hstep⟩
  · rintro (_ | _) ⟨hp, hp'⟩
    · cases hp.symm.trans hp'
    · rw [hp] at hcode
      cases hcode
  · rw [hp] at hcode
    cases hcode

theorem orderly_lkl (hwf : s.Wf) (hallows : n.Allows c s (.step .lkl a))
    (hevent : ∀ es, s.lkl = .inLoop (.handle ((c, true) :: es)) →
      n.Ended (s.conn c) .lkl ∧ (s.conn c).shut .lkl = true)
    (h : s.lklStep a = some s') : Orderly n (s.view c) (s'.view c) := by
  have hhost : (s'.view c).host = (s.view c).host :=
    congrArg (HostPc.atConn c) (lklStep_frame h).2.1
  by_cases hwork : ∃ w l, s.lkl = .work c w l
  · -- in the code for the connection
    obtain ⟨w, l, hpc⟩ := hwork
    obtain ⟨b, ⟨x', w'⟩, rfl, hcode, rfl⟩ := lklStep_work hpc h
    have hlkl := hwf.lkl
    rw [hpc] at hlkl
    have hw : (s.view c).lkl = w := by simp [view, hpc, LklPc.atConn]
    have hw' : LklPc.atConn c (if w' = .out then .inLoop l else .work c w' l) = w' := by
      split_ifs with hout
      · exact hlkl.2.atConn.trans hout.symm
      · exact if_pos rfl
    have hview : view { s.setConn c x' with
        lkl := if w' = .out then .inLoop l else .work c w' l } c =
        { s.view c with conn := x', lkl := w' } := by
      simp [view, setConn, hw']
    rw [hview]
    refine orderly_lklCode (fun pc hio => ?_) (hw.symm ▸ hcode)
    obtain rfl : w = .io pc := hw.symm.trans hio
    have hanswers : n.Answers (s.conn c) .lkl pc b := by simpa [Net.Allows, hpc] using hallows
    exact hanswers
  · -- elsewhere
    push Not at hwork
    have hrecv : (s'.view c).conn.received = (s.view c).conn.received := lklStep_other h hwork
    refine orderly_quiet (fun sd => ?_) ?_ ?_ ?_
    · rw [hrecv]
      exact id
    · rintro (_ | _)
      · exact .inl (congrArg HostAt.ioPc hhost)
      · refine .inr (eq_none_iff_forall_ne_some.mpr fun pc hpc => ?_)
        obtain ⟨l, hl⟩ := LklPc.eq_work (LklAt.ioPc_eq_some.mp hpc) trivial
        exact hwork _ l hl
    · rintro (_ | _) ⟨hpc, hpc'⟩
      · cases hpc.symm.trans (hhost.symm.trans hpc')
      · rcases lklStep_enter h hwork hpc' trivial with ⟨_, -, heq⟩ | heq | ⟨err, es, hes, heq⟩
        · cases heq
        · cases heq
        · cases err with
          | false => cases heq
          | true => exact hevent es hes
    · intro _ hpc'
      rcases lklStep_enter h hwork hpc' trivial with ⟨cs, hcs, -⟩ | heq | ⟨err, es, hes, heq⟩
      · unfold lklStep at h
        rw [hcs] at h
        cases a with
        | connect fd =>
          cases fd with
          | none => simp [Net.Allows, hcs] at hallows
          | some fd =>
            cases h
            have hnot := LklLoop.not_works (.connect cs) c
            rw [show LklLoop.atConn c (.connect cs) = .connectFail .hostReadEof from hpc'] at hnot
            exact hnot trivial
        | io b => cases b <;> cases h
        | _ => cases h
      · cases heq
      · cases err <;> cases heq

theorem hostStep_work {w : HostAt} {l : HostLoop} (hpc : s.host = .work c w l)
    (hw : w ≠ .unlink ∧ w ≠ .destroy) (h : s.hostStep a = some s') :
    ∃ b r, a = .io b ∧ hostCode (s.conn c) w b = some r ∧
      s' = { s.setConn c r.1 with
        host := if r.2 = .out ∨ r.2 = .moved then .inLoop l else .work c r.2 l } := by
  unfold hostStep at h
  rw [hpc] at h
  cases a with
  | io b =>
    cases w with
    | unlink => exact absurd rfl hw.1
    | destroy => exact absurd rfl hw.2
    | _ =>
      obtain ⟨r, hr, rfl⟩ := map_eq_some_iff.mp h
      exact ⟨b, r, rfl, hr, rfl⟩
  | _ => cases w <;> cases h

theorem hostStep_other (h : s.hostStep a = some s')
    (hwork : ∀ w l, s.host = .work c w l → w = .unlink ∨ w = .destroy) :
    (s'.conn c).received = (s.conn c).received ∨ s'.conn c = .new := by
  cases hostStep_move h with
  | attach =>
    by_cases hc : c = s.next
    · subst hc
      exact .inr (by simp [attachAt])
    · exact .inl (by simp [attachAt, hc])
  | @code c' w l _ _ hpc hcode =>
    have hc : c ≠ c' := by
      rintro rfl
      rcases hwork w l hpc with rfl | rfl <;> cases hcode
    exact .inl (by simp [setConn, hc])
  | _ => exact .inl rfl

theorem hostStep_err (h : s.hostStep a = some s') (hpc : s.host.atConn c = .listed)
    (hpc' : s'.host.atConn c = .err .hostReadEof) :
    ∃ es, s.host = .inLoop (.errs ((c, true) :: es)) := by
  obtain ⟨l, hl⟩ := HostPc.eq_work hpc' trivial
  cases hostStep_move h with
  | idle hsame => simp [hsame, hpc] at hpc'
  | drop _ hout => simp [hout] at hpc'
  | attach => simp [attachAt, hpc] at hpc'
  | err hs =>
    cases hl
    exact ⟨_, hs⟩
  | code hs hcode =>
    dsimp only at hl
    split_ifs at hl
    obtain ⟨rfl, -⟩ := HostPc.work.inj hl
    rw [hs, HostPc.atConn, if_pos rfl] at hpc
    rw [hpc] at hcode
    cases hcode
  | _ => cases hl

theorem hostCode_received {x : Conn} {w w' : HostAt} (hw : w.ioPc = none)
    (h : hostCode x w b = some (x', w')) : x'.received = x.received := by
  cases hostCode_cases h with
  | io => cases hw
  | _ => rfl

theorem orderly_hostCode {w' : HostAt}
    (hanswers : ∀ pc, v.host = .io pc → n.Answers v.conn .host pc b)
    (hcode : hostCode v.conn v.host b = some (x', w')) :
    Orderly n v { v with conn := x', host := w' } := by
  refine orderly_code (b := b) .host rfl (fun hio => hostCode_received hio hcode)
    (fun pc hpc => ?_) ?_ fun hp => by simp [hp]
  · have hio : v.host = .io pc := HostAt.ioPc_eq_some.mp hpc
    rw [hio] at hcode
    obtain ⟨⟨x₁, o⟩, hstep, heq⟩ := map_eq_some_iff.mp hcode
    cases heq
    exact ⟨hanswers pc hio, by cases o <;> exact hstep⟩
  · rintro (_ | _) ⟨hp, hp'⟩
    · rw [hp] at hcode
      cases hcode
    · cases hp.symm.trans hp'

theorem orderly_host (hwf : s.Wf) (hallows : n.Allows c s (.step .host a))
    (hevent : ∀ es, s.host = .inLoop (.errs ((c, true) :: es)) →
      n.Ended (s.conn c) .host ∧ (s.conn c).shut .host = true)
    (h : s.hostStep a = some s') : Orderly n (s.view c) (s'.view c) := by
  have hlkl : (s'.view c).lkl = (s.view c).lkl :=
    congrArg (LklPc.atConn c) (hostStep_frame h).2.1
  by_cases hwork : ∃ w l, s.host = .work c w l ∧ w ≠ .unlink ∧ w ≠ .destroy
  · -- in the code for the connection
    obtain ⟨w, l, hpc, hfree⟩ := hwork
    obtain ⟨b, ⟨x', w'⟩, rfl, hcode, rfl⟩ := hostStep_work hpc hfree h
    have hhost := hwf.host
    rw [hpc] at hhost
    have hw : (s.view c).host = w := by simp [view, hpc, HostPc.atConn]
    have hw' : HostPc.atConn c (if w' = .out ∨ w' = .moved then .inLoop l else .work c w' l) =
        w' := by
      have hnext := hhost.2.next hcode
      split_ifs at hnext ⊢
      · exact hnext
      · exact if_pos rfl
    have hview : view { s.setConn c x' with
        host := if w' = .out ∨ w' = .moved then .inLoop l else .work c w' l } c =
        { s.view c with conn := x', host := w' } := by
      simp [view, setConn, hw']
    rw [hview]
    refine orderly_hostCode (fun pc hio => ?_) (hw.symm ▸ hcode)
    obtain rfl : w = .io pc := hw.symm.trans hio
    have hanswers : n.Answers (s.conn c) .host pc b := by simpa [Net.Allows, hpc] using hallows
    exact hanswers
  · -- elsewhere
    have hfree : ∀ w l, s.host = .work c w l → w = .unlink ∨ w = .destroy := by
      intro w l hpc
      by_contra hw
      exact hwork ⟨w, l, hpc, not_or.mp hw⟩
    refine orderly_quiet (fun sd hprev => ?_) ?_ ?_ fun hpc hpc' => ?_
    · rcases hostStep_other h hfree with heq | heq
      · have hsame : (s'.view c).conn.received sd = (s.view c).conn.received sd := congrFun heq sd
        exact hsame.symm ▸ hprev
      · have hnew : (s'.view c).conn.received sd = [] := by
          simp [view, heq, Conn.new]
        exact hnew ▸ nil_prefix
    · rintro (_ | _)
      · refine .inr (eq_none_iff_forall_ne_some.mpr fun pc hpc => ?_)
        obtain ⟨l, hl⟩ := HostPc.eq_work (HostAt.ioPc_eq_some.mp hpc) trivial
        rcases hfree _ l hl with heq | heq <;> cases heq
      · exact .inl (congrArg LklAt.ioPc hlkl)
    · rintro (_ | _) ⟨hpc, hpc'⟩
      · obtain ⟨es, hes⟩ := hostStep_err h hpc hpc'
        exact hevent es hes
      · cases hpc.symm.trans (hlkl.symm.trans hpc')
    · cases hpc.symm.trans (hlkl.symm.trans hpc')

/-! ### Error events -/

def LklPc.events : LklPc → List (ℕ × Bool)
  | .inLoop (.handle es) | .work _ _ (.handle es) => es
  | _ => []

def HostPc.events : HostPc → List (ℕ × Bool)
  | .accept es | .inLoop (.errs es) | .work _ _ (.errs es) => es
  | _ => []

open HostPc

theorem LklPc.events_work (c : ℕ) (w : LklAt) (l : LklLoop) :
    (LklPc.work c w l).events = (LklPc.inLoop l).events := by
  cases l <;> rfl

theorem HostPc.events_work (c : ℕ) (w : HostAt) (l : HostLoop) :
    (work c w l).events = (inLoop l).events := by
  cases l <;> rfl

theorem LklPc.atConn_ne_out {pc : LklPc} {err : Bool} (hwf : pc.Wf) (h : (c, err) ∈ pc.events) :
    pc.atConn c ≠ .out := by
  have hin : ∀ {es : List (ℕ × Bool)}, (c, err) ∈ es → LklLoop.atConn c (.handle es) = .inSet :=
    fun hmem => if_pos (mem_map_of_mem hmem)
  cases pc with
  | inLoop l =>
    cases l with
    | handle es =>
      have heq : LklPc.atConn c (.inLoop (.handle es)) = .inSet := hin h
      simp [heq]
    | _ => cases h
  | work c' w l =>
    cases l with
    | handle es =>
      -- the loop is past the connection it works on
      have hne : c ≠ c' := by
        rintro rfl
        have hes : LklLoop.atConn c (.handle es) = .inSet := hin h
        cases hes.symm.trans hwf.2.atConn
      have heq : LklPc.atConn c (.work c' w (.handle es)) = .inSet := (if_neg hne).trans (hin h)
      simp [heq]
    | _ => cases h
  | _ => cases h

theorem HostPc.atConn_ne_out {pc : HostPc} {err : Bool} (hwf : pc.Wf) (h : (c, err) ∈ pc.events) :
    pc.atConn c ≠ .out := by
  have hin : ∀ {es : List (ℕ × Bool)}, (c, err) ∈ es → HostLoop.atConn c (.errs es) = .listed :=
    fun hmem => if_pos (mem_map_of_mem hmem)
  cases pc with
  | accept es =>
    have heq : atConn c (.accept es) = .listed := hin h
    simp [heq]
  | inLoop l =>
    cases l with
    | errs es =>
      have heq : atConn c (.inLoop (.errs es)) = .listed := hin h
      simp [heq]
    | _ => cases h
  | work c' w l =>
    cases l with
    | errs es =>
      have hne : c ≠ c' := by
        rintro rfl
        have hmem : c ∈ es.map Prod.fst := mem_map_of_mem h
        have hruns : (HostLoop.errs es).Runs c w := hwf.2
        cases w <;> simp_all [HostLoop.Runs]
      have heq : atConn c (.work c' w (.errs es)) = .listed := (if_neg hne).trans (hin h)
      simp [heq]
    | _ => cases h
  | _ => cases h

theorem mem_map_errs {cs : List ℕ} {errs : ℕ → Bool} {err : Bool} :
    (c, err) ∈ cs.map (fun c => (c, errs c)) ↔ c ∈ cs ∧ errs c = err := by
  simp only [List.mem_map, Prod.mk.injEq]
  constructor
  · rintro ⟨c', hc', rfl, rfl⟩
    exact ⟨hc', rfl⟩
  · rintro ⟨hc, rfl⟩
    exact ⟨c, hc, rfl, rfl⟩

theorem lklStep_events (h : s.lklStep a = some s') (hmem : (c, true) ∈ s'.lkl.events) :
    (c, true) ∈ s.lkl.events ∨
      ∃ cs b errs, s.lkl = .poll cs ∧ a = .pollOk b errs ∧ c ∈ cs ∧ errs c = true := by
  by_cases hpoll : ∃ cs, s.lkl = .poll cs
  · obtain ⟨cs, hpc⟩ := hpoll
    unfold lklStep at h
    rw [hpc] at h
    cases a with
    | pollOk b errs =>
      cases h
      exact .inr ⟨cs, b, errs, hpc, rfl, mem_map_errs.mp hmem⟩
    | pollIntr | pollFail =>
      cases h
      cases hmem
    | _ => cases h
  · cases lklStep_move h with
    | idle b _ hout hwf => exact absurd (hout c) (LklPc.atConn_ne_out hwf hmem)
    | drop hpc => exact absurd ⟨_, hpc⟩ hpoll
    | ready _ hpc => exact absurd ⟨_, hpc⟩ hpoll
    | list | connect | connectFail | force | snap => cases hmem
    | start hpc =>
      rw [hpc]
      exact .inl (mem_cons_of_mem _ hmem)
    | code hpc =>
      rw [hpc, LklPc.events_work]
      dsimp only at hmem
      split_ifs at hmem
      · exact .inl hmem
      · rw [LklPc.events_work] at hmem
        exact .inl hmem

theorem hostStep_events (h : s.hostStep a = some s') (hmem : (c, true) ∈ s'.host.events) :
    (c, true) ∈ s.host.events ∨
      ∃ cs b errs, s.host = .poll cs ∧ a = .pollOk b errs ∧ c ∈ cs ∧ errs c = true := by
  unfold hostStep at h
  split at h
  · -- the test of `running`
    cases h
    dsimp only at hmem
    split_ifs at hmem <;> cases hmem
  · obtain ⟨-, h⟩ := ite_none_left_eq_some.mp h
    cases h
    cases hmem
  · cases h
    cases hmem
  · cases h
    cases hmem
  · -- the poll
    rename_i cs b errs hpc
    cases h
    refine .inr ⟨cs, b, errs, hpc, rfl, mem_map_errs.mp ?_⟩
    dsimp only at hmem
    split_ifs at hmem <;> exact hmem
  · -- `host_accept`
    obtain ⟨-, h⟩ := ite_none_left_eq_some.mp h
    cases h
    rcases s.connAttach_cases with heq | ⟨i, -, heq⟩
    · rw [heq] at hmem
      exact .inl hmem
    · rw [heq] at hmem
      exact .inl hmem
  · cases h
    exact .inl hmem
  · rename_i hpc
    cases h
    rw [hpc]
    exact .inl hmem
  · cases h
    cases hmem
  · -- the error events
    rename_i c' err es hpc
    cases h
    rw [hpc]
    refine .inl (mem_cons_of_mem _ ?_)
    dsimp only at hmem
    split_ifs at hmem <;> exact hmem
  · obtain ⟨-, h⟩ := ite_none_left_eq_some.mp h
    cases h
    cases hmem
  · cases h
    cases hmem
  · cases h
    dsimp only at hmem
    split_ifs at hmem <;> cases hmem
  · cases h
    cases hmem
  · cases h
    cases hmem
  · -- `conn_free`
    rename_i hpc
    obtain ⟨-, h⟩ := ite_none_left_eq_some.mp h
    cases h
    rw [hpc, events_work]
    rw [events_work] at hmem
    exact .inl hmem
  · rename_i hpc
    cases h
    rw [hpc, events_work]
    exact .inl hmem
  · -- the code for a connection
    rename_i hpc
    obtain ⟨r, -, rfl⟩ := map_eq_some_iff.mp h
    rw [hpc, events_work]
    dsimp only at hmem
    split_ifs at hmem
    · exact .inl hmem
    · rw [events_work] at hmem
      exact .inl hmem
  · cases h

end Threads

/-! ### Every run -/

/-- What holds of the proxy with the peers of connection `c` in a run in which no error event comes
early. -/
structure NetOk (c : ℕ) (w : ProxySys × Net) : Prop where
  reach : proxyMachine.Reach (fun _ _ => True) .started w.1
  peers : PeersOk w.2 (w.1.view c)
  /-- The error events that are still to be taken up. -/
  lkl : (c, true) ∈ w.1.lkl.events →
    w.2.Ended (w.1.conn c) .lkl ∧ (w.1.conn c).shut .lkl = true
  host : (c, true) ∈ w.1.host.events →
    w.2.Ended (w.1.conn c) .host ∧ (w.1.conn c).shut .host = true

section Runs

variable {c : ℕ} {w w' : ProxySys × Net} {s' : ProxySys}

theorem NetOk.peers_step {s : ProxySys} {n : Net} {l : ProxyAct} (hok : NetOk c (s, n))
    (ho : Orderly n (s.view c) (s'.view c)) (h : s.step l = some s') : PeersOk n (s'.view c) := by
  rcases conn_step hok.reach h c with heq | ⟨act, hs⟩
  · rw [heq]
    exact hok.peers
  · obtain ⟨seen, hshut⟩ := exists_shutOk hok.reach c .host
    exact hok.peers.step ((reach_ok hok.reach).2 c)
      (ProxySys.reach_relayOk hok.reach c).done (fun h => (hshut.shut h).1.1) ho hs

theorem NetOk.ended_step {s : ProxySys} {n : Net} {l : ProxyAct} {sd : Side}
    (hok : NetOk c (s, n)) (hpeers : PeersOk n (s'.view c)) (h : s.step l = some s')
    (hfresh : s'.view c ≠ .fresh) (hended : n.Ended (s.conn c) sd ∧ (s.conn c).shut sd = true) :
    n.Ended (s'.conn c) sd ∧ (s'.conn c).shut sd = true := by
  rcases conn_step hok.reach h c with heq | ⟨act, hs⟩
  · have hconn : s'.conn c = s.conn c := congrArg ConnSys.conn heq
    rw [hconn]
    exact hended
  · rcases hs.sockets ((reach_ok hok.reach).2 c)
      (ProxySys.reach_relayOk hok.reach c).done with heq | hgrows
    · exact absurd heq hfresh
    · exact ⟨PeersOk.ended_mono (hgrows sd).1 (hpeers.read sd) hended.1, (hgrows sd).2 hended.2⟩

theorem NetOk.proxy {s : ProxySys} {n : Net} {l : ProxyAct} (hok : NetOk c (s, n))
    (hallows : n.Allows c s l) (hguard : HangUpRead c (s, n) (.proxy l))
    (h : s.step l = some s') : NetOk c (s', n) := by
  have hreach : proxyMachine.Reach (fun _ _ => True) .started s' := .step hok.reach trivial h
  have hwf := (reach_ok hok.reach).1
  have hwf' := (reach_ok hreach).1
  -- a connection with an event to be taken up is not a new one
  have hlkl : ∀ {err}, (c, err) ∈ s'.lkl.events → s'.view c ≠ .fresh := fun hmem hfresh =>
    LklPc.atConn_ne_out hwf'.lkl hmem (congrArg ConnSys.lkl hfresh)
  have hhost : ∀ {err}, (c, err) ∈ s'.host.events → s'.view c ≠ .fresh := fun hmem hfresh =>
    HostPc.atConn_ne_out hwf'.host hmem (congrArg ConnSys.host hfresh)
  cases l with
  | stop =>
    cases h
    exact ⟨hreach, hok.peers, hok.lkl, hok.host⟩
  | step sd a =>
    cases sd with
    | lkl =>
      have hpeers := hok.peers_step (orderly_lkl hwf hallows
        (fun es hes => hok.lkl (by rw [hes]; exact mem_cons_self)) h) h
      refine ⟨hreach, hpeers, fun hmem => ?_, fun hmem => ?_⟩
      · refine hok.ended_step hpeers h (hlkl hmem) ?_
        rcases lklStep_events h hmem with hmem | ⟨cs, b, errs, hpc, rfl, hc, herr⟩
        · exact hok.lkl hmem
        · have hup : n.HungUp (s.conn c) .lkl := by
            simp only [Net.Allows, hpc] at hallows
            exact (hallows hc).mp herr
          exact ⟨⟨hup.1, hguard herr⟩, hup.2⟩
      · refine hok.ended_step hpeers h (hhost hmem) (hok.host ?_)
        rwa [← (lklStep_frame h).2.1]
    | host =>
      have hpeers := hok.peers_step (orderly_host hwf hallows
        (fun es hes => hok.host (by rw [hes]; exact mem_cons_self)) h) h
      refine ⟨hreach, hpeers, fun hmem => ?_, fun hmem => ?_⟩
      · refine hok.ended_step hpeers h (hlkl hmem) (hok.lkl ?_)
        rwa [← (hostStep_frame h).2.1]
      · refine hok.ended_step hpeers h (hhost hmem) ?_
        rcases hostStep_events h hmem with hmem | ⟨cs, b, errs, hpc, rfl, hc, herr⟩
        · exact hok.host hmem
        · have hup : n.HungUp (s.conn c) .host := by
            simp only [Net.Allows, hpc] at hallows
            exact (hallows hc).mp herr
          exact ⟨⟨hup.1, hguard herr⟩, hup.2⟩

theorem reach_netOk (h : (netMachine c).Reach (HangUpRead c) (.started, .idle) w) : NetOk c w := by
  refine h.invariant (P := NetOk c) ⟨.refl, peersOk_new .idle .absent,
    fun hmem => absurd hmem not_mem_nil, fun hmem => absurd hmem not_mem_nil⟩ ?_
  rintro ⟨s, n⟩ l w' hok hguard hs
  have hs : netStep c (s, n) l = some w' := hs
  cases l with
  | proxy l =>
    obtain ⟨hallows, hs⟩ := ite_none_right_eq_some.mp hs
    obtain ⟨s', hs', rfl⟩ := map_eq_some_iff.mp hs
    exact hok.proxy hallows hguard hs'
  | send sd bs =>
    obtain ⟨hopen, hs⟩ := ite_none_left_eq_some.mp hs
    cases hs
    have hopen : n.closed sd = false := Bool.eq_false_iff.mpr hopen
    exact ⟨hok.reach, hok.peers.send hopen bs,
      fun hmem => (hok.lkl hmem).imp_left (PeersOk.ended_send hopen bs),
      fun hmem => (hok.host hmem).imp_left (PeersOk.ended_send hopen bs)⟩
  | close sd =>
    cases hs
    exact ⟨hok.reach, hok.peers.close sd,
      fun hmem => (hok.lkl hmem).imp_left (PeersOk.ended_close sd),
      fun hmem => (hok.host hmem).imp_left (PeersOk.ended_close sd)⟩

/-- If poll reports an error event only when everything was read, then whatever a peer sends and
closes is delivered before the socket of the other peer is shut down or closed. -/
theorem sent_eq_arrived_of_hangUpRead (h : (netMachine c).Reach (HangUpRead c) (.started, .idle) w)
    (sd : Side) (hend : (w.1.conn c).shut sd = true ∨ w.1.life c = .freed) :
    w.2.closed sd.other = true ∧ (w.1.conn c).sent sd = w.2.arrived sd.other := by
  have hok := reach_netOk h
  have hview : connMachine.Reach (fun _ _ => True) .absent (w.1.view c) :=
    reach_view (fun _ _ _ _ _ _ _ => trivial) hok.reach c
  have hshut : (w.1.view c).conn.shut sd = true := by
    rcases hend with hshut | hfreed
    · exact hshut
    · have hdead := (Conn.finished_iff.mp (reach_finished hview (.inr hfreed))).1
      exact hok.peers.wrShut sd (hdead sd).2
  obtain ⟨seen, hshutOk⟩ := exists_shutOk hok.reach c sd
  obtain ⟨⟨heof, -⟩, hsent, -⟩ := hshutOk.shut hshut
  obtain ⟨hclosed, hrecv⟩ := hok.peers.eof sd.other heof
  exact ⟨hclosed, hsent.trans hrecv⟩

end Runs

/-- A client sends a byte and half-closes; the byte is delivered before the server's socket is shut
down. -/
theorem sent_eq_arrived_of_client :
    ∃ w, (netMachine 0).Reach (HangUpRead 0) (.started, .idle) w ∧
      (w.1.conn 0).shut .lkl = true ∧ w.2.arrived .host = [7] ∧
      (w.1.conn 0).sent .lkl = w.2.arrived .host := by
  have htrace : (Machine.run (netStep 0) (HangUpRead 0)
      ((acceptRound ++ connectRound).map .proxy ++ [.send .host [7], .close .host] ++
        (hostReadRound ++ hostEofRound ++ lklWriteRound).map .proxy)
      (.started, .idle)).any (fun w => decide
        ((w.1.conn 0).shut .lkl = true ∧ w.2.arrived .host = [7])) = true := by
    decide +kernel
  obtain ⟨w, hrun, hshut, harrived⟩ := Machine.exists_of_run htrace
  have hreach : (netMachine 0).Reach (HangUpRead 0) (.started, .idle) w := Machine.Reach.of_run hrun
  exact ⟨w, hreach, hshut, harrived, (sent_eq_arrived_of_hangUpRead hreach .lkl (.inl hshut)).2⟩

def lklShutRound : List ProxyAct :=
  [.step .lkl (.pollOk false fun _ => false)] ++ goSteps .lkl 3 ++ [.step .lkl (.io .again)] ++
    goSteps .lkl 270

def hostShutRound : List ProxyAct :=
  goSteps .host 2 ++ [.step .host (.pollOk false fun _ => false)] ++ goSteps .host 11

/-- A client half-closes; the server sends a byte and closes. Poll reports the error event with the
byte, which is lost. -/
theorem sent_ne_arrived_of_halfClose :
    ∃ w, (netMachine 0).Reach (fun _ _ => True) (.started, .idle) w ∧
      (w.1.conn 0).shut .host = true ∧ w.2.arrived .lkl = [1] ∧ (w.1.conn 0).sent .host = [] := by
  have htrace : (Machine.run (netStep 0) (fun _ _ => True)
      ((acceptRound ++ connectRound).map .proxy ++ [.close .host] ++
        (hostEofRound ++ lklShutRound).map .proxy ++ [.send .lkl [1], .close .lkl] ++
        (lklErrRound ++ hostShutRound).map .proxy)
      (.started, .idle)).any (fun w => decide ((w.1.conn 0).shut .host = true ∧
        w.2.arrived .lkl = [1] ∧ (w.1.conn 0).sent .host = [])) = true := by
    decide +kernel
  obtain ⟨w, hrun, hlost⟩ := Machine.exists_of_run htrace
  exact ⟨w, Machine.Reach.of_run hrun, hlost⟩

end Anyfs.Proxy
