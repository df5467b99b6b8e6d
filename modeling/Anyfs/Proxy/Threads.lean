import Anyfs.Proxy.Life

/-!
# The proxy

The two threads of `host_proxy.c` with the connection table. A section under the lock is one step,
except for `lkl_do_force_close`, which changes connections while it holds the lock. Connections are
numbered in the order in which they are accepted, so that a connection is not confused with a later
one that is given the same memory.
-/

namespace Anyfs.Proxy

open Function

def maxConns : ℕ := 256

/-! ### Program points -/

/-- The loops of the LKL thread: over the connections to make, over the table in
`lkl_do_force_close`, and over `cset`. -/
inductive LklLoop where
  | connect (cs : List ℕ)
  | force (i : ℕ)
  | handle (es : List (ℕ × Bool))

/-- Where the LKL thread is. -/
inductive LklPc where
  /-- Before the test of `running`. -/
  | start
  /-- Before the locked section of `lkl_connect_new`. -/
  | connSnap
  /-- Before `lkl_do_force_close` takes the lock. -/
  | lock
  /-- Before `cset` is taken. -/
  | snap
  /-- With `cset`, up to the result of the poll. -/
  | poll (cs : List ℕ)
  /-- In a loop. -/
  | inLoop (l : LklLoop)
  /-- In the code for a connection, in a loop. -/
  | work (c : ℕ) (w : LklAt) (l : LklLoop)
  /-- The thread has ended. -/
  | exit

/-- The loops of the host thread: over `clist`, over `all` for `host_io`, and for `conn_done`. -/
inductive HostLoop where
  | errs (es : List (ℕ × Bool))
  | ios (cs all : List ℕ)
  | dones (cs : List ℕ)

/-- Where the host thread is. -/
inductive HostPc where
  /-- Before the test of `running`. -/
  | start
  /-- Before `clist` is taken. -/
  | snap
  /-- With `clist`, up to the result of the poll. -/
  | poll (cs : List ℕ)
  /-- In `host_accept`. -/
  | accept (es : List (ℕ × Bool))
  /-- Before `all` is taken. -/
  | sweep
  /-- In a loop. -/
  | inLoop (l : HostLoop)
  /-- In the code for a connection, in a loop. -/
  | work (c : ℕ) (w : HostAt) (l : HostLoop)
  /-- The thread has ended. -/
  | exit

/-! ### The state -/

/-- The table, the slots and records of the connections, what became of them, and the threads. -/
structure ProxySys where
  running : Bool
  /-- `lkl_do_force_close` holds the lock. -/
  locked : Bool
  table : Fin maxConns → Option ℕ
  slot : ℕ → Option (Fin maxConns)
  conn : ℕ → Conn
  life : ℕ → Life
  /-- The next connection to be accepted. -/
  next : ℕ
  lkl : LklPc
  host : HostPc

namespace ProxySys

def started : ProxySys where
  running := true
  locked := false
  table _ := none
  slot _ := none
  conn _ := .new
  life _ := .absent
  next := 0
  lkl := .start
  host := .start

variable (s : ProxySys)

def listed (p : Conn → Bool) : List ℕ :=
  (List.finRange maxConns).filterMap fun i => (s.table i).filter fun c => p (s.conn c)

/-- The connections `lkl_connect_new` takes. -/
def toConnect : List ℕ :=
  s.listed fun c => c.lklFd.isNone && !c.flag (.readEof .lkl)

/-- The connections with an LKL socket. -/
def cset : List ℕ := s.listed fun c => c.lklFd.isSome

def all : List ℕ := s.listed fun _ => true

def setConn (c : ℕ) (r : Conn) : ProxySys :=
  { s with conn := update s.conn c r }

/-- `conn_attach` at a free slot. -/
def attachAt (i : Fin maxConns) : ProxySys :=
  { s with
    table := update s.table i (some s.next)
    slot := update s.slot s.next (some i)
    conn := update s.conn s.next .new
    life := update s.life s.next .attached
    next := s.next + 1 }

/-- `conn_attach` of a new connection to the first free slot, if there is one. -/
def connAttach : Option ProxySys :=
  ((List.finRange maxConns).find? fun i => (s.table i).isNone).map s.attachAt

/-- The locked section of `conn_free`. -/
def connUnlink (c : ℕ) : ProxySys :=
  { s with
    table := fun i => if s.slot c = some i ∧ s.table i = some c then none else s.table i
    life := update s.life c .unlinked }

end ProxySys

/-! ### Steps -/

/-- What decides a step: the result of a system call, or nothing (`io .go`). -/
inductive Answer where
  | io (a : IoAct)
  /-- `socket` and `connect` succeed with a descriptor, or fail. -/
  | connect (fd : Option ℕ)
  /-- The poll fails with `EINTR`. -/
  | pollIntr
  /-- The poll fails otherwise. -/
  | pollFail
  /-- The poll reports whether there are connections to accept, and which sockets have an error
  event. -/
  | pollOk (listen : Bool) (errs : ℕ → Bool)
  /-- A connection was accepted and allocated. -/
  | accept
  /-- `accept` was interrupted, or what it returned could not be used. -/
  | acceptSkip
  /-- There is nothing more to accept. -/
  | acceptEnd

/-- A step: `host_proxy_stop`, or a step of a thread. -/
inductive ProxyAct where
  | stop
  | step (sd : Side) (a : Answer)

namespace ProxySys

/-- Where `lkl_do_force_close` goes on from slot `i`. -/
def forceSlot (s : ProxySys) (i : ℕ) : LklPc :=
  if h : i < maxConns then
    match s.table ⟨i, h⟩ with
    | some c =>
      if (s.conn c).lklFd.isSome ∧ (s.conn c).flag .closeReq then
        .work c (.force .lklFd) (.force (i + 1))
      else .inLoop (.force (i + 1))
    | none => .inLoop (.force (i + 1))
  else .snap

/-- One step of `lkl_thread_fn`. -/
def lklStep (s : ProxySys) (a : Answer) : Option ProxySys :=
  match s.lkl, a with
  | .start, .io .go => some { s with lkl := if s.running then .connSnap else .exit }
  | .connSnap, .io .go => some { s with lkl := .inLoop (.connect s.toConnect) }
  | .inLoop (.connect []), .io .go => some { s with lkl := .lock }
  | .inLoop (.connect (c :: cs)), .connect (some fd) =>
    some { s.setConn c { s.conn c with lklFd := some fd } with lkl := .inLoop (.connect cs) }
  | .inLoop (.connect (c :: cs)), .connect none =>
    some { s with lkl := .work c (.connectFail .hostReadEof) (.connect cs) }
  | .lock, .io .go => some { s with locked := true, lkl := .inLoop (.force 0) }
  | .inLoop (.force i), .io .go =>
    -- the lock is given back after the last slot
    some { s with locked := i < maxConns, lkl := s.forceSlot i }
  | .snap, .io .go => some { s with lkl := .poll s.cset }
  | .poll _, .pollIntr => some { s with lkl := .start }
  | .poll _, .pollFail => some { s with lkl := .exit }
  | .poll cs, .pollOk _ errs =>
    some { s with lkl := .inLoop (.handle (cs.map fun c => (c, errs c))) }
  | .inLoop (.handle []), .io .go => some { s with lkl := .start }
  | .inLoop (.handle ((c, err) :: es)), .io .go =>
    some { s with lkl := .work c (if err then .errEof else .io .rd) (.handle es) }
  | .work c w l, .io a =>
    (lklCode (s.conn c) w a).map fun r =>
      { s.setConn c r.1 with lkl := if r.2 = .out then .inLoop l else .work c r.2 l }
  | _, _ => none

/-- One step of `host_thread_fn`. -/
def hostStep (s : ProxySys) (a : Answer) : Option ProxySys :=
  match s.host, a with
  | .start, .io .go => some { s with host := if s.running then .snap else .exit }
  | .snap, .io .go => if s.locked then none else some { s with host := .poll s.all }
  | .poll _, .pollIntr => some { s with host := .start }
  | .poll _, .pollFail => some { s with host := .exit }
  | .poll cs, .pollOk listen errs =>
    let es := cs.map fun c => (c, errs c)
    some { s with host := if listen then .accept es else .inLoop (.errs es) }
  | .accept _, .accept => if s.locked then none else some (s.connAttach.getD s)
  | .accept _, .acceptSkip => some s
  | .accept es, .acceptEnd => some { s with host := .inLoop (.errs es) }
  | .inLoop (.errs []), .io .go => some { s with host := .sweep }
  | .inLoop (.errs ((c, err) :: es)), .io .go =>
    some { s with
      host := if err then .work c (.err .hostReadEof) (.errs es) else .inLoop (.errs es) }
  | .sweep, .io .go =>
    if s.locked then none else some { s with host := .inLoop (.ios s.all s.all) }
  | .inLoop (.ios [] all), .io .go => some { s with host := .inLoop (.dones all) }
  | .inLoop (.ios (c :: cs) all), .io .go =>
    some { s with
      host := if (s.conn c).lklFd = none then .inLoop (.ios cs all)
        else .work c (.io .rd) (.ios cs all) }
  | .inLoop (.dones []), .io .go => some { s with host := .start }
  | .inLoop (.dones (c :: cs)), .io .go =>
    some { s with host := .work c (.done .hostReadEof) (.dones cs) }
  | .work c .unlink l, .io .go =>
    if s.locked then none else some { s.connUnlink c with host := .work c .destroy l }
  | .work c .destroy l, .io .go =>
    some { s with life := update s.life c .freed, host := .inLoop l }
  | .work c w l, .io a =>
    (hostCode (s.conn c) w a).map fun r =>
      { s.setConn c r.1 with
        host := if r.2 = .out ∨ r.2 = .moved then .inLoop l else .work c r.2 l }
  | _, _ => none

/-- The steps of the proxy. -/
def step (s : ProxySys) : ProxyAct → Option ProxySys
  | .stop => some { s with running := false }
  | .step .lkl a => s.lklStep a
  | .step .host a => s.hostStep a

end ProxySys

def proxyMachine : Machine ProxySys ProxyAct := .ofFun ProxySys.step

/-! ### Rounds of the loops -/

def goSteps (sd : Side) (n : ℕ) : List ProxyAct := List.replicate n (.step sd (.io .go))

def acceptRound : List ProxyAct :=
  goSteps .host 2 ++
    [.step .host (.pollOk true fun _ => false), .step .host .accept, .step .host .acceptEnd] ++
    goSteps .host 7

/-- The LKL thread makes the connection, looks at every slot for a forced close, and takes
`cset`. -/
def connectRound : List ProxyAct :=
  goSteps .lkl 2 ++ [.step .lkl (.connect (some 5))] ++ goSteps .lkl 260

def lklErrRound : List ProxyAct :=
  [.step .lkl (.pollOk false fun _ => true)] ++ goSteps .lkl 6

def hostEofRound : List ProxyAct :=
  goSteps .host 2 ++ [.step .host (.pollOk false fun _ => false)] ++ goSteps .host 6 ++
    [.step .host (.io .fail)] ++ goSteps .host 10

end Anyfs.Proxy
