import Anyfs.Proxy.Ring

/-!
# One proxied connection

What the two threads of `host_proxy.c` do to a single connection. The code is cut at its accesses to
what both threads share, so that a step is the load or the store of a flag, one operation on a ring,
or a system call with its result. What belongs to a side is indexed by it: its flags, and the ring
it fills, `h2l` for the host side and `l2h` for the LKL side.
-/

namespace Anyfs.Proxy

open Function

/-- The host and LKL. -/
inductive Side where
  | host
  | lkl
  deriving DecidableEq

def Side.other : Side → Side
  | .host => .lkl
  | .lkl => .host

/-- The atomic flags of a connection. -/
inductive Flag where
  /-- `host_read_eof` and `lkl_read_eof`. -/
  | readEof (sd : Side)
  /-- `host_wr_shut` and `lkl_wr_shut`. -/
  | wrShut (sd : Side)
  /-- `lkl_close_req`. -/
  | closeReq
  deriving DecidableEq

/-- `struct conn`, with what has gone through its sockets. -/
structure Conn where
  lklFd : Option ℕ
  /-- `h2l` and `l2h`, by the side that fills them. -/
  ring : Side → Ring
  flag : Flag → Bool
  /-- What was read from the socket of a side. -/
  received : Side → Bytes
  /-- What was written to the socket of a side. -/
  sent : Side → Bytes
  /-- Whether the socket of a side was shut down for writing. -/
  shut : Side → Bool

namespace Conn

def new : Conn where
  lklFd := none
  ring _ := .new
  flag _ := false
  received _ := []
  sent _ := []
  shut _ := false

variable (c : Conn)

def store (f : Flag) : Conn := { c with flag := update c.flag f true }

def setRing (sd : Side) (r : Ring) : Conn :=
  { c with ring := update c.ring sd r }

def receive (sd : Side) (p : Span) (bs : Bytes) : Conn :=
  { c.setRing sd ((c.ring sd).fill p bs) with
    received := update c.received sd (c.received sd ++ bs) }

def send (sd : Side) (p : Span) (n : UInt64) : Conn :=
  { c with sent := update c.sent sd (c.sent sd ++ (c.ring sd.other).bytes p n) }

def shutdown (sd : Side) : Conn :=
  { c with shut := update c.shut sd true }

def used (sd : Side) : ℕ := (c.ring sd).used

section Simp

variable (c : Conn) (sd : Side) (f g : Flag) (r : Ring) (p : Span) (bs : Bytes)

@[simp] theorem flag_store : (c.store f).flag g = (decide (g = f) || c.flag g) := by
  by_cases h : g = f
  · subst h
    simp [store]
  · simp [store, h]

@[simp] theorem used_new : new.used sd = 0 := Ring.used_new

@[simp] theorem used_setRing_self : (c.setRing sd r).used sd = r.used := by
  simp [used, setRing]

theorem used_setRing_of_ne {sd' : Side} (h : sd' ≠ sd) :
    (c.setRing sd r).used sd' = c.used sd' := by
  simp [used, setRing, h]

@[simp] theorem used_receive : (c.receive sd p bs).used = c.used := by
  funext sd'
  by_cases h : sd' = sd
  · subst h
    exact c.used_setRing_self sd' _
  · exact c.used_setRing_of_ne sd _ h

end Simp

end Conn

@[simp] theorem Side.other_ne (sd : Side) : sd.other ≠ sd := by
  cases sd <;> decide

@[simp] theorem Side.ne_other (sd : Side) : sd ≠ sd.other := sd.other_ne.symm

/-! ### Moving bytes -/

/-- Program points of `lkl_io` and `host_io`. -/
inductive IoPc where
  /-- Before the load of the side's `read_eof`. -/
  | rd
  /-- Before `ring_writable`. -/
  | rdSpan
  /-- Before the read into a span. -/
  | rdCall (p : Span)
  /-- Before `ring_pcommit` of `n` bytes. -/
  | rdCommit (p : Span) (n : UInt64)
  /-- Before the store of the side's `read_eof`. -/
  | rdEof
  /-- Before the load of the side's `wr_shut`. -/
  | wr
  /-- Before `ring_readable`. -/
  | wrSpan
  /-- Before the write of a span. -/
  | wrCall (p : Span)
  /-- Before `ring_ccommit` of `n` bytes. -/
  | wrCommit (p : Span) (n : UInt64)
  /-- The write of a span failed: before the store of the side's `wr_shut`. -/
  | wrFail (p : Span)
  /-- In `host_io`: before the store of `host_read_eof`. -/
  | wrFailEof
  /-- In `host_io`: before the load of `lkl_read_eof`. -/
  | wrFailCheck
  /-- In `host_io`: before the store of `lkl_close_req`. -/
  | wrFailReq
  /-- Before the load of the side's `wr_shut`, once more. -/
  | half
  /-- Before the load of the other side's `read_eof`. -/
  | halfEof
  /-- Before `ring_empty`. -/
  | halfEmpty
  /-- Before the call of `shutdown`. -/
  | shut
  /-- Before the store of the side's `wr_shut`. -/
  | shutStore
  deriving DecidableEq

/-- What a thread meets at a step of its I/O. -/
inductive IoAct where
  | go
  /-- Bytes were read. -/
  | data (bs : Bytes)
  /-- Bytes were written. -/
  | wrote (n : UInt64)
  /-- `EAGAIN`. -/
  | again
  /-- `EINTR`. -/
  | intr
  /-- The end of the input, or any other error. -/
  | fail
  deriving DecidableEq

/-- How a side goes on after a write failed: `lkl_io` leaves it at that, `host_io` asks for a forced
close. -/
def afterWrFail : Side → IoPc
  | .lkl => .half
  | .host => .wrFailEof

/-- One step of moving bytes; the function is left at `none`. -/
def io (sd : Side) (c : Conn) : IoPc → IoAct → Option (Conn × Option IoPc)
  | .rd, .go => some (c, some (if c.flag (.readEof sd) then .wr else .rdSpan))
  | .rdSpan, .go =>
    let p := (c.ring sd).writable
    some (c, some (if p.len = 0 then .wr else .rdCall p))
  | .rdCall p, .data bs =>
    if bs ≠ [] ∧ bs.length ≤ p.len.toNat then
      some (c.receive sd p bs, some (.rdCommit p (.ofNat bs.length)))
    else none
  | .rdCall _, .again => some (c, some .wr)
  | .rdCall _, .intr => some (c, some .rdSpan)
  | .rdCall _, .fail => some (c, some .rdEof)
  | .rdCommit p n, .go =>
    some (c.setRing sd ((c.ring sd).pcommit n), some (if n < p.len then .wr else .rdSpan))
  | .rdEof, .go => some (c.store (.readEof sd), some .wr)
  | .wr, .go => some (c, some (if c.flag (.wrShut sd) then .half else .wrSpan))
  | .wrSpan, .go =>
    let p := (c.ring sd.other).readable
    some (c, some (if p.len = 0 then .half else .wrCall p))
  | .wrCall p, .wrote n =>
    if 0 < n ∧ n ≤ p.len then some (c.send sd p n, some (.wrCommit p n)) else none
  | .wrCall _, .again => some (c, some .half)
  | .wrCall _, .intr => some (c, some .wrSpan)
  | .wrCall p, .fail => some (c, some (.wrFail p))
  | .wrCommit p n, .go =>
    some (c.setRing sd.other ((c.ring sd.other).ccommit n),
      some (if n < p.len then .half else .wrSpan))
  | .wrFail _, .go => some (c.store (.wrShut sd), some (afterWrFail sd))
  | .wrFailEof, .go => some (c.store (.readEof sd), some .wrFailCheck)
  | .wrFailCheck, .go =>
    some (c, some (if c.flag (.readEof sd.other) then .half else .wrFailReq))
  | .wrFailReq, .go => some (c.store .closeReq, some .half)
  | .half, .go => some (c, if c.flag (.wrShut sd) then none else some .halfEof)
  | .halfEof, .go => some (c, if c.flag (.readEof sd.other) then some .halfEmpty else none)
  | .halfEmpty, .go => some (c, if (c.ring sd.other).empty then some .shut else none)
  | .shut, .go => some (c.shutdown sd, some .shutStore)
  | .shutStore, .go => some (c.store (.wrShut sd), none)
  | _, _ => none

def lklIo : Conn → IoPc → IoAct → Option (Conn × Option IoPc) := io .lkl

def hostIo : Conn → IoPc → IoAct → Option (Conn × Option IoPc) := io .host

/-! ### The LKL thread -/

/-- The stores after a failed connect. -/
inductive ConnectFail where
  | hostReadEof
  | hostWrShut
  | lklReadEof
  | lklWrShut
  deriving DecidableEq

/-- The stores of `lkl_do_force_close` to a connection, in their order. -/
inductive ForceClose where
  | lklFd
  | lklReadEof
  | lklWrShut
  | h2l
  | l2h
  deriving DecidableEq

/-- Where the LKL thread is with a connection. -/
inductive LklAt where
  /-- Nowhere. -/
  | out
  /-- It is on the list of `lkl_connect_new`. -/
  | pending
  /-- The connect failed; before a store. -/
  | connectFail (st : ConnectFail)
  /-- In `lkl_do_force_close`; before a store. -/
  | force (st : ForceClose)
  /-- It is in `cset`. -/
  | inSet
  /-- An error event; before the store of `lkl_read_eof`. -/
  | errEof
  /-- An error event; before the store of `lkl_wr_shut`. -/
  | errShut
  /-- In `lkl_io`. -/
  | io (pc : IoPc)
  deriving DecidableEq

/-- The connection is one of `cset` that the LKL thread has not finished with. -/
def LklAt.InCset : LklAt → Prop
  | .inSet | .errEof | .errShut | .io _ => True
  | _ => False

/-- The LKL thread at a connection. -/
def lklCode (c : Conn) : LklAt → IoAct → Option (Conn × LklAt)
  | .connectFail .hostReadEof, .go => some (c.store (.readEof .host), .connectFail .hostWrShut)
  | .connectFail .hostWrShut, .go => some (c.store (.wrShut .host), .connectFail .lklReadEof)
  | .connectFail .lklReadEof, .go => some (c.store (.readEof .lkl), .connectFail .lklWrShut)
  | .connectFail .lklWrShut, .go => some (c.store (.wrShut .lkl), .out)
  | .force .lklFd, .go => some ({ c with lklFd := none }, .force .lklReadEof)
  | .force .lklReadEof, .go => some (c.store (.readEof .lkl), .force .lklWrShut)
  | .force .lklWrShut, .go => some (c.store (.wrShut .lkl), .force .h2l)
  | .force .h2l, .go => some (c.setRing .host (c.ring .host).drain, .force .l2h)
  | .force .l2h, .go => some (c.setRing .lkl (c.ring .lkl).drain, .out)
  | .errEof, .go => some (c.store (.readEof .lkl), .errShut)
  | .errShut, .go => some (c.store (.wrShut .lkl), .io .rd)
  | .io pc, a => (lklIo c pc a).map fun r => (r.1, r.2.elim .out .io)
  | _, _ => none

/-! ### The host thread -/

/-- The steps after an error event on the host. -/
inductive HostErr where
  | hostReadEof
  | hostWrShut
  | check
  | closeReq
  deriving DecidableEq

/-- The tests of `conn_done`, in their order. -/
inductive Done where
  | hostReadEof
  | hostWrShut
  | lklReadEof
  | lklWrShut
  | h2l
  | l2h
  deriving DecidableEq

/-- Where the host thread is with a connection. -/
inductive HostAt where
  /-- Nowhere. -/
  | out
  /-- It is in `clist`. -/
  | listed
  /-- An error event; before a step. -/
  | err (st : HostErr)
  /-- It is in `all`, before the loop over `host_io`. -/
  | swept
  /-- In `host_io`. -/
  | io (pc : IoPc)
  /-- It is in `all`, before the loop over `conn_done`. -/
  | moved
  /-- In `conn_done`; before a test. -/
  | done (st : Done)
  /-- In `conn_free`, before the locked section. -/
  | unlink
  /-- In `conn_free`, after the locked section. -/
  | destroy
  deriving DecidableEq

/-- A step of the host thread inside the code for one connection, up to `conn_free`. -/
def hostCode (c : Conn) : HostAt → IoAct → Option (Conn × HostAt)
  | .err .hostReadEof, .go => some (c.store (.readEof .host), .err .hostWrShut)
  | .err .hostWrShut, .go => some (c.store (.wrShut .host), .err .check)
  | .err .check, .go => some (c, if c.flag (.readEof .lkl) then .out else .err .closeReq)
  | .err .closeReq, .go => some (c.store .closeReq, .out)
  | .io pc, a => (hostIo c pc a).map fun r => (r.1, r.2.elim .moved .io)
  | .done .hostReadEof, .go =>
    some (c, if c.flag (.readEof .host) then .done .hostWrShut else .out)
  | .done .hostWrShut, .go =>
    some (c, if c.flag (.wrShut .host) then .done .lklReadEof else .out)
  | .done .lklReadEof, .go =>
    some (c, if c.flag (.readEof .lkl) then .done .lklWrShut else .out)
  | .done .lklWrShut, .go => some (c, if c.flag (.wrShut .lkl) then .done .h2l else .out)
  | .done .h2l, .go => some (c, if (c.ring .host).empty then .done .l2h else .out)
  | .done .l2h, .go => some (c, if (c.ring .lkl).empty then .unlink else .out)
  | _, _ => none

/-! ### What a step of a thread does -/

/-- The flag a store after a failed connect sets. -/
def ConnectFail.flag : ConnectFail → Flag
  | .hostReadEof => .readEof .host
  | .hostWrShut => .wrShut .host
  | .lklReadEof => .readEof .lkl
  | .lklWrShut => .wrShut .lkl

/-- Where the LKL thread goes on after such a store. -/
def ConnectFail.next : ConnectFail → LklAt
  | .hostReadEof => .connectFail .hostWrShut
  | .hostWrShut => .connectFail .lklReadEof
  | .lklReadEof => .connectFail .lklWrShut
  | .lklWrShut => .out

/-- What a step of `lklCode` does to the connection, and where the thread is then. -/
inductive LklCode (c : Conn) : LklAt → Conn × LklAt → Prop
  | connectFail (st : ConnectFail) : LklCode c (.connectFail st) (c.store st.flag, st.next)
  | forceFd : LklCode c (.force .lklFd) ({ c with lklFd := none }, .force .lklReadEof)
  | forceEof : LklCode c (.force .lklReadEof) (c.store (.readEof .lkl), .force .lklWrShut)
  | forceShut : LklCode c (.force .lklWrShut) (c.store (.wrShut .lkl), .force .h2l)
  | forceH2l : LklCode c (.force .h2l) (c.setRing .host (c.ring .host).drain, .force .l2h)
  | forceL2h : LklCode c (.force .l2h) (c.setRing .lkl (c.ring .lkl).drain, .out)
  | errEof : LklCode c .errEof (c.store (.readEof .lkl), .errShut)
  | errShut : LklCode c .errShut (c.store (.wrShut .lkl), .io .rd)
  | io {pc : IoPc} {a : IoAct} {c' : Conn} {o : Option IoPc} : io .lkl c pc a = some (c', o) →
      LklCode c (.io pc) (c', o.elim .out .io)

theorem lklCode_cases {c : Conn} {w : LklAt} {a : IoAct} {r : Conn × LklAt}
    (h : lklCode c w a = some r) : LklCode c w r := by
  cases w with
  | out | pending | inSet => cases h
  | connectFail st => cases st <;> cases a <;> cases h <;> exact .connectFail _
  | force st => cases st <;> cases a <;> cases h <;> constructor
  | errEof | errShut =>
    cases a <;> cases h
    constructor
  | io pc =>
    obtain ⟨⟨c', o⟩, hio, rfl⟩ := Option.map_eq_some_iff.mp h
    exact .io hio

/-- The outcome of a test of `conn_done`. -/
def Conn.test (c : Conn) : Done → Bool
  | .hostReadEof => c.flag (.readEof .host)
  | .hostWrShut => c.flag (.wrShut .host)
  | .lklReadEof => c.flag (.readEof .lkl)
  | .lklWrShut => c.flag (.wrShut .lkl)
  | .h2l => (c.ring .host).empty
  | .l2h => (c.ring .lkl).empty

/-- Where the host thread goes on after a test that holds. -/
def Done.next : Done → HostAt
  | .hostReadEof => .done .hostWrShut
  | .hostWrShut => .done .lklReadEof
  | .lklReadEof => .done .lklWrShut
  | .lklWrShut => .done .h2l
  | .h2l => .done .l2h
  | .l2h => .unlink

/-- What a step of `hostCode` does to the connection, and where the thread is then. -/
inductive HostCode (c : Conn) : HostAt → Conn × HostAt → Prop
  | errEof : HostCode c (.err .hostReadEof) (c.store (.readEof .host), .err .hostWrShut)
  | errShut : HostCode c (.err .hostWrShut) (c.store (.wrShut .host), .err .check)
  | errSkip : c.flag (.readEof .lkl) = true → HostCode c (.err .check) (c, .out)
  | errAsk : c.flag (.readEof .lkl) = false → HostCode c (.err .check) (c, .err .closeReq)
  | errReq : HostCode c (.err .closeReq) (c.store .closeReq, .out)
  | io {pc : IoPc} {a : IoAct} {c' : Conn} {o : Option IoPc} : io .host c pc a = some (c', o) →
      HostCode c (.io pc) (c', o.elim .moved .io)
  | done {st : Done} : c.test st = true → HostCode c (.done st) (c, st.next)
  | undone {st : Done} : c.test st = false → HostCode c (.done st) (c, .out)

theorem hostCode_cases {c : Conn} {w : HostAt} {a : IoAct} {r : Conn × HostAt}
    (h : hostCode c w a = some r) : HostCode c w r := by
  cases w with
  | out | listed | swept | moved | unlink | destroy => cases h
  | err st =>
    cases st with
    | check =>
      cases a <;> cases h
      split_ifs with heof
      · exact .errSkip heof
      · exact .errAsk (Bool.eq_false_iff.mpr heof)
    | _ =>
      cases a <;> cases h
      constructor
  | io pc =>
    obtain ⟨⟨c', o⟩, hio, rfl⟩ := Option.map_eq_some_iff.mp h
    exact .io hio
  | done st =>
    have htest : r = (c, if c.test st then st.next else .out) := by
      cases st <;> cases a <;> cases h <;> rfl
    subst htest
    split_ifs with hb
    · exact .done hb
    · exact .undone (Bool.eq_false_iff.mpr hb)

end Anyfs.Proxy
