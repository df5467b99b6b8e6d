import Anyfs.Lib.Machine
import Anyfs.Proxy.Conn

/-!
# The life of one connection

`LklOk` and `HostOk` say what holds at the program points of a thread, `LklGuar` and `HostGuar` what
the steps of a thread may change; the assertions of the other thread are stable under that
(`reach_connOk`).
-/

namespace Anyfs.Proxy

open Option

/-- What became of a connection. `conn_free` takes it out of the table before it is freed. -/
inductive Life where
  | absent
  | attached
  | unlinked
  | freed
  deriving DecidableEq

/-- One connection with both threads. -/
structure ConnSys where
  conn : Conn
  life : Life
  lkl : LklAt
  host : HostAt

/-- What happens to it. -/
inductive ConnAct where
  /-- `conn_attach`. -/
  | attach
  /-- `lkl_connect_new` lists it. -/
  | lklList
  /-- The result of its connect: a descriptor, or an error. -/
  | lklConnect (fd : Option ℕ)
  /-- `lkl_do_force_close` gets to it. -/
  | lklForce
  /-- It is taken into `cset`. -/
  | lklSnap
  /-- The poll fails, and with it the round of the loop. -/
  | lklDrop
  /-- The loop over `cset` gets to it, with or without an error event. -/
  | lklStart (err : Bool)
  /-- A step inside the LKL thread's code for it. -/
  | lklCode (a : IoAct)
  /-- It is taken into `clist`. -/
  | hostList
  /-- It has no error event. -/
  | hostUnlist
  /-- It has an error event. -/
  | hostErr
  /-- It is taken into `all`. -/
  | hostSweep
  /-- The loop over `host_io` gets to it. -/
  | hostStart
  /-- The loop over `conn_done` gets to it. -/
  | hostCheck
  /-- A step inside the host thread's code for it. -/
  | hostCode (a : IoAct)
  /-- The locked section of `conn_free`. -/
  | unlink
  /-- The rest of `conn_free`. -/
  | destroy

/-- The steps of the two threads at one connection. -/
inductive ConnStep : ConnSys → ConnAct → ConnSys → Prop
  | attach {v : ConnSys} : v.life = .absent → v.host = .out →
      ConnStep v .attach { v with conn := .new, life := .attached }
  | lklList {v : ConnSys} : v.life = .attached → v.lkl = .out → v.conn.lklFd = none →
      v.conn.flag (.readEof .lkl) = false → ConnStep v .lklList { v with lkl := .pending }
  | lklConnect {v : ConnSys} (fd : ℕ) : v.lkl = .pending →
      ConnStep v (.lklConnect (some fd))
        { v with conn := { v.conn with lklFd := some fd }, lkl := .out }
  | lklConnectFail {v : ConnSys} : v.lkl = .pending →
      ConnStep v (.lklConnect none) { v with lkl := .connectFail .hostReadEof }
  | lklForce {v : ConnSys} : v.life = .attached → v.lkl = .out → v.conn.lklFd ≠ none →
      v.conn.flag .closeReq = true → ConnStep v .lklForce { v with lkl := .force .lklFd }
  | lklSnap {v : ConnSys} : v.life = .attached → v.lkl = .out → v.conn.lklFd ≠ none →
      ConnStep v .lklSnap { v with lkl := .inSet }
  | lklDrop {v : ConnSys} : v.lkl = .inSet → ConnStep v .lklDrop { v with lkl := .out }
  | lklStart {v : ConnSys} (err : Bool) : v.lkl = .inSet →
      ConnStep v (.lklStart err) { v with lkl := if err then .errEof else .io .rd }
  | lklCode {v : ConnSys} {a : IoAct} {c' : Conn} {w : LklAt} :
      lklCode v.conn v.lkl a = some (c', w) →
      ConnStep v (.lklCode a) { v with conn := c', lkl := w }
  | hostList {v : ConnSys} : v.life = .attached → v.host = .out →
      ConnStep v .hostList { v with host := .listed }
  | hostUnlist {v : ConnSys} : v.host = .listed → ConnStep v .hostUnlist { v with host := .out }
  | hostErr {v : ConnSys} : v.host = .listed →
      ConnStep v .hostErr { v with host := .err .hostReadEof }
  | hostSweep {v : ConnSys} : v.life = .attached → v.host = .out →
      ConnStep v .hostSweep { v with host := .swept }
  | hostStart {v : ConnSys} : v.host = .swept →
      ConnStep v .hostStart
        { v with host := if v.conn.lklFd = none then .moved else .io .rd }
  | hostCheck {v : ConnSys} : v.host = .moved →
      ConnStep v .hostCheck { v with host := .done .hostReadEof }
  | hostCode {v : ConnSys} {a : IoAct} {c' : Conn} {w : HostAt} :
      hostCode v.conn v.host a = some (c', w) →
      ConnStep v (.hostCode a) { v with conn := c', host := w }
  | unlink {v : ConnSys} : v.host = .unlink →
      ConnStep v .unlink { v with life := .unlinked, host := .destroy }
  | destroy {v : ConnSys} : v.host = .destroy →
      ConnStep v .destroy { v with life := .freed, host := .out }

/-- One connection on its own. -/
def connMachine : Machine ConnSys ConnAct := ⟨ConnStep⟩

def ConnSys.absent : ConnSys := ⟨.new, .absent, .out, .out⟩

/-! ### Moving bytes -/

/-- What holds at the program points of `lkl_io` and `host_io`. -/
def IoOk (sd : Side) (c : Conn) : IoPc → Prop
  | .rd | .wr | .half => True
  | .rdSpan | .rdEof => c.flag (.readEof sd) = false
  | .rdCall p =>
    c.flag (.readEof sd) = false ∧ 0 < p.len.toNat ∧ c.used sd + p.len.toNat ≤ ringCap.toNat
  | .rdCommit p n =>
    c.flag (.readEof sd) = false ∧ (0 < n.toNat ∧ n.toNat ≤ p.len.toNat) ∧
      c.used sd + p.len.toNat ≤ ringCap.toNat
  | .wrSpan | .halfEof | .halfEmpty | .shut | .shutStore => c.flag (.wrShut sd) = false
  | .wrCall p | .wrFail p =>
    c.flag (.wrShut sd) = false ∧ 0 < p.len.toNat ∧ p.len.toNat ≤ c.used sd.other
  | .wrCommit p n =>
    c.flag (.wrShut sd) = false ∧ (0 < n.toNat ∧ n.toNat ≤ p.len.toNat) ∧
      p.len.toNat ≤ c.used sd.other
  -- only `host_io` gets here
  | .wrFailEof => sd = .host ∧ c.flag (.wrShut sd) = true
  | .wrFailCheck | .wrFailReq =>
    sd = .host ∧ c.flag (.wrShut sd) = true ∧ c.flag (.readEof sd) = true

/-- What a side may do to a connection while it moves bytes: set its own flags, fill its own ring
unless it has seen the end of its input, and empty the other ring unless it has stopped
writing. -/
structure IoGuar (sd : Side) (c c' : Conn) : Prop where
  lklFd : c'.lklFd = c.lklFd
  mono : ∀ f, c.flag f = true → c'.flag f = true
  readEof : c'.flag (.readEof sd.other) = c.flag (.readEof sd.other)
  wrShut : c'.flag (.wrShut sd.other) = c.flag (.wrShut sd.other)
  closeReq : c'.flag .closeReq = c.flag .closeReq ∨
    (sd = .host ∧ c.flag (.readEof sd) = true ∧ c.flag (.wrShut sd) = true)
  fills : c.used sd ≤ c'.used sd
  fits : c.used sd ≤ ringCap.toNat → c'.used sd ≤ ringCap.toNat
  filled : c.flag (.readEof sd) = true → c'.used sd = c.used sd
  drains : c'.used sd.other ≤ c.used sd.other
  drained : c.flag (.wrShut sd) = true → c'.used sd.other = c.used sd.other

namespace IoGuar

variable {sd : Side} {c c' : Conn}

theorem of_eq (hfd : c'.lklFd = c.lklFd) (hflag : c'.flag = c.flag) (hused : c'.used = c.used) :
    IoGuar sd c c' where
  lklFd := hfd
  mono f h := by rwa [hflag]
  readEof := by rw [hflag]
  wrShut := by rw [hflag]
  closeReq := by rw [hflag]; exact .inl rfl
  fills := by rw [hused]
  fits h := by rwa [hused]
  filled _ := by rw [hused]
  drains := by rw [hused]
  drained _ := by rw [hused]

theorem store {f : Flag} (h : f = .readEof sd ∨ f = .wrShut sd) : IoGuar sd c (c.store f) :=
  { of_eq (c := c) rfl rfl rfl with
    mono := fun g hg => by simp [hg]
    readEof := by rcases h with rfl | rfl <;> simp
    wrShut := by rcases h with rfl | rfl <;> simp
    closeReq := by rcases h with rfl | rfl <;> simp }

theorem storeCloseReq (hsd : sd = .host) (hread : c.flag (.readEof sd) = true)
    (hwrite : c.flag (.wrShut sd) = true) : IoGuar sd c (c.store .closeReq) :=
  { of_eq (c := c) rfl rfl rfl with
    mono := fun g hg => by simp [hg]
    readEof := by simp
    wrShut := by simp
    closeReq := .inr ⟨hsd, hread, hwrite⟩ }

theorem pcommit {n : UInt64} (hread : c.flag (.readEof sd) = false)
    (hfits : c.used sd + n.toNat ≤ ringCap.toNat) :
    IoGuar sd c (c.setRing sd ((c.ring sd).pcommit n)) := by
  have hlt : c.used sd + n.toNat < 2 ^ 64 := hfits.trans_lt ringCap.toNat_lt
  have hused : (c.setRing sd ((c.ring sd).pcommit n)).used sd = c.used sd + n.toNat := by
    rw [Conn.used_setRing_self]
    exact Ring.used_pcommit hlt
  have hother := c.used_setRing_of_ne sd ((c.ring sd).pcommit n) sd.other_ne
  refine { of_eq (c := c) rfl rfl rfl with
    fills := by omega, fits := by omega, filled := fun h => ?_, drains := hother.le
    drained := fun _ => hother }
  simp [hread] at h

theorem ccommit {n : UInt64} (hwrite : c.flag (.wrShut sd) = false)
    (hle : n.toNat ≤ c.used sd.other) :
    IoGuar sd c (c.setRing sd.other ((c.ring sd.other).ccommit n)) := by
  have hused : (c.setRing sd.other ((c.ring sd.other).ccommit n)).used sd.other =
      c.used sd.other - n.toNat := by
    rw [Conn.used_setRing_self]
    exact Ring.used_ccommit hle
  have hself := c.used_setRing_of_ne sd.other ((c.ring sd.other).ccommit n) sd.ne_other
  refine { of_eq (c := c) rfl rfl rfl with
    fills := hself.ge, fits := hself.trans_le, filled := fun _ => hself, drains := by omega
    drained := fun h => ?_ }
  simp [hwrite] at h

end IoGuar

section Io

variable {sd : Side} {c c' : Conn} {pc pc' : IoPc} {a : IoAct} {o : Option IoPc}

theorem io_guar (hok : IoOk sd c pc) (h : io sd c pc a = some (c', o)) : IoGuar sd c c' := by
  cases pc <;> cases a <;> simp only [io, reduceCtorEq] at h
  case rdCall.data p bs =>
    obtain ⟨-, h⟩ := ite_none_right_eq_some.mp h
    cases h
    exact .of_eq rfl rfl (by simp)
  case rdCommit.go p n =>
    cases h
    obtain ⟨hread, ⟨-, hle⟩, hfits⟩ := hok
    exact .pcommit hread (by omega)
  case rdEof.go =>
    cases h
    exact .store (.inl rfl)
  case wrCall.wrote p n =>
    obtain ⟨-, h⟩ := ite_none_right_eq_some.mp h
    cases h
    exact .of_eq rfl rfl rfl
  case wrCommit.go p n =>
    cases h
    obtain ⟨hwrite, ⟨-, hle⟩, hused⟩ := hok
    exact .ccommit hwrite (by omega)
  case wrFail.go p =>
    cases h
    exact .store (.inr rfl)
  case wrFailEof.go =>
    cases h
    exact .store (.inl rfl)
  case wrFailReq.go =>
    cases h
    exact .storeCloseReq hok.1 hok.2.2 hok.2.1
  case shutStore.go =>
    cases h
    exact .store (.inr rfl)
  -- loads, spans and results that move nothing
  all_goals
    cases h
    exact .of_eq rfl rfl rfl

theorem io_ok (hcap : c.used sd ≤ ringCap.toNat) (hok : IoOk sd c pc)
    (h : io sd c pc a = some (c', some pc')) : IoOk sd c' pc' := by
  cases pc <;> cases a <;> simp only [io, reduceCtorEq, some.injEq, Prod.mk.injEq,
    ite_none_right_eq_some, and_false] at h
  case rdCall.data p bs =>
    obtain ⟨⟨hne, hle⟩, rfl, rfl⟩ := h
    have hn : (UInt64.ofNat bs.length).toNat = bs.length :=
      UInt64.toNat_ofNat_of_lt' (hle.trans_lt p.len.toNat_lt)
    obtain ⟨hread, -, hfits⟩ := hok
    refine ⟨hread, ?_, by simpa using hfits⟩
    rw [hn]
    exact ⟨List.length_pos_of_ne_nil hne, hle⟩
  case wrCall.wrote p n =>
    obtain ⟨⟨hpos, hle⟩, rfl, rfl⟩ := h
    exact ⟨hok.1, ⟨UInt64.lt_iff_toNat_lt.mp hpos, UInt64.le_iff_toNat_le.mp hle⟩, hok.2.2⟩
  all_goals obtain ⟨rfl, h⟩ := h
  case rd.go =>
    subst h
    split_ifs with hread
    · trivial
    · exact Bool.eq_false_iff.mpr hread
  case rdSpan.go =>
    -- only the other side empties the ring, so the span stays free
    subst h
    by_cases hlen : (c.ring sd).writable.len = 0
    · rw [if_pos hlen]
      trivial
    · rw [if_neg hlen]
      have hpos : 0 < (c.ring sd).writable.len := UInt64.pos_iff_ne_zero.mpr hlen
      exact ⟨hok, UInt64.lt_iff_toNat_lt.mp hpos, Ring.used_add_writable hcap⟩
  case rdCall.again => subst h; trivial
  case rdCall.intr => subst h; exact hok.1
  case rdCall.fail => subst h; exact hok.1
  case rdCommit.go =>
    subst h
    split_ifs
    · trivial
    · exact hok.1
  case rdEof.go => subst h; trivial
  case wr.go =>
    subst h
    split_ifs with hwrite
    · trivial
    · exact Bool.eq_false_iff.mpr hwrite
  case wrSpan.go =>
    subst h
    by_cases hlen : (c.ring sd.other).readable.len = 0
    · rw [if_pos hlen]
      trivial
    · rw [if_neg hlen]
      have hpos : 0 < (c.ring sd.other).readable.len := UInt64.pos_iff_ne_zero.mpr hlen
      exact ⟨hok, UInt64.lt_iff_toNat_lt.mp hpos, Ring.readable_le_used _⟩
  case wrCall.again => subst h; trivial
  case wrCall.intr => subst h; exact hok.1
  case wrCall.fail => subst h; exact hok
  case wrCommit.go =>
    subst h
    split_ifs
    · trivial
    · exact hok.1
  case wrFail.go =>
    subst h
    cases sd with
    | lkl => trivial
    | host => exact ⟨rfl, by simp⟩
  case wrFailEof.go =>
    subst h
    exact ⟨hok.1, by simp [hok.2], by simp⟩
  case wrFailCheck.go =>
    subst h
    split_ifs
    · trivial
    · exact hok
  case wrFailReq.go => subst h; trivial
  case half.go =>
    split_ifs at h with hwrite
    cases h
    exact Bool.eq_false_iff.mpr hwrite
  case halfEof.go =>
    obtain ⟨-, rfl⟩ := h
    exact hok
  case halfEmpty.go =>
    obtain ⟨-, rfl⟩ := h
    exact hok
  case shut.go => subst h; exact hok

end Io

/-! ### The program points of the threads -/

/-- Everything `conn_done` tests. -/
structure Conn.Finished (c : Conn) : Prop where
  hostReadEof : c.flag (.readEof .host) = true
  hostWrShut : c.flag (.wrShut .host) = true
  lklReadEof : c.flag (.readEof .lkl) = true
  lklWrShut : c.flag (.wrShut .lkl) = true
  h2l : c.used .host = 0
  l2h : c.used .lkl = 0

/-- What the LKL thread knows where it is. -/
def LklOk (c : Conn) : LklAt → Prop
  | .pending => c.lklFd = none ∧ c.flag (.readEof .lkl) = false
  | .connectFail st =>
    c.lklFd = none ∧ (st = .lklWrShut ∨ c.flag (.readEof .lkl) = false)
  | .force _ => c.flag .closeReq = true
  | .io pc => IoOk .lkl c pc
  | _ => True

/-- What holds where the host thread is: what it has stored, or seen in `conn_done`. -/
def HostOk (c : Conn) : HostAt → Prop
  | .err .hostWrShut => c.flag (.readEof .host) = true
  | .err .check | .err .closeReq =>
    c.flag (.readEof .host) = true ∧ c.flag (.wrShut .host) = true
  | .io pc => IoOk .host c pc
  | .done .hostWrShut => c.flag (.readEof .host) = true
  | .done .lklReadEof => c.flag (.readEof .host) = true ∧ c.flag (.wrShut .host) = true
  | .done .lklWrShut =>
    (c.flag (.readEof .host) = true ∧ c.flag (.wrShut .host) = true) ∧
      c.flag (.readEof .lkl) = true
  | .done .h2l =>
    (c.flag (.readEof .host) = true ∧ c.flag (.wrShut .host) = true) ∧
      c.flag (.readEof .lkl) = true ∧ c.flag (.wrShut .lkl) = true
  | .done .l2h =>
    ((c.flag (.readEof .host) = true ∧ c.flag (.wrShut .host) = true) ∧
      c.flag (.readEof .lkl) = true ∧ c.flag (.wrShut .lkl) = true) ∧ c.used .host = 0
  | .unlink | .destroy => c.Finished
  | _ => True

/-- The host thread is in `host_io`. -/
def HostAt.InIo : HostAt → Prop
  | .io _ => True
  | _ => False

/-- What the LKL thread may do to a connection: besides what it does in `lkl_io`, set the host's
flags of a connection it could not connect, and empty the ring of a host that has stopped
writing. -/
structure LklGuar (c c' : Conn) : Prop where
  mono : ∀ f, c.flag f = true → c'.flag f = true
  hostFlags : (c'.flag (.readEof .host) = c.flag (.readEof .host) ∧
      c'.flag (.wrShut .host) = c.flag (.wrShut .host)) ∨
    (c.lklFd = none ∧ c.flag (.readEof .lkl) = false)
  closeReq : c'.flag .closeReq = c.flag .closeReq
  h2l : c'.used .host ≤ c.used .host
  l2h : c.used .lkl ≤ c'.used .lkl ∨ c.flag (.wrShut .host) = true
  fits : c.used .lkl ≤ ringCap.toNat → c'.used .lkl ≤ ringCap.toNat
  filled : c.flag (.readEof .lkl) = true → c'.used .lkl ≤ c.used .lkl

/-- What the host thread may do to a connection is what it does in `host_io`. -/
abbrev HostGuar (c c' : Conn) : Prop := IoGuar .host c c'

section Stability

variable {c c' : Conn}

theorem IoGuar.lklGuar (h : IoGuar .lkl c c') : LklGuar c c' where
  mono := h.mono
  hostFlags := .inl ⟨h.readEof, h.wrShut⟩
  closeReq := by
    rcases h.closeReq with heq | ⟨hsd, -⟩
    · exact heq
    · cases hsd
  h2l := h.drains
  l2h := .inl h.fills
  fits := h.fits
  filled hread := (h.filled hread).le

theorem IoOk.stable {sd : Side} {pc : IoPc}
    (hread : c'.flag (.readEof sd) = c.flag (.readEof sd))
    (hwrite : c'.flag (.wrShut sd) = c.flag (.wrShut sd)) (hown : c'.used sd ≤ c.used sd)
    (hother : c.flag (.wrShut sd) = false → c.used sd.other ≤ c'.used sd.other)
    (hok : IoOk sd c pc) : IoOk sd c' pc := by
  cases pc with
  | rd | wr | half => trivial
  | rdSpan | rdEof => exact hread.trans hok
  | rdCall p =>
    obtain ⟨hok, hpos, hfits⟩ := hok
    exact ⟨hread.trans hok, hpos, by omega⟩
  | rdCommit p n =>
    obtain ⟨hok, hn, hfits⟩ := hok
    exact ⟨hread.trans hok, hn, by omega⟩
  | wrSpan | halfEof | halfEmpty | shut | shutStore => exact hwrite.trans hok
  | wrCall p | wrFail p =>
    obtain ⟨hok, hpos, hle⟩ := hok
    exact ⟨hwrite.trans hok, hpos, hle.trans (hother hok)⟩
  | wrCommit p n =>
    obtain ⟨hok, hn, hle⟩ := hok
    exact ⟨hwrite.trans hok, hn, hle.trans (hother hok)⟩
  | wrFailEof => exact ⟨hok.1, hwrite.trans hok.2⟩
  | wrFailCheck | wrFailReq => exact ⟨hok.1, hwrite.trans hok.2.1, hread.trans hok.2.2⟩

theorem LklOk.stable {w : LklAt} (h : HostGuar c c') (hok : LklOk c w) : LklOk c' w := by
  cases w with
  | out | inSet | errEof | errShut => trivial
  | pending => exact ⟨h.lklFd.trans hok.1, h.readEof.trans hok.2⟩
  | connectFail st => exact ⟨h.lklFd.trans hok.1, hok.2.imp_right h.readEof.trans⟩
  | force st => exact h.mono _ hok
  | io pc => exact IoOk.stable h.readEof h.wrShut h.drains (fun _ => h.fills) hok

theorem HostOk.stable {w : HostAt} (h : LklGuar c c')
    (hflags : w.InIo → c'.flag (.readEof .host) = c.flag (.readEof .host) ∧
      c'.flag (.wrShut .host) = c.flag (.wrShut .host)) (hok : HostOk c w) : HostOk c' w := by
  have hpair : ∀ {f g : Flag}, c.flag f = true ∧ c.flag g = true →
      c'.flag f = true ∧ c'.flag g = true := fun hfg => ⟨h.mono _ hfg.1, h.mono _ hfg.2⟩
  have hempty : c.used .host = 0 → c'.used .host = 0 := fun h0 => by
    have := h.h2l
    omega
  cases w with
  | out | listed | swept | moved => trivial
  | err st =>
    cases st with
    | hostReadEof => trivial
    | hostWrShut => exact h.mono _ hok
    | check | closeReq => exact hpair hok
  | io pc =>
    obtain ⟨hread, hwrite⟩ := hflags trivial
    refine IoOk.stable hread hwrite h.h2l (fun hopen => ?_) hok
    -- a forced close empties the ring, but only of a host that has stopped writing
    rcases h.l2h with hle | hshut
    · exact hle
    · simp [hopen] at hshut
  | done st =>
    cases st with
    | hostReadEof => trivial
    | hostWrShut => exact h.mono _ hok
    | lklReadEof => exact hpair hok
    | lklWrShut => exact ⟨hpair hok.1, h.mono _ hok.2⟩
    | h2l => exact ⟨hpair hok.1, hpair hok.2⟩
    | l2h => exact ⟨⟨hpair hok.1.1, hpair hok.1.2⟩, hempty hok.2⟩
  | unlink | destroy =>
    -- LKL has stopped reading, so the ring that was empty stays empty
    have hfilled := h.filled hok.lklReadEof
    have hl2h := hok.l2h
    exact ⟨h.mono _ hok.hostReadEof, h.mono _ hok.hostWrShut, h.mono _ hok.lklReadEof,
      h.mono _ hok.lklWrShut, hempty hok.h2l, by omega⟩

end Stability

/-! ### The steps of the threads -/

section Code

variable {c c' : Conn} {a : IoAct}

theorem LklGuar.refl (c : Conn) : LklGuar c c := (IoGuar.of_eq rfl rfl rfl).lklGuar

theorem LklGuar.store {f : Flag} (hf : f ≠ .closeReq)
    (h : (f = .readEof .lkl ∨ f = .wrShut .lkl) ∨
      (c.lklFd = none ∧ c.flag (.readEof .lkl) = false)) : LklGuar c (c.store f) :=
  { LklGuar.refl c with
    mono := fun g hg => by simp [hg]
    hostFlags := by
      rcases h with (rfl | rfl) | h
      · simp
      · simp
      · exact .inr h
    closeReq := by simp [hf.symm] }

theorem lklCode_ok {w w' : LklAt} (hcap : c.used .lkl ≤ ringCap.toNat)
    (hclose : c.flag .closeReq = true → c.flag (.wrShut .host) = true) (hok : LklOk c w)
    (h : lklCode c w a = some (c', w')) : LklGuar c c' ∧ LklOk c' w' := by
  cases lklCode_cases h with
  | connectFail st =>
    cases st with
    | hostReadEof | hostWrShut =>
      have hread : c.flag (.readEof .lkl) = false := hok.2.resolve_left nofun
      exact ⟨.store nofun (.inr ⟨hok.1, hread⟩), hok.1, .inr (by simp [ConnectFail.flag, hread])⟩
    | lklReadEof => exact ⟨.store nofun (.inl (.inl rfl)), hok.1, .inl rfl⟩
    | lklWrShut => exact ⟨.store nofun (.inl (.inr rfl)), trivial⟩
  | forceFd => exact ⟨{ LklGuar.refl c with }, hok⟩
  | forceEof => exact ⟨.store nofun (.inl (.inl rfl)), by simpa [LklOk] using hok⟩
  | forceShut => exact ⟨.store nofun (.inl (.inr rfl)), by simpa [LklOk] using hok⟩
  | forceH2l =>
    have hlkl : (c.setRing .host (c.ring .host).drain).used .lkl = c.used .lkl :=
      c.used_setRing_of_ne .host _ nofun
    refine ⟨{ LklGuar.refl c with
      h2l := ?_, l2h := .inl hlkl.ge, fits := hlkl.trans_le, filled := fun _ => hlkl.le }, hok⟩
    simp
  | forceL2h =>
    -- the host has stopped writing, so nobody is in the middle of emptying the ring
    have hhost : (c.setRing .lkl (c.ring .lkl).drain).used .host = c.used .host :=
      c.used_setRing_of_ne .lkl _ nofun
    refine ⟨{ LklGuar.refl c with
      h2l := hhost.le, l2h := .inr (hclose hok), fits := ?_, filled := ?_ }, trivial⟩
    · simp
    · simp
  | errEof => exact ⟨.store nofun (.inl (.inl rfl)), trivial⟩
  | errShut => exact ⟨.store nofun (.inl (.inr rfl)), trivial⟩
  | @io pc a c' o hio =>
    refine ⟨(io_guar hok hio).lklGuar, ?_⟩
    cases o with
    | none => trivial
    | some pc' => exact io_ok hcap hok hio

theorem hostCode_ok {w w' : HostAt} (hcap : c.used .host ≤ ringCap.toNat) (hok : HostOk c w)
    (h : hostCode c w a = some (c', w')) : HostGuar c c' ∧ HostOk c' w' := by
  cases hostCode_cases h with
  | errEof => exact ⟨.store (.inl rfl), by simp [HostOk]⟩
  | errShut =>
    have hread : c.flag (.readEof .host) = true := hok
    exact ⟨.store (.inr rfl), by simp [hread], by simp⟩
  | errSkip => exact ⟨.of_eq rfl rfl rfl, trivial⟩
  | errAsk => exact ⟨.of_eq rfl rfl rfl, hok⟩
  | errReq => exact ⟨.storeCloseReq rfl hok.1 hok.2, trivial⟩
  | @io pc a c' o hio =>
    refine ⟨io_guar hok hio, ?_⟩
    cases o with
    | none => trivial
    | some pc' => exact io_ok hcap hok hio
  | undone => exact ⟨.of_eq rfl rfl rfl, trivial⟩
  | @done st hb =>
    refine ⟨.of_eq rfl rfl rfl, ?_⟩
    cases st with
    | hostReadEof => exact hb
    | hostWrShut | lklReadEof => exact ⟨hok, hb⟩
    | lklWrShut => exact ⟨hok.1, hok.2, hb⟩
    | h2l => exact ⟨hok, Ring.empty_iff.mp hb⟩
    | l2h =>
      obtain ⟨⟨⟨hre, hws⟩, lre, lws⟩, hempty⟩ := hok
      exact ⟨hre, hws, lre, lws, hempty, Ring.empty_iff.mp hb⟩

end Code

/-! ### Every state of a connection -/

/-- What holds of a connection along every run. -/
structure ConnOk (v : ConnSys) : Prop where
  fits : ∀ sd, v.conn.used sd ≤ ringCap.toNat
  /-- A forced close is asked for by a host that has stopped reading and writing. -/
  closeReq : v.conn.flag .closeReq = true →
    v.conn.flag (.readEof .host) = true ∧ v.conn.flag (.wrShut .host) = true
  lkl : LklOk v.conn v.lkl
  host : HostOk v.conn v.host
  /-- The host moves bytes only once the connection was made. -/
  connected : v.host.InIo → v.conn.lklFd ≠ none ∨ v.conn.flag (.readEof .lkl) = true ∨
    v.lkl = .force .lklReadEof
  absent : v.life = .absent → v.lkl = .out ∧ v.host = .out

theorem connOk_absent : ConnOk .absent where
  fits sd := (Conn.used_new sd).trans_le (Nat.zero_le _)
  closeReq := nofun
  lkl := trivial
  host := trivial
  connected := nofun
  absent _ := ⟨rfl, rfl⟩

section Preservation

variable {v : ConnSys} {c' : Conn} {a : IoAct} {w : LklAt}

theorem ConnOk.hostFlags (hok : ConnOk v)
    (h : lklCode v.conn v.lkl a = some (c', w)) (hguar : LklGuar v.conn c') (hio : v.host.InIo) :
    c'.flag (.readEof .host) = v.conn.flag (.readEof .host) ∧
      c'.flag (.wrShut .host) = v.conn.flag (.wrShut .host) := by
  rcases hguar.hostFlags with heq | ⟨hfd, hread⟩
  · exact heq
  · -- a connection that could not be made: the host would not move its bytes
    rcases hok.connected hio with hne | hne | hforce
    · exact absurd hfd hne
    · simp [hread] at hne
    · rw [hforce] at h
      cases lklCode_cases h
      simp

theorem lklFd_lklCode {c : Conn} {w' : LklAt} (hok : LklOk c w)
    (h : lklCode c w a = some (c', w')) : c'.lklFd = c.lklFd ∨ w' = .force .lklReadEof := by
  cases lklCode_cases h with
  | forceFd => exact .inr rfl
  | io hio => exact .inl (io_guar hok hio).lklFd
  | _ => exact .inl rfl

theorem connected_lklCode {c : Conn} {w' : LklAt} (hok : LklOk c w)
    (h : lklCode c w a = some (c', w')) (hguar : LklGuar c c')
    (hc : c.lklFd ≠ none ∨ c.flag (.readEof .lkl) = true ∨ w = .force .lklReadEof) :
    c'.lklFd ≠ none ∨ c'.flag (.readEof .lkl) = true ∨ w' = .force .lklReadEof := by
  rcases hc with hfd | hread | rfl
  · rcases lklFd_lklCode hok h with heq | hforce
    · exact .inl (heq ▸ hfd)
    · exact .inr (.inr hforce)
  · exact .inr (.inl (hguar.mono _ hread))
  · cases lklCode_cases h
    exact .inr (.inl (by simp))

theorem inIo_of_hostCode {c : Conn} {w w' : HostAt} (h : hostCode c w a = some (c', w'))
    (hio : w'.InIo) : w.InIo := by
  cases hostCode_cases h with
  | io => trivial
  | @done st => cases st <;> exact hio.elim
  | _ => exact hio.elim

section

variable (hok : ConnOk v)
include hok

theorem ConnOk.lklGuar (h : Proxy.lklCode v.conn v.lkl a = some (c', w)) : LklGuar v.conn c' :=
  (lklCode_ok (hok.fits .lkl) (fun hc => (hok.closeReq hc).2) hok.lkl h).1

theorem ConnOk.hostGuar {w : HostAt}
    (h : Proxy.hostCode v.conn v.host a = some (c', w)) : HostGuar v.conn c' :=
  (hostCode_ok (hok.fits .host) hok.host h).1

theorem ConnOk.lklCode
    (h : Proxy.lklCode v.conn v.lkl a = some (c', w)) : ConnOk { v with conn := c', lkl := w } := by
  obtain ⟨hguar, hlkl⟩ := lklCode_ok (hok.fits .lkl) (fun hc => (hok.closeReq hc).2) hok.lkl h
  refine ⟨?_, ?_, hlkl, ?_, ?_, ?_⟩
  · rintro (_ | _)
    · exact hguar.h2l.trans (hok.fits .host)
    · exact hguar.fits (hok.fits .lkl)
  · intro hc
    obtain ⟨hread, hwrite⟩ := hok.closeReq (hguar.closeReq ▸ hc)
    exact ⟨hguar.mono _ hread, hguar.mono _ hwrite⟩
  · exact hok.host.stable hguar (hok.hostFlags h hguar)
  · exact fun hio => connected_lklCode hok.lkl h hguar (hok.connected hio)
  · intro habsent
    rw [(hok.absent habsent).1] at h
    cases h

theorem ConnOk.hostCode {w : HostAt} (h : Proxy.hostCode v.conn v.host a = some (c', w)) :
    ConnOk { v with conn := c', host := w } := by
  obtain ⟨hguar, hhost⟩ := hostCode_ok (hok.fits .host) hok.host h
  refine ⟨?_, ?_, hok.lkl.stable hguar, hhost, ?_, ?_⟩
  · rintro (_ | _)
    · exact hguar.fits (hok.fits .host)
    · exact hguar.drains.trans (hok.fits .lkl)
  · intro hc
    have hflags : v.conn.flag (.readEof .host) = true ∧ v.conn.flag (.wrShut .host) = true := by
      rcases hguar.closeReq with heq | ⟨-, hread, hwrite⟩
      · exact hok.closeReq (heq ▸ hc)
      · exact ⟨hread, hwrite⟩
    exact ⟨hguar.mono _ hflags.1, hguar.mono _ hflags.2⟩
  · intro hio
    have hread : c'.flag (.readEof .lkl) = v.conn.flag (.readEof .lkl) := hguar.readEof
    have hconn := hok.connected (inIo_of_hostCode h hio)
    rwa [← hguar.lklFd, ← hread] at hconn
  · intro habsent
    rw [(hok.absent habsent).2] at h
    cases h

theorem ConnOk.setLkl (hw : LklOk v.conn w)
    (hlkl : v.lkl ≠ .force .lklReadEof) (hlife : v.life ≠ .absent) : ConnOk { v with lkl := w } :=
  { hok with
    lkl := hw
    connected := fun hio =>
      (hok.connected hio).imp_right fun h => .inl (h.resolve_right hlkl)
    absent := fun h => absurd h hlife }

theorem ConnOk.setHost {w : HostAt} {life : Life} (hw : HostOk v.conn w)
    (hio : w.InIo → v.conn.lklFd ≠ none) (hlife : life ≠ .absent) :
    ConnOk { v with life := life, host := w } :=
  { hok with
    host := hw
    connected := fun h => .inl (hio h)
    absent := fun h => absurd h hlife }

theorem ConnOk.life_ne (h : v.lkl ≠ .out ∨ v.host ≠ .out) : v.life ≠ .absent := by
  intro habsent
  obtain ⟨hlkl, hhost⟩ := hok.absent habsent
  rcases h with h | h
  · exact h hlkl
  · exact h hhost

end

end Preservation

theorem ConnOk.step {v v' : ConnSys} {act : ConnAct} (hok : ConnOk v) (h : ConnStep v act v') :
    ConnOk v' := by
  cases h with
  | attach hlife hhost =>
    obtain ⟨hlkl, -⟩ := hok.absent hlife
    have hnew : ConnOk { v with conn := .new, life := .attached } := by
      refine ⟨connOk_absent.fits, nofun, ?_, ?_, ?_, nofun⟩
      · simp only [hlkl]
        trivial
      · simp only [hhost]
        trivial
      · simp only [hhost]
        nofun
    exact hnew
  | lklList hlife hlkl hfd hread => exact hok.setLkl ⟨hfd, hread⟩ (by simp [hlkl]) (by simp [hlife])
  | lklConnect fd hlkl =>
    have hlife : v.life ≠ .absent := hok.life_ne (.inl (by simp [hlkl]))
    have hguar : LklGuar v.conn { v.conn with lklFd := some fd } := { LklGuar.refl v.conn with }
    exact ⟨hok.fits, hok.closeReq, trivial, hok.host.stable hguar fun _ => ⟨rfl, rfl⟩,
      fun _ => .inl nofun, fun h => absurd h hlife⟩
  | lklConnectFail hlkl =>
    have hpending : LklOk v.conn .pending := hlkl ▸ hok.lkl
    exact hok.setLkl ⟨hpending.1, .inr hpending.2⟩ (by simp [hlkl])
      (hok.life_ne (.inl (by simp [hlkl])))
  | lklForce hlife hlkl hfd hclose => exact hok.setLkl hclose (by simp [hlkl]) (by simp [hlife])
  | lklSnap hlife hlkl hfd => exact hok.setLkl trivial (by simp [hlkl]) (by simp [hlife])
  | lklDrop hlkl =>
    exact hok.setLkl trivial (by simp [hlkl]) (hok.life_ne (.inl (by simp [hlkl])))
  | lklStart err hlkl =>
    refine hok.setLkl ?_ (by simp [hlkl]) (hok.life_ne (.inl (by simp [hlkl])))
    cases err <;> trivial
  | lklCode h => exact hok.lklCode h
  | hostList hlife hhost => exact hok.setHost trivial nofun (by simp [hlife])
  | hostUnlist hhost => exact hok.setHost trivial nofun (hok.life_ne (.inr (by simp [hhost])))
  | hostErr hhost => exact hok.setHost trivial nofun (hok.life_ne (.inr (by simp [hhost])))
  | hostSweep hlife hhost => exact hok.setHost trivial nofun (by simp [hlife])
  | hostStart hhost =>
    have hlife := hok.life_ne (.inr (by simp [hhost]))
    split_ifs with hfd
    · exact hok.setHost trivial nofun hlife
    · exact hok.setHost trivial (fun _ => hfd) hlife
  | hostCheck hhost => exact hok.setHost trivial nofun (hok.life_ne (.inr (by simp [hhost])))
  | hostCode h => exact hok.hostCode h
  | unlink hhost =>
    have hdone : HostOk v.conn .unlink := hhost ▸ hok.host
    exact hok.setHost hdone nofun nofun
  | destroy hhost => exact hok.setHost trivial nofun nofun

theorem reach_connOk {guard : ConnSys → ConnAct → Prop} {v : ConnSys}
    (h : connMachine.Reach guard .absent v) : ConnOk v :=
  h.invariant connOk_absent fun _ _ _ hok _ hs => hok.step hs

end Anyfs.Proxy
