import Anyfs.Proxy.Views

/-!
# Who may touch a connection

The LKL thread works on the connections in `cset` after a poll, while the host thread frees a
connection as soon as `conn_done` holds. As long as `lkl_read_eof` or `lkl_wr_shut` is not set the
host thread cannot free the connection; once both are, only bytes that nobody takes out of a ring
keep it alive (`Conn.Pinned`).
-/

namespace Anyfs.Proxy

/-- Bytes that nobody takes out once both of the LKL thread's flags are set: those for LKL, or for a
host that has stopped writing. -/
def Conn.Pinned (c : Conn) : Prop :=
  (c.ring .host).empty = false ∨ (c.flag (.wrShut .host) = true ∧ (c.ring .lkl).empty = false)

/-- The host thread cannot get through `conn_done` before the LKL thread takes another step. -/
def Conn.Held (c : Conn) : Prop :=
  c.flag (.readEof .lkl) = true → c.flag (.wrShut .lkl) = true → c.Pinned

instance (c : Conn) : Decidable c.Pinned :=
  inferInstanceAs (Decidable
    ((c.ring .host).empty = false ∨ (c.flag (.wrShut .host) = true ∧ (c.ring .lkl).empty = false)))

instance (c : Conn) : Decidable c.Held :=
  inferInstanceAs (Decidable
    (c.flag (.readEof .lkl) = true → c.flag (.wrShut .lkl) = true → c.Pinned))

/-- The stores of the LKL thread to a connection it has not finished with leave it held. -/
def StoreHeld (c : Conn) : LklAt → Prop
  | .errEof | .io .rdEof => c.flag (.wrShut .lkl) = true → c.Pinned
  | .errShut => c.Pinned
  | _ => True

/-- A connection is taken into `cset` while it is held, and stays held when a flag is stored. -/
def KeepsHeld (v : ConnSys) : ConnAct → Prop
  | .lklSnap => v.conn.Held
  | .lklCode _ => StoreHeld v.conn v.lkl
  | _ => True

section Held

variable {c c' : Conn} {a : IoAct}

theorem Conn.pinned_iff :
    c.Pinned ↔ c.used .host ≠ 0 ∨ (c.flag (.wrShut .host) = true ∧ c.used .lkl ≠ 0) := by
  have hempty : ∀ r : Ring, r.empty = false ↔ r.used ≠ 0 := fun r => by
    rw [← Bool.not_eq_true, Ring.empty_iff]
  simp only [Pinned, Conn.used, hempty]

theorem Conn.Finished.not_held (h : c.Finished) : ¬ c.Held := by
  intro hheld
  rcases Conn.pinned_iff.mp (hheld h.lklReadEof h.lklWrShut) with hne | ⟨-, hne⟩
  · exact hne h.h2l
  · exact hne h.l2h

theorem Conn.held_of_readEof (h : c.flag (.readEof .lkl) = false) : c.Held := by
  intro hread
  simp [h] at hread

theorem Conn.held_of_wrShut (h : c.flag (.wrShut .lkl) = false) : c.Held := by
  intro _ hwrite
  simp [h] at hwrite

theorem Conn.Held.stable (h : HostGuar c c') (hheld : c.Held) : c'.Held := by
  intro hread hwrite
  have hpinned := hheld (h.readEof ▸ hread) (h.wrShut ▸ hwrite)
  rw [Conn.pinned_iff] at hpinned ⊢
  rcases hpinned with hne | ⟨hshut, hne⟩
  · have hfills : c.used .host ≤ c'.used .host := h.fills
    exact .inl (by omega)
  · have hdrained : c'.used .lkl = c.used .lkl := h.drained hshut
    exact .inr ⟨h.mono _ hshut, hdrained ▸ hne⟩

theorem Conn.Held.lklIo {pc pc' : IoPc} (hok : IoOk .lkl c pc) (hheld : c.Held)
    (hstore : StoreHeld c (.io pc)) (h : lklIo c pc a = some (c', some pc')) : c'.Held := by
  cases pc <;> cases a <;> simp only [Proxy.lklIo, io, reduceCtorEq, Option.some.injEq,
    Prod.mk.injEq, Option.ite_none_right_eq_some, and_false] at h
  case rdCall.data p bs =>
    obtain ⟨-, rfl, -⟩ := h
    exact held_of_readEof hok.1
  case wrCall.wrote p n =>
    obtain ⟨-, rfl, -⟩ := h
    exact held_of_wrShut hok.1
  all_goals obtain ⟨rfl, h⟩ := h
  case rdCommit.go => exact held_of_readEof hok.1
  case rdEof.go => exact fun _ hwrite => hstore (by simpa using hwrite)
  case wrCommit.go => exact held_of_wrShut hok.1
  case wrFail.go p =>
    -- the write failed, so its bytes are still in the ring
    obtain ⟨-, hpos, hle⟩ := hok
    have hused : c.used .host ≠ 0 := by
      have hle : p.len.toNat ≤ c.used .host := hle
      omega
    exact fun _ _ => Conn.pinned_iff.mpr (.inl hused)
  case wrFailEof.go => cases hok.1
  case wrFailReq.go => cases hok.1
  case shut.go => exact held_of_wrShut hok
  all_goals exact hheld

theorem Conn.Held.lklCode {w w' : LklAt} (hok : LklOk c w) (hheld : w.InCset → c.Held)
    (hstore : StoreHeld c w) (h : lklCode c w a = some (c', w')) (hin : w'.InCset) :
    w.InCset ∧ c'.Held := by
  cases lklCode_cases h with
  | connectFail st => cases st <;> exact hin.elim
  | errEof => exact ⟨trivial, fun _ hwrite => hstore (by simpa using hwrite)⟩
  | errShut => exact ⟨trivial, fun _ _ => hstore⟩
  | @io pc a c' o hio =>
    cases o with
    | none => exact hin.elim
    | some pc' => exact ⟨trivial, (hheld trivial).lklIo hok hstore hio⟩
  | _ => exact hin.elim

end Held

/-! ### Every state of a connection -/

/-- A connection of the set is not freed. -/
def ConnAlive (v : ConnSys) : Prop := v.lkl.InCset → v.life ≠ .freed ∧ v.conn.Held

theorem ConnAlive.step {v v' : ConnSys} {act : ConnAct} (hok : ConnOk v) (halive : ConnAlive v)
    (hguard : KeepsHeld v act) (h : ConnStep v act v') : ConnAlive v' := by
  cases h with
  | attach hlife _ =>
    intro hin
    rw [(hok.absent hlife).1] at hin
    exact hin.elim
  | lklList | lklConnect | lklConnectFail | lklForce | lklDrop => exact False.elim
  | lklSnap hlife _ _ => exact fun _ => ⟨by simp [hlife], hguard⟩
  | lklStart err hlkl => exact fun _ => halive (by rw [hlkl]; trivial)
  | lklCode h =>
    intro hin
    obtain ⟨hin', hheld⟩ :=
      Conn.Held.lklCode hok.lkl (fun hin' => (halive hin').2) hguard h hin
    exact ⟨(halive hin').1, hheld⟩
  | hostList | hostUnlist | hostErr | hostSweep | hostStart | hostCheck => exact halive
  | hostCode h =>
    exact fun hin => ⟨(halive hin).1, (halive hin).2.stable (hok.hostGuar h)⟩
  | unlink _ => exact fun hin => ⟨nofun, (halive hin).2⟩
  | destroy hhost =>
    -- `conn_done` has seen both flags of the LKL thread and two empty rings
    intro hin
    have hdone : v.conn.Finished := by
      have hhost' := hok.host
      rwa [hhost] at hhost'
    exact absurd (halive hin).2 hdone.not_held

theorem reach_alive {v : ConnSys} (h : connMachine.Reach KeepsHeld .absent v) :
    ConnOk v ∧ ConnAlive v := by
  refine h.invariant (P := fun v => ConnOk v ∧ ConnAlive v) ⟨connOk_absent, nofun⟩ ?_
  rintro v act v' ⟨hok, halive⟩ hguard hs
  exact ⟨hok.step hs, halive.step hok hguard hs⟩

/-! ### The threads -/

/-- The LKL thread takes only held connections into `cset`, and its stores to connections of
`cset` that it has not finished with leave them held. -/
def LklHolds (s : ProxySys) : LklPc → Prop
  | .snap => ∀ c ∈ s.cset, (s.conn c).Held
  | .work c w _ => StoreHeld (s.conn c) w
  | _ => True

/-- The LKL thread uses live connections. -/
def CsetHeld (s : ProxySys) : ProxyAct → Prop
  | .step .lkl _ => LklHolds s s.lkl
  | _ => True

instance (c : Conn) (w : LklAt) : Decidable (StoreHeld c w) := by
  unfold StoreHeld
  split <;> infer_instance

instance (s : ProxySys) (pc : LklPc) : Decidable (LklHolds s pc) := by
  unfold LklHolds
  split <;> infer_instance

instance (s : ProxySys) : ∀ l : ProxyAct, Decidable (CsetHeld s l)
  | .step .lkl _ => inferInstanceAs (Decidable (LklHolds s s.lkl))
  | .stop | .step .host _ => .isTrue trivial

/-- In every run in which the LKL thread keeps connections held, it has no freed connection of
`cset` left to process. -/
theorem cset_not_freed_of_csetHeld {s : ProxySys} (h : proxyMachine.Reach CsetHeld .started s)
    (c : ℕ) (hc : (s.lkl.atConn c).InCset) : s.life c ≠ .freed := by
  -- of the steps with one connection, the condition is about two
  have hview : connMachine.Reach KeepsHeld .absent (s.view c) := by
    refine ProxySys.reach_view ?_ h c
    intro s sd a c act hguard htakes
    cases act with
    | lklSnap =>
      obtain ⟨hpc, hmem⟩ := htakes.snap rfl
      obtain rfl : Side.lkl = sd := htakes.side
      have hholds : LklHolds s s.lkl := hguard
      rw [hpc] at hholds
      exact hholds c hmem
    | lklCode b =>
      obtain ⟨w, l, hpc⟩ := htakes.code b rfl
      obtain rfl : Side.lkl = sd := htakes.side
      have hholds : LklHolds s s.lkl := hguard
      have hw : s.lkl.atConn c = w := by
        rw [hpc]
        exact if_pos rfl
      rw [hpc] at hholds
      change StoreHeld (s.conn c) (s.lkl.atConn c)
      rw [hw]
      exact hholds
    | _ => trivial
  exact ((reach_alive hview).2 hc).1

/-- The LKL thread reads the end of its input and shuts down its side, and takes `cset` again. -/
def lklEofRound : List ProxyAct :=
  [.step .lkl (.pollOk false fun _ => false)] ++ goSteps .lkl 3 ++ [.step .lkl (.io .fail)] ++
    goSteps .lkl 271

def freeRound : List ProxyAct :=
  goSteps .host 2 ++ [.step .host (.pollOk false fun _ => false)] ++ goSteps .host 22

/-- A connection was accepted and made, and is in `cset`. -/
theorem cset_not_freed_after_connect :
    ∃ s, proxyMachine.Reach CsetHeld .started s ∧ s.lkl.atConn 0 = .inSet ∧ s.life 0 ≠ .freed := by
  have htrace : (Machine.run ProxySys.step CsetHeld (acceptRound ++ connectRound) .started).any
      (fun s => decide (s.lkl.atConn 0 = .inSet)) = true := by
    decide +kernel
  obtain ⟨s, hrun, hin⟩ := Machine.exists_of_run htrace
  have hreach : proxyMachine.Reach CsetHeld .started s := Machine.Reach.of_run hrun
  exact ⟨s, hreach, hin, cset_not_freed_of_csetHeld hreach 0 (by rw [hin]; trivial)⟩

/-- Both peers close a connection. It is taken into `cset` once more, the host thread frees it
during the poll, and `lkl_io` starts on it. -/
theorem lklIo_starts_on_freed :
    ∃ s, proxyMachine.Reach (fun _ _ => True) .started s ∧ s.lkl.atConn 0 = .io .rd ∧
      s.life 0 = .freed := by
  have htrace : (Machine.run ProxySys.step (fun _ _ => True)
      (acceptRound ++ connectRound ++ hostEofRound ++ lklEofRound ++ freeRound ++
        [.step .lkl (.pollOk false fun _ => false), .step .lkl (.io .go)]) .started).any
      (fun s => decide (s.lkl.atConn 0 = .io .rd ∧ s.life 0 = .freed)) = true := by
    decide +kernel
  obtain ⟨s, hrun, hs⟩ := Machine.exists_of_run htrace
  exact ⟨s, Machine.Reach.of_run hrun, hs⟩

end Anyfs.Proxy
