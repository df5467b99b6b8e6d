import Anyfs.Proxy.Views

/-!
# The threads of the proxy can always go on

From wherever it is, a thread gets to the end of its loop by steps of its own, except for the lock.
The program points of the code for one connection have a rank that goes down when no socket has
anything to give or to take (`io_progress`).
-/

namespace Anyfs.Proxy

open Function Option

/-- Only thread `sd` moves, and its poll does not fail. -/
def Alone (sd : Side) (_ : ProxySys) (l : ProxyAct) : Prop := ∃ a, l = .step sd a ∧ a ≠ .pollFail

/-! ### The code for one connection -/

/-- How far it is to the end of `lkl_io` or `host_io` when the socket has nothing to give and
takes nothing. -/
def IoPc.rank : IoPc → ℕ
  | .rd | .rdCommit _ _ => 10
  | .rdSpan => 9
  | .rdCall _ | .rdEof => 8
  | .wr | .wrCommit _ _ => 7
  | .wrSpan => 6
  | .wrCall _ => 5
  | .wrFail _ => 8
  | .wrFailEof => 7
  | .wrFailCheck => 6
  | .wrFailReq => 5
  | .half => 4
  | .halfEof => 3
  | .halfEmpty => 2
  | .shut => 1
  | .shutStore => 0

/-- A bound on the steps left. -/
def LklAt.rank : LklAt → ℕ
  | .out | .pending | .inSet => 0
  | .connectFail .hostReadEof => 4
  | .connectFail .hostWrShut => 3
  | .connectFail .lklReadEof => 2
  | .connectFail .lklWrShut => 1
  | .force .lklFd => 5
  | .force .lklReadEof => 4
  | .force .lklWrShut => 3
  | .force .h2l => 2
  | .force .l2h => 1
  | .errEof => 13
  | .errShut => 12
  | .io pc => pc.rank + 1

/-- A bound on the steps left. -/
def HostAt.rank : HostAt → ℕ
  | .out | .listed | .swept | .moved => 0
  | .err .hostReadEof => 4
  | .err .hostWrShut => 3
  | .err .check => 2
  | .err .closeReq => 1
  | .io pc => pc.rank + 1
  | .done .hostReadEof => 8
  | .done .hostWrShut => 7
  | .done .lklReadEof => 6
  | .done .lklWrShut => 5
  | .done .h2l => 4
  | .done .l2h => 3
  | .unlink => 2
  | .destroy => 1

theorem LklLoop.Runs.rank_pos {l : LklLoop} {c : ℕ} {w : LklAt} (h : l.Runs c w) : 0 < w.rank := by
  cases w with
  | out | pending | inSet => exact h.elim
  | connectFail st => cases st <;> decide
  | force st => cases st <;> decide
  | errEof | errShut | io pc => exact Nat.succ_pos _

theorem HostLoop.Runs.rank_pos {l : HostLoop} {c : ℕ} {w : HostAt} (h : l.Runs c w) :
    0 < w.rank := by
  cases w with
  | out | listed | swept | moved => exact h.elim
  | err st => cases st <;> decide
  | done st => cases st <;> decide
  | io pc | unlink | destroy => exact Nat.succ_pos _

theorem io_progress (sd : Side) (c : Conn) (pc : IoPc) :
    ∃ a c' o, io sd c pc a = some (c', o) ∧ ∀ pc' ∈ o, pc'.rank < pc.rank := by
  have hif : ∀ {b : Prop} [Decidable b] {o o' : Option IoPc} {n : ℕ},
      (∀ pc' ∈ o, pc'.rank < n) → (∀ pc' ∈ o', pc'.rank < n) →
      ∀ pc' ∈ (if b then o else o'), pc'.rank < n := by
    intro b _ o o' n ho ho'
    split_ifs
    · exact ho
    · exact ho'
  cases pc with
  | rdCall p | wrCall p => exact ⟨.again, _, _, rfl, by simp [IoPc.rank]⟩
  | half | halfEof | halfEmpty =>
    exact ⟨.go, _, _, rfl, hif (by simp [IoPc.rank]) (by simp [IoPc.rank])⟩
  | rdEof | wrFailEof | wrFailReq | shut | shutStore =>
    exact ⟨.go, _, _, rfl, by simp [IoPc.rank]⟩
  | wrFail p => exact ⟨.go, _, _, rfl, by cases sd <;> simp [IoPc.rank, afterWrFail]⟩
  | rd | rdSpan | rdCommit | wr | wrSpan | wrCommit | wrFailCheck =>
    refine ⟨.go, _, _, rfl, ?_⟩
    rw [apply_ite some]
    exact hif (by simp [IoPc.rank]) (by simp [IoPc.rank])

theorem lklCode_progress (c : Conn) {w : LklAt} (hw : 0 < w.rank) :
    ∃ a c' w', lklCode c w a = some (c', w') ∧ w'.rank < w.rank ∧ (w' = .out ∨ 0 < w'.rank) := by
  cases w with
  | out | pending | inSet => exact absurd hw (Nat.lt_irrefl 0)
  | connectFail st => cases st <;> exact ⟨.go, _, _, rfl, by decide, by decide⟩
  | force st => cases st <;> exact ⟨.go, _, _, rfl, by decide, by decide⟩
  | errEof | errShut => exact ⟨.go, _, _, rfl, by decide, by decide⟩
  | io pc =>
    obtain ⟨a, c', o, hio, hrank⟩ := io_progress .lkl c pc
    refine ⟨a, c', o.elim .out .io, map_eq_some_iff.mpr ⟨_, hio, rfl⟩, ?_⟩
    cases o with
    | none => exact ⟨Nat.succ_pos _, .inl rfl⟩
    | some pc' => exact ⟨Nat.succ_lt_succ (hrank pc' rfl), .inr (Nat.succ_pos _)⟩

theorem hostCode_progress (c : Conn) {w : HostAt} (hw : 0 < w.rank) (hunlink : w ≠ .unlink)
    (hdestroy : w ≠ .destroy) :
    ∃ a c' w', hostCode c w a = some (c', w') ∧ w'.rank < w.rank ∧
      ((w' = .out ∨ w' = .moved) ∨ 0 < w'.rank) := by
  have hif : ∀ {b : Prop} [Decidable b] {x : HostAt} {n : ℕ}, 0 < x.rank → x.rank < n →
      (if b then x else .out).rank < n ∧
        (((if b then x else .out) = .out ∨ (if b then x else .out) = .moved) ∨
          0 < (if b then x else .out).rank) := by
    intro b _ x n hx hlt
    split_ifs
    · exact ⟨hlt, .inr hx⟩
    · exact ⟨(Nat.zero_le _).trans_lt hlt, .inl (.inl rfl)⟩
  cases w with
  | out | listed | swept | moved => exact absurd hw (Nat.lt_irrefl 0)
  | unlink => exact absurd rfl hunlink
  | destroy => exact absurd rfl hdestroy
  | err st =>
    cases st with
    | hostReadEof | hostWrShut | closeReq => exact ⟨.go, _, _, rfl, by decide, by decide⟩
    | check =>
      refine ⟨.go, _, _, rfl, ?_⟩
      split_ifs
      · exact ⟨by decide, by decide⟩
      · exact ⟨by decide, by decide⟩
  | io pc =>
    obtain ⟨a, c', o, hio, hrank⟩ := io_progress .host c pc
    refine ⟨a, c', o.elim .moved .io, map_eq_some_iff.mpr ⟨_, hio, rfl⟩, ?_⟩
    cases o with
    | none => exact ⟨Nat.succ_pos _, .inl (.inr rfl)⟩
    | some pc' => exact ⟨Nat.succ_lt_succ (hrank pc' rfl), .inr (Nat.succ_pos _)⟩
  | done st => cases st <;> exact ⟨.go, _, _, rfl, hif (by decide) (by decide)⟩

namespace ProxySys

variable {s s' : ProxySys} {c : ℕ}

/-! ### The LKL thread -/

section Lkl

theorem host_of_alone (h : proxyMachine.Reach (Alone .lkl) s s') : s'.host = s.host := by
  refine h.invariant (P := fun s' => s'.host = s.host) rfl ?_
  rintro s₁ l s₂ heq ⟨a, rfl, -⟩ hs
  exact (lklStep_frame hs).2.1.trans heq

variable {l : LklLoop}

theorem lklStep_code {w w' : LklAt} {a : IoAct} {c' : Conn}
    (hpc : s.lkl = .work c w l) (h : lklCode (s.conn c) w a = some (c', w')) :
    s.lklStep (.io a) = some
      { s.setConn c c' with lkl := if w' = .out then .inLoop l else .work c w' l } := by
  unfold lklStep
  rw [hpc]
  exact map_eq_some_iff.mpr ⟨_, h, rfl⟩

/-- The LKL thread gets to `pc` by itself. -/
def LklCan (s : ProxySys) (pc : LklPc) : Prop :=
  proxyMachine.Can (Alone .lkl) (·.lkl = pc) s

theorem can_lkl {P : ProxySys → Prop} {a : Answer} {pc : LklPc} (hpc : s.lkl = pc)
    (hs : lklStep { s with lkl := pc } a = some s') (ha : a ≠ .pollFail)
    (h : proxyMachine.Can (Alone .lkl) P s') : proxyMachine.Can (Alone .lkl) P s := by
  subst hpc
  exact .step (l := .step .lkl a) ⟨a, rfl, ha⟩ hs h

theorem lkl_can_finish {w : LklAt} (hpc : s.lkl = .work c w l) (hw : 0 < w.rank) :
    s.LklCan (.inLoop l) := by
  induction hn : w.rank using Nat.strongRecOn generalizing s w with
  | ind n ih =>
    obtain ⟨a, c', w', hcode, hlt, hnext⟩ := lklCode_progress (s.conn c) hw
    refine can_lkl rfl (lklStep_code hpc hcode) nofun ?_
    by_cases hout : w' = .out
    · exact .now (if_pos hout)
    · exact ih _ (hn ▸ hlt) (if_neg hout) (hnext.resolve_left hout) rfl

theorem lkl_can_handle {es : List (ℕ × Bool)} (hpc : s.lkl = .inLoop (.handle es)) :
    s.LklCan .start := by
  induction es generalizing s with
  | nil => exact can_lkl (a := .io .go) hpc rfl nofun (.now rfl)
  | cons e es ih =>
    refine can_lkl (a := .io .go) hpc rfl nofun
      ((lkl_can_finish rfl ?_).bind fun s' _ hpc' => ih hpc')
    split_ifs <;> exact Nat.succ_pos _

theorem lkl_can_connect {cs : List ℕ} (hpc : s.lkl = .inLoop (.connect cs)) : s.LklCan .lock := by
  induction cs generalizing s with
  | nil => exact can_lkl (a := .io .go) hpc rfl nofun (.now rfl)
  | cons c cs ih => exact can_lkl (a := .connect (some 0)) hpc rfl nofun (ih rfl)

/-- The connections of the slots below `i` for which a forced close was asked are closed. -/
def Forced (s : ProxySys) (i : ℕ) : Prop :=
  ∀ (j : Fin maxConns) c, j < i → s.table j = some c → (s.conn c).flag .closeReq = true →
    (s.conn c).lklFd = none

theorem lklCode_force (c : Conn) (st : ForceClose) (hfd : st = .lklFd ∨ c.lklFd = none) :
    ∃ c' w', lklCode c (.force st) .go = some (c', w') ∧ c'.lklFd = none ∧
      (w' = .out ∨ ∃ st', w' = .force st' ∧ (LklAt.force st').rank < (LklAt.force st).rank) := by
  cases st with
  | lklFd => exact ⟨_, _, rfl, rfl, .inr ⟨_, rfl, by decide⟩⟩
  | lklReadEof | lklWrShut | h2l =>
    exact ⟨_, _, rfl, hfd.resolve_left nofun, .inr ⟨_, rfl, by decide⟩⟩
  | l2h => exact ⟨_, _, rfl, hfd.resolve_left nofun, .inl rfl⟩

theorem lkl_can_finish_force {st : ForceClose}
    (hpc : s.lkl = .work c (.force st) l) (hfd : st = .lklFd ∨ (s.conn c).lklFd = none) :
    proxyMachine.Can (Alone .lkl) (fun s' => s'.lkl = .inLoop l ∧ s'.table = s.table ∧
      (s'.conn c).lklFd = none ∧ ∀ d ≠ c, s'.conn d = s.conn d) s := by
  induction hn : (LklAt.force st).rank using Nat.strongRecOn generalizing s st with
  | ind n ih =>
    obtain ⟨c', w', hcode, hfd', hnext⟩ := lklCode_force (s.conn c) st hfd
    have hclosed : ((s.setConn c c').conn c).lklFd = none := by
      have hself : (s.setConn c c').conn c = c' := update_self ..
      rw [hself]
      exact hfd'
    have hother : ∀ d ≠ c, (s.setConn c c').conn d = s.conn d := fun d hd =>
      update_of_ne hd ..
    have hs := lklStep_code hpc hcode
    rcases hnext with rfl | ⟨st', rfl, hlt⟩
    · rw [if_pos rfl] at hs
      exact can_lkl rfl hs nofun (.now ⟨rfl, rfl, hclosed, hother⟩)
    · rw [if_neg nofun] at hs
      refine can_lkl rfl hs nofun (.bind (ih _ (hn ▸ hlt) rfl (.inr (by exact hclosed)) rfl) ?_)
      rintro s' - ⟨hpc', htable, hclosed', hkeep⟩
      exact .now ⟨hpc', htable, hclosed', fun d hd => (hkeep d hd).trans (hother d hd)⟩

theorem Forced.succ {i : ℕ} (h : s.Forced i) (hi : i < maxConns)
    (hslot : ∀ c, s.table ⟨i, hi⟩ = some c → (s.conn c).flag .closeReq = true →
      (s.conn c).lklFd = none) : s.Forced (i + 1) := by
  intro j c hj hc
  rcases Nat.lt_succ_iff_lt_or_eq.mp hj with hlt | heq
  · exact h j c hlt hc
  · obtain rfl : j = ⟨i, hi⟩ := Fin.ext heq
    exact hslot c hc

theorem lkl_can_slot {i : ℕ} (hpc : s.lkl = .inLoop (.force i)) (hi : i < maxConns) :
    proxyMachine.Can (Alone .lkl) (fun s' => s'.lkl = .inLoop (.force (i + 1)) ∧
      (s.Forced i → s'.Forced (i + 1))) s := by
  refine can_lkl (a := .io .go) hpc rfl nofun ?_
  cases hc : s.table ⟨i, hi⟩ with
  | none =>
    have hslot : s.forceSlot i = .inLoop (.force (i + 1)) := by
      rw [forceSlot, dif_pos hi, hc]
    refine .now ⟨hslot, fun h => Forced.succ (s := { s with locked := _, lkl := _ }) h hi ?_⟩
    intro c hc'
    simp [hc] at hc'
  | some c =>
    by_cases hclose : (s.conn c).lklFd.isSome ∧ (s.conn c).flag .closeReq
    · have hslot : s.forceSlot i = .work c (.force .lklFd) (.force (i + 1)) := by
        rw [forceSlot, dif_pos hi, hc]
        exact if_pos hclose
      refine (lkl_can_finish_force hslot (.inl rfl)).bind ?_
      rintro s' - ⟨hpc', htable, hclosed, hkeep⟩
      refine .now ⟨hpc', fun h => ?_⟩
      -- the other connections are as they were
      have h' : s'.Forced i := by
        intro j d hj hd hreq
        by_cases hdc : d = c
        · rw [hdc]
          exact hclosed
        · rw [hkeep d hdc] at hreq ⊢
          exact h j d hj (by rwa [htable] at hd) hreq
      refine h'.succ hi fun d hd _ => ?_
      obtain rfl : c = d := some.inj (hc.symm.trans (by rwa [htable] at hd))
      exact hclosed
    · have hslot : s.forceSlot i = .inLoop (.force (i + 1)) := by
        rw [forceSlot, dif_pos hi, hc]
        exact if_neg hclose
      refine .now ⟨hslot, fun h => Forced.succ (s := { s with locked := _, lkl := _ }) h hi ?_⟩
      intro d hd hreq
      obtain rfl : c = d := some.inj (hc.symm.trans hd)
      by_contra hfd
      exact hclose ⟨Option.isSome_iff_ne_none.mpr hfd, hreq⟩

theorem lkl_can_force {i : ℕ} (hpc : s.lkl = .inLoop (.force i)) :
    proxyMachine.Can (Alone .lkl) (fun s' => s'.lkl = .snap ∧ s'.locked = false ∧
      (s.Forced i → s'.Forced maxConns)) s := by
  induction hn : maxConns - i generalizing s i with
  | zero =>
    have hi : ¬ i < maxConns := by omega
    refine can_lkl (a := .io .go) hpc rfl nofun
      (.now ⟨dif_neg hi, decide_eq_false hi, fun h j c hj => ?_⟩)
    exact h j c (by omega)
  | succ n ih =>
    refine (lkl_can_slot hpc (by omega)).bind ?_
    rintro s' - ⟨hpc', hforced⟩
    refine (ih hpc' (by omega)).bind ?_
    rintro s'' - ⟨hpc'', hlocked, hforced'⟩
    exact .now ⟨hpc'', hlocked, hforced' ∘ hforced⟩

theorem lkl_can_round (hpc : s.lkl = .start) (hrunning : s.running = true) :
    proxyMachine.Can (Alone .lkl)
      (fun s' => s'.lkl = .snap ∧ s'.locked = false ∧ s'.Forced maxConns) s := by
  have hs : s.lklStep (.io .go) = some { s with lkl := .connSnap } := by
    unfold lklStep
    rw [hpc, hrunning]
    rfl
  refine can_lkl rfl hs nofun (can_lkl (a := .io .go) rfl rfl nofun ((lkl_can_connect rfl).bind ?_))
  rintro s' - hpc'
  refine can_lkl (a := .io .go) hpc' rfl nofun ((lkl_can_force rfl).bind ?_)
  rintro s'' - ⟨hpc'', hlocked, hforced⟩
  exact .now ⟨hpc'', hlocked, hforced fun _ _ hj => absurd hj (Nat.not_lt_zero _)⟩

theorem lkl_can_start_of_snap (hpc : s.lkl = .snap) : s.LklCan .start :=
  can_lkl (a := .io .go) hpc rfl nofun (can_lkl (a := .pollIntr) rfl rfl nofun (.now rfl))

theorem lkl_can_start_of_loop (hpc : s.lkl = .inLoop l) : s.LklCan .start := by
  have hforce : ∀ {s : ProxySys} {i : ℕ}, s.lkl = .inLoop (.force i) → s.LklCan .start := fun hpc =>
    (lkl_can_force hpc).bind fun _ _ h => lkl_can_start_of_snap h.1
  cases l with
  | handle es => exact lkl_can_handle hpc
  | force i => exact hforce hpc
  | connect cs =>
    exact (lkl_can_connect hpc).bind fun _ _ hpc' =>
      can_lkl (a := .io .go) hpc' rfl nofun (hforce rfl)

theorem lkl_can_start (hwf : s.lkl.Wf) (hexit : s.lkl ≠ .exit) : s.LklCan .start := by
  cases hpc : s.lkl with
  | start => exact .now hpc
  | exit => exact absurd hpc hexit
  | connSnap | lock => exact can_lkl (a := .io .go) hpc rfl nofun (lkl_can_start_of_loop rfl)
  | snap => exact lkl_can_start_of_snap hpc
  | poll cs => exact can_lkl (a := .pollIntr) hpc rfl nofun (.now rfl)
  | inLoop l => exact lkl_can_start_of_loop hpc
  | work c w l =>
    rw [hpc] at hwf
    exact (lkl_can_finish hpc (hwf.2.rank_pos)).bind fun _ _ hpc' => lkl_can_start_of_loop hpc'

end Lkl

/-! ### The host thread -/

section Host

theorem lkl_of_alone (h : proxyMachine.Reach (Alone .host) s s') : s'.lkl = s.lkl := by
  refine h.invariant (P := fun s' => s'.lkl = s.lkl) rfl ?_
  rintro s₁ l s₂ heq ⟨a, rfl, -⟩ hs
  exact (hostStep_frame hs).2.1.trans heq

variable {l : HostLoop} {cs : List ℕ}

theorem hostStep_code {w w' : HostAt} {a : IoAct} {c' : Conn}
    (hpc : s.host = .work c w l) (h : hostCode (s.conn c) w a = some (c', w')) :
    s.hostStep (.io a) = some { s.setConn c c' with
      host := if w' = .out ∨ w' = .moved then .inLoop l else .work c w' l } := by
  unfold hostStep
  rw [hpc]
  cases w with
  | unlink | destroy => cases h
  | out | listed | err | swept | io | moved | done =>
    exact map_eq_some_iff.mpr ⟨_, h, rfl⟩

/-- The host thread is at `pc`, and nobody holds the lock. -/
def HostFree (s : ProxySys) (pc : HostPc) : Prop :=
  s.host = pc ∧ s.locked = false

/-- The host thread gets to `pc` by itself. -/
def HostCan (s : ProxySys) (pc : HostPc) : Prop :=
  proxyMachine.Can (Alone .host) (·.HostFree pc) s

theorem can_host {P : ProxySys → Prop} {a : Answer} {pc : HostPc} (hpc : s.host = pc)
    (hs : hostStep { s with host := pc } a = some s') (ha : a ≠ .pollFail)
    (h : proxyMachine.Can (Alone .host) P s') : proxyMachine.Can (Alone .host) P s := by
  subst hpc
  exact .step (l := .step .host a) ⟨a, rfl, ha⟩ hs h

theorem host_can_destroy (h : s.HostFree (.work c .destroy l)) :
    proxyMachine.Can (Alone .host) (fun s' => s'.HostFree (.inLoop l) ∧ s'.life c = .freed) s :=
  can_host (a := .io .go) h.1 rfl nofun (.now ⟨⟨rfl, h.2⟩, update_self ..⟩)

theorem host_can_unlink (h : s.HostFree (.work c .unlink l)) :
    proxyMachine.Can (Alone .host) (fun s' => s'.HostFree (.inLoop l) ∧ s'.life c = .freed) s :=
  can_host (a := .io .go) h.1 (if_neg (by simp [h.2])) nofun (host_can_destroy ⟨rfl, h.2⟩)

theorem host_can_finish {w : HostAt} (h : s.HostFree (.work c w l)) (hw : 0 < w.rank) :
    s.HostCan (.inLoop l) := by
  induction hn : w.rank using Nat.strongRecOn generalizing s w with
  | ind n ih =>
    by_cases hunlink : w = .unlink
    · subst hunlink
      exact (host_can_unlink h).bind fun _ _ h => .now h.1
    by_cases hdestroy : w = .destroy
    · subst hdestroy
      exact (host_can_destroy h).bind fun _ _ h => .now h.1
    obtain ⟨a, c', w', hcode, hlt, hnext⟩ := hostCode_progress (s.conn c) hw hunlink hdestroy
    refine can_host rfl (hostStep_code h.1 hcode) nofun ?_
    by_cases hout : w' = .out ∨ w' = .moved
    · exact .now ⟨if_pos hout, h.2⟩
    · exact ih _ (hn ▸ hlt) ⟨if_neg hout, h.2⟩ (hnext.resolve_left hout) rfl

theorem host_can_errs {es : List (ℕ × Bool)} (h : s.HostFree (.inLoop (.errs es))) :
    s.HostCan .sweep := by
  induction es generalizing s with
  | nil => exact can_host (a := .io .go) h.1 rfl nofun (.now ⟨rfl, h.2⟩)
  | cons e es ih =>
    obtain ⟨c, err⟩ := e
    refine can_host (a := .io .go) h.1 rfl nofun ?_
    cases err with
    | false => exact ih ⟨rfl, h.2⟩
    | true => exact .bind (host_can_finish ⟨rfl, h.2⟩ (by decide)) fun _ _ h => ih h

theorem host_can_ios {all : List ℕ} (h : s.HostFree (.inLoop (.ios cs all))) :
    s.HostCan (.inLoop (.dones all)) := by
  induction cs generalizing s with
  | nil => exact can_host (a := .io .go) h.1 rfl nofun (.now ⟨rfl, h.2⟩)
  | cons c cs ih =>
    refine can_host (a := .io .go) h.1 rfl nofun ?_
    by_cases hfd : (s.conn c).lklFd = none
    · exact ih ⟨if_pos hfd, h.2⟩
    · exact .bind (host_can_finish ⟨if_neg hfd, h.2⟩ (by decide)) fun _ _ h => ih h

theorem hostStep_dones (hpc : s.host = .inLoop (.dones (c :: cs))) :
    s.hostStep (.io .go) = some { s with host := .work c (.done .hostReadEof) (.dones cs) } := by
  unfold hostStep
  rw [hpc]

theorem host_can_dones (h : s.HostFree (.inLoop (.dones cs))) : s.HostCan .start := by
  induction cs generalizing s with
  | nil => exact can_host (a := .io .go) h.1 rfl nofun (.now ⟨rfl, h.2⟩)
  | cons c cs ih =>
    refine can_host (a := .io .go) h.1 rfl nofun ?_
    exact .bind (host_can_finish ⟨rfl, h.2⟩ (by decide)) fun _ _ h => ih h

theorem host_can_sweep (h : s.HostFree .sweep) : s.HostCan (.inLoop (.dones s.all)) :=
  can_host (a := .io .go) h.1 (if_neg (by simp [h.2])) nofun (host_can_ios ⟨rfl, h.2⟩)

theorem host_can_start_of_loop (h : s.HostFree (.inLoop l)) : s.HostCan .start := by
  cases l with
  | errs es =>
    refine (host_can_errs h).bind fun s₁ _ h₁ => ?_
    exact (host_can_sweep h₁).bind fun s₂ _ h₂ => host_can_dones h₂
  | ios cs all => exact (host_can_ios h).bind fun _ _ h => host_can_dones h
  | dones cs => exact host_can_dones h

theorem host_can_start (hwf : s.host.Wf) (hexit : s.host ≠ .exit) (hlock : s.locked = false) :
    s.HostCan .start := by
  cases hpc : s.host with
  | start => exact .now ⟨hpc, hlock⟩
  | exit => exact absurd hpc hexit
  | snap =>
    exact can_host (a := .io .go) hpc (if_neg (by simp [hlock])) nofun
      (can_host (a := .pollIntr) rfl rfl nofun (.now ⟨rfl, hlock⟩))
  | poll cs => exact can_host (a := .pollIntr) hpc rfl nofun (.now ⟨rfl, hlock⟩)
  | accept es =>
    exact can_host (a := .acceptEnd) hpc rfl nofun (host_can_start_of_loop ⟨rfl, hlock⟩)
  | sweep => exact (host_can_sweep ⟨hpc, hlock⟩).bind fun _ _ h => host_can_dones h
  | inLoop l => exact host_can_start_of_loop ⟨hpc, hlock⟩
  | work c w l =>
    rw [hpc] at hwf
    exact (host_can_finish ⟨hpc, hlock⟩ hwf.2.rank_pos).bind fun _ _ h => host_can_start_of_loop h

theorem hostCode_done {x : Conn} (hfin : x.Finished) (st : Done) :
    hostCode x (.done st) .go = some (x, st.next) := by
  have htest : x.test st = true := by
    cases st with
    | hostReadEof => exact hfin.hostReadEof
    | hostWrShut => exact hfin.hostWrShut
    | lklReadEof => exact hfin.lklReadEof
    | lklWrShut => exact hfin.lklWrShut
    | h2l => exact Ring.empty_iff.mpr hfin.h2l
    | l2h => exact Ring.empty_iff.mpr hfin.l2h
  have heq : hostCode x (.done st) .go = some (x, if x.test st then st.next else .out) := by
    cases st <;> rfl
  rw [heq, if_pos htest]

theorem host_can_done {st : Done} (h : s.HostFree (.work c (.done st) l))
    (hfin : (s.conn c).Finished) : s.HostCan (.work c .unlink l) := by
  induction hn : (HostAt.done st).rank using Nat.strongRecOn generalizing s st with
  | ind n ih =>
    have hs := hostStep_code h.1 (hostCode_done hfin st)
    have hfin' : ((s.setConn c (s.conn c)).conn c).Finished := by simpa [setConn] using hfin
    refine can_host rfl hs nofun ?_
    cases st with
    | l2h => exact .now ⟨rfl, h.2⟩
    | _ => exact ih _ (hn ▸ by decide) ⟨rfl, h.2⟩ hfin' rfl

theorem host_can_free (h : s.HostFree (.inLoop (.dones cs))) (hmem : c ∈ cs)
    (hfin : ∀ s', proxyMachine.Reach (Alone .host) s s' → (s'.conn c).Finished) :
    proxyMachine.Can (Alone .host) (·.life c = .freed) s := by
  induction cs generalizing s with
  | nil => exact absurd hmem List.not_mem_nil
  | cons d cs ih =>
    have hs := hostStep_dones h.1
    refine can_host rfl hs nofun ?_
    by_cases hd : c = d
    · subst hd
      refine .bind (host_can_done ⟨rfl, h.2⟩ (hfin s .refl)) fun s' _ h => ?_
      exact (host_can_unlink h).bind fun _ _ h => .now h.2
    · refine .bind (host_can_finish ⟨rfl, h.2⟩ (by decide)) fun s' hreach h => ?_
      refine ih h ((List.mem_cons.mp hmem).resolve_left hd) fun s'' hreach' => ?_
      have hfirst : proxyMachine.Reach (Alone .host) s
          { s with host := .work d (.done .hostReadEof) (.dones cs) } :=
        .step (l := .step .host (.io .go)) .refl ⟨_, rfl, nofun⟩ hs
      exact hfin s'' ((hfirst.trans hreach).trans hreach')

theorem host_can_round (h : s.HostFree .start) (hrunning : s.running = true)
    (hfin : ∀ s', proxyMachine.Reach (Alone .host) s s' → (s'.conn c).Finished)
    (hall : ∀ s', proxyMachine.Reach (Alone .host) s s' → s'.host = .sweep →
      s'.life c = .freed ∨ c ∈ s'.all) : proxyMachine.Can (Alone .host) (·.life c = .freed) s := by
  have hstart : s.hostStep (.io .go) = some { s with host := .snap } := by
    unfold hostStep
    rw [h.1, hrunning]
    rfl
  have hsnap : ({ s with host := .snap } : ProxySys).hostStep (.io .go) =
      some { s with host := .poll s.all } :=
    if_neg (by simp [h.2])
  -- the poll reports nothing, so that the thread goes on with `all`
  have hsweep : s.HostCan .sweep :=
    can_host rfl hstart nofun (can_host rfl hsnap nofun
      (can_host (a := .pollOk false fun _ => false) rfl rfl nofun (host_can_errs ⟨rfl, h.2⟩)))
  refine hsweep.bind fun s₁ hreach₁ h₁ => ?_
  rcases hall s₁ hreach₁ h₁.1 with hfreed | hmem
  · exact .now hfreed
  · refine (host_can_sweep h₁).bind fun s₂ hreach₂ h₂ => ?_
    exact host_can_free h₂ hmem fun s' hreach => hfin s' ((hreach₁.trans hreach₂).trans hreach)

end Host

end ProxySys

end Anyfs.Proxy
