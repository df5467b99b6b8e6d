import Anyfs.Proxy.Threads

/-!
# The proxy, one connection at a time

Seen from one connection, every step of the proxy is a step of `connMachine` or no step at all
(`ProxySys.view_step`). For this the proxy has to keep its table in order: a connection is in one
slot at most, no list taken from the table has a connection twice, and a thread that works on a
connection is in the loop that belongs to this work (`ProxySys.Wf`).
-/

namespace Anyfs.Proxy

open Function List Option

theorem map_fst_pair (cs : List ℕ) (errs : ℕ → Bool) :
    (cs.map fun c => (c, errs c)).map Prod.fst = cs := by
  rw [List.map_map]
  exact map_id cs

/-! ### Where a thread is with a connection -/

def LklLoop.atConn (c : ℕ) : LklLoop → LklAt
  | .connect cs => if c ∈ cs then .pending else .out
  | .force _ => .out
  | .handle es => if c ∈ es.map Prod.fst then .inSet else .out

/-- Where the thread is with `c`. -/
def LklPc.atConn (c : ℕ) : LklPc → LklAt
  | .poll cs => if c ∈ cs then .inSet else .out
  | .inLoop l => l.atConn c
  | .work c' w l => if c = c' then w else l.atConn c
  | _ => .out

def HostLoop.atConn (c : ℕ) : HostLoop → HostAt
  | .errs es => if c ∈ es.map Prod.fst then .listed else .out
  | .ios cs all => if c ∈ cs then .swept else if c ∈ all then .moved else .out
  | .dones cs => if c ∈ cs then .moved else .out

/-- Where the thread is with `c`. -/
def HostPc.atConn (c : ℕ) : HostPc → HostAt
  | .poll cs => if c ∈ cs then .listed else .out
  | .accept es => if c ∈ es.map Prod.fst then .listed else .out
  | .inLoop l => l.atConn c
  | .work c' w l => if c = c' then w else l.atConn c
  | _ => .out

attribute [local simp] LklLoop.atConn LklPc.atConn HostLoop.atConn HostPc.atConn

def LklAt.Works : LklAt → Prop
  | .out | .pending | .inSet => False
  | _ => True

def HostAt.Works : HostAt → Prop
  | .out | .listed | .swept | .moved => False
  | _ => True

theorem LklLoop.not_works (l : LklLoop) (c : ℕ) : ¬ (l.atConn c).Works := by
  cases l <;> dsimp only [LklLoop.atConn] <;> (try split_ifs) <;> exact id

theorem HostLoop.not_works (l : HostLoop) (c : ℕ) : ¬ (l.atConn c).Works := by
  cases l <;> dsimp only [HostLoop.atConn] <;> (try split_ifs) <;> exact id

variable {c : ℕ}

theorem LklPc.eq_work {pc : LklPc} {w : LklAt} (h : pc.atConn c = w) (hw : w.Works) :
    ∃ l, pc = .work c w l := by
  subst h
  cases pc with
  | start | connSnap | lock | snap | exit => exact hw.elim
  | poll cs =>
    dsimp only [LklPc.atConn] at hw
    split_ifs at hw <;> exact hw.elim
  | inLoop l => exact (l.not_works c hw).elim
  | work c' w l =>
    by_cases hc : c = c'
    · subst hc
      exact ⟨l, by rw [LklPc.atConn, if_pos rfl]⟩
    · rw [LklPc.atConn, if_neg hc] at hw
      exact (l.not_works c hw).elim

theorem HostPc.eq_work {pc : HostPc} {w : HostAt} (h : pc.atConn c = w) (hw : w.Works) :
    ∃ l, pc = .work c w l := by
  subst h
  cases pc with
  | start | snap | sweep | exit => exact hw.elim
  | poll cs =>
    dsimp only [HostPc.atConn] at hw
    split_ifs at hw <;> exact hw.elim
  | accept es => exact (HostLoop.not_works (.errs es) c hw).elim
  | inLoop l => exact (l.not_works c hw).elim
  | work c' w l =>
    by_cases hc : c = c'
    · subst hc
      exact ⟨l, by rw [HostPc.atConn, if_pos rfl]⟩
    · rw [HostPc.atConn, if_neg hc] at hw
      exact (l.not_works c hw).elim

/-- One connection of the proxy. -/
def ProxySys.view (s : ProxySys) (c : ℕ) : ConnSys :=
  ⟨s.conn c, s.life c, s.lkl.atConn c, s.host.atConn c⟩

def ConnAct.side : ConnAct → Side
  | .lklList | .lklConnect _ | .lklForce | .lklSnap | .lklDrop | .lklStart _ | .lklCode _ => .lkl
  | .attach | .hostList | .hostUnlist | .hostErr | .hostSweep | .hostStart | .hostCheck
  | .hostCode _ | .unlink | .destroy => .host

/-- A step of a thread can be this step with a connection. -/
structure ProxySys.Takes (s : ProxySys) (sd : Side) (c : ℕ) (act : ConnAct) : Prop where
  side : act.side = sd
  snap : act = .lklSnap → s.lkl = .snap ∧ c ∈ s.cset
  code : ∀ a, act = .lklCode a → ∃ w l, s.lkl = .work c w l

/-- Seen from one connection, a step of a thread is no step, or one of the connection's machine. -/
def ProxySys.Follows (s s' : ProxySys) (sd : Side) (c : ℕ) : Prop :=
  s'.view c = s.view c ∨ ∃ act, s.Takes sd c act ∧ ConnStep (s.view c) act (s'.view c)

/-! ### Order in the proxy -/

def LklLoop.Wf : LklLoop → Prop
  | .connect cs => cs.Nodup
  | .force _ => True
  | .handle es => (es.map Prod.fst).Nodup

def LklLoop.Runs (l : LklLoop) (c : ℕ) : LklAt → Prop
  | .connectFail _ => ∃ cs, l = .connect cs ∧ c ∉ cs
  | .force _ => ∃ i, l = .force i
  | .errEof | .errShut | .io _ => ∃ es, l = .handle es ∧ c ∉ es.map Prod.fst
  | _ => False

def LklPc.Wf : LklPc → Prop
  | .poll cs => cs.Nodup
  | .inLoop l => l.Wf
  | .work c w l => l.Wf ∧ l.Runs c w
  | _ => True

theorem LklLoop.Runs.next {l : LklLoop} {r : Conn × LklAt} {w : LklAt} {x : Conn}
    {b : IoAct} (hruns : l.Runs c w) (h : lklCode x w b = some r) : r.2 = .out ∨ l.Runs c r.2 := by
  cases lklCode_cases h with
  | connectFail st => cases st <;> first | exact .inl rfl | exact .inr hruns
  | forceL2h => exact .inl rfl
  | @io _ _ _ o => cases o <;> first | exact .inl rfl | exact .inr hruns
  | _ => exact .inr hruns

theorem LklLoop.Runs.atConn {l : LklLoop} {w : LklAt} (h : l.Runs c w) : l.atConn c = .out := by
  cases w with
  | out | pending | inSet => exact h.elim
  | connectFail st =>
    obtain ⟨cs, rfl, hc⟩ := h
    exact if_neg hc
  | force st =>
    obtain ⟨i, rfl⟩ := h
    rfl
  | errEof | errShut | io pc =>
    obtain ⟨es, rfl, hc⟩ := h
    exact if_neg hc

def HostLoop.Wf : HostLoop → Prop
  | .errs es => (es.map Prod.fst).Nodup
  | .ios cs all => cs.Nodup ∧ all.Nodup ∧ cs ⊆ all
  | .dones cs => cs.Nodup

def HostLoop.Runs (l : HostLoop) (c : ℕ) : HostAt → Prop
  | .err _ => ∃ es, l = .errs es ∧ c ∉ es.map Prod.fst
  | .io _ => ∃ cs all, l = .ios cs all ∧ c ∉ cs ∧ c ∈ all
  | .done _ | .unlink | .destroy => ∃ cs, l = .dones cs ∧ c ∉ cs
  | _ => False

theorem HostLoop.Runs.next {l : HostLoop} {r : Conn × HostAt} {w : HostAt} {x : Conn}
    {b : IoAct} (hruns : l.Runs c w) (h : hostCode x w b = some r) :
    if r.2 = .out ∨ r.2 = .moved then l.atConn c = r.2 else l.Runs c r.2 := by
  cases hostCode_cases h with
  | errEof | errShut | errAsk => exact hruns
  | errSkip | errReq =>
    obtain ⟨es, rfl, hc⟩ := hruns
    exact if_neg hc
  | @io _ _ _ o =>
    cases o with
    | none =>
      obtain ⟨cs, all, rfl, hcs, hall⟩ := hruns
      exact (if_neg hcs).trans (if_pos hall)
    | some pc' => exact hruns
  | @done st => cases st <;> exact hruns
  | undone =>
    -- a test that fails ends `conn_done`
    obtain ⟨cs, rfl, hc⟩ := hruns
    exact if_neg hc

def HostPc.Wf : HostPc → Prop
  | .poll cs => cs.Nodup
  | .accept es => (es.map Prod.fst).Nodup
  | .inLoop l => l.Wf
  | .work c w l => l.Wf ∧ l.Runs c w
  | _ => True

namespace ProxySys

/-- What holds of the table and the threads. -/
structure Wf (s : ProxySys) : Prop where
  /-- A connection in the table knows its slot and is attached. -/
  table : ∀ i c, s.table i = some c → s.slot c = some i ∧ s.life c = .attached
  /-- Numbers that were not given out are free. -/
  fresh : ∀ c, s.next ≤ c → s.life c = .absent
  lkl : s.lkl.Wf
  host : s.host.Wf
  /-- What is about to be freed was taken out of the table. -/
  unlinked : ∀ c l, s.host = .work c .destroy l → s.life c = .unlinked

variable {s s' : ProxySys} {p : Conn → Bool} {c : ℕ}

theorem wf_started : started.Wf where
  table := nofun
  fresh _ _ := rfl
  lkl := trivial
  host := trivial
  unlinked := nofun

/-! ### Lists from the table -/

theorem mem_listed : c ∈ s.listed p ↔ (∃ i, s.table i = some c) ∧ p (s.conn c) = true := by
  simp only [listed, mem_filterMap, mem_finRange, true_and, filter_eq_some_iff, ← exists_and_right]

theorem Wf.nodup_listed (hwf : s.Wf) (p : Conn → Bool) : (s.listed p).Nodup := by
  refine List.Nodup.filterMap ?_ (nodup_finRange _)
  intro i j c hi hj
  have hi' := (filter_eq_some_iff.mp hi).1
  have hj' := (filter_eq_some_iff.mp hj).1
  exact some.inj ((hwf.table i c hi').1.symm.trans (hwf.table j c hj').1)

theorem Wf.life_of_mem_listed (hwf : s.Wf) (h : c ∈ s.listed p) : s.life c = .attached := by
  obtain ⟨⟨i, hi⟩, -⟩ := mem_listed.mp h
  exact (hwf.table i c hi).2

/-! ### Steps of the LKL thread -/

/-- What a step of the LKL thread does. -/
inductive LklMove (s : ProxySys) : ProxySys → Prop
  /-- It gets from one place between the loops to another. -/
  | idle (b : Bool) {pc : LklPc} : (∀ c, s.lkl.atConn c = .out) → (∀ c, pc.atConn c = .out) →
      pc.Wf → LklMove s { s with locked := b, lkl := pc }
  | list : s.lkl = .connSnap → LklMove s { s with lkl := .inLoop (.connect s.toConnect) }
  | connect {c : ℕ} {cs : List ℕ} (fd : ℕ) : s.lkl = .inLoop (.connect (c :: cs)) →
      LklMove s { s.setConn c { s.conn c with lklFd := some fd } with lkl := .inLoop (.connect cs) }
  | connectFail {c : ℕ} {cs : List ℕ} : s.lkl = .inLoop (.connect (c :: cs)) →
      LklMove s { s with lkl := .work c (.connectFail .hostReadEof) (.connect cs) }
  | force (b : Bool) {c i : ℕ} {j : Fin maxConns} : s.lkl = .inLoop (.force i) →
      s.table j = some c → (s.conn c).lklFd ≠ none → (s.conn c).flag .closeReq = true →
      LklMove s { s with locked := b, lkl := .work c (.force .lklFd) (.force (i + 1)) }
  | snap : s.lkl = .snap → LklMove s { s with lkl := .poll s.cset }
  | drop {cs : List ℕ} {pc : LklPc} : s.lkl = .poll cs → (∀ c, pc.atConn c = .out) → pc.Wf →
      LklMove s { s with lkl := pc }
  | ready {cs : List ℕ} (errs : ℕ → Bool) : s.lkl = .poll cs →
      LklMove s { s with lkl := .inLoop (.handle (cs.map fun c => (c, errs c))) }
  | start {c : ℕ} {err : Bool} {es : List (ℕ × Bool)} :
      s.lkl = .inLoop (.handle ((c, err) :: es)) →
      LklMove s { s with lkl := .work c (if err then .errEof else .io .rd) (.handle es) }
  | code {c : ℕ} {w : LklAt} {l : LklLoop} {a : IoAct} {r : Conn × LklAt} :
      s.lkl = .work c w l → lklCode (s.conn c) w a = some r →
      LklMove s
        { s.setConn c r.1 with lkl := if r.2 = .out then .inLoop l else .work c r.2 l }

section Lkl

variable {a : Answer}

theorem forceSlot_cases (s : ProxySys) (i : ℕ) :
    ((∀ c, (s.forceSlot i).atConn c = .out) ∧ (s.forceSlot i).Wf) ∨
      ∃ j c, s.table j = some c ∧ (s.conn c).lklFd ≠ none ∧
        (s.conn c).flag .closeReq = true ∧
        s.forceSlot i = .work c (.force .lklFd) (.force (i + 1)) := by
  rw [forceSlot]
  by_cases h : i < maxConns
  · rw [dif_pos h]
    cases hc : s.table ⟨i, h⟩ with
    | none => exact .inl ⟨fun _ => rfl, trivial⟩
    | some c =>
      dsimp only
      split_ifs with hclose
      · exact .inr ⟨⟨i, h⟩, c, hc, isSome_iff_ne_none.mp hclose.1, hclose.2, rfl⟩
      · exact .inl ⟨fun _ => rfl, trivial⟩
  · rw [dif_neg h]
    exact .inl ⟨fun _ => rfl, trivial⟩

theorem lklStep_move (h : s.lklStep a = some s') : LklMove s s' := by
  unfold lklStep at h
  split at h
  · -- the test of `running`
    rename_i hpc
    cases h
    refine .idle s.locked (fun c => ?_) (fun c => ?_) ?_
    · rw [hpc]
      rfl
    · split_ifs <;> rfl
    · split_ifs <;> trivial
  · -- `lkl_connect_new`
    rename_i hpc
    cases h
    exact .list hpc
  · rename_i hpc
    cases h
    exact .idle s.locked (fun c => by rw [hpc]; rfl) (fun _ => rfl) trivial
  · rename_i hpc
    cases h
    exact .connect _ hpc
  · rename_i hpc
    cases h
    exact .connectFail hpc
  · -- `lkl_do_force_close`
    rename_i hpc
    cases h
    exact .idle true (fun c => by rw [hpc]; rfl) (fun _ => rfl) trivial
  · rename_i i hpc
    cases h
    rcases s.forceSlot_cases i with ⟨hout, hwf⟩ | ⟨j, c, hc, hfd, hclose, heq⟩
    · exact .idle _ (fun c => by rw [hpc]; rfl) hout hwf
    · rw [heq]
      exact .force _ hpc hc hfd hclose
  · -- `cset` and the poll
    rename_i hpc
    cases h
    exact .snap hpc
  · rename_i hpc
    cases h
    exact .drop hpc (fun _ => rfl) trivial
  · rename_i hpc
    cases h
    exact .drop hpc (fun _ => rfl) trivial
  · rename_i hpc
    cases h
    exact .ready _ hpc
  · rename_i hpc
    cases h
    exact .idle s.locked (fun c => by rw [hpc]; rfl) (fun _ => rfl) trivial
  · -- the loop over `cset`
    rename_i hpc
    cases h
    exact .start hpc
  · rename_i hpc
    obtain ⟨r, hr, rfl⟩ := map_eq_some_iff.mp h
    exact .code hpc hr
  · cases h

theorem lklStep_frame (h : s.lklStep a = some s') :
    s'.running = s.running ∧ s'.host = s.host ∧ s'.table = s.table ∧ s'.life = s.life := by
  cases lklStep_move h <;> exact ⟨rfl, rfl, rfl, rfl⟩

variable {conn : ℕ → Conn}

theorem Wf.setLkl (hwf : s.Wf) {b : Bool} {pc : LklPc} (hpc : pc.Wf) :
    ({ s with locked := b, conn := conn, lkl := pc } : ProxySys).Wf :=
  ⟨hwf.table, hwf.fresh, hpc, hwf.host, hwf.unlinked⟩

theorem LklMove.wf (hwf : s.Wf) (h : LklMove s s') : s'.Wf := by
  have hlkl := hwf.lkl
  cases h with
  | idle b hout hout' hpc => exact hwf.setLkl hpc
  | list hpc => exact hwf.setLkl (hwf.nodup_listed _)
  | connect fd hpc =>
    rw [hpc] at hlkl
    exact hwf.setLkl (nodup_cons.mp hlkl).2
  | @connectFail c cs hpc =>
    rw [hpc] at hlkl
    obtain ⟨hc, hcs⟩ := nodup_cons.mp hlkl
    exact hwf.setLkl ⟨hcs, cs, rfl, hc⟩
  | @force b c i j hpc => exact hwf.setLkl ⟨trivial, i + 1, rfl⟩
  | snap hpc => exact hwf.setLkl (hwf.nodup_listed _)
  | drop hpc hout hwf' => exact hwf.setLkl hwf'
  | @ready cs errs hpc =>
    rw [hpc] at hlkl
    refine hwf.setLkl ?_
    rw [LklPc.Wf, LklLoop.Wf, map_fst_pair]
    exact hlkl
  | @start c err es hpc =>
    rw [hpc] at hlkl
    obtain ⟨hc, hes⟩ := nodup_cons.mp hlkl
    refine hwf.setLkl ⟨hes, ?_⟩
    cases err
    · exact ⟨es, rfl, hc⟩
    · exact ⟨es, rfl, hc⟩
  | @code c w l a r hpc h =>
    rw [hpc] at hlkl
    refine hwf.setLkl ?_
    split_ifs with hout
    · exact hlkl.1
    · exact ⟨hlkl.1, (hlkl.2.next h).resolve_left hout⟩

theorem follows_lkl {act : ConnAct} {b : Bool} {pc : LklPc} {x : Conn}
    {w : LklAt} (hconn : conn c = x) (hw : pc.atConn c = w)
    (h : ConnStep (s.view c) act ⟨x, s.life c, w, s.host.atConn c⟩) (htakes : s.Takes .lkl c act) :
    s.Follows { s with locked := b, conn := conn, lkl := pc } .lkl c := by
  subst hconn hw
  exact .inr ⟨act, htakes, h⟩

theorem follows_lkl_of_eq {b : Bool} {pc : LklPc} (hconn : conn c = s.conn c)
    (hw : pc.atConn c = s.lkl.atConn c) :
    s.Follows { s with locked := b, conn := conn, lkl := pc } .lkl c :=
  .inl (by simp only [view, hconn, hw])

theorem LklMove.follows (hwf : s.Wf) (h : LklMove s s') (c : ℕ) : s.Follows s' .lkl c := by
  have hlkl := hwf.lkl
  cases h with
  | idle b hout hout' hpc => exact follows_lkl_of_eq rfl ((hout' c).trans (hout c).symm)
  | list hpc =>
    have hout : s.lkl.atConn c = .out := by rw [hpc]; rfl
    by_cases hc : c ∈ s.toConnect
    · obtain ⟨-, hp⟩ := mem_listed.mp hc
      simp only [Bool.and_eq_true, isNone_iff_eq_none, Bool.not_eq_true'] at hp
      exact follows_lkl rfl (if_pos hc)
        (.lklList (hwf.life_of_mem_listed hc) hout hp.1 hp.2) ⟨rfl, nofun, nofun⟩
    · exact follows_lkl_of_eq rfl ((if_neg hc).trans hout.symm)
  | @connect c' cs fd hpc =>
    rw [hpc] at hlkl
    by_cases hc : c = c'
    · subst hc
      exact follows_lkl (update_self ..) (if_neg (nodup_cons.mp hlkl).1)
        (.lklConnect fd (by simp [view, hpc])) ⟨rfl, nofun, nofun⟩
    · exact follows_lkl_of_eq (update_of_ne hc _ _)
        (by simp [hpc, hc])
  | @connectFail c' cs hpc =>
    by_cases hc : c = c'
    · subst hc
      exact follows_lkl rfl (if_pos rfl)
        (.lklConnectFail (by simp [view, hpc])) ⟨rfl, nofun, nofun⟩
    · exact follows_lkl_of_eq rfl (by simp [hpc, hc])
  | @force b c' i j hpc htable hfd hclose =>
    by_cases hc : c = c'
    · subst hc
      exact follows_lkl rfl (if_pos rfl)
        (.lklForce (hwf.table j c htable).2 (by simp [view, hpc]) hfd
          hclose) ⟨rfl, nofun, nofun⟩
    · exact follows_lkl_of_eq rfl (by simp [hpc, hc])
  | snap hpc =>
    by_cases hc : c ∈ s.cset
    · obtain ⟨-, hfd⟩ := mem_listed.mp hc
      exact follows_lkl rfl (if_pos hc)
        (.lklSnap (hwf.life_of_mem_listed hc) (by simp [view, hpc])
        (isSome_iff_ne_none.mp hfd)) ⟨rfl, fun _ => ⟨hpc, hc⟩, nofun⟩
    · exact follows_lkl_of_eq rfl (by simp [hpc, hc])
  | @drop cs pc hpc hout hwf' =>
    by_cases hc : c ∈ cs
    · exact follows_lkl rfl (hout c) (.lklDrop (by simp [view, hpc, hc]))
        ⟨rfl, nofun, nofun⟩
    · exact follows_lkl_of_eq rfl ((hout c).trans (by simp [hpc, hc]))
  | @ready cs errs hpc =>
    -- the list is the same, with the error events beside it
    exact follows_lkl_of_eq rfl (by simp only [hpc, LklPc.atConn, LklLoop.atConn, map_fst_pair])
  | @start c' err es hpc =>
    by_cases hc : c = c'
    · subst hc
      exact follows_lkl rfl (if_pos rfl)
        (.lklStart err (by simp [view, hpc])) ⟨rfl, nofun, nofun⟩
    · exact follows_lkl_of_eq rfl (by simp [hpc, hc])
  | @code c' w l a r hpc h =>
    rw [hpc] at hlkl
    by_cases hc : c = c'
    · subst hc
      have hw : s.lkl.atConn c = w := by simp [hpc]
      have h' : lklCode (s.conn c) (s.lkl.atConn c) a = some r := by rw [hw, h]
      refine follows_lkl (update_self ..) (w := r.2) ?_ (.lklCode h')
        ⟨rfl, nofun, fun _ _ => ⟨w, l, hpc⟩⟩
      split_ifs with hout
      · rw [hout]
        exact hlkl.2.atConn
      · exact if_pos rfl
    · -- work on one connection leaves the others where the loop has them
      refine follows_lkl_of_eq (update_of_ne hc _ _) ?_
      split_ifs <;> simp [hpc, hc]

end Lkl

/-! ### Steps of the host thread -/

/-- What a step of the host thread does. -/
inductive HostMove (s : ProxySys) : ProxySys → Prop
  /-- It gets from one place to another with the same connections at hand. -/
  | idle {pc : HostPc} : (∀ c, pc.atConn c = s.host.atConn c) → (s.host.Wf → pc.Wf) →
      HostMove s { s with host := pc }
  | list : s.host = .snap → HostMove s { s with host := .poll s.all }
  | drop {cs : List ℕ} {pc : HostPc} : s.host = .poll cs → (∀ c, pc.atConn c = .out) → pc.Wf →
      HostMove s { s with host := pc }
  | attach {es : List (ℕ × Bool)} {i : Fin maxConns} : s.host = .accept es → s.table i = none →
      HostMove s (s.attachAt i)
  | unlist {c : ℕ} {es : List (ℕ × Bool)} : s.host = .inLoop (.errs ((c, false) :: es)) →
      HostMove s { s with host := .inLoop (.errs es) }
  | err {c : ℕ} {es : List (ℕ × Bool)} : s.host = .inLoop (.errs ((c, true) :: es)) →
      HostMove s { s with host := .work c (.err .hostReadEof) (.errs es) }
  | sweep : s.host = .sweep → HostMove s { s with host := .inLoop (.ios s.all s.all) }
  | pass {c : ℕ} {cs all : List ℕ} : s.host = .inLoop (.ios (c :: cs) all) →
      (s.conn c).lklFd = none → HostMove s { s with host := .inLoop (.ios cs all) }
  | start {c : ℕ} {cs all : List ℕ} : s.host = .inLoop (.ios (c :: cs) all) →
      (s.conn c).lklFd ≠ none → HostMove s { s with host := .work c (.io .rd) (.ios cs all) }
  | check {c : ℕ} {cs : List ℕ} : s.host = .inLoop (.dones (c :: cs)) →
      HostMove s { s with host := .work c (.done .hostReadEof) (.dones cs) }
  | code {c : ℕ} {w : HostAt} {l : HostLoop} {a : IoAct} {r : Conn × HostAt} :
      s.host = .work c w l → hostCode (s.conn c) w a = some r →
      HostMove s
        { s.setConn c r.1 with
          host := if r.2 = .out ∨ r.2 = .moved then .inLoop l else .work c r.2 l }
  | unlink {c : ℕ} {l : HostLoop} : s.host = .work c .unlink l →
      HostMove s { s.connUnlink c with host := .work c .destroy l }
  | destroy {c : ℕ} {l : HostLoop} : s.host = .work c .destroy l →
      HostMove s { s with life := Function.update s.life c .freed, host := .inLoop l }

section Host

variable {a : Answer}

theorem connAttach_cases (s : ProxySys) :
    s.connAttach.getD s = s ∨ ∃ i, s.table i = none ∧ s.connAttach.getD s = s.attachAt i := by
  rw [connAttach]
  cases h : (finRange maxConns).find? fun i => (s.table i).isNone with
  | none => exact .inl rfl
  | some i =>
    have hi := List.find?_some h
    exact .inr ⟨i, isNone_iff_eq_none.mp hi, rfl⟩

theorem hostStep_move (h : s.hostStep a = some s') : HostMove s s' := by
  unfold hostStep at h
  split at h
  · -- the test of `running`
    rename_i hpc
    cases h
    refine .idle (fun c => ?_) fun _ => ?_
    · rw [hpc]
      split_ifs <;> rfl
    · split_ifs <;> trivial
  · -- `clist` and the poll
    rename_i hpc
    obtain ⟨-, h⟩ := ite_none_left_eq_some.mp h
    cases h
    exact .list hpc
  · rename_i hpc
    cases h
    exact .drop hpc (fun _ => rfl) trivial
  · rename_i hpc
    cases h
    exact .drop hpc (fun _ => rfl) trivial
  · rename_i cs listen errs hpc
    cases h
    refine .idle (fun c => ?_) fun hwf => ?_
    · rw [hpc]
      split_ifs <;> simp only [HostPc.atConn, HostLoop.atConn, map_fst_pair]
    · rw [hpc] at hwf
      split_ifs <;> simpa only [HostPc.Wf, HostLoop.Wf, map_fst_pair] using hwf
  · -- `host_accept`
    rename_i hpc
    obtain ⟨-, h⟩ := ite_none_left_eq_some.mp h
    cases h
    rcases s.connAttach_cases with heq | ⟨i, hi, heq⟩
    · rw [heq]
      exact .idle (fun _ => rfl) id
    · rw [heq]
      exact .attach hpc hi
  · cases h
    exact .idle (fun _ => rfl) id
  · rename_i hpc
    cases h
    refine .idle (fun c => ?_) fun hwf => ?_
    · rw [hpc]
      rfl
    · rw [hpc] at hwf
      exact hwf
  · rename_i hpc
    cases h
    refine .idle (fun c => ?_) fun hwf => trivial
    rw [hpc]
    rfl
  · -- the error events
    rename_i c err es hpc
    cases h
    cases err with
    | false => exact .unlist hpc
    | true => exact .err hpc
  · -- `all`, and the loops over it
    rename_i hpc
    obtain ⟨-, h⟩ := ite_none_left_eq_some.mp h
    cases h
    exact .sweep hpc
  · rename_i all hpc
    cases h
    refine .idle (fun c => ?_) fun hwf => ?_
    · rw [hpc]
      rfl
    · rw [hpc] at hwf
      exact hwf.2.1
  · rename_i c cs all hpc
    cases h
    split_ifs with hfd
    · exact .pass hpc hfd
    · exact .start hpc hfd
  · rename_i hpc
    cases h
    refine .idle (fun c => ?_) fun _ => trivial
    rw [hpc]
    rfl
  · rename_i hpc
    cases h
    exact .check hpc
  · -- `conn_free`
    rename_i hpc
    obtain ⟨-, h⟩ := ite_none_left_eq_some.mp h
    cases h
    exact .unlink hpc
  · rename_i hpc
    cases h
    exact .destroy hpc
  · rename_i hpc
    obtain ⟨r, hr, rfl⟩ := map_eq_some_iff.mp h
    exact .code hpc hr
  · cases h

theorem hostStep_frame (h : s.hostStep a = some s') :
    s'.running = s.running ∧ s'.lkl = s.lkl ∧ s'.locked = s.locked := by
  cases hostStep_move h <;> exact ⟨rfl, rfl, rfl⟩

theorem Wf.setHost (hwf : s.Wf) {conn : ℕ → Conn} {pc : HostPc} (hpc : pc.Wf)
    (hd : ∀ c l, pc = .work c .destroy l → s.host.atConn c = .destroy) :
    ({ s with conn := conn, host := pc } : ProxySys).Wf := by
  refine ⟨hwf.table, hwf.fresh, hwf.lkl, hpc, fun c l hc => ?_⟩
  obtain ⟨l', hl'⟩ := HostPc.eq_work (hd c l hc) trivial
  exact hwf.unlinked c l' hl'

theorem hostCode_ne_destroy {x : Conn} {w : HostAt} {b : IoAct} {r : Conn × HostAt}
    (h : hostCode x w b = some r) : r.2 ≠ .destroy := by
  cases hostCode_cases h with
  | @io _ _ _ o => cases o <;> nofun
  | @done st => cases st <;> nofun
  | _ => nofun

theorem Wf.attach (hwf : s.Wf) {es : List (ℕ × Bool)} {i : Fin maxConns}
    (hpc : s.host = .accept es) : (s.attachAt i).Wf where
  table j c hj := by
    by_cases hji : j = i
    · subst hji
      obtain rfl : s.next = c := by simpa [attachAt] using hj
      simp [attachAt]
    · have hj' : s.table j = some c := by simpa [attachAt, hji] using hj
      obtain ⟨hslot, hlife⟩ := hwf.table j c hj'
      have hne : c ≠ s.next := by
        rintro rfl
        cases (hwf.fresh _ le_rfl).symm.trans hlife
      simp [attachAt, hne, hslot, hlife]
  fresh c hc := by
    have hne : c ≠ s.next := (Nat.lt_of_succ_le hc).ne'
    simpa [attachAt, hne] using hwf.fresh c (Nat.le_of_succ_le hc)
  lkl := hwf.lkl
  host := hwf.host
  unlinked c l hc := by cases hpc.symm.trans hc

theorem life_ne_absent_of_atConn (hok : ConnOk (s.view c)) (h : s.host.atConn c ≠ .out) :
    s.life c ≠ .absent :=
  fun hlife => h (hok.absent hlife).2

theorem Wf.unlink (hwf : s.Wf) {l : HostLoop} (hok : ConnOk (s.view c))
    (hpc : s.host = .work c .unlink l) :
    ({ s.connUnlink c with host := .work c .destroy l } : ProxySys).Wf where
  table j c' hj := by
    obtain ⟨hslot, hj'⟩ : ¬(s.slot c = some j ∧ s.table j = some c) ∧ s.table j = some c' := by
      simpa [connUnlink] using hj
    obtain ⟨hslot', hlife⟩ := hwf.table j c' hj'
    have hne : c' ≠ c := by
      rintro rfl
      exact hslot ⟨hslot', hj'⟩
    exact ⟨hslot', (update_of_ne hne _ _).trans hlife⟩
  fresh c' hc' := by
    have hlife := life_ne_absent_of_atConn hok (by rw [hpc]; simp)
    have hne : c' ≠ c := by
      rintro rfl
      exact hlife (hwf.fresh c' hc')
    exact (update_of_ne hne _ _).trans (hwf.fresh c' hc')
  lkl := hwf.lkl
  host := by
    have hhost := hwf.host
    rw [hpc] at hhost
    exact hhost
  unlinked c' l' hc' := by
    cases hc'
    exact update_self ..

theorem Wf.destroy (hwf : s.Wf) {l : HostLoop} (hpc : s.host = .work c .destroy l) :
    ({ s with life := update s.life c .freed, host := .inLoop l } : ProxySys).Wf where
  table j c' hj := by
    obtain ⟨hslot, hlife⟩ := hwf.table j c' hj
    have hne : c' ≠ c := by
      rintro rfl
      cases (hwf.unlinked c' l hpc).symm.trans hlife
    exact ⟨hslot, (update_of_ne hne _ _).trans hlife⟩
  fresh c' hc' := by
    have hne : c' ≠ c := by
      rintro rfl
      cases (hwf.unlinked c' l hpc).symm.trans (hwf.fresh c' hc')
    exact (update_of_ne hne _ _).trans (hwf.fresh c' hc')
  lkl := hwf.lkl
  host := by
    have hhost := hwf.host
    rw [hpc] at hhost
    exact hhost.1
  unlinked := nofun

theorem HostMove.wf (hwf : s.Wf) (hok : ∀ c, ConnOk (s.view c)) (h : HostMove s s') : s'.Wf := by
  have hhost := hwf.host
  cases h with
  | idle hat hpc =>
    refine hwf.setHost (hpc hhost) ?_
    rintro c l rfl
    exact (hat c).symm.trans (if_pos rfl)
  | list hpc => exact hwf.setHost (hwf.nodup_listed _) nofun
  | drop hpc hout hwf' =>
    refine hwf.setHost hwf' ?_
    rintro c l rfl
    cases (hout c).symm.trans (if_pos rfl)
  | attach hpc hi => exact hwf.attach hpc
  | unlist hpc =>
    rw [hpc] at hhost
    exact hwf.setHost (nodup_cons.mp hhost).2 nofun
  | @err c es hpc =>
    rw [hpc] at hhost
    obtain ⟨hc, hes⟩ := nodup_cons.mp hhost
    exact hwf.setHost ⟨hes, es, rfl, hc⟩ nofun
  | sweep hpc =>
    have hall := hwf.nodup_listed fun _ => true
    exact hwf.setHost ⟨hall, hall, List.Subset.refl _⟩ nofun
  | pass hpc hfd =>
    rw [hpc] at hhost
    obtain ⟨hcs, hall, hsub⟩ := hhost
    exact hwf.setHost ⟨(nodup_cons.mp hcs).2, hall, (cons_subset.mp hsub).2⟩ nofun
  | @start c cs all hpc hfd =>
    rw [hpc] at hhost
    obtain ⟨hcs, hall, hsub⟩ := hhost
    obtain ⟨hc, hcs⟩ := nodup_cons.mp hcs
    obtain ⟨hmem, hsub⟩ := cons_subset.mp hsub
    exact hwf.setHost ⟨⟨hcs, hall, hsub⟩, cs, all, rfl, hc, hmem⟩ nofun
  | @check c cs hpc =>
    rw [hpc] at hhost
    obtain ⟨hc, hcs⟩ := nodup_cons.mp hhost
    exact hwf.setHost ⟨hcs, cs, rfl, hc⟩ nofun
  | @code c w l a r hpc h =>
    rw [hpc] at hhost
    have hnext := hhost.2.next h
    have hne := hostCode_ne_destroy h
    split_ifs at hnext ⊢ with hend
    · exact hwf.setHost hhost.1 nofun
    · refine hwf.setHost ⟨hhost.1, hnext⟩ fun c' l' hc' => ?_
      obtain ⟨-, hr, -⟩ := HostPc.work.inj hc'
      exact (hne hr).elim
  | unlink hpc => exact hwf.unlink (hok _) hpc
  | destroy hpc => exact hwf.destroy hpc

section Follows

variable {table : Fin maxConns → Option ℕ} {slot : ℕ → Option (Fin maxConns)} {conn : ℕ → Conn}
  {life : ℕ → Life} {next : ℕ} {pc : HostPc}

theorem follows_host {act : ConnAct} {x : Conn} {y : Life} {w : HostAt} (hact : act.side = .host)
    (hconn : conn c = x) (hlife : life c = y) (hw : pc.atConn c = w)
    (h : ConnStep (s.view c) act ⟨x, y, s.lkl.atConn c, w⟩) :
    s.Follows ⟨s.running, s.locked, table, slot, conn, life, next, s.lkl, pc⟩ .host c := by
  subst hconn hlife hw
  refine .inr ⟨act, ⟨hact, ?_, ?_⟩, h⟩
  · rintro rfl
    cases hact
  · rintro a rfl
    cases hact

theorem follows_host_of_eq (hconn : conn c = s.conn c) (hlife : life c = s.life c)
    (hw : pc.atConn c = s.host.atConn c) :
    s.Follows ⟨s.running, s.locked, table, slot, conn, life, next, s.lkl, pc⟩ .host c :=
  .inl (by simp only [view, hconn, hlife, hw])

end Follows

theorem HostMove.follows (hwf : s.Wf) (hok : ∀ c, ConnOk (s.view c)) (h : HostMove s s') (c : ℕ) :
    s.Follows s' .host c := by
  have hhost := hwf.host
  cases h with
  | idle hat hpc => exact follows_host_of_eq rfl rfl (hat c)
  | list hpc =>
    by_cases hc : c ∈ s.all
    · exact follows_host rfl rfl rfl (if_pos hc)
        (.hostList (hwf.life_of_mem_listed hc) (by simp [view, hpc]))
    · exact follows_host_of_eq rfl rfl (by simp [hpc, hc])
  | @drop cs pc hpc hout hwf' =>
    by_cases hc : c ∈ cs
    · exact follows_host rfl rfl rfl (hout c) (.hostUnlist (by simp [view, hpc, hc]))
    · exact follows_host_of_eq rfl rfl ((hout c).trans (by simp [hpc, hc]))
  | attach hpc hi =>
    by_cases hc : c = s.next
    · -- no thread knows the number that is given out
      subst hc
      have hlife := hwf.fresh _ le_rfl
      exact follows_host rfl (update_self ..) (update_self ..) rfl
        (.attach hlife ((hok _).absent hlife).2)
    · exact follows_host_of_eq (update_of_ne hc _ _) (update_of_ne hc _ _) rfl
  | @unlist c' es hpc =>
    rw [hpc] at hhost
    by_cases hc : c = c'
    · subst hc
      exact follows_host rfl rfl rfl (if_neg (nodup_cons.mp hhost).1)
        (.hostUnlist (by simp [view, hpc]))
    · exact follows_host_of_eq rfl rfl (by simp [hpc, hc])
  | @err c' es hpc =>
    by_cases hc : c = c'
    · subst hc
      exact follows_host rfl rfl rfl (if_pos rfl)
        (.hostErr (by simp [view, hpc]))
    · exact follows_host_of_eq rfl rfl (by simp [hpc, hc])
  | sweep hpc =>
    by_cases hc : c ∈ s.all
    · exact follows_host rfl rfl rfl (if_pos hc)
        (.hostSweep (hwf.life_of_mem_listed hc) (by simp [view, hpc]))
    · exact follows_host_of_eq rfl rfl (by simp [hpc, hc])
  | @pass c' cs all hpc hfd =>
    rw [hpc] at hhost
    obtain ⟨hcs, -, hsub⟩ := hhost
    by_cases hc : c = c'
    · subst hc
      have hstep :=
        ConnStep.hostStart (v := s.view c) (by simp [view, hpc])
      rw [if_pos (by exact hfd)] at hstep
      exact follows_host rfl rfl rfl
        ((if_neg (nodup_cons.mp hcs).1).trans (if_pos (cons_subset.mp hsub).1)) hstep
    · exact follows_host_of_eq rfl rfl (by simp [hpc, hc])
  | @start c' cs all hpc hfd =>
    by_cases hc : c = c'
    · subst hc
      have hstep :=
        ConnStep.hostStart (v := s.view c) (by simp [view, hpc])
      rw [if_neg (by exact hfd)] at hstep
      exact follows_host rfl rfl rfl (if_pos rfl) hstep
    · exact follows_host_of_eq rfl rfl (by simp [hpc, hc])
  | @check c' cs hpc =>
    by_cases hc : c = c'
    · subst hc
      exact follows_host rfl rfl rfl (if_pos rfl)
        (.hostCheck (by simp [view, hpc]))
    · exact follows_host_of_eq rfl rfl (by simp [hpc, hc])
  | @code c' w l a r hpc h =>
    rw [hpc] at hhost
    by_cases hc : c = c'
    · subst hc
      have hw : s.host.atConn c = w := by simp [hpc]
      have h' : hostCode (s.conn c) (s.host.atConn c) a = some r := by rw [hw, h]
      refine follows_host rfl (update_self ..) rfl (w := r.2) ?_ (.hostCode h')
      have hnext := hhost.2.next h
      split_ifs at hnext ⊢ with hend
      · exact hnext
      · exact if_pos rfl
    · refine follows_host_of_eq (update_of_ne hc _ _) rfl ?_
      split_ifs <;> simp [hpc, hc]
  | @unlink c' l hpc =>
    by_cases hc : c = c'
    · subst hc
      exact follows_host rfl rfl (update_self ..) (if_pos rfl)
        (.unlink (by simp [view, hpc]))
    · exact follows_host_of_eq rfl (update_of_ne hc _ _)
        (by simp [hpc, hc])
  | @destroy c' l hpc =>
    rw [hpc] at hhost
    by_cases hc : c = c'
    · subst hc
      have hout : l.atConn c = .out := by
        obtain ⟨-, cs, rfl, hcs⟩ := hhost
        exact if_neg hcs
      exact follows_host rfl rfl (update_self ..) hout
        (.destroy (by simp [view, hpc]))
    · exact follows_host_of_eq rfl (update_of_ne hc _ _)
        (by simp [hpc, hc])

end Host

/-! ### Runs -/

theorem view_step {l : ProxyAct} (hwf : s.Wf) (hok : ∀ c, ConnOk (s.view c))
    (h : s.step l = some s') :
    s'.Wf ∧ ∀ c, s'.view c = s.view c ∨ ∃ sd a, l = .step sd a ∧ s.Follows s' sd c := by
  cases l with
  | stop =>
    cases h
    exact ⟨⟨hwf.table, hwf.fresh, hwf.lkl, hwf.host, hwf.unlinked⟩, fun _ => .inl rfl⟩
  | step sd a =>
    cases sd with
    | lkl =>
      have hmove := lklStep_move h
      exact ⟨hmove.wf hwf, fun c => .inr ⟨.lkl, a, rfl, hmove.follows hwf c⟩⟩
    | host =>
      have hmove := hostStep_move h
      exact ⟨hmove.wf hwf hok, fun c => .inr ⟨.host, a, rfl, hmove.follows hwf hok c⟩⟩

variable {guard : ProxySys → ProxyAct → Prop}

theorem reach_ok (h : proxyMachine.Reach guard started s) : s.Wf ∧ ∀ c, ConnOk (s.view c) := by
  refine h.invariant (P := fun s => s.Wf ∧ ∀ c, ConnOk (s.view c))
    ⟨wf_started, fun _ => connOk_absent⟩ ?_
  rintro s l s' ⟨hwf, hok⟩ - hs
  obtain ⟨hwf', hview⟩ := view_step hwf hok hs
  refine ⟨hwf', fun c => ?_⟩
  rcases hview c with heq | ⟨sd, a, rfl, heq | ⟨act, -, hstep⟩⟩
  · exact heq ▸ hok c
  · exact heq ▸ hok c
  · exact (hok c).step hstep

theorem conn_step {l : ProxyAct} (h : proxyMachine.Reach guard started s) (hs : s.step l = some s')
    (c : ℕ) : s'.view c = s.view c ∨ ∃ act, ConnStep (s.view c) act (s'.view c) := by
  obtain ⟨hwf, hok⟩ := reach_ok h
  rcases (view_step hwf hok hs).2 c with heq | ⟨sd, a, -, heq | ⟨act, -, hstep⟩⟩
  · exact .inl heq
  · exact .inl heq
  · exact .inr ⟨act, hstep⟩

/-- Every state of a run of the proxy shows each connection in a state of a run of its own. The
run of the connection meets a condition if the run of the proxy meets one that implies it for
every step that can be taken with a connection. -/
theorem reach_view {guard' : ConnSys → ConnAct → Prop}
    (hguard : ∀ s sd a c act, guard s (.step sd a) → s.Takes sd c act → guard' (s.view c) act)
    (h : proxyMachine.Reach guard started s) (c : ℕ) :
    connMachine.Reach guard' .absent (s.view c) := by
  refine h.simulation (fun s => s.view c) fun s l s' hreach hl hs => ?_
  obtain ⟨hwf, hok⟩ := reach_ok hreach
  rcases (view_step hwf hok hs).2 c with heq | ⟨sd, a, rfl, heq | ⟨act, htakes, hstep⟩⟩
  · exact .inl heq
  · exact .inl heq
  · exact .inr ⟨act, hguard s sd a c act hl htakes, hstep⟩

/-! ### Slots -/

/-- An attached connection is in the slot it knows. -/
def Slotted (s : ProxySys) : Prop :=
  ∀ c, s.life c = .attached → ∃ i, s.slot c = some i ∧ s.table i = some c

theorem Slotted.attach (h : s.Slotted) {i : Fin maxConns} (hi : s.table i = none) :
    (s.attachAt i).Slotted := by
  intro c hc
  by_cases hne : c = s.next
  · exact ⟨i, by simp [attachAt, hne]⟩
  · obtain ⟨j, hslot, hj⟩ := h c (by simpa [attachAt, hne] using hc)
    have hji : j ≠ i := by
      rintro rfl
      cases hi.symm.trans hj
    exact ⟨j, by simp [attachAt, hne, hslot], by simp [attachAt, hji, hj]⟩

theorem Slotted.unlink (h : s.Slotted) (c : ℕ) : (s.connUnlink c).Slotted := by
  intro d hd
  have hne : d ≠ c := by
    rintro rfl
    cases hd.symm.trans (update_self ..)
  obtain ⟨j, hslot, hj⟩ := h d ((update_of_ne hne _ _).symm.trans hd)
  refine ⟨j, hslot, (if_neg ?_).trans hj⟩
  rintro ⟨-, hc⟩
  exact hne (some.inj (hj.symm.trans hc))

theorem Slotted.step (h : s.Slotted) {l : ProxyAct} (hs : s.step l = some s') : s'.Slotted := by
  cases l with
  | stop =>
    cases hs
    exact h
  | step sd a =>
    cases sd with
    | lkl => cases lklStep_move hs <;> exact h
    | host =>
      cases hostStep_move hs with
      | attach _ hi => exact h.attach hi
      | @unlink c => exact h.unlink c
      | @destroy c =>
        intro d hd
        have hne : d ≠ c := by
          rintro rfl
          cases hd.symm.trans (update_self ..)
        exact h d ((update_of_ne hne _ _).symm.trans hd)
      | _ => exact h

/-- **Slots.** In every run of the proxy a connection is in the table, in the slot it knows and in
no other, exactly from its `conn_attach` to its `conn_free`. -/
theorem slots_once (s : { s // proxyMachine.Reach (fun _ _ => True) started s }) (c : ℕ)
    (i : Fin maxConns) : s.1.table i = some c ↔ s.1.life c = .attached ∧ s.1.slot c = some i := by
  obtain ⟨s, hs⟩ := s
  have hslotted : s.Slotted := by
    refine hs.invariant (fun c hc => ?_) fun _ _ _ h _ hstep => h.step hstep
    cases hc
  constructor
  · intro hc
    exact ((reach_ok hs).1.table i c hc).symm
  · rintro ⟨hlife, hi⟩
    obtain ⟨j, hj, hc⟩ := hslotted c hlife
    cases hi.symm.trans hj
    exact hc

end ProxySys

end Anyfs.Proxy
