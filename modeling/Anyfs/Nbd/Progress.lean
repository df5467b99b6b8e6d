import Anyfs.Nbd.Books

/-!
# The NBD server gets on

Every step of the server is a move on its books. Where the main loop is says how many jobs there can
be and which frames have been made (`Place`).
-/

namespace Anyfs

open Function List Option NbdBooks NbdWriter NbdServer

namespace NbdReader

variable {r : NbdReader} {d : Bytes} {n : ℕ}

theorem length_bytes (r : NbdReader) : r.bytes.length = r.buffered := r.counted.symm

@[simp]
theorem bytes_push : (r.push d).bytes = r.bytes ++ d := by simp [bytes, push]

@[simp]
theorem bytes_take : (r.take n).2.bytes = r.bytes.drop n := by
  by_cases h : r.bytes.length ≤ n
  · have hdrop : r.chunks.flatten.drop n = [] := drop_eq_nil_of_le h
    simp [take, bytes, hdrop]
  · have hne : (r.chunks.flatten.drop n).length ≠ 0 := by
      rw [length_drop]
      change r.bytes.length - n ≠ 0
      omega
    simp only [take, bytes, if_pos hne]
    exact flatten_singleton

end NbdReader

namespace NbdWriter

variable {w w' : NbdWriter} {f : NbdFrame}

@[simp]
theorem frames_write : (w.write f).frames = w.frames ++ [f] := by simp [frames, write, append_assoc]

theorem start_eq (h : w.start = some w') :
    w.written = w.sent.length ∧ w'.written = w.written ∧
      ∃ f, w.queue = f :: w'.queue ∧ w'.sent = w.sent ++ [f] := by
  rw [start] at h
  split at h
  · cases h
  · next f fs hq =>
    split at h
    · next hw =>
      cases h
      exact ⟨hw, rfl, f, hq, rfl⟩
    · cases h

theorem done_eq (h : w.done = some w') :
    w.written < w.sent.length ∧ w'.written = w.written + 1 ∧ w'.queue = w.queue ∧
      w'.sent = w.sent := by
  obtain ⟨hw, hs⟩ := Option.dite_none_right_eq_some.mp h
  cases hs
  exact ⟨hw, rfl, rfl, rfl⟩

theorem frames_start (h : w.start = some w') : w'.frames = w.frames := by
  obtain ⟨-, -, f, hq, hs⟩ := start_eq h
  rw [frames, frames, hq, hs, append_assoc]
  rfl

theorem frames_done (h : w.done = some w') : w'.frames = w.frames := by
  obtain ⟨-, -, hq, hs⟩ := done_eq h
  rw [frames, frames, hq, hs]

theorem written_of_rest (hstart : w.start = none) (hdone : w.done = none) :
    w.written = w.frames.length := by
  have hw : ¬ w.written < w.sent.length := by
    intro hlt
    rw [done, dif_pos hlt] at hdone
    cases hdone
  have heq : w.written = w.sent.length := Nat.le_antisymm w.written_le (Nat.le_of_not_lt hw)
  have hq : w.queue = [] := by
    rw [start] at hstart
    split at hstart
    · assumption
    · rw [dif_pos heq] at hstart
      cases hstart
  rw [frames, hq, append_nil, heq]

end NbdWriter

namespace NbdServer

variable {e : NbdExport} {s s' : NbdServer} {n i : ℕ} {k : NbdReadPoint} {bytes hdr : Bytes}
  {r : Option ℕ}

/-! ### What a step does -/

theorem tryResolve_cases (s : NbdServer) :
    s.tryResolve = s ∧ (∀ n k, s.main = .awaitRead n k →
      s.reader.bytes.length < n ∧ s.reader.ended = false) ∨
    ∃ n k, s.main = .awaitRead n k ∧
      (n ≤ s.reader.bytes.length ∧ s.tryResolve = { s with
          reader := (s.reader.take n).2
          main := .gotRead (some (s.reader.bytes.take n)) k } ∨
       s.reader.bytes.length < n ∧ s.reader.ended = true ∧
        s.tryResolve = { s with main := .gotRead none k }) := by
  rw [tryResolve.eq_def]
  split
  · next n k hmain =>
    rw [NbdReader.length_bytes]
    split_ifs with hn hended
    · exact .inr ⟨n, k, hmain, .inl ⟨hn, rfl⟩⟩
    · exact .inr ⟨n, k, hmain, .inr ⟨Nat.lt_of_not_le hn, hended, rfl⟩⟩
    · refine .inl ⟨rfl, fun n' k' h => ?_⟩
      obtain ⟨rfl, rfl⟩ := NbdMain.awaitRead.inj (hmain.symm.trans h)
      exact ⟨Nat.lt_of_not_le hn, Bool.eq_false_iff.mpr hended⟩
  · next hmain => exact .inl ⟨rfl, fun n k h => absurd h (hmain n k)⟩

theorem tryResolve_frame (s : NbdServer) : s.tryResolve.books = s.books ∧
    s.tryResolve.incoming = s.incoming ∧ s.tryResolve.parsed = s.parsed ∧
    s.tryResolve.writer = s.writer ∧ s.tryResolve.reader.ended = s.reader.ended := by
  rcases tryResolve_cases s with ⟨h, -⟩ | ⟨n, k, -, ⟨-, h⟩ | ⟨-, -, h⟩⟩
  all_goals
    rw [h]
    exact ⟨rfl, rfl, rfl, rfl, rfl⟩

@[simp]
theorem books_tryResolve : s.tryResolve.books = s.books := (tryResolve_frame s).1

@[simp]
theorem books_read : (s.read n k).books = s.books := books_tryResolve

@[simp]
theorem books_top : s.top.books = s.books := by
  rw [top]
  split_ifs
  · rfl
  · exact books_read

@[simp]
theorem books_write : (s.write bytes r).books = s.books.write bytes r := by
  simp [books, write, NbdBooks.write, requests]

@[simp]
theorem books_awaitWrite {k : NbdWritePoint} :
    (s.awaitWrite bytes r k).books = s.books.write bytes r := books_write

/-- A buffer is taken for a header. -/
def parse (s : NbdServer) (hdr : Bytes) : NbdServer := { s with parsed := s.parsed ++ [hdr] }

theorem requests_parse (h : (parseHeader hdr).isRequest = true) :
    (s.parse hdr).requests = s.requests ++ [parseHeader hdr] := by
  simp [requests, parse, h]

theorem books_parse_of_not (h : (parseHeader hdr).isRequest = false) :
    (s.parse hdr).books = s.books := by
  simp [books, requests, parse, h]

/-- What `request` does with a header. -/
inductive Requests (e : NbdExport) (s : NbdServer) (hdr : Bytes) : NbdServer → Prop
  | failed : (parseHeader hdr).isRequest = false → (parseHeader hdr).magic ≠ reqMagic →
      Requests e s hdr { s.parse hdr with main := .failed }
  | disc : (parseHeader hdr).isRequest = false → (parseHeader hdr).magic = reqMagic →
      Requests e s hdr { s.parse hdr with main := .draining }
  | read : (parseHeader hdr).isRequest = true → (parseHeader hdr).type = nbdCmdRead →
      Requests e s hdr ((s.parse hdr).dispatch e s.requests.length (parseHeader hdr)).top
  | reply : (parseHeader hdr).isRequest = true → (parseHeader hdr).type ≠ nbdCmdRead →
      Requests e s hdr ((s.parse hdr).awaitWrite ((parseHeader hdr).reply e none)
        (some s.requests.length) .reply)

theorem request_cases (h : s.request e hdr = s') : Requests e s hdr s' := by
  rw [request] at h
  split_ifs at h with hmagic hdisc hread hflush
  · exact h ▸ .failed (by simp [NbdHeader.isRequest, hmagic]) hmagic
  · exact h ▸ .disc (by simp [NbdHeader.isRequest, hdisc]) (not_not.mp hmagic)
  all_goals
    have hreq : (parseHeader hdr).isRequest = true := by
      simp [NbdHeader.isRequest, not_not.mp hmagic, hdisc]
  · exact h ▸ .read hreq hread
  · have hreply := Requests.reply (e := e) (s := s) hreq hread
    rw [NbdHeader.reply, if_neg hread, if_pos hflush] at hreply
    exact h ▸ hreply
  · have hreply := Requests.reply (e := e) (s := s) hreq hread
    rw [NbdHeader.reply, if_neg hread, if_neg hflush] at hreply
    exact h ▸ hreply

theorem resume_cases (h : s.resume e = some s') :
    (∃ b k, s.main = .gotRead b k ∧ s' = s.resumeRead e k b) ∨
    (∃ w k, s.main = .awaitWrite w k ∧ w < s.writer.written ∧ s' = s.resumeWrite k) ∨
    s.main = .slotFree ∧ s' = s.read 28 .header ∨
    s.main = .draining ∧ s.Drained ∧ s' = { s with main := .returned } := by
  rw [resume.eq_def] at h
  split at h
  · next b k hmain => exact .inl ⟨b, k, hmain, (some.inj h).symm⟩
  · next w k hmain =>
    obtain ⟨hw, h⟩ := ite_none_right_eq_some.mp h
    exact .inr (.inl ⟨w, k, hmain, hw, (some.inj h).symm⟩)
  · next hmain => exact .inr (.inr (.inl ⟨hmain, (some.inj h).symm⟩))
  · next hmain =>
    obtain ⟨hdrained, h⟩ := ite_none_right_eq_some.mp h
    exact .inr (.inr (.inr ⟨hmain, hdrained, (some.inj h).symm⟩))
  · cases h

theorem resumeJob_cases (h : s.resumeJob i = some s') : ∃ j, s.jobs i = some j ∧
    ((∃ r, j.phase = .got r ∧ s' = (s.write (readReply j.header r) (some i)).setJob i
        { j with phase := .replying s.writer.frames.length }) ∨
     ∃ w, j.phase = .replying w ∧ w < s.writer.written ∧
        s' = (s.setJob i { j with phase := .finished }).free) := by
  obtain ⟨j, hj, h⟩ := bind_eq_some_iff.mp h
  refine ⟨j, hj, ?_⟩
  split at h
  · next r hp => exact .inl ⟨r, hp, (some.inj h).symm⟩
  · next w hp =>
    obtain ⟨hw, h⟩ := ite_none_right_eq_some.mp h
    exact .inr ⟨w, hp, hw, (some.inj h).symm⟩
  · cases h

theorem sourceDone_cases {a : Option Bytes} (h : s.sourceDone e i a = some s') :
    ∃ j, s.jobs i = some j ∧ j.phase = .reading ∧ MayAnswer e j.header a ∧
      s' = s.setJob i ⟨j.header, .got a, some a⟩ := by
  obtain ⟨j, hj, h⟩ := bind_eq_some_iff.mp h
  obtain ⟨⟨hp, ha⟩, h⟩ := ite_none_right_eq_some.mp h
  exact ⟨j, hj, hp, ha, (some.inj h).symm⟩

/-! ### Where the main loop is -/

/-- The negotiation: no request has come and no frame is a reply. -/
def Greets (s : NbdServer) : Prop := s.parsed = [] ∧ ∀ f ∈ s.writer.frames, f.request = none

/-- What holds where the loop reads for `k`. -/
def ReadOk (s : NbdServer) (k : NbdReadPoint) : Prop :=
  (k = .header → s.inFlight < maxInFlight) ∧ (k ≠ .header → s.Greets)

/-- What holds where the loop is. -/
def MainOk (s : NbdServer) : NbdMain → Prop
  | .awaitRead n k => 0 < n ∧ s.ReadOk k
  | .gotRead _ k => s.ReadOk k
  | .awaitWrite w k => w < s.writer.frames.length ∧ (k ≠ .reply → s.Greets)
  | .slot => maxInFlight ≤ s.inFlight
  | .slotFree => s.inFlight < maxInFlight
  | _ => True

/-- The replies come after the frames of the negotiation. -/
def InOrder (frames : List NbdFrame) : Prop :=
  frames.Pairwise fun f g => f.request.isSome = true → g.request.isSome = true

/-- The slots and the order of the frames. -/
structure Orderly (s : NbdServer) : Prop where
  slots : s.inFlight ≤ maxInFlight
  order : InOrder s.writer.frames

/-- Where the server is, besides. -/
structure Place (s : NbdServer) : Prop extends Orderly s where
  main : s.MainOk s.main

theorem Place.mainAt {m : NbdMain} (hs : s.Place) (hm : s.main = m) : s.MainOk m := hm ▸ hs.main

theorem inOrder_append {frames : List NbdFrame} (h : InOrder frames) (i : ℕ) :
    InOrder (frames ++ [⟨bytes, some i⟩]) := by
  refine pairwise_append.mpr ⟨h, pairwise_singleton _ _, fun f _ g hg _ => ?_⟩
  rw [mem_singleton.mp hg]
  rfl

theorem inOrder_write (h : InOrder s.writer.frames) (i : ℕ) :
    InOrder (s.write bytes (some i)).writer.frames := by
  rw [write, frames_write]
  exact inOrder_append h i

theorem inOrder_of_none {frames : List NbdFrame} (h : ∀ f ∈ frames, f.request = none) :
    InOrder frames := by
  refine pairwise_iff_forall_sublist.mpr fun {f g} hfg hf => ?_
  have hmem : f ∈ frames := hfg.subset (mem_cons_self ..)
  rw [h f hmem] at hf
  cases hf

theorem Place.tryResolve (h : s.Place) : s.tryResolve.Place := by
  rcases tryResolve_cases s with ⟨hs, -⟩ | ⟨n, k, hawait, ⟨-, hs⟩ | ⟨-, -, hs⟩⟩
  · rwa [hs]
  all_goals
    rw [hs]
    exact { h with main := (h.mainAt hawait).2 }

theorem Orderly.read (hs : s.Orderly) (hn : 0 < n) (hk : s.ReadOk k) : (s.read n k).Place :=
  Place.tryResolve (s := { s with main := .awaitRead n k }) { hs with main := ⟨hn, hk⟩ }

theorem Orderly.top (hs : s.Orderly) : s.top.Place := by
  rw [NbdServer.top]
  split_ifs with hfull
  · exact { hs with main := hfull }
  · exact hs.read (by decide) ⟨fun _ => Nat.lt_of_not_le hfull, fun h => absurd rfl h⟩

theorem frames_awaitWrite {w : NbdWritePoint} :
    (s.awaitWrite bytes r w).writer.frames = s.writer.frames ++ [⟨bytes, r⟩] :=
  frames_write

theorem mainOk_awaitWrite {w : NbdWritePoint}
    (hgreets : w ≠ .reply → (s.awaitWrite bytes r w).Greets) :
    (s.awaitWrite bytes r w).MainOk (s.awaitWrite bytes r w).main := by
  refine ⟨?_, hgreets⟩
  rw [frames_awaitWrite, length_append]
  exact Nat.lt_succ_self _

theorem Orderly.greet {w : NbdWritePoint} (hs : s.Orderly) (hgreets : s.Greets) :
    (s.awaitWrite bytes none w).Place := by
  have hnone : ∀ f ∈ (s.awaitWrite bytes none w).writer.frames, f.request = none := by
    intro f hf
    rw [frames_awaitWrite] at hf
    rcases mem_append.mp hf with hf | hf
    · exact hgreets.2 f hf
    · rw [mem_singleton.mp hf]
  exact ⟨⟨hs.slots, inOrder_of_none hnone⟩, mainOk_awaitWrite fun _ => ⟨hgreets.1, hnone⟩⟩

theorem not_greets_of_job {j : NbdJob} (hb : s.books.Ok e) (hj : s.jobs i = some j) :
    ¬ s.Greets := by
  intro hgreets
  have hreq : s.requests[i]? = some j.header := (hb.job hj).request
  rw [requests, hgreets.1] at hreq
  cases hreq

/-- A step of a job leaves the main loop where it is, or gives it a slot. -/
theorem MainOk.of_job (h : s.MainOk s.main) (hgreets : ¬ s.Greets)
    (hmain : s'.main = s.main ∨ s'.main = .slotFree ∧ s'.inFlight < maxInFlight)
    (hflight : s'.inFlight ≤ s.inFlight) (hslot : s'.main = .slot → s'.inFlight = s.inFlight)
    (hframes : s.writer.frames.length ≤ s'.writer.frames.length) : s'.MainOk s'.main := by
  rcases hmain with hmain | ⟨hmain, hlt⟩
  · rw [hmain]
    have hread (k : NbdReadPoint) (hk : s.ReadOk k) : s'.ReadOk k :=
      ⟨fun hh => Nat.lt_of_le_of_lt hflight (hk.1 hh), fun hh => absurd (hk.2 hh) hgreets⟩
    cases hm : s.main with
    | awaitRead n k =>
      rw [hm] at h
      exact ⟨h.1, hread k h.2⟩
    | gotRead b k =>
      rw [hm] at h
      exact hread k h
    | awaitWrite w k =>
      rw [hm] at h
      exact ⟨Nat.lt_of_lt_of_le h.1 hframes, fun hk => absurd (h.2 hk) hgreets⟩
    | slot =>
      rw [hm] at h
      change maxInFlight ≤ s'.inFlight
      rw [hslot (hmain.trans hm)]
      exact h
    | slotFree =>
      rw [hm] at h
      exact Nat.lt_of_le_of_lt hflight h
    | _ => exact trivial
  · rw [hmain]
    exact hlt

/-! ### What is left to do -/

/-- How many steps a job has left at most, with those of its frame. -/
def jobWeight (j : NbdJob) : ℕ :=
  match j.phase with
  | .reading => 6
  | .got _ => 5
  | .replying _ => 1
  | .finished => 0

def mainWeight : NbdMain → ℕ
  | .awaitRead _ _ => 2
  | .gotRead none _ => 2
  | .gotRead (some _) _ => 10
  | .awaitWrite _ (.info _) => 7
  | .awaitWrite _ _ => 4
  | .slot | .slotFree => 3
  | .draining => 1
  | _ => 0

def socketWeight (s : NbdServer) : ℕ :=
  11 * s.incoming.length + 10 * s.reader.bytes.length + (!s.reader.ended).toNat +
    2 * s.writer.queue.length + (s.writer.sent.length - s.writer.written)

/-- A bound on the number of steps that are left. -/
def weight (s : NbdServer) : ℕ :=
  socketWeight s + s.books.total jobWeight + mainWeight s.main

theorem weight_tryResolve (h : ∀ n k, s.main = .awaitRead n k → 0 < n) :
    s.tryResolve.weight ≤ s.weight := by
  have hbooks : s.tryResolve.books = s.books := books_tryResolve
  rw [weight, weight, hbooks]
  rcases tryResolve_cases s with ⟨hs, -⟩ | ⟨n, k, hmain, ⟨hn, hs⟩ | ⟨-, -, hs⟩⟩
  · rw [hs]
  · have hpos := h n k hmain
    have hended : (s.reader.take n).2.ended = s.reader.ended := rfl
    rw [hs]
    simp only [socketWeight, mainWeight, hmain, NbdReader.bytes_take, hended, length_drop]
    omega
  · rw [hs, hmain]
    exact Nat.le_refl _

theorem weight_main (m : NbdMain) :
    ({ s with main := m } : NbdServer).weight + mainWeight s.main = s.weight + mainWeight m := by
  simp only [weight, socketWeight, books, requests]
  omega

theorem weight_read (hn : 0 < n) : (s.read n k).weight + mainWeight s.main ≤ s.weight + 2 := by
  have hle : (s.read n k).weight ≤ ({ s with main := .awaitRead n k } : NbdServer).weight := by
    refine weight_tryResolve fun n' k' h => ?_
    obtain ⟨rfl, -⟩ := NbdMain.awaitRead.inj h
    exact hn
  have := weight_main (s := s) (.awaitRead n k)
  simp only [mainWeight] at *
  omega

theorem weight_top : s.top.weight + mainWeight s.main ≤ s.weight + 3 := by
  rw [top]
  split_ifs
  · exact Nat.le_of_eq (weight_main .slot)
  · have := weight_read (s := s) (n := 28) (k := .header) (by decide)
    omega

theorem socketWeight_write (bytes : Bytes) (r : Option ℕ) :
    socketWeight (s.write bytes r) = socketWeight s + 2 := by
  simp only [socketWeight, write, NbdWriter.write, length_append, length_singleton]
  omega

theorem weight_awaitWrite (bytes : Bytes) (r : Option ℕ) (w : NbdWritePoint) :
    (s.awaitWrite bytes r w).weight + mainWeight s.main =
      s.weight + 2 + mainWeight (.awaitWrite s.writer.frames.length w) := by
  have hmain := weight_main (s := s.write bytes r) (.awaitWrite s.writer.frames.length w)
  have hwrite : (s.write bytes r).weight = s.weight + 2 := by
    rw [weight, weight, socketWeight_write, books_write]
    change _ + s.books.total jobWeight + mainWeight s.main = _
    omega
  rw [hwrite] at hmain
  exact hmain

/-! ### Every step -/

/-- What every step does: it makes a move on the books, keeps `Place` and leaves less to do. -/
structure Goes (e : NbdExport) (s s' : NbdServer) : Prop where
  move : Move e s.books s'.books
  place : s'.Place
  weight : s'.weight < s.weight

attribute [local simp] mainWeight

section

variable (hs : s.Place)
include hs

theorem Goes.stop {m : NbdMain} (hm : ∀ s : NbdServer, s.MainOk m)
    (hw : mainWeight m < mainWeight s.main) : Goes e s { s with main := m } := by
  refine ⟨.stay _, { hs with main := hm _ }, ?_⟩
  have := weight_main (s := s) m
  omega

theorem Goes.read (hn : 0 < n) (hk : s.ReadOk k) (hw : 2 < mainWeight s.main) :
    Goes e s (s.read n k) := by
  have hweight := weight_read (s := s) (k := k) hn
  refine ⟨?_, hs.toOrderly.read hn hk, by omega⟩
  rw [books_read]
  exact .stay _

theorem Goes.top (hw : 3 < mainWeight s.main) : Goes e s s.top := by
  have hweight := weight_top (s := s)
  refine ⟨?_, hs.toOrderly.top, by omega⟩
  rw [books_top]
  exact .stay _

theorem Goes.greet {w : NbdWritePoint} (hgreets : s.Greets)
    (hw : 2 + mainWeight (.awaitWrite s.writer.frames.length w) < mainWeight s.main) :
    Goes e s (s.awaitWrite bytes none w) := by
  have hweight := weight_awaitWrite (s := s) bytes none w
  refine ⟨?_, hs.toOrderly.greet hgreets, by omega⟩
  rw [books_awaitWrite]
  exact .greet _ _

theorem Goes.answerOption {opt : ℕ} (hgreets : s.Greets)
    (hw : mainWeight s.main = 10) : Goes e s (s.answerOption e opt) := by
  rw [NbdServer.answerOption]
  split_ifs
  all_goals exact .greet hs hgreets (by rw [hw]; simp)

theorem dispatch_spec (hroom : s.inFlight < maxInFlight)
    (h : (parseHeader hdr).isRequest = true) (hread : (parseHeader hdr).type = nbdCmdRead)
    (hs' : (s.parse hdr).dispatch e s.requests.length (parseHeader hdr) = s') :
    Move e s.books s'.books ∧ s'.Orderly ∧ s'.main = s.main ∧
      s'.weight ≤ s.weight + 6 := by
  have hreq := requests_parse (s := s) h
  have htotal (b : NbdBooks) (j : NbdJob) (hrequests : b.requests = (s.parse hdr).requests)
      (hj : b.jobs = update s.jobs s.requests.length (some j)) :
      b.total jobWeight = s.books.total jobWeight + jobWeight j := by
    rw [total_take (b := s.books) (hrequests.trans hreq) fun k hk => by
      rw [hj]; exact update_of_ne hk _ _, hj]
    simp [books]
  rw [dispatch] at hs'
  split_ifs at hs' with hbeyond
  · have hmove := Move.refuse s.books (parseHeader hdr) hread hbeyond
    rw [NbdHeader.reply, if_pos hread, if_pos hbeyond] at hmove
    subst hs'
    refine ⟨?_, ⟨hroom, inOrder_write hs.order _⟩, rfl, ?_⟩
    · convert hmove using 1
      simp only [books, write, frames_write, NbdBooks.take]
      congr 1
    · have hwrite := socketWeight_write (s := s)
        (simpleReply nbdEinval (parseHeader hdr).handle none) (some s.requests.length)
      rw [weight, weight, htotal _ ⟨_, .replying s.writer.frames.length, none⟩ rfl rfl]
      change socketWeight (s.write _ _) + (_ + 1) + mainWeight s.main ≤ _
      omega
  · have hmove := Move.ask (e := e) s.books (parseHeader hdr) hread (Bool.eq_false_iff.mpr hbeyond)
    subst hs'
    refine ⟨?_, ⟨hroom, hs.order⟩, rfl, ?_⟩
    · convert hmove using 1
      simp only [books, NbdBooks.setJob, NbdBooks.take]
      congr 1
    · rw [weight, weight, htotal _ ⟨_, .reading, none⟩ rfl rfl]
      change socketWeight s + (_ + 6) + mainWeight s.main ≤ _
      omega

theorem Goes.request (hb : s.books.Ok e) (hroom : s.inFlight < maxInFlight)
    (hw : mainWeight s.main = 10) : Goes e s (s.request e hdr) := by
  have hsame {m : NbdMain} (h : (parseHeader hdr).isRequest = false)
      (hm : ∀ s : NbdServer, s.MainOk m) (hle : mainWeight m ≤ 1) :
      Goes e s { s.parse hdr with main := m } := by
    have hbooks : ({ s.parse hdr with main := m } : NbdServer).books = s.books :=
      books_parse_of_not (s := s) h
    refine ⟨hbooks ▸ .stay _, { hs with main := hm _ }, ?_⟩
    rw [NbdServer.weight, NbdServer.weight, hbooks]
    change socketWeight s + _ + mainWeight m < _
    omega
  generalize hs' : s.request e hdr = s'
  cases request_cases hs' with
  | failed h _ => exact hsame h (fun _ => trivial) (Nat.zero_le _)
  | disc h _ => exact hsame h (fun _ => trivial) (Nat.le_refl _)
  | read h hread =>
    obtain ⟨hmove, horder, hmain, hweight⟩ := dispatch_spec hs hroom h hread rfl
    have htop := weight_top (s := (s.parse hdr).dispatch e s.requests.length (parseHeader hdr))
    rw [hmain] at htop
    refine ⟨?_, horder.top, by omega⟩
    rw [books_top]
    exact hmove
  | reply h hread =>
    refine ⟨?_, ⟨⟨hs.slots, ?_⟩, mainOk_awaitWrite fun h => absurd rfl h⟩, ?_⟩
    · rw [books_awaitWrite]
      convert Move.reply s.books (parseHeader hdr) hread using 1
      exact congrArg (fun l => NbdBooks.write ⟨_, _, _, l⟩ _ _) (requests_parse h)
    · exact inOrder_write (s := s.parse hdr) hs.order _
    · have hwrite := weight_awaitWrite (s := s.parse hdr) ((parseHeader hdr).reply e none)
        (some s.requests.length) .reply
      have hsame : (s.parse hdr).weight = s.weight := by
        have htotal : (s.parse hdr).books.total jobWeight = s.books.total jobWeight + _ :=
          total_take (requests_parse h) fun _ _ => rfl
        have hnone : (s.parse hdr).books.jobs s.books.requests.length = none :=
          hb.jobs_eq_none (Nat.le_refl _)
        rw [hnone] at htotal
        rw [NbdServer.weight, NbdServer.weight, htotal]
        rfl
      change _ + mainWeight s.main = _ + 2 + 4 at hwrite
      omega

theorem Goes.resumeRead {b : Option Bytes} (hb : s.books.Ok e)
    (hmain : s.main = .gotRead b k) : Goes e s (s.resumeRead e k b) := by
  have hk : s.ReadOk k := hs.mainAt hmain
  cases b with
  | none =>
    have hw : mainWeight s.main = 2 := by rw [hmain]; rfl
    cases k <;> exact .stop hs (fun _ => trivial) (by rw [hw]; decide)
  | some b =>
    have hw : mainWeight s.main = 10 := by rw [hmain]; rfl
    cases k with
    | flags => exact .read hs (by decide) ⟨nofun, fun _ => hk.2 nofun⟩ (by omega)
    | option =>
      rw [resumeRead]
      split_ifs with hmagic hlen
      · exact .stop hs (fun _ => trivial) (by rw [hw]; decide)
      · exact .read hs (Nat.pos_of_ne_zero hlen) ⟨nofun, fun _ => hk.2 nofun⟩ (by omega)
      · exact .answerOption hs (hk.2 nofun) hw
    | optionData opt => exact .answerOption hs (hk.2 nofun) hw
    | header => exact .request hs hb (hk.1 rfl) hw

theorem Goes.resumeWrite {w : ℕ} {k : NbdWritePoint}
    (hmain : s.main = .awaitWrite w k) : Goes e s (s.resumeWrite k) := by
  have hgreets : k ≠ .reply → s.Greets := (hs.mainAt hmain).2
  have hw : mainWeight s.main = mainWeight (.awaitWrite w k) := by rw [hmain]
  cases k with
  | hello =>
    exact .read hs (by decide) ⟨nofun, fun _ => hgreets nofun⟩ (by rw [hw]; simp)
  | info opt => exact .greet hs (hgreets nofun) (by rw [hw]; simp)
  | ack opt =>
    rw [NbdServer.resumeWrite]
    split_ifs
    · exact .top hs (by rw [hw]; simp)
    · exact .read hs (by decide) ⟨nofun, fun _ => hgreets nofun⟩ (by rw [hw]; simp)
  | abort => exact .stop hs (fun _ => trivial) (by rw [hw]; simp)
  | unsup =>
    exact .read hs (by decide) ⟨nofun, fun _ => hgreets nofun⟩ (by rw [hw]; simp)
  | reply => exact .top hs (by rw [hw]; simp)

theorem Goes.tryResolve {incoming : Bytes} {reader : NbdReader}
    (hw : socketWeight { s with incoming := incoming, reader := reader } < socketWeight s) :
    Goes e s ({ s with incoming := incoming, reader := reader } : NbdServer).tryResolve := by
  have hplace : ({ s with incoming := incoming, reader := reader } : NbdServer).Place := { hs with }
  refine ⟨?_, hplace.tryResolve, Nat.lt_of_le_of_lt (weight_tryResolve fun n k hmain => ?_) ?_⟩
  · rw [books_tryResolve]
    exact .stay _
  · exact (hs.mainAt hmain).1
  · exact Nat.add_lt_add_right (Nat.add_lt_add_right hw _) _

theorem Goes.writer {w : NbdWriter} (hframes : w.frames = s.writer.frames)
    (hw : socketWeight { s with writer := w } < socketWeight s) :
    Goes e s { s with writer := w } := by
  have hbooks : ({ s with writer := w } : NbdServer).books = s.books :=
    congrArg (NbdBooks.mk · _ _ _) hframes
  refine ⟨hbooks ▸ .stay _, ⟨⟨hs.slots, hframes ▸ hs.order⟩, ?_⟩, ?_⟩
  · have hmain := hs.main
    simp only [MainOk.eq_def, ReadOk, Greets, hframes] at hmain ⊢
    exact hmain
  · rw [NbdServer.weight, NbdServer.weight, hbooks]
    exact Nat.add_lt_add_right (Nat.add_lt_add_right hw _) _

theorem Goes.resumeJob (hb : s.books.Ok e) (h : s.resumeJob i = some s') : Goes e s s' := by
  obtain ⟨j, hj, hcases⟩ := resumeJob_cases h
  have hlt := (hb.job hj).lt
  have hgreets := not_greets_of_job hb hj
  rcases hcases with ⟨r, hp, rfl⟩ | ⟨w, hp, -, rfl⟩
  · have htotal := total_setJob (b := s.books) (g := jobWeight)
      (c := ⟨j.header, .replying s.writer.frames.length, j.answer⟩) hlt hj
    have hwrite := socketWeight_write (s := s) (readReply j.header r) (some i)
    refine ⟨?_, ⟨⟨hs.slots, inOrder_write hs.order _⟩, ?_⟩, ?_⟩
    · have hmove := Move.respond (e := e) s.books i j r hj hp
      rw [← books_write] at hmove
      exact hmove
    · refine hs.main.of_job hgreets (.inl rfl) (Nat.le_refl _) (fun _ => rfl) ?_
      change _ ≤ (s.writer.write _).frames.length
      rw [frames_write, length_append]
      exact Nat.le_add_right _ _
    · simp only [jobWeight, hp] at htotal
      change socketWeight (s.write _ _) + (s.books.setJob i _).total _ + mainWeight s.main <
        socketWeight s + s.books.total _ + mainWeight s.main
      omega
  · have htotal := total_setJob (b := s.books) (g := jobWeight)
      (c := ⟨j.header, .finished, j.answer⟩) hlt hj
    have hslots := hs.slots
    refine ⟨.finish s.books i j w hj hp, ⟨⟨?_, hs.order⟩, ?_⟩, ?_⟩
    · exact Nat.le_trans (Nat.sub_le _ _) hslots
    · refine hs.main.of_job hgreets ?_ (Nat.sub_le _ _) (fun hslot => ?_) (Nat.le_refl _)
      · by_cases hslot : s.main = .slot
        · refine .inr ⟨by simp [free, setJob, hslot], ?_⟩
          change s.inFlight - 1 < maxInFlight
          rw [maxInFlight] at *
          omega
        · exact .inl (by simp [free, setJob, hslot])
      · change (if s.main = .slot then NbdMain.slotFree else s.main) = .slot at hslot
        split_ifs at hslot with hm
        exact absurd hslot hm
    · have hmain : mainWeight (if s.main = .slot then .slotFree else s.main) =
          mainWeight s.main := by
        split_ifs with hslot
        · rw [hslot]
          rfl
        · rfl
      simp only [jobWeight, hp] at htotal
      change socketWeight s + (s.books.setJob i _).total _ +
        mainWeight (if s.main = .slot then _ else s.main) <
          socketWeight s + s.books.total _ + mainWeight s.main
      rw [hmain]
      omega

end

theorem goes_of_step {l : NbdAct} (hb : s.books.Ok e) (hs : s.Place)
    (h : nbdStep e s l = some s') : Goes e s s' := by
  cases l with
  | data n =>
    obtain ⟨⟨hn, hle⟩, ⟨⟩⟩ := ite_none_right_eq_some.mp h
    refine .tryResolve hs ?_
    have hended : (s.reader.push (s.incoming.take n)).ended = s.reader.ended := rfl
    simp only [socketWeight, NbdReader.bytes_push, length_append, length_drop, length_take, hended]
    omega
  | fin =>
    obtain ⟨⟨-, hended⟩, ⟨⟩⟩ := ite_none_right_eq_some.mp h
    refine .tryResolve hs ?_
    have hbytes : s.reader.close.bytes = s.reader.bytes := rfl
    have hclosed : s.reader.close.ended = true := rfl
    simp only [socketWeight, hbytes, hclosed, hended, Bool.not_true, Bool.not_false,
      Bool.toNat_true, Bool.toNat_false]
    omega
  | resume =>
    rcases resume_cases h with ⟨b, k, hm, rfl⟩ | ⟨w, k, hm, -, rfl⟩ | ⟨hm, rfl⟩ | ⟨hm, -, rfl⟩
    · exact .resumeRead hs hb hm
    · exact .resumeWrite hs hm
    · have hfree : s.inFlight < maxInFlight := hs.mainAt hm
      exact .read hs (by decide) ⟨fun _ => hfree, fun hk => absurd rfl hk⟩ (by rw [hm]; decide)
    · exact .stop hs (fun _ => trivial) (by rw [hm]; decide)
  | start =>
    obtain ⟨w, hw, rfl⟩ := map_eq_some_iff.mp h
    obtain ⟨hwritten, hsame, f, hq, hsent⟩ := start_eq hw
    refine .writer hs (frames_start hw) ?_
    simp only [socketWeight, hsame, hq, hsent, length_append, length_cons, length_nil]
    omega
  | written =>
    obtain ⟨w, hw, rfl⟩ := map_eq_some_iff.mp h
    obtain ⟨hwritten, hsame, hq, hsent⟩ := done_eq hw
    refine .writer hs (frames_done hw) ?_
    simp only [socketWeight, hsame, hq, hsent]
    omega
  | sourceDone i a =>
    obtain ⟨j, hj, hp, ha, rfl⟩ := sourceDone_cases h
    have htotal := total_setJob (b := s.books) (g := jobWeight)
      (c := ⟨j.header, .got a, some a⟩) (hb.job hj).lt hj
    refine ⟨.answer s.books i j a hj hp ha, { hs with }, ?_⟩
    simp only [jobWeight, hp] at htotal
    change socketWeight s + (s.books.setJob i _).total _ + mainWeight s.main <
      socketWeight s + s.books.total _ + mainWeight s.main
    omega
  | resumeJob i => exact .resumeJob hs hb h

theorem place_init (stream : Bytes) : (init stream).Place :=
  Orderly.greet ⟨Nat.zero_le _, .nil⟩ ⟨rfl, nofun⟩

theorem ok_init (stream : Bytes) : (init stream).books.Ok e := by
  rw [init, books_awaitWrite]
  exact Ok.empty.greet _

theorem ok_of_reach {stream : Bytes}
    (h : (nbdMachine e).Reach (fun _ _ => True) (init stream) s) : s.books.Ok e ∧ s.Place := by
  refine h.invariant (P := fun s => s.books.Ok e ∧ s.Place) ⟨ok_init stream, place_init stream⟩
    fun s l s' hs _ hstep => ?_
  have hgoes := goes_of_step hs.1 hs.2 hstep
  exact ⟨hs.1.move hgoes.move, hgoes.place⟩

theorem wellFounded_step (e : NbdExport) (stream : Bytes) : WellFounded fun s' s : NbdServer =>
    (nbdMachine e).Reach (fun _ _ => True) (init stream) s ∧ ∃ l, nbdStep e s l = some s' := by
  refine Subrelation.wf (r := InvImage (· < ·) weight) ?_ (InvImage.wf _ Nat.lt_wfRel.wf)
  rintro s' s ⟨hreach, l, h⟩
  obtain ⟨hb, hs⟩ := ok_of_reach hreach
  exact (goes_of_step hb hs h).weight

/-! ### The end of a run -/

/-- Nothing is left to do. -/
def AtRest (e : NbdExport) (s : NbdServer) : Prop := ∀ l, l ≠ .fin → nbdStep e s l = none

section Rest

variable (hrest : s.AtRest e)
include hrest

theorem AtRest.incoming : s.incoming = [] := by
  have h := hrest (.data 1) nofun
  rw [nbdStep, data] at h
  split_ifs at h with hlen
  rw [← length_eq_zero_iff]
  omega

theorem AtRest.written : s.writer.written = s.writer.frames.length :=
  written_of_rest (map_eq_none_iff.mp (hrest .start nofun))
    (map_eq_none_iff.mp (hrest .written nofun))

theorem AtRest.phase {j : NbdJob} (hb : s.books.Ok e) (hj : s.jobs i = some j) :
    j.phase = .finished := by
  have hresume := hrest (.resumeJob i) nofun
  rw [nbdStep, resumeJob, hj, bind_some] at hresume
  cases hp : j.phase with
  | reading =>
    have hsource := hrest (.sourceDone i none) nofun
    rw [nbdStep, sourceDone, hj, bind_some, if_pos ⟨hp, mayAnswer_none e j.header⟩] at hsource
    cases hsource
  | got r =>
    simp only [hp] at hresume
    cases hresume
  | replying w =>
    have hlt : w < s.writer.frames.length := (hb.job hj).replying w hp
    simp only [hp] at hresume
    rw [if_pos (hrest.written ▸ hlt)] at hresume
    cases hresume
  | finished => rfl

theorem AtRest.main (hb : s.books.Ok e) (hs : s.Place) :
    (∃ n k, s.main = .awaitRead n k) ∨ s.main = .returned ∨ s.main = .failed := by
  have hresume := hrest .resume nofun
  rw [nbdStep, resume.eq_def] at hresume
  cases hm : s.main with
  | awaitRead n k => exact .inl ⟨n, k, rfl⟩
  | gotRead b k =>
    simp only [hm] at hresume
    cases hresume
  | awaitWrite w k =>
    simp only [hm] at hresume
    rw [if_pos (hrest.written ▸ (hs.mainAt hm).1)] at hresume
    cases hresume
  | slot =>
    have hidle : s.inFlight = 0 := by
      have hbusy : s.inFlight = _ := hb.busy
      rw [hbusy]
      refine Finset.sum_eq_zero fun i _ => ?_
      cases hj : s.jobs i with
      | none => simp [books, hj]
      | some j => simp [NbdJob.busy, books, hj, hrest.phase hb hj]
    have hfull : maxInFlight ≤ s.inFlight := hs.mainAt hm
    rw [hidle] at hfull
    cases hfull
  | slotFree =>
    simp only [hm] at hresume
    cases hresume
  | draining =>
    simp only [hm] at hresume
    have hdrained : s.Drained := fun i _ j hj => hrest.phase hb hj
    rw [if_pos hdrained] at hresume
    cases hresume
  | returned => exact .inr (.inl rfl)
  | failed => exact .inr (.inr rfl)

theorem AtRest.mem_tags (hb : s.books.Ok e) (hi : i < s.requests.length) :
    i ∈ s.writer.sent.filterMap NbdFrame.request := by
  have hopen : s.books.isOpen i = false := by
    cases hj : s.jobs i with
    | none => simp [isOpen, books, hj]
    | some j => simp [isOpen, books, hj, hrest.phase hb hj, NbdJobPhase.isOpen]
  have hcount : s.books.tags.count i = 1 := by
    rw [(hb.entry i).count, if_pos ⟨by simpa [books] using hi, hopen⟩]
  have hmem : i ∈ s.books.tags := count_pos_iff.mp (by omega)
  have hqueue : s.writer.queue = [] := by
    have hle := s.writer.written_le
    rw [hrest.written, NbdWriter.frames, length_append] at hle
    rw [← length_eq_zero_iff]
    omega
  have hframes : s.writer.frames = s.writer.sent := by rw [NbdWriter.frames, hqueue, append_nil]
  change i ∈ s.writer.frames.filterMap NbdFrame.request at hmem
  rwa [hframes] at hmem

end Rest

end NbdServer

end Anyfs
