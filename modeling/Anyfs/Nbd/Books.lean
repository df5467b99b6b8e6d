import Anyfs.Nbd.Server
import Mathlib.Algebra.Order.BigOperators.Group.Finset

/-!
# What the NBD server owes

A step of the server makes one of a few moves on its books: the frames, the jobs, their number and
the headers of the requests. Every move keeps them in order: a request has exactly one frame, or
none as long as its job has not heard from the source.
-/

namespace Anyfs

open Function List

/-- The reply of the job has not been made. -/
def NbdJobPhase.isOpen : NbdJobPhase → Bool
  | .reading | .got _ => true
  | _ => false

/-- What a job counts in `inFlight`. -/
def NbdJob.busy (j : NbdJob) : ℕ := if j.phase = .finished then 0 else 1

/-- The frames, the jobs, how many of them are busy, and the headers of the requests. -/
structure NbdBooks where
  frames : List NbdFrame
  jobs : ℕ → Option NbdJob
  inFlight : ℕ
  requests : List NbdHeader

def NbdServer.books (s : NbdServer) : NbdBooks := ⟨s.writer.frames, s.jobs, s.inFlight, s.requests⟩

namespace NbdBooks

variable (b : NbdBooks)

def isOpen (i : ℕ) : Bool := (b.jobs i).any fun j => j.phase.isOpen

/-- A sum over the jobs. -/
def total (g : NbdJob → ℕ) : ℕ :=
  ∑ i ∈ Finset.range b.requests.length, (b.jobs i).elim 0 g

/-- The requests that were answered. -/
def tags : List ℕ := b.frames.filterMap NbdFrame.request

/-- What the source answered to request `i`, if it was asked and has answered. -/
def heard (i : ℕ) : Option (Option Bytes) := (b.jobs i).bind NbdJob.answer

/-- The data that the source gave for request `i`. -/
def answer (i : ℕ) : Option Bytes := (b.heard i).join

def write (bytes : Bytes) (request : Option ℕ) : NbdBooks :=
  { b with frames := b.frames ++ [⟨bytes, request⟩] }

def take (h : NbdHeader) : NbdBooks := { b with requests := b.requests ++ [h] }

def setJob (i : ℕ) (j : NbdJob) : NbdBooks :=
  { b with jobs := Function.update b.jobs i (some j) }

/-- What a step enters in the books. -/
inductive Move (e : NbdExport) : NbdBooks → NbdBooks → Prop
  | stay (b : NbdBooks) : Move e b b
  | greet (b : NbdBooks) (bytes : Bytes) : Move e b (b.write bytes none)
  | reply (b : NbdBooks) (h : NbdHeader) : h.type ≠ nbdCmdRead →
      Move e b ((b.take h).write (h.reply e none) (some b.requests.length))
  | refuse (b : NbdBooks) (h : NbdHeader) : h.type = nbdCmdRead → h.isBeyond e = true →
      Move e b { ((b.take h).write (h.reply e none) (some b.requests.length)).setJob
        b.requests.length ⟨h, .replying b.frames.length, none⟩ with inFlight := b.inFlight + 1 }
  | ask (b : NbdBooks) (h : NbdHeader) : h.type = nbdCmdRead → h.isBeyond e = false →
      Move e b { (b.take h).setJob b.requests.length ⟨h, .reading, none⟩ with
        inFlight := b.inFlight + 1 }
  | answer (b : NbdBooks) (i : ℕ) (j : NbdJob) (r : Option Bytes) : b.jobs i = some j →
    j.phase = .reading →
      NbdServer.MayAnswer e j.header r → Move e b (b.setJob i ⟨j.header, .got r, some r⟩)
  | respond (b : NbdBooks) (i : ℕ) (j : NbdJob) (r : Option Bytes) : b.jobs i = some j →
    j.phase = .got r →
      Move e b ((b.write (readReply j.header r) (some i)).setJob i
        ⟨j.header, .replying b.frames.length, j.answer⟩)
  | finish (b : NbdBooks) (i : ℕ) (j : NbdJob) (w : ℕ) : b.jobs i = some j → j.phase = .replying w →
      Move e b { b.setJob i ⟨j.header, .finished, j.answer⟩ with inFlight := b.inFlight - 1 }

/-- What is known about the job of request `i`. -/
structure JobOk (e : NbdExport) (b : NbdBooks) (i : ℕ) (j : NbdJob) : Prop where
  request : b.requests[i]? = some j.header
  read : j.header.type = nbdCmdRead
  inside : j.phase.isOpen = true → j.header.isBeyond e = false
  got : ∀ r, j.phase = .got r → j.answer = some r
  honest : NbdServer.MayAnswer e j.header j.answer.join
  replying : ∀ w, j.phase = .replying w → w < b.frames.length

/-- The bytes are the reply to request `i`. The reply to a READ inside the export comes after the
source's answer. -/
def ReplyOk (e : NbdExport) (b : NbdBooks) (i : ℕ) (bytes : Bytes) : Prop :=
  ∃ h, b.requests[i]? = some h ∧ bytes = h.reply e (b.answer i) ∧
    NbdServer.MayAnswer e h (b.answer i) ∧
    (h.type = nbdCmdRead → h.isBeyond e = false → (b.heard i).isSome = true)

/-- What the books say about request `i`: its job, its frames, and how many there are. -/
structure EntryOk (e : NbdExport) (b : NbdBooks) (i : ℕ) : Prop where
  job : ∀ j, b.jobs i = some j → b.JobOk e i j
  reply : ∀ f ∈ b.frames, i ∈ f.request → b.ReplyOk e i f.bytes
  count : b.tags.count i = if b.requests[i]?.isSome = true ∧ b.isOpen i = false then 1 else 0

/-- What holds of the books along every run. -/
structure Ok (e : NbdExport) (b : NbdBooks) : Prop where
  entry : ∀ i, b.EntryOk e i
  busy : b.inFlight = b.total NbdJob.busy

/-- The books say the same about every request but `i`. -/
structure SameBut (i : ℕ) (b b' : NbdBooks) : Prop where
  requests : ∀ k ≠ i, b'.requests[k]? = b.requests[k]?
  jobs : ∀ k ≠ i, b'.jobs k = b.jobs k
  frames : ∃ fs, b'.frames = b.frames ++ fs ∧ ∀ f ∈ fs, ∀ k ∈ f.request, k = i

variable {e : NbdExport} {b b' : NbdBooks} {i k : ℕ} {j : NbdJob} {h : NbdHeader} {bytes : Bytes}

theorem Ok.empty : Ok e ⟨[], fun _ => none, 0, []⟩ :=
  ⟨fun i => ⟨nofun, nofun, by simp [tags]⟩, rfl⟩

theorem Ok.job (hb : b.Ok e) (hj : b.jobs i = some j) : b.JobOk e i j := (hb.entry i).job j hj

theorem JobOk.lt (hj : b.JobOk e i j) : i < b.requests.length :=
  (List.getElem?_eq_some_iff.mp hj.request).1

theorem Ok.jobs_eq_none (hb : b.Ok e) (hi : b.requests.length ≤ i) : b.jobs i = none := by
  cases h : b.jobs i with
  | none => rfl
  | some j => exact absurd (hb.job h).lt (Nat.not_lt.mpr hi)

theorem mayAnswer_none (e : NbdExport) (h : NbdHeader) : NbdServer.MayAnswer e h none := nofun

theorem reply_of_inside (hread : h.type = nbdCmdRead) (hinside : h.isBeyond e = false)
    (r : Option Bytes) : h.reply e r = readReply h r := by
  simp [NbdHeader.reply, hread, hinside]

@[simp]
theorem jobs_setJob_self : (b.setJob i j).jobs i = some j := update_self ..

/-! ### One request changes -/

theorem forall_job {P : NbdJob → Prop} (hj : b.jobs i = some j) (h : P j) :
    ∀ j', b.jobs i = some j' → P j' :=
  fun _ hj' => Option.some.inj (hj.symm.trans hj') ▸ h

theorem total_setJob {c : NbdJob} {g : NbdJob → ℕ} (hi : i < b.requests.length)
    (hj : b.jobs i = some j) : (b.setJob i c).total g + g j = b.total g + g c := by
  have hmem := Finset.mem_range.mpr hi
  have hsum : (b.setJob i c).total g = ∑ k ∈ Finset.range b.requests.length,
      update (fun k => (b.jobs k).elim 0 g) i (g c) k :=
    Finset.sum_congr rfl fun k _ => apply_update (fun _ o => Option.elim o 0 g) b.jobs i (some c) k
  rw [hsum, Finset.sum_update_of_mem hmem, total,
    Finset.sum_eq_add_sum_sdiff_singleton_of_mem hmem, hj, Option.elim_some]
  omega

theorem total_take {g : NbdJob → ℕ} (hreq : b'.requests = b.requests ++ [h])
    (hjobs : ∀ k ≠ b.requests.length, b'.jobs k = b.jobs k) :
    b'.total g = b.total g + (b'.jobs b.requests.length).elim 0 g := by
  rw [total, hreq, length_append, length_singleton, Finset.sum_range_succ, total]
  congr 1
  refine Finset.sum_congr rfl fun k hk => ?_
  rw [hjobs k (Nat.ne_of_lt (Finset.mem_range.mp hk))]

theorem EntryOk.congr (hk : b.EntryOk e k) (h : SameBut i b b') (hne : k ≠ i) : b'.EntryOk e k := by
  obtain ⟨hreq, hjobs, fs, hframes, hfs⟩ := h
  have hheard : b'.heard k = b.heard k := by rw [heard, hjobs k hne, heard]
  have htags : b'.tags.count k = b.tags.count k := by
    have hzero : (fs.filterMap NbdFrame.request).count k = 0 := by
      refine count_eq_zero.mpr fun hmem => ?_
      obtain ⟨f, hf, hfk⟩ := mem_filterMap.mp hmem
      exact hne (hfs f hf k hfk)
    rw [tags, hframes, filterMap_append, count_append, hzero, Nat.add_zero, tags]
  refine ⟨fun j hj => ?_, fun f hf hfk => ?_, ?_⟩
  · rw [hjobs k hne] at hj
    refine { hk.job j hj with request := ?_, replying := fun w hw => ?_ }
    · rw [hreq k hne, (hk.job j hj).request]
    · rw [hframes, length_append]
      exact Nat.lt_add_right _ ((hk.job j hj).replying w hw)
  · rw [hframes] at hf
    rcases mem_append.mp hf with hf | hf
    · obtain ⟨h, hrequest, hrest⟩ := hk.reply f hf hfk
      rw [← hreq k hne] at hrequest
      rw [NbdBooks.answer, ← hheard] at hrest
      exact ⟨h, hrequest, hrest⟩
    · exact absurd (hfs f hf k hfk) hne
  · rw [htags, hk.count, hreq k hne, isOpen, isOpen, hjobs k hne]

theorem Ok.of_entry (hb : b.Ok e) (h : SameBut i b b') (hi : b'.EntryOk e i)
    (hbusy : b'.inFlight = b'.total NbdJob.busy) : b'.Ok e := by
  refine ⟨fun k => ?_, hbusy⟩
  rcases eq_or_ne k i with rfl | hne
  · exact hi
  · exact (hb.entry k).congr h hne

theorem EntryOk.notMem_tags (hi : b.EntryOk e i)
    (hopen : b.requests[i]? = none ∨ b.isOpen i = true) : i ∉ b.tags := by
  rw [← count_eq_zero, hi.count, if_neg]
  rintro ⟨hsome, hclosed⟩
  rcases hopen with hopen | hopen
  · rw [hopen] at hsome
    cases hsome
  · rw [hopen] at hclosed
    cases hclosed

theorem EntryOk.of_open (hi : i ∉ b.tags) (hframes : b'.frames = b.frames)
    (hjob : b'.jobs i = some j) (hok : b'.JobOk e i j) (hopen : j.phase.isOpen = true) :
    b'.EntryOk e i := by
  refine ⟨forall_job hjob hok, fun f hf hfi => ?_, ?_⟩
  · rw [hframes] at hf
    exact absurd (mem_filterMap.mpr ⟨f, hf, hfi⟩) hi
  · rw [tags, hframes, ← tags, count_eq_zero.mpr hi, if_neg (by simp [isOpen, hjob, hopen])]

theorem EntryOk.of_reply (hi : i ∉ b.tags) (hframes : b'.frames = b.frames ++ [⟨bytes, some i⟩])
    (hjob : ∀ j, b'.jobs i = some j → b'.JobOk e i j ∧ j.phase.isOpen = false)
    (hreply : b'.ReplyOk e i bytes) : b'.EntryOk e i := by
  have hclosed : b'.isOpen i = false := by
    cases hj : b'.jobs i with
    | none => simp [isOpen, hj]
    | some j => simp [isOpen, hj, (hjob j hj).2]
  refine ⟨fun j hj => (hjob j hj).1, fun f hf hfi => ?_, ?_⟩
  · rw [hframes] at hf
    rcases mem_append.mp hf with hf | hf
    · exact absurd (mem_filterMap.mpr ⟨f, hf, hfi⟩) hi
    · rw [mem_singleton.mp hf]
      exact hreply
  · obtain ⟨h, hreq, -⟩ := hreply
    have htags : b'.tags = b.tags ++ [i] := by rw [tags, hframes, filterMap_append]; rfl
    rw [htags, count_append, count_eq_zero.mpr hi, hreq, if_pos ⟨rfl, hclosed⟩]
    simp

/-! ### The moves -/

theorem Ok.greet (hb : b.Ok e) (bytes : Bytes) : (b.write bytes none).Ok e where
  entry k := by
    refine (hb.entry k).congr (i := k + 1) ⟨fun _ _ => rfl, fun _ _ => rfl, _, rfl, ?_⟩ (by omega)
    intro f hf
    rw [mem_singleton.mp hf]
    exact nofun
  busy := hb.busy

theorem Ok.notMem_tags_new (hb : b.Ok e) : b.requests.length ∉ b.tags :=
  (hb.entry _).notMem_tags (.inl (List.getElem?_eq_none (Nat.le_refl _)))

theorem getElem?_take (b : NbdBooks) (h : NbdHeader) :
    (b.take h).requests[b.requests.length]? = some h := by
  simp [take]

theorem getElem?_take_of_ne (hk : k ≠ b.requests.length) :
    (b.take h).requests[k]? = b.requests[k]? := by
  rw [take]
  grind

section

variable (hb : b.Ok e)
include hb

theorem Ok.reply (hread : h.type ≠ nbdCmdRead) :
    ((b.take h).write (h.reply e none) (some b.requests.length)).Ok e := by
  have hnone : b.jobs b.requests.length = none := hb.jobs_eq_none (Nat.le_refl _)
  refine hb.of_entry ⟨fun k hk => getElem?_take_of_ne hk, fun _ _ => rfl, _, rfl, by simp⟩
    (.of_reply hb.notMem_tags_new rfl (fun j hj => ?_) ⟨h, getElem?_take b h, ?_⟩) ?_
  · cases hnone.symm.trans hj
  · have hanswer : ((b.take h).write (h.reply e none) (some b.requests.length)).answer
        b.requests.length = none := by simp [NbdBooks.answer, heard, write, take, hnone]
    rw [hanswer]
    exact ⟨rfl, mayAnswer_none e h, fun h => absurd h hread⟩
  · change b.inFlight = (b.take h).total NbdJob.busy
    have htake : (b.take h).total NbdJob.busy = _ := total_take rfl fun _ _ => rfl
    rw [htake, ← hb.busy]
    simp [take, hnone]

theorem Ok.refuse (hread : h.type = nbdCmdRead) (hbeyond : h.isBeyond e = true) :
    Ok e { ((b.take h).write (h.reply e none) (some b.requests.length)).setJob b.requests.length
      ⟨h, .replying b.frames.length, none⟩ with inFlight := b.inFlight + 1 } := by
  refine hb.of_entry ⟨fun k hk => getElem?_take_of_ne hk, fun k hk => update_of_ne hk _ _, _, rfl,
    by simp⟩
    (.of_reply hb.notMem_tags_new rfl (forall_job (update_self ..) ?_) ⟨h, getElem?_take b h, ?_⟩)
    ?_
  · refine ⟨⟨getElem?_take b h, hread, nofun, nofun, mayAnswer_none e h, ?_⟩, rfl⟩
    rintro w ⟨⟩
    simp [setJob, write, take]
  · refine ⟨by simp [NbdHeader.reply, hbeyond], ?_, fun _ hinside => ?_⟩
    · simp [NbdBooks.answer, heard, setJob, mayAnswer_none]
    · rw [hbeyond] at hinside
      cases hinside
  · rw [total_take (b := b) (h := h) rfl fun k hk => update_of_ne hk _ _, ← hb.busy]
    simp [setJob, NbdJob.busy]

theorem Ok.ask (hread : h.type = nbdCmdRead) (hinside : h.isBeyond e = false) :
    Ok e { (b.take h).setJob b.requests.length ⟨h, .reading, none⟩ with
      inFlight := b.inFlight + 1 } := by
  refine hb.of_entry ⟨fun k hk => getElem?_take_of_ne hk, fun k hk => update_of_ne hk _ _, [],
    (append_nil _).symm, nofun⟩
    (.of_open hb.notMem_tags_new rfl (update_self ..) ?_ rfl) ?_
  · exact ⟨getElem?_take b h, hread, fun _ => hinside, nofun, mayAnswer_none e h, nofun⟩
  · rw [total_take (b := b) (h := h) rfl fun k hk => update_of_ne hk _ _, ← hb.busy]
    simp [setJob, NbdJob.busy]

section

variable (hj : b.jobs i = some j)
include hj

theorem Ok.notMem_tags (hopen : j.phase.isOpen = true) : i ∉ b.tags :=
  (hb.entry i).notMem_tags (.inr (by simp [isOpen, hj, hopen]))

theorem Ok.busy_setJob {c : NbdJob} (hc : c.busy = j.busy) :
    b.inFlight = (b.setJob i c).total NbdJob.busy := by
  have htotal := total_setJob (c := c) (g := NbdJob.busy) (hb.job hj).lt hj
  rw [hc] at htotal
  exact hb.busy.trans (Nat.add_right_cancel htotal).symm

theorem Ok.answer {r : Option Bytes} (hp : j.phase = .reading)
    (hr : NbdServer.MayAnswer e j.header r) : (b.setJob i ⟨j.header, .got r, some r⟩).Ok e := by
  have hok := hb.job hj
  have hopen : j.phase.isOpen = true := by rw [hp]; rfl
  refine hb.of_entry ⟨fun _ _ => rfl, fun k hk => update_of_ne hk _ _, [], (append_nil _).symm,
    nofun⟩ (.of_open (hb.notMem_tags hj hopen) rfl (update_self ..) ?_ rfl) ?_
  · refine ⟨hok.request, hok.read, fun _ => hok.inside hopen, ?_, hr, nofun⟩
    rintro r' ⟨⟩
    rfl
  · exact hb.busy_setJob hj (by simp [NbdJob.busy, hp])

theorem Ok.respond {r : Option Bytes} (hp : j.phase = .got r) :
    ((b.write (readReply j.header r) (some i)).setJob i
      ⟨j.header, .replying b.frames.length, j.answer⟩).Ok e := by
  have hok := hb.job hj
  have hopen : j.phase.isOpen = true := by rw [hp]; rfl
  refine hb.of_entry ⟨fun _ _ => rfl, fun k hk => update_of_ne hk _ _, _, rfl, by simp⟩
    (.of_reply (hb.notMem_tags hj hopen) rfl (forall_job (update_self ..) ?_)
      ⟨j.header, hok.request, ?_⟩) ?_
  · refine ⟨⟨hok.request, hok.read, nofun, nofun, hok.honest, ?_⟩, rfl⟩
    rintro w ⟨⟩
    simp [setJob, write]
  · have hheard : ((b.write (readReply j.header r) (some i)).setJob i
        ⟨j.header, .replying b.frames.length, j.answer⟩).heard i = some r := by
      rw [heard, jobs_setJob_self]
      exact hok.got r hp
    have hmay := hok.honest
    rw [hok.got r hp] at hmay
    rw [NbdBooks.answer, hheard]
    exact ⟨(reply_of_inside hok.read (hok.inside hopen) r).symm, hmay, fun _ _ => rfl⟩
  · exact hb.busy_setJob hj (by simp [NbdJob.busy, hp])

theorem Ok.finish {w : ℕ} (hp : j.phase = .replying w) :
    Ok e { b.setJob i ⟨j.header, .finished, j.answer⟩ with inFlight := b.inFlight - 1 } := by
  have hok := hb.job hj
  have hi := hb.entry i
  have hheard : (b.setJob i ⟨j.header, .finished, j.answer⟩).heard i = b.heard i := by
    simp [heard, setJob, hj]
  refine hb.of_entry ⟨fun _ _ => rfl, fun k hk => update_of_ne hk _ _, [], (append_nil _).symm,
    nofun⟩ ⟨forall_job (update_self ..) ?_, fun f hf hfi => ?_, ?_⟩ ?_
  · exact ⟨hok.request, hok.read, nofun, nofun, hok.honest, nofun⟩
  · obtain ⟨h, hreq, hrest⟩ := hi.reply f hf hfi
    rw [NbdBooks.answer, ← hheard] at hrest
    exact ⟨h, hreq, hrest⟩
  · refine hi.count.trans ?_
    simp [isOpen, setJob, hj, hp, NbdJobPhase.isOpen]
  · have htotal := total_setJob (b := b) (c := ⟨j.header, .finished, j.answer⟩) (g := NbdJob.busy)
      hok.lt hj
    simp only [NbdJob.busy, hp, ← hb.busy] at htotal
    exact Nat.sub_eq_of_eq_add htotal.symm

end

theorem Ok.move (h : Move e b b') : b'.Ok e := by
  cases h with
  | stay => exact hb
  | greet bytes => exact hb.greet bytes
  | reply h hread => exact hb.reply hread
  | refuse h hread hbeyond => exact hb.refuse hread hbeyond
  | ask h hread hinside => exact hb.ask hread hinside
  | answer i j r hj hp hr => exact hb.answer hj hp hr
  | respond i j r hj hp => exact hb.respond hj hp
  | finish i j w hj hp => exact hb.finish hj hp

end

end NbdBooks

end Anyfs
