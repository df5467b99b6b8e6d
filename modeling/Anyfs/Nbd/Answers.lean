import Anyfs.Nbd.Stream

/-!
# The NBD server answers every request

As long as no request has a payload, the server answers every request exactly once and with what was
asked for, apart from offsets that are no doubles.
-/

namespace Anyfs

open List Option

theorem prefix_of_flatten_append {n : ℕ} {p h : List Bytes} {rest tail : Bytes}
    (hp : ∀ a ∈ p, a.length = n) (hh : ∀ a ∈ h, a.length = n)
    (heq : p.flatten ++ rest = h.flatten ++ tail) (hle : p.length ≤ h.length) :
    p <+: h ∧ rest = (h.drop p.length).flatten ++ tail := by
  induction p generalizing h with
  | nil => exact ⟨ nil_prefix, heq⟩
  | cons a p ih =>
    cases h with
    | nil => cases hle
    | cons b h =>
      rw [flatten_cons, flatten_cons, append_assoc, append_assoc] at heq
      have hab : a.length = b.length :=
        (hp a mem_cons_self).trans (hh b mem_cons_self).symm
      obtain ⟨rfl, hrest⟩ := append_inj heq hab
      obtain ⟨hpre, htail⟩ := ih (fun c hc => hp c (mem_cons_of_mem _ hc))
        (fun c hc => hh c (mem_cons_of_mem _ hc)) hrest (Nat.le_of_succ_le_succ hle)
      exact ⟨cons_prefix_cons.mpr ⟨rfl, hpre⟩, htail⟩

theorem length_flatten_of_length {n : ℕ} {p : List Bytes} (hp : ∀ a ∈ p, a.length = n) :
    p.flatten.length = n * p.length := by
  induction p with
  | nil => rfl
  | cons a p ih =>
    rw [flatten_cons, length_append, hp a mem_cons_self,
      ih fun c hc => hp c (mem_cons_of_mem _ hc), length_cons, Nat.mul_succ, Nat.add_comm]

namespace NbdClient

/-- What the server takes for headers are the client's. -/
def Aligned (c : NbdClient) : Prop :=
  ∃ tail, c.transmission = c.headers.flatten ++ tail ∧ (c.disc = true ∨ tail.length < 28)

theorem flatMap_encode_of_payloadFree {l : List NbdRequest} (h : ∀ q ∈ l, q.payload = []) :
    l.flatMap NbdRequest.encode = (l.map NbdRequest.header).flatten := by
  rw [flatMap_def]
  congr 1
  refine map_congr_left fun q hq => ?_
  rw [NbdRequest.encode, h q hq, append_nil]

theorem aligned_of_payloadFree {c : NbdClient} (h : ∀ q ∈ c.requests, q.payload = []) :
    c.Aligned := by
  refine ⟨c.tail, ?_, ?_⟩
  · rw [transmission, ending, headers, flatMap_encode_of_payloadFree h, flatten_append,
      append_assoc]
    congr 1
    split_ifs <;> simp
  · cases hdisc : c.disc with
    | true => exact .inl rfl
    | false => exact .inr (c.tail_lt hdisc)

theorem requests_headers (c : NbdClient) : (c.headers.map parseHeader).filter NbdHeader.isRequest =
    c.requests.map fun q => parseHeader q.header := by
  have hdisc : (parseHeader discHeader).isRequest = false := by
    rw [parseHeader_discHeader]
    rfl
  have hreqs : ((c.requests.map NbdRequest.header).map parseHeader).filter NbdHeader.isRequest =
      c.requests.map fun q => parseHeader q.header := by
    rw [List.map_map]
    refine filter_eq_self.mpr fun h hh => ?_
    obtain ⟨q, -, rfl⟩ := mem_map.mp hh
    exact q.isRequest_header
  rw [headers, map_append, filter_append, hreqs]
  split_ifs <;> simp [hdisc]

theorem magic_of_mem_headers {c : NbdClient} {h : Bytes} (hh : h ∈ c.headers) :
    (parseHeader h).magic = reqMagic := by
  rcases mem_append.mp hh with hh | hh
  · obtain ⟨q, -, rfl⟩ := mem_map.mp hh
    rw [q.parseHeader_header]
  · split_ifs at hh
    · rw [mem_singleton.mp hh, parseHeader_discHeader]
    · cases hh

theorem isRequest_of_mem_dropLast {c : NbdClient} {h : Bytes} (hh : h ∈ c.headers.dropLast) :
    (parseHeader h).isRequest = true := by
  have hmem : h ∈ c.requests.map NbdRequest.header := by
    rw [headers] at hh
    split_ifs at hh
    · rwa [dropLast_concat] at hh
    · rw [append_nil] at hh
      exact mem_of_mem_dropLast hh
  obtain ⟨q, -, rfl⟩ := mem_map.mp hmem
  exact q.isRequest_header

end NbdClient

namespace NbdServer

variable {e : NbdExport} {s : NbdServer} {c : NbdClient} {i : ℕ}

theorem Reads.parsed_of_aligned {rest : Bytes} (hs : s.Reads c.transmission) (hc : c.Aligned)
    (ht : s.parsed.flatten ++ rest = c.transmission) :
    s.parsed <+: c.headers ∧ (rest.length < 28 → s.parsed = c.headers) := by
  obtain ⟨tail, htail, hend⟩ := hc
  rw [htail] at ht
  have hblocks : ∀ a ∈ c.headers, a.length = 28 := fun a ha => NbdClient.length_of_mem_headers ha
  have hlen := congrArg length ht
  rw [length_append, length_append, length_flatten_of_length hs.blocks,
    length_flatten_of_length hblocks] at hlen
  have hle : s.parsed.length ≤ c.headers.length := by
    rcases hend with hdisc | hlt
    · -- nothing is read after a disconnect
      by_contra hlt
      have heq : s.parsed.dropLast.flatten ++ ((s.parsed.getLast?.getD []) ++ rest) =
          c.headers.flatten ++ tail := by
        rw [← ht]
        rcases eq_nil_or_concat s.parsed with hnil | ⟨l, a, hl⟩
        · rw [hnil] at hlt
          exact absurd (Nat.zero_le _) hlt
        · rw [hl]
          simp
      have hdrop : ∀ a ∈ s.parsed.dropLast, a.length = 28 :=
        fun a ha => hs.blocks a (mem_of_mem_dropLast ha)
      have hpre := (prefix_of_flatten_append hblocks hdrop heq.symm (by
        rw [length_dropLast]
        omega)).1
      have hmem : discHeader ∈ s.parsed.dropLast := hpre.subset (by simp [NbdClient.headers, hdisc])
      have hreq := hs.prior _ hmem
      rw [parseHeader_discHeader] at hreq
      cases hreq
    · omega
  obtain ⟨hpre, hrest⟩ := prefix_of_flatten_append hs.blocks hblocks ht hle
  refine ⟨hpre, fun hlt => hpre.eq_of_length ?_⟩
  rw [hrest, length_append, length_flatten_of_length fun a ha => hblocks a (mem_of_mem_drop ha),
    length_drop] at hlt
  omega

theorem Reads.parsed_eq_nil_or (hs : s.Reads c.transmission) (hp : s.Place) :
    s.parsed = [] ∨ ∃ rest, s.parsed.flatten ++ rest = c.transmission := by
  cases hm : s.main with
  | awaitRead n k =>
    by_cases hk : k = .header
    · subst hk
      exact .inr ⟨_, (hs.expectsAt hm).2.2.2⟩
    · exact .inl ((hp.mainAt hm).2.2 hk).1
  | gotRead b k =>
    by_cases hk : k = .header
    · subst hk
      cases b with
      | none =>
        obtain ⟨-, n, -, -, ht⟩ := hs.expectsAt hm
        exact .inr ⟨_, ht⟩
      | some b => exact .inr ⟨_, (hs.expectsAt hm).2⟩
    · exact .inl ((hp.mainAt hm).2 hk).1
  | awaitWrite w k =>
    by_cases hk : k = .reply
    · subst hk
      exact .inr ⟨_, hs.expectsAt hm⟩
    · exact .inl ((hp.mainAt hm).2 hk).1
  | slot | slotFree => exact .inr ⟨_, hs.expectsAt hm⟩
  | draining | returned | failed => exact .inr ⟨_, (hs.expectsAt hm).1⟩

theorem AtRest.over (hrest : s.AtRest e) (hb : s.books.Ok e) (hp : s.Place)
    (hs : s.Reads c.transmission) : s.parsed.flatten ++ s.unread = c.transmission ∧
      ((∃ n, s.main = .awaitRead n .header) ∧ s.reader.ended = false ∧ s.unread.length < 28 ∨
       s.main = .returned ∧ s.Over ∨
       s.main = .failed ∧ ∃ h ∈ s.parsed, (parseHeader h).magic ≠ reqMagic) := by
  have hunread : s.unread = s.reader.bytes := by rw [unread, hrest.incoming, append_nil]
  rcases hrest.main hb hp with ⟨n, k, hm⟩ | hm | hm
  · obtain ⟨hlt, hended, hk⟩ := hs.expectsAt hm
    rw [← hunread] at hlt
    obtain ⟨rfl, rfl, ht⟩ := header_of_lt hk hlt
    exact ⟨ht, .inl ⟨⟨28, hm⟩, hended, hlt⟩⟩
  · exact (hs.expectsAt hm).imp_right fun hover => .inr (.inl ⟨hm, hover⟩)
  · exact (hs.expectsAt hm).imp_right fun hmagic => .inr (.inr ⟨hm, hmagic⟩)

theorem requests_of_aligned (hs : s.Reads c.transmission) (hp : s.Place) (hc : c.Aligned) :
    s.parsed <+: c.headers ∧ s.requests <+: c.requests.map fun q => parseHeader q.header := by
  have hpre : s.parsed <+: c.headers := by
    rcases hs.parsed_eq_nil_or hp with hnil | ⟨rest, ht⟩
    · rw [hnil]
      exact nil_prefix
    · exact (hs.parsed_of_aligned hc ht).1
  refine ⟨hpre, ?_⟩
  rw [← c.requests_headers]
  exact (hpre.map _).filter _

theorem AtRest.all_requests (hrest : s.AtRest e) (hb : s.books.Ok e) (hp : s.Place)
    (hs : s.Reads c.transmission) (hc : c.Aligned) : s.requests.length = c.requests.length ∧
      (c.disc = true ∨ s.reader.ended = true → s.main = .returned) := by
  obtain ⟨ht, hover⟩ := hrest.over hb hp hs
  obtain ⟨hpre, hall⟩ := hs.parsed_of_aligned hc ht
  have hlen (heq : s.parsed = c.headers) : s.requests.length = c.requests.length := by
    rw [requests, heq, c.requests_headers, length_map]
  rcases hover with ⟨⟨n, hm⟩, hended, hlt⟩ | ⟨hm, hover⟩ | ⟨-, h, hh, hmagic⟩
  · refine ⟨hlen (hall hlt), ?_⟩
    rintro (hdisc | hend)
    · have hmem : discHeader ∈ s.parsed := by
        rw [hall hlt]
        simp [NbdClient.headers, hdisc]
      have hreq := hs.running (by rw [isOver, hm]) _ hmem
      rw [parseHeader_discHeader] at hreq
      cases hreq
    · rw [hended] at hend
      cases hend
  · refine ⟨hlen ?_, fun _ => hm⟩
    rcases hover with ⟨h, hh, -, hno⟩ | ⟨-, hlt⟩
    · -- only the last header can be a disconnect
      refine hpre.eq_of_length (Nat.le_antisymm hpre.length_le (Nat.le_of_not_lt fun hlt => ?_))
      have hdrop : s.parsed <+: c.headers.dropLast :=
        prefix_of_prefix_length_le hpre ( dropLast_prefix _) (by rw [length_dropLast]; omega)
      rw [NbdClient.isRequest_of_mem_dropLast (hdrop.subset hh)] at hno
      cases hno
    · exact hall hlt
  · exact absurd (NbdClient.magic_of_mem_headers (hpre.subset hh)) hmagic

theorem reply_of_sent (hb : s.books.Ok e) (hs : s.Reads c.transmission) (hp : s.Place)
    (hc : c.Aligned) {f : NbdFrame} (hf : f ∈ s.writer.sent) (hi : i ∈ f.request) :
    ∃ q, c.requests[i]? = some q ∧
      f.bytes = (parseHeader q.header).reply e (s.books.answer i) ∧
      MayAnswer e (parseHeader q.header) (s.books.answer i) ∧
      ((parseHeader q.header).type = nbdCmdRead → (parseHeader q.header).isBeyond e = false →
        (s.books.heard i).isSome = true) := by
  obtain ⟨h, hreq, hbytes, hmay⟩ := (hb.entry i).reply f (mem_append_left _ hf) hi
  obtain ⟨rest, hrest⟩ := (requests_of_aligned hs hp hc).2
  have hlt : i < s.requests.length := (List.getElem?_eq_some_iff.mp hreq).1
  have hq : (c.requests.map fun q => parseHeader q.header)[i]? = some h := by
    rw [← hrest, List.getElem?_append_left hlt]
    exact hreq
  rw [List.getElem?_map, Option.map_eq_some_iff] at hq
  obtain ⟨q, hq, rfl⟩ := hq
  exact ⟨q, hq, hbytes, hmay⟩

theorem nodup_sent (hb : s.books.Ok e) : (s.writer.sent.filterMap NbdFrame.request).Nodup := by
  have hnodup : s.books.tags.Nodup := by
    rw [nodup_iff_count_le_one]
    intro i
    rw [(hb.entry i).count]
    split_ifs <;> decide
  rw [NbdBooks.tags, books, NbdWriter.frames, filterMap_append] at hnodup
  exact (nodup_append.mp hnodup).1

def Reading (s : NbdServer) (i : ℕ) : Prop := ∃ j, s.jobs i = some j ∧ j.phase = .reading

theorem length_reading_le (hb : s.books.Ok e) (hp : s.Place) {l : List ℕ} (hl : l.Nodup)
    (hreading : ∀ i ∈ l, s.Reading i) : l.length ≤ 16 := by
  have hsub : l.toFinset ⊆ Finset.range s.requests.length := by
    intro i hi
    obtain ⟨j, hj, -⟩ := hreading i (mem_toFinset.mp hi)
    exact Finset.mem_range.mpr (hb.job hj).lt
  have hbusy : ∀ i ∈ l.toFinset, 1 ≤ (s.books.jobs i).elim 0 NbdJob.busy := by
    intro i hi
    obtain ⟨j, hj, hphase⟩ := hreading i (mem_toFinset.mp hi)
    simp [books, hj, NbdJob.busy, hphase]
  calc l.length = l.toFinset.card := (toFinset_card_of_nodup hl).symm
    _ ≤ ∑ i ∈ l.toFinset, (s.books.jobs i).elim 0 NbdJob.busy := by
      simpa using Finset.sum_le_sum hbusy
    _ ≤ s.books.total NbdJob.busy := Finset.sum_le_sum_of_subset hsub
    _ = s.inFlight := hb.busy.symm
    _ ≤ 16 := hp.slots

end NbdServer

/-- What the reply to a request has to be. `a` is the source's answer, once there is one: some data
or a rejection. A READ inside the export has its reply only after that answer. -/
inductive NbdAnswer (e : NbdExport) (q : NbdRequest) (a : Option (Option Bytes)) : Bytes → Prop
  | beyond : q.type = nbdCmdRead → e.size < q.offset + q.length →
      NbdAnswer e q a (simpleReply nbdEinval q.handle none)
  | failed : q.type = nbdCmdRead → q.offset + q.length ≤ e.size →
      (∃ r, a = some r ∧ ∀ data ∈ r, data.length ≠ q.length) →
      NbdAnswer e q a (simpleReply nbdEio q.handle none)
  | data : q.type = nbdCmdRead → q.offset + q.length ≤ e.size →
      (∃ data, a = some (some data) ∧ data.length = q.length) →
      NbdAnswer e q a (simpleReply 0 q.handle (some (ByteStore.slice e.source q.offset q.length)))
  | flush : q.type = nbdCmdFlush → NbdAnswer e q a (simpleReply 0 q.handle none)
  | unsupported : q.type ≠ nbdCmdRead → q.type ≠ nbdCmdFlush →
      NbdAnswer e q a (simpleReply nbdEinval q.handle none)

/-- The offset survives the conversion to a number. -/
def NbdRequest.Exact (e : NbdExport) (q : NbdRequest) : Prop :=
  q.type = nbdCmdRead → q.offset + q.length ≤ e.size → q.length = 0 ∨ toNumber q.offset = q.offset

open NbdRequest

theorem nbdAnswer_reply {e : NbdExport} {q : NbdRequest} {a : Option (Option Bytes)}
    (hq : q.Exact e) (ha : NbdServer.MayAnswer e (parseHeader q.header) a.join)
    (hheard : (parseHeader q.header).type = nbdCmdRead → (parseHeader q.header).isBeyond e = false →
      a.isSome = true) : NbdAnswer e q a ((parseHeader q.header).reply e a.join) := by
  rw [q.parseHeader_header] at ha hheard ⊢
  by_cases hread : q.type = nbdCmdRead
  · by_cases hbeyond : e.size < q.offset + q.length
    · have hreply : (⟨reqMagic, q.type, q.handle, q.offset, q.length⟩ : NbdHeader).reply e a.join =
          simpleReply nbdEinval q.handle none := by
        simp [NbdHeader.reply, NbdHeader.isBeyond, hread, hbeyond]
      rw [hreply]
      exact .beyond hread hbeyond
    · have hinside := Nat.le_of_not_lt hbeyond
      rw [NbdBooks.reply_of_inside hread (decide_eq_false hbeyond)]
      obtain ⟨r, rfl⟩ := isSome_iff_exists.mp (hheard hread (decide_eq_false hbeyond))
      cases r with
      | none => exact .failed hread hinside ⟨none, rfl, by simp⟩
      | some data =>
        rw [join_some, readReply]
        split_ifs with hlen
        · have hdata : data = ByteStore.slice e.source q.offset q.length := by
            rcases hq hread hinside with hzero | hexact
            · have hnil : data = [] := length_eq_zero_iff.mp (Eq.trans hlen hzero)
              rw [hnil, hzero]
              rfl
            · have heq := ha data rfl hlen
              rwa [hexact] at heq
          have hanswer := NbdAnswer.data (a := some (some data)) hread hinside ⟨data, rfl, hlen⟩
          rwa [← hdata] at hanswer
        · refine .failed hread hinside ⟨some data, rfl, ?_⟩
          rintro data' ⟨⟩
          exact hlen
  · by_cases hflush : q.type = nbdCmdFlush
    · have hreply : (⟨reqMagic, q.type, q.handle, q.offset, q.length⟩ : NbdHeader).reply e a.join =
          simpleReply 0 q.handle none := by
        simp [NbdHeader.reply, hflush, nbdCmdRead, nbdCmdFlush]
      rw [hreply]
      exact .flush hflush
    · have hreply : (⟨reqMagic, q.type, q.handle, q.offset, q.length⟩ : NbdHeader).reply e a.join =
          simpleReply nbdEinval q.handle none := by
        simp [NbdHeader.reply, hread, hflush]
      rw [hreply]
      exact .unsupported hread hflush

open NbdServer

/-- If no request has a payload and the READs are for offsets that are doubles, every frame after
the negotiation is the right reply to its request, no request has two, frames are written one after
the other, the source reads for at most 16 requests at a time, every run ends, and at its end every
request has its reply. -/
theorem nbd_answers_requests (e : NbdExport) (c : NbdClient)
    (hfree : ∀ q ∈ c.requests, q.payload = []) (hexact : ∀ q ∈ c.requests, q.Exact e) :
    (∀ s, (nbdMachine e).Reach (fun _ _ => True) (init c.stream) s →
      (∀ f ∈ s.writer.sent, ∀ i ∈ f.request, ∃ q, c.requests[i]? = some q ∧
        NbdAnswer e q (s.books.heard i) f.bytes) ∧
      (s.writer.sent.filterMap NbdFrame.request).Nodup ∧ InOrder s.writer.sent ∧
      s.writer.sent.length ≤ s.writer.written + 1 ∧
      (∀ l : List ℕ, l.Nodup → (∀ i ∈ l, s.Reading i) → l.length ≤ 16) ∧
      (s.AtRest e → (∀ i < c.requests.length, i ∈ s.writer.sent.filterMap NbdFrame.request) ∧
        (c.disc = true ∨ s.reader.ended = true → s.main = .returned))) ∧
    WellFounded fun s' s : NbdServer =>
      (nbdMachine e).Reach (fun _ _ => True) (init c.stream) s ∧ ∃ l, nbdStep e s l = some s' := by
  refine ⟨fun s hreach => ?_, wellFounded_step e c.stream⟩
  obtain ⟨hb, hp⟩ := ok_of_reach hreach
  have hs := reads_of_reach hreach
  have hc := NbdClient.aligned_of_payloadFree hfree
  refine ⟨fun f hf i hi => ?_, nodup_sent hb, ?_, s.writer.sent_le, fun l hl =>
    length_reading_le hb hp hl, fun hrest => ?_⟩
  · obtain ⟨q, hq, hbytes, hmay, hheard⟩ := reply_of_sent hb hs hp hc hf hi
    refine ⟨q, hq, ?_⟩
    rw [hbytes]
    exact nbdAnswer_reply (hexact q (mem_of_getElem? hq)) hmay hheard
  · exact (pairwise_append.mp hp.order).1
  · obtain ⟨hall, hreturned⟩ := hrest.all_requests hb hp hs hc
    exact ⟨fun i hi => hrest.mem_tags hb (hall ▸ hi), hreturned⟩

/-- A client that asks for the list of exports first, and then reads one byte. -/
def NbdClient.oneRead (offset : ℕ) (h : offset < 2 ^ 64) : NbdClient where
  flags := [0, 0, 0, 0]
  options := [⟨3, [1, 2], by decide, by decide, by decide, by decide⟩]
  go := []
  requests := [⟨0, nbdCmdRead, replicate 8 7, offset, 1, [],
    by decide, by decide, rfl, h, by decide, rfl⟩]
  disc := false
  tail := []
  flags_length := rfl
  go_lt := by decide
  tail_lt := fun _ => by decide

open NbdClient

def oneReadRun (b : UInt8) : List NbdAct :=
  [.start, .written, .resume, .data 48, .resume, .resume, .resume, .start, .written, .resume,
    .resume,
    .start, .written, .resume, .start, .data 18, .written, .resume, .resume,
    .sourceDone 0 (some [b]), .resumeJob 0, .start, .written, .resumeJob 0]

/-- The byte at 5 of an export is read. -/
theorem nbd_answers_oneRead :
    ∃ s, (nbdMachine ⟨9, fun a => UInt8.ofNat a, by decide⟩).Reach (fun _ _ => True)
    (init (oneRead 5 (by decide)).stream) s ∧ ∃ f ∈ s.writer.sent, f.request = some 0 ∧
      f.bytes = simpleReply 0 (replicate 8 7) (some [5]) := by
  have hrun : ((Machine.run (nbdStep ⟨9, fun a => UInt8.ofNat a, by decide⟩) (fun _ _ => True)
    (oneReadRun 5) (init (oneRead 5 (by decide)).stream)).any fun s =>
      decide (∃ f ∈ s.writer.sent, f.request = some 0 ∧ s.books.heard 0 = some (some [5]))) =
        true := by
    decide +kernel
  obtain ⟨s, hs, f, hf, htag, hanswer⟩ := Machine.exists_of_run hrun
  refine ⟨s, .of_run hs, f, hf, htag, ?_⟩
  obtain ⟨q, hq, hreply⟩ := ((nbd_answers_requests ⟨9, fun a => UInt8.ofNat a, by decide⟩
    (oneRead 5 (by decide)) (by
      intro q hq
      obtain rfl := mem_singleton.mp hq
      rfl) (by
      intro q hq
      obtain rfl := mem_singleton.mp hq
      exact fun _ _ => .inr (by decide +kernel))).1 s (.of_run hs)).1 f hf 0 htag
  cases hq
  rw [hanswer] at hreply
  generalize hbytes : f.bytes = bytes at hreply
  cases hreply with
  | beyond _ h => exact absurd h (by decide)
  | failed _ _ h =>
    obtain ⟨r, hr, h⟩ := h
    cases hr
    exact absurd rfl (h [5] rfl)
  | data => rfl
  | flush h => exact absurd h (by decide)
  | unsupported h => exact absurd rfl h

/-- In an export of more than `2 ^ 53` bytes, the byte before the one that was asked for is sent. -/
theorem nbd_answers_roundedOffset : ∃ (e : NbdExport) (c : NbdClient),
    (∀ q ∈ c.requests, q.payload = []) ∧
    ∃ s, (nbdMachine e).Reach (fun _ _ => True) (init c.stream) s ∧
      ∃ f ∈ s.writer.sent, f.request = some 0 ∧
      ∀ q, c.requests[0]? = some q → ¬ NbdAnswer e q (s.books.heard 0) f.bytes := by
  refine ⟨⟨2 ^ 53 + 2, fun a => if a = 2 ^ 53 + 1 then 1 else 0, by decide⟩,
    oneRead (2 ^ 53 + 1) (by decide), ?_, ?_⟩
  · intro q hq
    obtain rfl := mem_singleton.mp hq
    rfl
  · have hrun : ((Machine.run
      (nbdStep ⟨2 ^ 53 + 2, fun a => if a = 2 ^ 53 + 1 then 1 else 0, by decide⟩)
        (fun _ _ => True) (oneReadRun 0)
        (init (oneRead (2 ^ 53 + 1) (by decide)).stream)).any fun s =>
        decide (∃ f ∈ s.writer.sent, f.request = some 0 ∧
          f.bytes = simpleReply 0 (replicate 8 7) (some [0]))) = true := by
      decide +kernel
    obtain ⟨s, hs, f, hf, htag, hbytes⟩ := Machine.exists_of_run hrun
    refine ⟨s, .of_run hs, f, hf, htag, fun q hq hanswer => ?_⟩
    cases hq
    rw [hbytes] at hanswer
    generalize hframe : simpleReply 0 (replicate 8 7) (some [0]) = frame at hanswer
    cases hanswer with
    | beyond _ h => exact absurd h (by decide)
    | failed => exact absurd hframe (by decide)
    | data => exact absurd hframe (by decide +kernel)
    | flush h => exact absurd h (by decide)
    | unsupported h => exact absurd rfl h

/-! ### Payloads -/

namespace NbdClient

/-- Where the header number `k` is in what the client sends after GO. -/
def start (c : NbdClient) (k : ℕ) : ℕ := ((c.requests.take k).flatMap encode).length

/-- Less than a header follows a payload. -/
def Harmless (c : NbdClient) : Prop :=
  ∀ a w b, c.requests = a ++ w :: b → w.payload ≠ [] →
    (w.payload ++ (b.flatMap encode ++ c.ending)).length < 28

/-- What the server takes for a header is where the client put one, the frames are the replies to
the client's requests, a WRITE gets an error, no request has two replies, and at the end of a run
every request has one. -/
structure Served (e : NbdExport) (c : NbdClient) (s : NbdServer) : Prop where
  position : ∀ k < s.parsed.length, k < c.headers.length ∧ c.start k = 28 * k
  reply : ∀ f ∈ s.writer.sent, ∀ i ∈ f.request, ∃ q, c.requests[i]? = some q ∧
    f.bytes = (parseHeader q.header).reply e (s.books.answer i) ∧
    (q.type = nbdCmdWrite → f.bytes = simpleReply nbdEinval q.handle none)
  once : (s.writer.sent.filterMap NbdFrame.request).Nodup
  all : s.AtRest e → ∀ i < c.requests.length, i ∈ s.writer.sent.filterMap NbdFrame.request

variable {c : NbdClient}

theorem length_flatMap_encode (l : List NbdRequest) :
    (l.flatMap encode).length =
      28 * l.length + (l.flatMap payload).length := by
  induction l with
  | nil => rfl
  | cons q l ih =>
    simp only [flatMap_cons, length_append, ih, encode, length_header, length_cons]
    omega

theorem Harmless.payload_eq_nil {k : ℕ} (h : c.Harmless) (hk : k < c.headers.length) :
    ∀ q ∈ c.requests.take k, q.payload = [] := by
  intro q hq
  by_contra hne
  obtain ⟨a, b, hab⟩ := append_of_mem hq
  have hreq : c.requests = a ++ q :: (b ++ c.requests.drop k) := by
    rw [← cons_append, ← append_assoc, ← hab, take_append_drop]
  have hlt := h a q _ hreq hne
  have hlen := congrArg List.length hreq
  have hpos := length_pos_of_ne_nil hne
  rw [headers, length_append, length_map] at hk
  simp only [length_append, length_cons, length_flatMap_encode, ending] at hlt hlen
  have htake := congrArg List.length hab
  simp only [length_take, length_append, length_cons] at htake
  cases hdisc : c.disc with
  | true =>
    rw [hdisc, if_pos rfl, length_discHeader] at hlt
    omega
  | false =>
    rw [hdisc] at hk
    simp only [Bool.false_eq_true, if_false, length_nil] at hk
    omega

theorem Harmless.aligned (h : c.Harmless) : c.Aligned := by
  rcases eq_nil_or_concat c.requests with hnil | ⟨a, w, hw⟩
  · exact aligned_of_payloadFree (by rw [hnil]; nofun)
  · by_cases hpayload : w.payload = []
    · refine aligned_of_payloadFree fun q hq => ?_
      rw [hw, concat_eq_append, mem_append, mem_singleton] at hq
      rcases hq with hq | rfl
      · refine h.payload_eq_nil (k := a.length) ?_ q ?_
        · simp [headers, hw]
        · simp [hw, hq]
      · exact hpayload
    · rw [concat_eq_append] at hw
      have hlt := h a w [] hw hpayload
      have hdisc : c.disc = false := by
        cases hdisc : c.disc with
        | false => rfl
        | true =>
          simp only [ending, hdisc, if_true, length_append, length_discHeader] at hlt
          omega
      have hfree : ∀ q ∈ a, q.payload = [] := by
        intro q hq
        refine h.payload_eq_nil (k := a.length) ?_ q ?_
        · simp [headers, hw]
        · simp [hw, hq]
      have hflat := flatMap_encode_of_payloadFree hfree
      refine ⟨w.payload ++ c.tail, ?_, .inr ?_⟩
      · simp [transmission, ending, headers, hw, hdisc, hflat, encode]
      · simpa [ending, hdisc] using hlt

theorem Served.isRequest {e : NbdExport} {s : NbdServer} {k : ℕ} {h : Bytes} (hc : c.Served e s)
    (hblocks : ∀ a ∈ s.parsed, a.length = 28) (ht : s.parsed.flatten ++ s.unread = c.transmission)
    (hk : s.parsed[k]? = some h) (hlt : k < c.requests.length) :
    (parseHeader h).isRequest = true := by
  obtain ⟨hklt, hget⟩ := List.getElem?_eq_some_iff.mp hk
  have hstart := (hc.position k hklt).2
  have hsplit : s.parsed = s.parsed.take k ++ h :: s.parsed.drop (k + 1) := by
    rw [← hget, cons_getElem_drop_succ, take_append_drop]
  have hreq : c.requests = c.requests.take k ++ c.requests[k] :: c.requests.drop (k + 1) := by
    rw [cons_getElem_drop_succ, take_append_drop]
  have hleft : (s.parsed.take k).flatten.length = 28 * k := by
    rw [length_flatten_of_length fun a ha => hblocks a (mem_of_mem_take ha), length_take,
      Nat.min_eq_left (Nat.le_of_lt hklt)]
  rw [transmission, hsplit, hreq, flatten_append, flatMap_append, append_assoc, append_assoc] at ht
  obtain ⟨-, hrest⟩ := append_inj ht (hleft.trans hstart.symm)
  rw [flatten_cons, flatMap_cons, append_assoc, append_assoc, encode, append_assoc] at hrest
  have hhdr : h.length = 28 := hblocks h (mem_of_getElem? hk)
  obtain ⟨heq, -⟩ := append_inj hrest (hhdr.trans (length_header _).symm)
  rw [heq]
  exact isRequest_header _

end NbdClient

theorem exists_atRest (e : NbdExport) (stream : Bytes) :
    ∃ s, (nbdMachine e).Reach (fun _ _ => True) (init stream) s ∧ s.AtRest e := by
  have hgen : ∀ s, (nbdMachine e).Reach (fun _ _ => True) (init stream) s →
      ∃ s', (nbdMachine e).Reach (fun _ _ => True) (init stream) s' ∧ s'.AtRest e := by
    intro s
    induction s using (wellFounded_step e stream).induction with
    | _ s ih =>
      intro hreach
      by_cases hrest : s.AtRest e
      · exact ⟨s, hreach, hrest⟩
      · simp only [AtRest, not_forall] at hrest
        obtain ⟨l, -, hl⟩ := hrest
        obtain ⟨s', hs'⟩ := ne_none_iff_exists'.mp hl
        exact ih s' ⟨hreach, l, hs'⟩ (.step hreach trivial hs')
  exact hgen _ .refl

/-- The server serves a client as it should, in every run, exactly when no payload has enough bytes
behind its beginning to make a header. -/
theorem nbd_writes_iff (e : NbdExport) (c : NbdClient) :
    (∀ s, (nbdMachine e).Reach (fun _ _ => True) (init c.stream) s → c.Served e s) ↔
      c.Harmless := by
  constructor
  · intro hserved a w b hreq hne
    by_contra hge
    obtain ⟨s, hreach, hrest⟩ := exists_atRest e c.stream
    obtain ⟨hb, hp⟩ := ok_of_reach hreach
    have hs := reads_of_reach hreach
    have hc := hserved s hreach
    obtain ⟨ht, hover⟩ := hrest.over hb hp hs
    -- the header after the payload is not where the server would look for it
    have hfew : s.parsed.length ≤ a.length + 1 := by
      by_contra hmany
      have hstart := (hc.position (a.length + 1) (by omega)).2
      have htake : c.requests.take (a.length + 1) = a ++ [w] := by
        rw [hreq, ← singleton_append, ← append_assoc]
        exact take_left' (by simp)
      rw [start, htake, length_flatMap_encode] at hstart
      have hpos := length_pos_of_ne_nil hne
      simp only [length_append, length_singleton, flatMap_append, flatMap_singleton] at hstart
      omega
    have hunread : 28 ≤ s.unread.length := by
      have hlen := congrArg List.length ht
      rw [length_append, length_flatten_of_length hs.blocks, transmission, hreq,
        length_append, length_flatMap_encode, flatMap_append, flatMap_cons] at hlen
      simp only [length_append, length_cons, length_flatMap_encode] at hlen hge
      omega
    have hrequests (h : Bytes) (hh : h ∈ s.parsed) : (parseHeader h).isRequest = true := by
      obtain ⟨k, hk⟩ := mem_iff_getElem?.mp hh
      refine hc.isRequest hs.blocks ht hk ?_
      have hlt := (List.getElem?_eq_some_iff.mp hk).1
      rw [hreq, length_append, length_cons]
      omega
    rcases hover with ⟨-, -, hlt⟩ | ⟨-, ⟨h, hh, -, hno⟩ | ⟨-, hlt⟩⟩ | ⟨-, h, hh, hmagic⟩
    · omega
    · rw [hrequests h hh] at hno
      cases hno
    · omega
    · have hreq := hrequests h hh
      simp [NbdHeader.isRequest, hmagic] at hreq
  · intro hharmless s hreach
    obtain ⟨hb, hp⟩ := ok_of_reach hreach
    have hs := reads_of_reach hreach
    have hc := hharmless.aligned
    refine ⟨fun k hk => ?_, fun f hf i hi => ?_, nodup_sent hb, fun hrest i hi => ?_⟩
    · have hlt : k < c.headers.length :=
        Nat.lt_of_lt_of_le hk (requests_of_aligned hs hp hc).1.length_le
      refine ⟨hlt, ?_⟩
      have hfree := hharmless.payload_eq_nil hlt
      have hnil : (c.requests.take k).flatMap payload = [] :=
        flatMap_eq_nil_iff.mpr hfree
      have hle : k ≤ c.requests.length := by
        rw [headers, length_append, length_map] at hlt
        split_ifs at hlt <;> simp at hlt <;> omega
      rw [start, length_flatMap_encode, hnil, length_take, Nat.min_eq_left hle]
      rfl
    · obtain ⟨q, hq, hbytes, -⟩ := reply_of_sent hb hs hp hc hf hi
      refine ⟨q, hq, hbytes, fun hwrite => ?_⟩
      rw [hbytes, q.parseHeader_header]
      simp [NbdHeader.reply, hwrite, nbdCmdWrite, nbdCmdRead, nbdCmdFlush]
    · exact hrest.mem_tags hb ((hrest.all_requests hb hp hs hc).1 ▸ hi)

def NbdClient.oneWrite : NbdClient where
  flags := [0, 0, 0, 0]
  options := []
  go := []
  requests := [⟨0, nbdCmdWrite, replicate 8 7, 0, 28,
    encodeHeader 0 nbdCmdFlush (replicate 8 9) 0 0,
    by decide, by decide, rfl, by decide, by decide, by decide⟩]
  disc := false
  tail := []
  flags_length := rfl
  go_lt := by decide
  tail_lt := fun _ => by decide

/-- The payload is taken for a request and gets a reply. -/
theorem nbd_answers_payload : ∃ s, (nbdMachine ⟨0, fun _ => 0, by decide⟩).Reach (fun _ _ => True)
    (init oneWrite.stream) s ∧ ¬ oneWrite.Served ⟨0, fun _ => 0, by decide⟩ s ∧
    s.writer.sent.getLast? = some ⟨simpleReply 0 (replicate 8 9) none, some 1⟩ := by
  have hrun : ((Machine.run (nbdStep ⟨0, fun _ => 0, by decide⟩) (fun _ _ => True)
      [.start, .written, .resume, .data 76, .resume, .resume, .start, .written, .resume, .start,
        .written, .resume, .resume, .start, .written, .resume, .resume, .start]
      (init oneWrite.stream)).any fun s =>
      decide (s.parsed.length = 2 ∧
        s.writer.sent.getLast? = some ⟨simpleReply 0 (replicate 8 9) none, some 1⟩)) = true := by
    decide +kernel
  obtain ⟨s, hs, hparsed, hlast⟩ := Machine.exists_of_run hrun
  refine ⟨s, .of_run hs, fun hserved => ?_, hlast⟩
  exact absurd (hserved.position 1 (by omega)).2 (by decide +kernel)

end Anyfs
