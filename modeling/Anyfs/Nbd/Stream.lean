import Anyfs.Nbd.Progress

/-!
# What the NBD server reads

However the bytes of a client are cut into chunks, the server takes them in order: what was not read
is what the client sends from there on.
-/

namespace Anyfs

open List Option

def OptionsThen (t b : Bytes) : Prop :=
  ∃ (os : List NbdOption) (go : Bytes), go.length < 2 ^ 32 ∧
    b = os.flatMap (fun o => encodeOption o.opt o.data) ++ (encodeOption nbdOptGo go ++ t)

def AfterOption (t : Bytes) (opt : ℕ) (b : Bytes) : Prop :=
  opt = nbdOptGo ∧ b = t ∨ opt ≠ nbdOptGo ∧ opt ≠ nbdOptAbort ∧ OptionsThen t b

/-- What comes where `n` bytes are read for `k`; `t` is what the client sends after GO. -/
def ReadExpects (t : Bytes) (parsed : List Bytes) : NbdReadPoint → ℕ → Bytes → Prop
  | .flags, n, b => n = 4 ∧ ∃ f rest, f.length = 4 ∧ b = f ++ rest ∧ OptionsThen t rest
  | .option, n, b => n = 16 ∧ OptionsThen t b
  | .optionData opt, n, b => ∃ d rest, d.length = n ∧ b = d ++ rest ∧ AfterOption t opt rest
  | .header, n, b => n = 28 ∧ parsed.flatten ++ b = t

def WriteExpects (t : Bytes) (parsed : List Bytes) : NbdWritePoint → Bytes → Prop
  | .hello, b => ∃ f rest, f.length = 4 ∧ b = f ++ rest ∧ OptionsThen t rest
  | .info opt, b | .ack opt, b => AfterOption t opt b
  | .abort, _ => False
  | .unsup, b => OptionsThen t b
  | .reply, b => parsed.flatten ++ b = t

namespace NbdServer

variable {e : NbdExport} {s s' : NbdServer} {t : Bytes} {n : ℕ} {k : NbdReadPoint}

def unread (s : NbdServer) : Bytes := s.reader.bytes ++ s.incoming

def Over (s : NbdServer) : Prop :=
  (∃ h ∈ s.parsed, (parseHeader h).magic = reqMagic ∧ (parseHeader h).isRequest = false) ∨
    s.reader.ended = true ∧ s.unread.length < 28

/-- What comes where the main loop is. -/
def Expects (t : Bytes) (s : NbdServer) : NbdMain → Prop
  | .awaitRead n k =>
    s.reader.bytes.length < n ∧ s.reader.ended = false ∧ ReadExpects t s.parsed k n s.unread
  | .gotRead (some b) k => ReadExpects t s.parsed k b.length (b ++ s.unread)
  | .gotRead none k =>
    s.reader.ended = true ∧ ∃ n, s.unread.length < n ∧ ReadExpects t s.parsed k n s.unread
  | .awaitWrite _ k => WriteExpects t s.parsed k s.unread
  | .slot | .slotFree => s.parsed.flatten ++ s.unread = t
  | .draining | .returned => s.parsed.flatten ++ s.unread = t ∧ s.Over
  | .failed =>
    s.parsed.flatten ++ s.unread = t ∧ ∃ h ∈ s.parsed, (parseHeader h).magic ≠ reqMagic

def isOver (s : NbdServer) : Bool :=
  match s.main with
  | .draining | .returned | .failed => true
  | _ => false

/-- How far the server has read a client's stream `t`. -/
structure Reads (t : Bytes) (s : NbdServer) : Prop where
  blocks : ∀ h ∈ s.parsed, h.length = 28
  ended : s.reader.ended = true → s.incoming = []
  prior : ∀ h ∈ s.parsed.dropLast, (parseHeader h).isRequest = true
  running : s.isOver = false → ∀ h ∈ s.parsed, (parseHeader h).isRequest = true
  expects : s.Expects t s.main

/-- What was parsed are headers of requests. -/
structure Headers (parsed : List Bytes) : Prop where
  blocks : ∀ h ∈ parsed, h.length = 28
  requests : ∀ h ∈ parsed, (parseHeader h).isRequest = true

theorem Reads.expectsAt {m : NbdMain} (hs : s.Reads t) (hm : s.main = m) : s.Expects t m :=
  hm ▸ hs.expects

theorem Reads.headers (hs : s.Reads t) (hover : s.isOver = false) : Headers s.parsed :=
  ⟨hs.blocks, hs.running hover⟩

theorem Headers.reads (h : Headers s.parsed) (hended : s.reader.ended = true → s.incoming = [])
    (hexpects : s.Expects t s.main) : s.Reads t :=
  ⟨h.blocks, hended, fun a ha => h.requests a (mem_of_mem_dropLast ha), fun _ => h.requests,
    hexpects⟩

theorem expects_tryResolve (hmain : s.main = .awaitRead n k)
    (hended : s.reader.ended = true → s.incoming = [])
    (hk : ReadExpects t s.parsed k n s.unread) : s.tryResolve.Expects t s.tryResolve.main := by
  rcases tryResolve_cases s with ⟨hs, hless⟩ | ⟨n', k', hmain', hcases⟩
  · rw [hs, hmain]
    exact ⟨(hless n k hmain).1, (hless n k hmain).2, hk⟩
  · obtain ⟨rfl, rfl⟩ := NbdMain.awaitRead.inj (hmain.symm.trans hmain')
    rcases hcases with ⟨hn, hs⟩ | ⟨hn, hend, hs⟩
    · rw [hs]
      have hlen : (s.reader.bytes.take n).length = n := length_take_of_le hn
      have hbytes : s.reader.bytes.take n ++ ((s.reader.take n).2.bytes ++ s.incoming) =
          s.unread := by
        rw [NbdReader.bytes_take, ← append_assoc, take_append_drop, unread]
      change ReadExpects t s.parsed k (s.reader.bytes.take n).length _
      rw [hlen]
      exact hbytes ▸ hk
    · rw [hs]
      refine ⟨hend, n, ?_, hk⟩
      change (s.reader.bytes ++ s.incoming).length < n
      rwa [hended hend, append_nil]

theorem isOver_tryResolve : s.tryResolve.isOver = s.isOver := by
  rcases tryResolve_cases s with ⟨hs, -⟩ | ⟨n, k, hmain, ⟨-, hs⟩ | ⟨-, -, hs⟩⟩
  · rw [hs]
  · rw [hs, isOver, isOver, hmain]
  · rw [hs, isOver, isOver, hmain]

theorem Headers.read (h : Headers s.parsed) (hended : s.reader.ended = true → s.incoming = [])
    (hk : ReadExpects t s.parsed k n s.unread) : (s.read n k).Reads t := by
  obtain ⟨-, hincoming, hparsed, -, hend⟩ :=
    tryResolve_frame ({ s with main := .awaitRead n k } : NbdServer)
  refine Headers.reads ?_ ?_ (expects_tryResolve rfl hended hk)
  · rw [NbdServer.read, hparsed]
    exact h
  · rw [NbdServer.read, hincoming, hend]
    exact hended

theorem Headers.top (h : Headers s.parsed) (hended : s.reader.ended = true → s.incoming = [])
    (ht : s.parsed.flatten ++ s.unread = t) : s.top.Reads t := by
  rw [NbdServer.top]
  split_ifs
  · exact Headers.reads (s := { s with main := .slot }) h hended ht
  · exact h.read hended ⟨rfl, ht⟩

theorem Headers.awaitWrite {bytes : Bytes} {r : Option ℕ} {w : NbdWritePoint} (h : Headers s.parsed)
    (hended : s.reader.ended = true → s.incoming = []) (hw : WriteExpects t s.parsed w s.unread) :
    (s.awaitWrite bytes r w).Reads t :=
  Headers.reads (s := s.awaitWrite bytes r w) h hended hw

theorem Headers.answerOption {opt : ℕ} (h : Headers s.parsed)
    (hended : s.reader.ended = true → s.incoming = []) (hopt : AfterOption t opt s.unread) :
    (s.answerOption e opt).Reads t := by
  rw [NbdServer.answerOption]
  split_ifs with hinfo habort
  · exact h.awaitWrite hended hopt
  · rcases hopt with ⟨hgo, -⟩ | ⟨-, hne, -⟩
    · exact absurd (.inl hgo) hinfo
    · exact absurd habort hne
  · rcases hopt with ⟨hgo, -⟩ | ⟨-, -, hrest⟩
    · exact absurd (.inl hgo) hinfo
    · exact h.awaitWrite hended hrest

theorem OptionsThen.cases {b : Bytes} (h : OptionsThen t b) : ∃ hdr opt data rest, hdr.length = 16 ∧
    b = hdr ++ (data ++ rest) ∧ readUIntBE hdr 0 8 = iHaveOpt ∧ readUIntBE hdr 8 4 = opt ∧
    readUIntBE hdr 12 4 = data.length ∧ AfterOption t opt rest := by
  obtain ⟨os, go, hgo, rfl⟩ := h
  cases os with
  | nil =>
    have hlt : nbdOptGo < 2 ^ 32 := by decide
    obtain ⟨hdr, hlen, heq, hmagic, hopt, hdata⟩ := readUIntBE_encodeOption hlt hgo t
    exact ⟨hdr, nbdOptGo, go, t, hlen, heq, hmagic, hopt, hdata, .inl ⟨rfl, rfl⟩⟩
  | cons o os =>
    obtain ⟨hdr, hlen, heq, hmagic, hopt, hdata⟩ := readUIntBE_encodeOption o.opt_lt o.data_lt
      (os.flatMap (fun o => encodeOption o.opt o.data) ++ (encodeOption nbdOptGo go ++ t))
    refine ⟨hdr, o.opt, o.data, _, hlen, ?_, hmagic, hopt, hdata,
      .inr ⟨o.ne_go, o.ne_abort, os, go, hgo, rfl⟩⟩
    rw [flatMap_cons, append_assoc, heq]

theorem reads_request {hdr : Bytes} (h : Headers s.parsed)
    (hended : s.reader.ended = true → s.incoming = []) (hhdr : hdr.length = 28)
    (ht : s.parsed.flatten ++ (hdr ++ s.unread) = t) : (s.request e hdr).Reads t := by
  have hflat : (s.parsed ++ [hdr]).flatten ++ s.unread = t := by
    rw [flatten_append, flatten_singleton, append_assoc]
    exact ht
  have hblocks : ∀ a ∈ s.parsed ++ [hdr], a.length = 28 := by
    intro a ha
    rcases mem_append.mp ha with ha | ha
    · exact h.blocks a ha
    · rw [mem_singleton.mp ha, hhdr]
  have hprior : ∀ a ∈ (s.parsed ++ [hdr]).dropLast, (parseHeader a).isRequest = true := by
    rw [dropLast_concat]
    exact h.requests
  have hlast : hdr ∈ s.parsed ++ [hdr] := mem_append_right _ (mem_singleton_self _)
  have hheaders (hyes : (parseHeader hdr).isRequest = true) : Headers (s.parsed ++ [hdr]) := by
    refine ⟨hblocks, fun a ha => ?_⟩
    rcases mem_append.mp ha with ha | ha
    · exact h.requests a ha
    · rwa [mem_singleton.mp ha]
  generalize hs' : s.request e hdr = s'
  cases request_cases hs' with
  | failed hno hmagic => exact ⟨hblocks, hended, hprior, nofun, hflat, hdr, hlast, hmagic⟩
  | disc hno hmagic => exact ⟨hblocks, hended, hprior, nofun, hflat, .inl ⟨hdr, hlast, hmagic, hno⟩⟩
  | read hyes _ =>
    rw [dispatch]
    split_ifs
    all_goals exact Headers.top (hheaders hyes) hended hflat
  | reply hyes _ => exact Headers.awaitWrite (hheaders hyes) hended hflat

theorem header_of_lt {parsed : List Bytes} {n : ℕ} {unread : Bytes}
    (hk : ReadExpects t parsed k n unread) (hlt : unread.length < n) :
    k = .header ∧ n = 28 ∧ parsed.flatten ++ unread = t := by
  cases k with
  | flags =>
    obtain ⟨rfl, f, rest, hf, hbytes, -⟩ := hk
    rw [hbytes, length_append] at hlt
    omega
  | option =>
    obtain ⟨rfl, hopts⟩ := hk
    obtain ⟨hdr, opt, data, rest, hlen, hbytes, -⟩ := OptionsThen.cases hopts
    rw [hbytes, length_append] at hlt
    omega
  | optionData opt =>
    obtain ⟨d, rest, hd, hbytes, -⟩ := hk
    rw [hbytes, length_append] at hlt
    omega
  | header =>
    obtain ⟨rfl, ht⟩ := hk
    exact ⟨rfl, rfl, ht⟩

theorem reads_resumeRead {b : Option Bytes} (hs : s.Reads t) (hmain : s.main = .gotRead b k) :
    (s.resumeRead e k b).Reads t := by
  have h : Headers s.parsed := hs.headers (by rw [isOver, hmain])
  have hexpects := hs.expectsAt hmain
  cases b with
  | none =>
    obtain ⟨hend, n, hlt, hk⟩ := hexpects
    obtain ⟨rfl, rfl, ht⟩ := header_of_lt hk hlt
    exact Headers.reads (s := { s with main := .draining }) h hs.ended ⟨ht, .inr ⟨hend, hlt⟩⟩
  | some b =>
    cases k with
    | flags =>
      obtain ⟨hlen, f, rest, hf, hbytes, hopts⟩ := hexpects
      obtain ⟨-, hrest⟩ := append_inj hbytes (hlen.trans hf.symm)
      exact h.read hs.ended ⟨rfl, hrest ▸ hopts⟩
    | option =>
      obtain ⟨hlen, hopts⟩ := hexpects
      obtain ⟨hdr, opt, data, rest, hhdr, hbytes, hmagic, hopt, hdata, hafter⟩ :=
        OptionsThen.cases hopts
      obtain ⟨rfl, hrest⟩ := append_inj hbytes (hlen.trans hhdr.symm)
      rw [resumeRead, if_neg (not_not.mpr hmagic), hopt, hdata]
      split_ifs with hzero
      · exact h.read hs.ended ⟨data, rest, rfl, hrest, hafter⟩
      · rw [length_eq_zero_iff.mp (not_not.mp hzero)] at hrest
        exact h.answerOption hs.ended (hrest ▸ hafter)
    | optionData opt =>
      obtain ⟨d, rest, hd, hbytes, hafter⟩ := hexpects
      obtain ⟨-, hrest⟩ := append_inj hbytes hd.symm
      exact h.answerOption hs.ended (hrest ▸ hafter)
    | header =>
      obtain ⟨hlen, ht⟩ := hexpects
      exact reads_request h hs.ended hlen ht

theorem reads_resumeWrite {w : ℕ} {k : NbdWritePoint} (hs : s.Reads t) (hp : s.Place)
    (hmain : s.main = .awaitWrite w k) : (s.resumeWrite k).Reads t := by
  have h : Headers s.parsed := hs.headers (by rw [isOver, hmain])
  have hexpects := hs.expectsAt hmain
  cases k with
  | hello => exact h.read hs.ended ⟨rfl, hexpects⟩
  | info opt => exact h.awaitWrite hs.ended hexpects
  | ack opt =>
    rw [resumeWrite]
    rcases hexpects with ⟨hgo, ht⟩ | ⟨hne, -, hopts⟩
    · rw [if_pos hgo]
      refine h.top hs.ended ?_
      rw [((hp.mainAt hmain).2 (by rintro ⟨⟩)).1]
      exact ht
    · rw [if_neg hne]
      exact h.read hs.ended ⟨rfl, hopts⟩
  | abort => exact absurd hexpects id
  | unsup => exact h.read hs.ended ⟨rfl, hexpects⟩
  | reply => exact h.top hs.ended hexpects

theorem Reads.congr (hs : s.Reads t)
    (hmain : s'.main = s.main ∨ s.main = .slot ∧ s'.main = .slotFree)
    (hreader : s'.reader = s.reader) (hincoming : s'.incoming = s.incoming)
    (hparsed : s'.parsed = s.parsed) : s'.Reads t := by
  have hover : s'.isOver = s.isOver := by
    rcases hmain with hmain | ⟨hmain, hmain'⟩
    · rw [isOver, hmain, isOver]
    · rw [isOver, hmain', isOver, hmain]
  refine ⟨hparsed ▸ hs.blocks, ?_, hparsed ▸ hs.prior, ?_, ?_⟩
  · rw [hreader, hincoming]
    exact hs.ended
  · rw [hover, hparsed]
    exact hs.running
  · rcases hmain with hmain | ⟨hmain, hmain'⟩
    · have hexpects := hs.expects
      simp only [Expects.eq_def, Over, unread, hmain, hreader, hincoming, hparsed] at hexpects ⊢
      exact hexpects
    · have hexpects := hs.expectsAt hmain
      rw [hmain', Expects, hparsed, unread, hreader, hincoming]
      exact hexpects

theorem Reads.arrive (hs : s.Reads t) (hmain : s'.main = s.main) (hparsed : s'.parsed = s.parsed)
    (hunread : s'.unread = s.unread) (hended : s'.reader.ended = true → s'.incoming = [])
    (hend : s.reader.ended = true → s'.reader.ended = true) : s'.tryResolve.Reads t := by
  obtain ⟨-, hincoming, hparsed', -, hend'⟩ := tryResolve_frame s'
  refine ⟨?_, ?_, ?_, ?_, ?_⟩
  · rw [hparsed', hparsed]
    exact hs.blocks
  · rw [hincoming, hend']
    exact hended
  · rw [hparsed', hparsed]
    exact hs.prior
  · rw [isOver_tryResolve, hparsed', hparsed, isOver, hmain]
    exact hs.running
  · have hover (h : s.Over) : s'.Over := by
      rw [Over, hparsed, hunread]
      exact h.imp id fun h => ⟨hend h.1, h.2⟩
    cases hm : s.main with
    | awaitRead n k =>
      refine expects_tryResolve (hmain.trans hm) hended ?_
      rw [hparsed, hunread]
      exact (hs.expectsAt hm).2.2
    | gotRead b k =>
      have hsame : s'.tryResolve = s' := by simp [tryResolve.eq_def, hmain, hm]
      have hexpects := hs.expectsAt hm
      rw [hsame, hmain, hm]
      cases b with
      | none =>
        rw [Expects, hparsed, hunread]
        exact ⟨hend hexpects.1, hexpects.2⟩
      | some b =>
        rw [Expects, hparsed, hunread]
        exact hexpects
    | _ =>
      have hsame : s'.tryResolve = s' := by simp [tryResolve.eq_def, hmain, hm]
      have hexpects := hs.expectsAt hm
      rw [hsame, hmain, hm, Expects, hparsed, hunread]
      first
        | exact hexpects
        | exact ⟨hexpects.1, hover hexpects.2⟩

theorem Reads.step {l : NbdAct} (hs : s.Reads t) (hp : s.Place) (h : nbdStep e s l = some s') :
    s'.Reads t := by
  cases l with
  | data n =>
    obtain ⟨⟨-, hle⟩, ⟨⟩⟩ := ite_none_right_eq_some.mp h
    refine hs.arrive rfl rfl ?_ (fun hend => ?_) id
    · simp only [unread, NbdReader.bytes_push, append_assoc, take_append_drop]
    · change s.incoming.drop n = []
      rw [hs.ended hend, drop_nil]
  | fin =>
    obtain ⟨⟨hnil, -⟩, ⟨⟩⟩ := ite_none_right_eq_some.mp h
    exact hs.arrive rfl rfl rfl (fun _ => hnil) fun _ => rfl
  | resume =>
    rcases resume_cases h with ⟨b, k, hm, rfl⟩ | ⟨w, k, hm, -, rfl⟩ | ⟨hm, rfl⟩ | ⟨hm, -, rfl⟩
    · exact reads_resumeRead hs hm
    · exact reads_resumeWrite hs hp hm
    · exact (hs.headers (by rw [isOver, hm])).read hs.ended ⟨rfl, hs.expectsAt hm⟩
    · exact ⟨hs.blocks, hs.ended, hs.prior, nofun, hs.expectsAt hm⟩
  | start | written =>
    obtain ⟨w, -, rfl⟩ := map_eq_some_iff.mp h
    exact hs.congr (.inl rfl) rfl rfl rfl
  | sourceDone i a =>
    obtain ⟨j, -, -, -, rfl⟩ := sourceDone_cases h
    exact hs.congr (.inl rfl) rfl rfl rfl
  | resumeJob i =>
    obtain ⟨j, -, ⟨r, -, rfl⟩ | ⟨w, -, -, rfl⟩⟩ := resumeJob_cases h
    · exact hs.congr (.inl rfl) rfl rfl rfl
    · refine hs.congr ?_ rfl rfl rfl
      by_cases hslot : s.main = .slot
      · exact .inr ⟨hslot, by simp [free, setJob, hslot]⟩
      · exact .inl (by simp [free, setJob, hslot])

theorem reads_init (c : NbdClient) : (init c.stream).Reads c.transmission := by
  refine Headers.reads (s := init c.stream) ⟨nofun, nofun⟩ nofun ?_
  refine ⟨c.flags, c.options.flatMap (fun o => encodeOption o.opt o.data) ++
    (encodeOption nbdOptGo c.go ++ c.transmission), c.flags_length, ?_, c.options, c.go, c.go_lt,
    rfl⟩
  change [] ++ c.stream = _
  simp [NbdClient.stream, NbdClient.negotiation]

theorem reads_of_reach {c : NbdClient}
    (h : (nbdMachine e).Reach (fun _ _ => True) (init c.stream) s) : s.Reads c.transmission := by
  induction h with
  | refl => exact reads_init c
  | step hreach _ hstep ih => exact ih.step (ok_of_reach hreach).2 hstep

end NbdServer

end Anyfs
