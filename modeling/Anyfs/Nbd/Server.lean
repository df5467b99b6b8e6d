import Anyfs.Lib.Machine
import Anyfs.Nbd.Wire

/-!
# The NBD server

`serveNbd` reads from a socket that delivers its bytes in chunks, and writes frames one after the
other. It runs up to an `await`: the reader, a write, or a free slot. Each READ is a job of its own
that waits for the source and then for its write.
-/

namespace Anyfs

/-! ### The reader and the writer -/

/-- The state of `makeReader` without the outstanding read. -/
structure NbdReader where
  chunks : List Bytes
  buffered : ℕ
  ended : Bool
  counted : buffered = chunks.flatten.length

namespace NbdReader

def bytes (r : NbdReader) : Bytes := r.chunks.flatten

def init : NbdReader := ⟨[], 0, false, rfl⟩

def push (r : NbdReader) (d : Bytes) : NbdReader :=
  ⟨r.chunks ++ [d], r.buffered + d.length, r.ended, by simp [r.counted]⟩

def close (r : NbdReader) : NbdReader := { r with ended := true }

/-- The first `want` bytes. -/
def take (r : NbdReader) (want : ℕ) : Bytes × NbdReader :=
  let all := r.chunks.flatten
  let rest := all.drop want
  (all.take want, ⟨if rest.length ≠ 0 then [rest] else [], rest.length, r.ended,
    by split_ifs <;> simp_all⟩)

end NbdReader

/-- A frame. The second field is history: the number of the request that it answers. -/
structure NbdFrame where
  bytes : Bytes
  request : Option ℕ
  deriving DecidableEq

/-- The chain of `makeWriter`: the frames given to the socket, how many are written, and those whose
turn has not come. -/
structure NbdWriter where
  sent : List NbdFrame
  written : ℕ
  queue : List NbdFrame
  written_le : written ≤ sent.length
  sent_le : sent.length ≤ written + 1

namespace NbdWriter

def init : NbdWriter := ⟨[], 0, [], Nat.le_refl _, Nat.zero_le _⟩

def frames (w : NbdWriter) : List NbdFrame := w.sent ++ w.queue

def write (w : NbdWriter) (f : NbdFrame) : NbdWriter := { w with queue := w.queue ++ [f] }

/-- The turn of the next frame has come: `socket.write`. -/
def start (w : NbdWriter) : Option NbdWriter :=
  match w.queue with
  | [] => none
  | f :: fs =>
    if h : w.written = w.sent.length then
      some ⟨w.sent ++ [f], w.written, fs, by simp [h], by simp [h]⟩
    else none

def done (w : NbdWriter) : Option NbdWriter :=
  if h : w.written < w.sent.length then
    some ⟨w.sent, w.written + 1, w.queue, h, Nat.le_succ_of_le w.sent_le⟩
  else none

end NbdWriter

/-! ### The server -/

/-- The reads that `serve` awaits. -/
inductive NbdReadPoint where
  | flags
  | option
  | optionData (opt : ℕ)
  | header
  deriving DecidableEq

/-- The writes that `serve` awaits. -/
inductive NbdWritePoint where
  | hello
  | info (opt : ℕ)
  | ack (opt : ℕ)
  | abort
  | unsup
  | reply
  deriving DecidableEq

/-- Where `serveNbd` is: waiting for `n` bytes, for a write, for a slot or for the jobs, going on
after that, or over. -/
inductive NbdMain where
  | awaitRead (n : ℕ) (k : NbdReadPoint)
  | gotRead (b : Option Bytes) (k : NbdReadPoint)
  | awaitWrite (w : ℕ) (k : NbdWritePoint)
  | slot
  | slotFree
  | draining
  | returned
  | failed
  deriving DecidableEq

/-- Where the job of a READ is. -/
inductive NbdJobPhase where
  | reading
  | got (r : Option Bytes)
  | replying (w : ℕ)
  | finished
  deriving DecidableEq

/-- The job of a READ. The last field is history: what the source answered, once it has, with `none`
for a rejection. -/
structure NbdJob where
  header : NbdHeader
  phase : NbdJobPhase
  answer : Option (Option Bytes)

/-- The state of `serveNbd`. `incoming` are the bytes on their way, `jobs` are known by the number
of their request, and `parsed` is history: the buffers that were taken for headers. -/
structure NbdServer where
  incoming : Bytes
  reader : NbdReader
  writer : NbdWriter
  main : NbdMain
  jobs : ℕ → Option NbdJob
  inFlight : ℕ
  parsed : List Bytes

namespace NbdServer

def maxInFlight : ℕ := 16

variable (s : NbdServer)

def requests : List NbdHeader := (s.parsed.map parseHeader).filter NbdHeader.isRequest

/-- `await write(buf)`, before the `await`. -/
def write (bytes : Bytes) (request : Option ℕ) : NbdServer :=
  { s with writer := s.writer.write ⟨bytes, request⟩ }

def awaitWrite (bytes : Bytes) (request : Option ℕ) (k : NbdWritePoint) : NbdServer :=
  { s.write bytes request with main := .awaitWrite s.writer.frames.length k }

/-- A read that waits gets its bytes. -/
def tryResolve : NbdServer :=
  match s.main with
  | .awaitRead n k =>
    if n ≤ s.reader.buffered then
      { s with reader := (s.reader.take n).2, main := .gotRead (some (s.reader.take n).1) k }
    else if s.reader.ended then { s with main := .gotRead none k }
    else s
  | _ => s

/-- `await read(n)`, before the `await`. -/
def read (n : ℕ) (k : NbdReadPoint) : NbdServer :=
  { s with main := .awaitRead n k }.tryResolve

def init (stream : Bytes) : NbdServer :=
  awaitWrite ⟨stream, .init, .init, .returned, fun _ => none, 0, []⟩ nbdHello none .hello

variable (e : NbdExport)

def answerOption (opt : ℕ) : NbdServer :=
  if opt = nbdOptGo ∨ opt = nbdOptInfo then
    s.awaitWrite (optReply opt nbdRepInfo (nbdInfo e)) none (.info opt)
  else if opt = nbdOptAbort then s.awaitWrite (optReply opt nbdRepAck []) none .abort
  else s.awaitWrite (optReply opt nbdRepErrUnsup []) none .unsup

/-- The top of the request loop. -/
def top : NbdServer :=
  if maxInFlight ≤ s.inFlight then { s with main := .slot } else s.read 28 .header

/-- The job of a READ is made and runs up to its first `await`. -/
def dispatch (i : ℕ) (h : NbdHeader) : NbdServer :=
  if h.isBeyond e then
    { s.write (simpleReply nbdEinval h.handle none) (some i) with
      inFlight := s.inFlight + 1
      jobs := Function.update s.jobs i (some ⟨h, .replying s.writer.frames.length, none⟩) }
  else
    { s with
      inFlight := s.inFlight + 1
      jobs := Function.update s.jobs i (some ⟨h, .reading, none⟩) }

/-- A request is dispatched. -/
def request (hdr : Bytes) : NbdServer :=
  let h := parseHeader hdr
  let i := s.requests.length
  let s := { s with parsed := s.parsed ++ [hdr] }
  if h.magic ≠ reqMagic then { s with main := .failed }
  else if h.type = nbdCmdDisc then { s with main := .draining }
  else if h.type = nbdCmdRead then (s.dispatch e i h).top
  else if h.type = nbdCmdFlush then s.awaitWrite (simpleReply 0 h.handle none) (some i) .reply
  else s.awaitWrite (simpleReply nbdEinval h.handle none) (some i) .reply

/-- `serve` goes on after a read. -/
def resumeRead : NbdReadPoint → Option Bytes → NbdServer
  | .header, none => { s with main := .draining }
  | _, none => { s with main := .failed }
  | .flags, some _ => s.read 16 .option
  | .option, some hdr =>
    if readUIntBE hdr 0 8 ≠ iHaveOpt then { s with main := .failed }
    else if readUIntBE hdr 12 4 ≠ 0 then s.read (readUIntBE hdr 12 4)
      (.optionData (readUIntBE hdr 8 4))
    else s.answerOption e (readUIntBE hdr 8 4)
  | .optionData opt, some _ => s.answerOption e opt
  | .header, some hdr => s.request e hdr

/-- `serve` goes on after a write. -/
def resumeWrite : NbdWritePoint → NbdServer
  | .hello => s.read 4 .flags
  | .info opt => s.awaitWrite (optReply opt nbdRepAck []) none (.ack opt)
  | .ack opt => if opt = nbdOptGo then s.top else s.read 16 .option
  | .abort => { s with main := .returned }
  | .unsup => s.read 16 .option
  | .reply => s.top

/-- All jobs are finished. -/
def Drained : Prop := ∀ i < s.requests.length, ∀ j ∈ s.jobs i, j.phase = .finished

instance : Decidable s.Drained :=
  inferInstanceAs (Decidable (∀ i < s.requests.length, ∀ j ∈ s.jobs i, j.phase = .finished))

def resume : Option NbdServer :=
  match s.main with
  | .gotRead b k => some (s.resumeRead e k b)
  | .awaitWrite w k => if w < s.writer.written then some (s.resumeWrite k) else none
  | .slotFree => some (s.read 28 .header)
  | .draining => if s.Drained then some { s with main := .returned } else none
  | _ => none

def setJob (i : ℕ) (j : NbdJob) : NbdServer :=
  { s with jobs := Function.update s.jobs i (some j) }

/-- The `finally` of a job: a slot is free. -/
def free : NbdServer :=
  { s with inFlight := s.inFlight - 1, main := if s.main = .slot then .slotFree else s.main }

/-- The source gives the bytes of the export. -/
def MayAnswer (h : NbdHeader) (r : Option Bytes) : Prop :=
  ∀ data ∈ r, data.length = h.length → data = ByteStore.slice e.source (toNumber h.offset) h.length

instance (h : NbdHeader) (r : Option Bytes) : Decidable (MayAnswer e h r) :=
  inferInstanceAs (Decidable (∀ data ∈ r, _))

/-- The source answers job `i`. -/
def sourceDone (i : ℕ) (r : Option Bytes) : Option NbdServer :=
  (s.jobs i).bind fun j =>
    if j.phase = .reading ∧ MayAnswer e j.header r then
      some (s.setJob i { j with phase := .got r, answer := some r })
    else none

/-- Job `i` goes on. -/
def resumeJob (i : ℕ) : Option NbdServer :=
  (s.jobs i).bind fun j =>
    match j.phase with
    | .got r => some ((s.write (readReply j.header r) (some i)).setJob i
        { j with phase := .replying s.writer.frames.length })
    | .replying w =>
      if w < s.writer.written then some (s.setJob i { j with phase := .finished }).free else none
    | _ => none

def data (n : ℕ) : Option NbdServer :=
  if 0 < n ∧ n ≤ s.incoming.length then
    some { s with
      incoming := s.incoming.drop n, reader := s.reader.push (s.incoming.take n) }.tryResolve
  else none

def fin : Option NbdServer :=
  if s.incoming = [] ∧ s.reader.ended = false then
    some { s with reader := s.reader.close }.tryResolve
  else none

end NbdServer

/-- Bytes or the end of the socket arrive, the main loop, the writer or a job goes on, the socket
has written a frame, the source answers. -/
inductive NbdAct where
  | data (n : ℕ)
  | fin
  | resume
  | start
  | written
  | sourceDone (i : ℕ) (r : Option Bytes)
  | resumeJob (i : ℕ)
  deriving DecidableEq

/-- The steps of the server. -/
def nbdStep (e : NbdExport) (s : NbdServer) : NbdAct → Option NbdServer
  | .data n => s.data n
  | .fin => s.fin
  | .resume => s.resume e
  | .start => s.writer.start.map fun w => { s with writer := w }
  | .written => s.writer.done.map fun w => { s with writer := w }
  | .sourceDone i r => s.sourceDone e i r
  | .resumeJob i => s.resumeJob i

def nbdMachine (e : NbdExport) : Machine NbdServer NbdAct := .ofFun (nbdStep e)

end Anyfs
