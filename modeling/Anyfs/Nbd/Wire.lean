import Anyfs.Lib.Fields

/-!
# The NBD protocol on the wire

What the server of `nbd-server.ts` sends and how it reads what it gets, and what a client sends: its
flags, options up to GO, requests, and perhaps a disconnect.
-/

namespace Anyfs

open List BigEndian

/-! ### The server's side -/

def nbdMagic : ℕ := 0x4e42444d41474943
def iHaveOpt : ℕ := 0x49484156454f5054
def optReplyMagic : ℕ := 0x0003e889045565a9
def reqMagic : ℕ := 0x25609513
def simpleReplyMagic : ℕ := 0x67446698

def nbdFlagFixedNewstyle : ℕ := 1
def nbdFlagNoZeroes : ℕ := 2

def nbdOptAbort : ℕ := 2
def nbdOptInfo : ℕ := 6
def nbdOptGo : ℕ := 7

def nbdRepAck : ℕ := 1
def nbdRepInfo : ℕ := 3
def nbdRepErrUnsup : ℕ := 0x80000001

def nbdInfoExport : ℕ := 0
def nbdFlagHasFlags : ℕ := 1
def nbdFlagReadOnly : ℕ := 2

def nbdCmdRead : ℕ := 0
def nbdCmdDisc : ℕ := 2
def nbdCmdFlush : ℕ := 3

def nbdEinval : ℕ := 22
def nbdEio : ℕ := 5

/-- `readUInt16BE`, `readUInt32BE` and `readBigUInt64BE`: the number in the `n` bytes at `off`. -/
def readUIntBE (b : Bytes) (off n : ℕ) : ℕ := value ((b.drop off).take n)

/-- `Number(n)`: the nearest double, and of two the even one. -/
def toNumber (n : ℕ) : ℕ :=
  let ulp := 2 ^ (Nat.log2 n - 52)
  if 2 * (n % ulp) < ulp ∨ 2 * (n % ulp) = ulp ∧ n / ulp % 2 = 0 then n / ulp * ulp
  else (n / ulp + 1) * ulp

/-- What a server exports: the size it announces and the bytes of its source. -/
structure NbdExport where
  size : ℕ
  source : ℕ → UInt8
  size_lt : size < 2 ^ 64

/-- The header of a request. -/
structure NbdHeader where
  magic : ℕ
  type : ℕ
  handle : Bytes
  offset : ℕ
  length : ℕ

def parseHeader (hdr : Bytes) : NbdHeader where
  magic := readUIntBE hdr 0 4
  type := readUIntBE hdr 6 2
  handle := (hdr.drop 8).take 8
  offset := readUIntBE hdr 16 8
  length := readUIntBE hdr 24 4

/-- The server sends a reply to a request with this header: it has the magic number and is no
disconnect. -/
def NbdHeader.isRequest (h : NbdHeader) : Bool := h.magic == reqMagic && h.type != nbdCmdDisc

def NbdHeader.isBeyond (h : NbdHeader) (e : NbdExport) : Bool :=
  decide (e.size < h.offset + h.length)

def nbdHello : Bytes :=
  encode 8 nbdMagic ++ encode 8 iHaveOpt ++
    encode 2 (nbdFlagFixedNewstyle + nbdFlagNoZeroes)

def simpleReply (error : ℕ) (handle : Bytes) (data : Option Bytes) : Bytes :=
  encode 4 simpleReplyMagic ++ encode 4 error ++ handle ++ data.getD []

def optReply (opt repType : ℕ) (payload : Bytes) : Bytes :=
  encode 8 optReplyMagic ++ encode 4 opt ++ encode 4 repType ++
    encode 4 payload.length ++ payload

def nbdInfo (e : NbdExport) : Bytes :=
  encode 2 nbdInfoExport ++ encode 8 e.size ++
    encode 2 (nbdFlagHasFlags + nbdFlagReadOnly)

def readReply (h : NbdHeader) (r : Option Bytes) : Bytes :=
  match r with
  | some data =>
    if data.length = h.length then simpleReply 0 h.handle (some data)
    else simpleReply nbdEio h.handle none
  | none => simpleReply nbdEio h.handle none

/-- The reply to a request; `r` is what the source answers to a READ inside the export. -/
def NbdHeader.reply (h : NbdHeader) (e : NbdExport) (r : Option Bytes) : Bytes :=
  if h.type = nbdCmdRead then
    if h.isBeyond e then simpleReply nbdEinval h.handle none else readReply h r
  else if h.type = nbdCmdFlush then simpleReply 0 h.handle none
  else simpleReply nbdEinval h.handle none

/-! ### The client's side -/

def nbdCmdWrite : ℕ := 1

/-- An option before GO. -/
structure NbdOption where
  opt : ℕ
  data : Bytes
  opt_lt : opt < 2 ^ 32
  data_lt : data.length < 2 ^ 32
  ne_go : opt ≠ nbdOptGo
  ne_abort : opt ≠ nbdOptAbort

def encodeOption (opt : ℕ) (data : Bytes) : Bytes :=
  encode 8 iHaveOpt ++ encode 4 opt ++ encode 4 data.length ++ data

/-- A request of a client. -/
structure NbdRequest where
  flags : ℕ
  type : ℕ
  handle : Bytes
  offset : ℕ
  length : ℕ
  payload : Bytes
  type_lt : type < 2 ^ 16
  type_ne : type ≠ nbdCmdDisc
  handle_length : handle.length = 8
  offset_lt : offset < 2 ^ 64
  length_lt : length < 2 ^ 32
  payload_length : payload.length = if type = nbdCmdWrite then length else 0

def encodeHeader (flags type : ℕ) (handle : Bytes) (offset length : ℕ) : Bytes :=
  encode 4 reqMagic ++ (encode 2 flags ++ (encode 2 type ++ (handle ++
    (encode 8 offset ++ encode 4 length))))

namespace NbdRequest

def header (q : NbdRequest) : Bytes := encodeHeader q.flags q.type q.handle q.offset q.length

def encode (q : NbdRequest) : Bytes := q.header ++ q.payload

end NbdRequest

def discHeader : Bytes := encodeHeader 0 nbdCmdDisc (replicate 8 0) 0 0

/-- What a client sends: flags, options up to GO, requests, and a disconnect with anything after it
or, without a disconnect, at most the beginning of another header. -/
structure NbdClient where
  flags : Bytes
  options : List NbdOption
  go : Bytes
  requests : List NbdRequest
  disc : Bool
  tail : Bytes
  flags_length : flags.length = 4
  go_lt : go.length < 2 ^ 32
  tail_lt : disc = false → tail.length < 28

namespace NbdClient

variable (c : NbdClient)

def ending : Bytes := (if c.disc then discHeader else []) ++ c.tail

def transmission : Bytes := c.requests.flatMap NbdRequest.encode ++ c.ending

def negotiation : Bytes :=
  c.flags ++ (c.options.flatMap (fun o => encodeOption o.opt o.data) ++ encodeOption nbdOptGo c.go)

def stream : Bytes := c.negotiation ++ c.transmission

def headers : List Bytes :=
  c.requests.map NbdRequest.header ++ if c.disc then [discHeader] else []

end NbdClient

/-! ### Reading what was sent -/

theorem readUIntBE_encode {a b : Bytes} {off w n : ℕ} (ha : a.length = off) (hn : n < 256 ^ w) :
    readUIntBE (a ++ (encode w n ++ b)) off w = n := by
  rw [readUIntBE, ← ha, drop_left, take_left' (length_encode w n), value_encode hn]

theorem parseHeader_encodeHeader {flags type offset length : ℕ} {handle : Bytes}
    (htype : type < 2 ^ 16)
    (hhandle : handle.length = 8) (hoffset : offset < 2 ^ 64) (hlength : length < 2 ^ 32) :
    parseHeader (encodeHeader flags type handle offset length) =
      ⟨reqMagic, type, handle, offset, length⟩ := by
  have hmagic : readUIntBE (encodeHeader flags type handle offset length) 0 4 = reqMagic :=
    readUIntBE_encode (a := []) rfl (by decide)
  have htype' : readUIntBE (encodeHeader flags type handle offset length) 6 2 = type := by
    rw [encodeHeader, ← append_assoc]
    exact readUIntBE_encode (by simp) htype
  have hhandle' : ((encodeHeader flags type handle offset length).drop 8).take 8 = handle := by
    rw [encodeHeader, ← append_assoc, ← append_assoc, drop_left' (by simp), take_left' hhandle]
  have hoffset' : readUIntBE (encodeHeader flags type handle offset length) 16 8 = offset := by
    rw [encodeHeader, ← append_assoc, ← append_assoc, ← append_assoc]
    exact readUIntBE_encode (by simp [hhandle]) hoffset
  have hlength' : readUIntBE (encodeHeader flags type handle offset length) 24 4 = length := by
    rw [encodeHeader, ← append_assoc, ← append_assoc, ← append_assoc, ← append_assoc,
      ← append_nil (encode 4 length)]
    exact readUIntBE_encode (by simp [hhandle]) hlength
  rw [parseHeader, hmagic, htype', hhandle', hoffset', hlength']

@[simp]
theorem length_encodeHeader {flags type offset length : ℕ} {handle : Bytes}
    (hhandle : handle.length = 8) : (encodeHeader flags type handle offset length).length = 28 := by
  simp [encodeHeader, hhandle]

namespace NbdRequest

theorem parseHeader_header (q : NbdRequest) :
    parseHeader q.header = ⟨reqMagic, q.type, q.handle, q.offset, q.length⟩ :=
  parseHeader_encodeHeader q.type_lt q.handle_length q.offset_lt q.length_lt

@[simp]
theorem length_header (q : NbdRequest) : q.header.length = 28 := length_encodeHeader q.handle_length

theorem isRequest_header (q : NbdRequest) : (parseHeader q.header).isRequest = true := by
  rw [parseHeader_header, NbdHeader.isRequest]
  simpa using q.type_ne

end NbdRequest

@[simp]
theorem length_discHeader : discHeader.length = 28 := length_encodeHeader rfl

theorem parseHeader_discHeader :
    parseHeader discHeader = ⟨reqMagic, nbdCmdDisc, replicate 8 0, 0, 0⟩ :=
  parseHeader_encodeHeader (by decide) rfl (by decide) (by decide)

theorem readUIntBE_encodeOption {opt : ℕ} {data : Bytes} (hopt : opt < 2 ^ 32)
    (hdata : data.length < 2 ^ 32) (rest : Bytes) :
    ∃ hdr : Bytes, hdr.length = 16 ∧ encodeOption opt data ++ rest = hdr ++ (data ++ rest) ∧
      readUIntBE hdr 0 8 = iHaveOpt ∧ readUIntBE hdr 8 4 = opt ∧
      readUIntBE hdr 12 4 = data.length := by
  refine ⟨encode 8 iHaveOpt ++ (encode 4 opt ++ encode 4 data.length),
    by simp, ?_, readUIntBE_encode (a := []) rfl (by decide), readUIntBE_encode (by simp) hopt, ?_⟩
  · simp [encodeOption]
  · rw [← append_assoc, ← append_nil (encode 4 data.length)]
    exact readUIntBE_encode (by simp) hdata

theorem NbdClient.length_of_mem_headers {c : NbdClient} {h : Bytes} (hh : h ∈ c.headers) :
    h.length = 28 := by
  rw [headers, mem_append, mem_map] at hh
  rcases hh with ⟨q, -, rfl⟩ | hh
  · exact q.length_header
  · split_ifs at hh
    · rw [mem_singleton.mp hh, length_discHeader]
    · cases hh

end Anyfs
