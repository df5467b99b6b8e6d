import Mathlib.Algebra.Group.Nat.Defs
import Anyfs.Lib.Bytes

/-!
# Block requests and the request handlers of the backends

There are four handlers: raw on POSIX and on Windows, GIO, and QEMU. All walk the buffers of a
request with a running 64-bit offset (`forBuf`). What the host answers is an input (`HostEnv`): each
call reports success or failure together with the number of bytes it moved. The bytes move before
the answer is looked at.
-/

namespace Anyfs

namespace Backend

open ByteStore

/-- Request types of the virtio block device (`LKL_DEV_BLK_TYPE_*`). -/
inductive BlkType where
  | read
  | write
  | flush
  | flushOut
  | other (code : ℕ)
  deriving DecidableEq

/-- Request results (`LKL_DEV_BLK_STATUS_*`). -/
inductive BlkStatus where
  | ok
  | ioerr
  | unsup
  deriving DecidableEq

/-- `struct lkl_blk_req`; the `iov_len` of a buffer is the length of its contents. -/
structure BlkReq where
  type : BlkType
  sector : UInt64
  buf : List Bytes

/-- What a backend asks of the host. -/
inductive HostCall where
  | seek (off : UInt64)
  | read (off : UInt64) (len : ℕ)
  | write (off : UInt64) (len : ℕ)
  | flush
  deriving DecidableEq

/-- The answer to a host call: whether it reports success, and how many bytes it moved. -/
structure Answer where
  ok : Bool
  n : ℕ
  deriving DecidableEq

/-- What the host answers to the calls for buffer `i`, and whether the QEMU thread takes the call.
-/
structure HostEnv where
  seek : ℕ → Bool
  io : ℕ → Answer
  flush : ℕ → Bool
  accepts : Bool

/-- The image and the calls made so far. -/
structure World where
  store : ℕ → UInt8
  calls : List (HostCall × Answer)

namespace World

def log (w : World) (c : HostCall) (a : Answer) : World :=
  { w with calls := w.calls ++ [(c, a)] }

@[simp]
theorem store_log (w : World) (c : HostCall) (a : Answer) : (w.log c a).store = w.store := rfl

/-- A read of `len` bytes at `off` into `b` that moves `a.n` bytes. -/
def readInto (w : World) (off : UInt64) (len : ℕ) (b : Bytes) (a : Answer) : Bytes × World :=
  (slice w.store off.toNat a.n ++ b.drop a.n, w.log (.read off len) a)

def writeFrom (w : World) (off : UInt64) (len : ℕ) (b : Bytes) (a : Answer) : World :=
  { w.log (.write off len) a with store := overwrite w.store off.toNat (b.take a.n) }

end World

/-- What the loop body does with one buffer: leave the handler, or go on. -/
inductive Flow where
  | ret (status : BlkStatus) (b : Bytes) (w : World)
  | next (b : Bytes) (w : World)

def Flow.ofAnswer (ok : Bool) (b : Bytes) (w : World) : Flow :=
  if ok then .next b w else .ret .ioerr b w

/-- The status of a finished request, its buffers and the host afterwards. -/
structure Outcome where
  status : BlkStatus
  buf : List Bytes
  world : World

/-- The buffer loop: `i` is the loop counter and `off` the running offset. -/
def forBuf (body : ℕ → UInt64 → Bytes → World → Flow) : ℕ → UInt64 → List Bytes → World → Outcome
  | _, _, [], w => ⟨.ok, [], w⟩
  | i, off, b :: bs, w =>
    match body i off b w with
    | .ret st b' w' => ⟨st, b' :: bs, w'⟩
    | .next b' w' =>
      let r := forBuf body (i + 1) (off + UInt64.ofNat b.length) bs w'
      ⟨r.status, b' :: r.buf, r.world⟩

section Loop

variable {body : ℕ → UInt64 → Bytes → World → Flow} {i : ℕ} {off : UInt64} {b b' : Bytes}
  {bs : List Bytes} {w w' : World}

theorem forBuf_ret {st : BlkStatus} (h : body i off b w = .ret st b' w') :
    forBuf body i off (b :: bs) w = ⟨st, b' :: bs, w'⟩ := by
  rw [forBuf, h]

theorem forBuf_next (h : body i off b w = .next b' w') :
    forBuf body i off (b :: bs) w =
      ⟨(forBuf body (i + 1) (off + UInt64.ofNat b.length) bs w').status,
        b' :: (forBuf body (i + 1) (off + UInt64.ofNat b.length) bs w').buf,
        (forBuf body (i + 1) (off + UInt64.ofNat b.length) bs w').world⟩ := by
  rw [forBuf, h]

end Loop

/-! ### The loop bodies -/

variable (env : HostEnv)

def readBody (len : ℕ) (i : ℕ) (off : UInt64) (b : Bytes) (w : World) : Flow :=
  let r := w.readInto off len b (env.io i)
  .ofAnswer (env.io i).ok r.1 r.2

def writeBody (len : ℕ) (i : ℕ) (off : UInt64) (b : Bytes) (w : World) : Flow :=
  .ofAnswer (env.io i).ok b (w.writeFrom off len b (env.io i))

def logFlush (i : ℕ) (w : World) : World := w.log .flush ⟨env.flush i, 0⟩

/-- Loop body of `raw_request` on POSIX. -/
def rawPosixBody (type : BlkType) (i : ℕ) (off : UInt64) (b : Bytes) (w : World) : Flow :=
  match type with
  | .read => readBody env b.length i off b w
  | .write => writeBody env b.length i off b w
  | .flush | .flushOut =>
    if env.flush i then .ret .ok b (logFlush env i w) else .ret .ioerr b (logFlush env i w)
  | .other _ => .ret .unsup b w

/-- A length cast to the `DWORD` of the Windows file functions. -/
def toDword (n : ℕ) : ℕ := n % 2 ^ 32

/-- Loop body of `raw_request` on Windows; the result of `FlushFileBuffers` is dropped. -/
def rawWinBody (type : BlkType) (i : ℕ) (off : UInt64) (b : Bytes) (w : World) : Flow :=
  match type with
  | .read => readBody env (toDword b.length) i off b w
  | .write => writeBody env (toDword b.length) i off b w
  | .flush | .flushOut => .ret .ok b (logFlush env i w)
  | .other _ => .ret .unsup b w

/-- Loop body of `gio_request`: seek, then read. -/
def gioBody (i : ℕ) (off : UInt64) (b : Bytes) (w : World) : Flow :=
  let w := w.log (.seek off) ⟨env.seek i, 0⟩
  if env.seek i then readBody env b.length i off b w else .ret .ioerr b w

/-- Loop body of `io_co`; a type it does not know leaves the status at `IOERR`. -/
def ioCoBody (type : BlkType) (i : ℕ) (off : UInt64) (b : Bytes) (w : World) : Flow :=
  match type with
  | .read => readBody env b.length i off b w
  | .write => writeBody env b.length i off b w
  | .flush => .ofAnswer (env.flush i) b (logFlush env i w)
  | .flushOut | .other _ => .ret .ioerr b w

/-! ### The handlers -/

section Handlers

variable (env : HostEnv) (req : BlkReq) (st : ℕ → UInt8)

/-- Run a loop body over the buffers of the request, from byte `sector * 512` on. -/
def run (body : ℕ → UInt64 → Bytes → World → Flow) : Outcome :=
  forBuf body 0 (req.sector * 512) req.buf ⟨st, []⟩

/-- `raw_request` on POSIX. -/
def rawRequestPosix : Outcome := run req st (rawPosixBody env req.type)

/-- `raw_request` on Windows. -/
def rawRequestWin : Outcome := run req st (rawWinBody env req.type)

/-- `gio_request`: a flush is a no-op and a write an error, since the stream is read-only. -/
def gioRequest : Outcome :=
  match req.type with
  | .flush | .flushOut => ⟨.ok, req.buf, ⟨st, []⟩⟩
  | .write => ⟨.ioerr, req.buf, ⟨st, []⟩⟩
  | .read | .other _ => run req st (gioBody env)

/-- `qemu_request`: `io_co` on the QEMU thread, or an error when the thread does not take
the call. -/
def qemuRequest : Outcome :=
  if env.accepts then run req st (ioCoBody env req.type) else ⟨.ioerr, req.buf, ⟨st, []⟩⟩

end Handlers

/-- The request functions of the backends. -/
inductive Handler where
  | rawPosix
  | rawWin
  | gio
  | qemu
  deriving DecidableEq

/-- The handler's `request` function. -/
def Handler.request : Handler → HostEnv → BlkReq → (ℕ → UInt8) → Outcome
  | .rawPosix => rawRequestPosix
  | .rawWin => rawRequestWin
  | .gio => gioRequest
  | .qemu => qemuRequest

end Backend

end Anyfs
