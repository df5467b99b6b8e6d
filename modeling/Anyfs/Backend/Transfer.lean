import Anyfs.Backend.Request

/-!
# READ and WRITE requests and complete transfers

A request that is answered OK promises one transfer of the concatenated buffers (`Transferred`). The
handlers take a call that moves fewer bytes than it was asked for for a success, so the promise is
kept exactly when some call fails or no call is short (`transferKept_iff`).
-/

namespace Anyfs

open List

namespace Backend

open ByteStore

/-! ### The abstract transfer -/

/-- The byte ranges of a list of buffers laid out one after the other from `o` on, each as
its start and length. -/
def ranges : ℕ → List Bytes → List (ℕ × ℕ)
  | _, [] => []
  | o, b :: bs => (o, b.length) :: ranges (o + b.length) bs

def pieces (st : ℕ → UInt8) (rs : List (ℕ × ℕ)) : List Bytes :=
  rs.map fun r => slice st r.1 r.2

/-- What was transferred: offsets and sizes. -/
def World.moves (w : World) : List (ℕ × ℕ) :=
  w.calls.filterMap fun c =>
    match c.1 with
    | .read off _ | .write off _ => some (off.toNat, c.2.n)
    | .seek _ | .flush => none

def BlkReq.start (req : BlkReq) : ℕ := req.sector.toNat * 512

/-- The request lies in the disk. -/
def BlkReq.Inside (req : BlkReq) (cap : UInt64) : Prop :=
  req.start + req.buf.flatten.length ≤ cap.toNat

/-- **A complete transfer**: the calls moved exactly the consecutive ranges of the buffers; a
READ left the store alone and filled the buffers from it, a WRITE left the buffers alone and
put their concatenation into the store. -/
structure Transferred (req : BlkReq) (st : ℕ → UInt8) (r : Outcome) : Prop where
  moves : r.world.moves = ranges req.start req.buf
  buf : r.buf = if req.type = .read then pieces st (ranges req.start req.buf) else req.buf
  store : r.world.store =
    if req.type = .write then overwrite st req.start req.buf.flatten else st

/-! ### Transfer loops -/

/-- The effect of a host call that moves `n` bytes on a buffer and the store. -/
def moved (type : BlkType) (o n : ℕ) (b : Bytes) (st : ℕ → UInt8) : Bytes × (ℕ → UInt8) :=
  if type = .read then (slice st o n ++ b.drop n, st) else (b, overwrite st o (b.take n))

/-- A loop body that transfers: it moves what the host says and goes on if the calls succeed
(`good`), and otherwise leaves with an I/O error. -/
structure IsTransferBody (env : HostEnv) (type : BlkType) (good : ℕ → Bool)
    (body : ℕ → UInt64 → Bytes → World → Flow) : Prop where
  next : ∀ i off b w, good i = true →
    ∃ w', body i off b w = .next (moved type off.toNat (env.io i).n b w.store).1 w' ∧
      w'.store = (moved type off.toNat (env.io i).n b w.store).2 ∧
      w'.moves = w.moves ++ [(off.toNat, (env.io i).n)]
  stop : ∀ i off b w, good i = false → ∃ b' w', body i off b w = .ret .ioerr b' w'

theorem forall_index_cons {p : ℕ → Prop} {b : Bytes} {bs : List Bytes} {i : ℕ} :
    (∀ j < (b :: bs).length, p (i + j)) ↔ p i ∧ ∀ j < bs.length, p (i + 1 + j) := by
  rw [length_cons, Nat.forall_lt_succ_left]
  simp only [Nat.add_zero, Nat.add_assoc, Nat.add_comm 1]

section Loop

variable {env : HostEnv} {type : BlkType} {good : ℕ → Bool}
  {body : ℕ → UInt64 → Bytes → World → Flow}

theorem IsTransferBody.status_ok_iff (h : IsTransferBody env type good body) :
    ∀ (bs : List Bytes) (i : ℕ) (off : UInt64) (w : World),
      (forBuf body i off bs w).status = .ok ↔ ∀ j < bs.length, good (i + j) = true := by
  intro bs
  induction bs with
  | nil => intro i off w; simp [forBuf]
  | cons b bs ih =>
    intro i off w
    rw [forall_index_cons (p := fun j => good j = true)]
    cases hg : good i with
    | false =>
      obtain ⟨b', w', hb⟩ := h.stop i off b w hg
      simp [forBuf_ret hb]
    | true =>
      obtain ⟨w', hb, -, -⟩ := h.next i off b w hg
      simpa [forBuf_next hb] using ih (i + 1) _ w'

def answered (env : HostEnv) : ℕ → ℕ → List Bytes → List (ℕ × ℕ)
  | _, _, [] => []
  | i, o, b :: bs => (o, (env.io i).n) :: answered env (i + 1) (o + b.length) bs

theorem answered_eq_ranges_iff (env : HostEnv) : ∀ (bs : List Bytes) (i o : ℕ),
    answered env i o bs = ranges o bs ↔
      ∀ j, (hj : j < bs.length) → (env.io (i + j)).n = bs[j].length := by
  intro bs
  induction bs with
  | nil => intro i o; simp [answered, ranges]
  | cons b bs ih =>
    intro i o
    simp only [answered, ranges, cons.injEq, Prod.mk.injEq, true_and, ih (i + 1)]
    constructor
    · rintro ⟨h0, h⟩ j hj
      cases j with
      | zero => exact h0
      | succ j =>
        have := h j (by simpa using hj)
        rwa [Nat.add_assoc, Nat.add_comm 1 j] at this
    · intro h
      refine ⟨h 0 (by simp), fun j hj => ?_⟩
      rw [Nat.add_assoc, Nat.add_comm 1 j]
      exact h (j + 1) (by simpa using hj)

theorem toNat_offset_add {off : UInt64} {b : Bytes} (h : off.toNat + b.length < 2 ^ 64) :
    (off + UInt64.ofNat b.length).toNat = off.toNat + b.length := by
  rw [UInt64.toNat_add, UInt64.toNat_ofNat']
  omega

theorem loop_cons {off : UInt64} {i : ℕ} {b : Bytes} {bs : List Bytes}
    (hgood : ∀ j < (b :: bs).length, good (i + j) = true)
    (hfit : off.toNat + (b :: bs).flatten.length < 2 ^ 64) :
    good i = true ∧ (∀ j < bs.length, good (i + 1 + j) = true) ∧
      (off + UInt64.ofNat b.length).toNat = off.toNat + b.length ∧
      (off + UInt64.ofNat b.length).toNat + bs.flatten.length < 2 ^ 64 := by
  obtain ⟨h0, hrest⟩ := (forall_index_cons (p := fun j => good j = true)).mp hgood
  rw [flatten_cons, length_append] at hfit
  have hoff : (off + UInt64.ofNat b.length).toNat = off.toNat + b.length :=
    toNat_offset_add (by omega)
  exact ⟨h0, hrest, hoff, by omega⟩

theorem IsTransferBody.moves_eq (h : IsTransferBody env type good body) :
    ∀ (bs : List Bytes) (i : ℕ) (off : UInt64) (w : World),
      (∀ j < bs.length, good (i + j) = true) → off.toNat + bs.flatten.length < 2 ^ 64 →
      (forBuf body i off bs w).world.moves = w.moves ++ answered env i off.toNat bs := by
  intro bs
  induction bs with
  | nil => intro i off w _ _; simp [forBuf, answered]
  | cons b bs ih =>
    intro i off w hgood hfit
    obtain ⟨h0, hrest, hoff, hfit'⟩ := loop_cons hgood hfit
    obtain ⟨w', hb, -, hmoves⟩ := h.next i off b w h0
    rw [forBuf_next hb]
    simp only [ih (i + 1) _ w' hrest hfit', hmoves, hoff, answered, append_assoc, singleton_append]

theorem IsTransferBody.full (h : IsTransferBody env type good body) :
    ∀ (bs : List Bytes) (i : ℕ) (off : UInt64) (w : World),
      (∀ j < bs.length, good (i + j) = true) → off.toNat + bs.flatten.length < 2 ^ 64 →
      answered env i off.toNat bs = ranges off.toNat bs →
      (forBuf body i off bs w).buf =
          (if type = .read then pieces w.store (ranges off.toNat bs) else bs) ∧
        (forBuf body i off bs w).world.store =
          if type = .read then w.store else overwrite w.store off.toNat bs.flatten := by
  intro bs
  induction bs with
  | nil => intro i off w _ _ _; simp [forBuf, ranges, pieces]
  | cons b bs ih =>
    intro i off w hgood hfit hfull
    simp only [answered, ranges, cons.injEq, Prod.mk.injEq, true_and] at hfull
    obtain ⟨h0, hrest, hoff, hfit'⟩ := loop_cons hgood hfit
    obtain ⟨w', hb, hstore, -⟩ := h.next i off b w h0
    obtain ⟨hbuf, hst⟩ := ih (i + 1) _ w' hrest hfit' (by rw [hoff]; exact hfull.2)
    rw [forBuf_next hb]
    simp only [hbuf, hst, hoff, hstore]
    by_cases ht : type = .read
    · simp [moved, ht, hfull.1, ranges, pieces]
    · simp [moved, ht, hfull.1, overwrite_append]

end Loop

/-! ### The loop bodies transfer -/

@[simp]
theorem World.moves_log_read (w : World) (off : UInt64) (len : ℕ) (a : Answer) :
    (w.log (.read off len) a).moves = w.moves ++ [(off.toNat, a.n)] := by
  simp [moves, log]

@[simp]
theorem World.moves_log_write (w : World) (off : UInt64) (len : ℕ) (a : Answer) :
    (w.log (.write off len) a).moves = w.moves ++ [(off.toNat, a.n)] := by
  simp [moves, log]

@[simp]
theorem World.moves_log_seek (w : World) (off : UInt64) (a : Answer) :
    (w.log (.seek off) a).moves = w.moves := by
  simp [moves, log]

section Bodies

variable (env : HostEnv)

theorem isTransferBody_readBody (len : Bytes → ℕ) :
    IsTransferBody env .read (fun i => (env.io i).ok)
      fun i off b w => readBody env (len b) i off b w where
  next i off b w hg := by
    refine ⟨_, ?_, ?_, World.moves_log_read w off (len b) (env.io i)⟩
    · simp [readBody, Flow.ofAnswer, hg, moved, World.readInto]
    · simp [moved, World.log]
  stop i off b w hg := by
    simp [readBody, Flow.ofAnswer, hg]

theorem isTransferBody_writeBody (len : Bytes → ℕ) :
    IsTransferBody env .write (fun i => (env.io i).ok)
      fun i off b w => writeBody env (len b) i off b w where
  next i off b w hg := by
    refine ⟨w.writeFrom off (len b) b (env.io i), ?_, ?_, ?_⟩
    · simp [writeBody, Flow.ofAnswer, hg, moved]
    · simp [moved, World.writeFrom]
    · exact World.moves_log_write w off (len b) (env.io i)
  stop i off b w hg := by
    simp [writeBody, Flow.ofAnswer, hg]

theorem isTransferBody_gioBody :
    IsTransferBody env .read (fun i => env.seek i && (env.io i).ok) (gioBody env) where
  next i off b w hg := by
    obtain ⟨hs, hio⟩ := Bool.and_eq_true_iff.mp hg
    obtain ⟨w', hb, hst, hm⟩ := (isTransferBody_readBody env length).next i off b
      (w.log (.seek off) ⟨env.seek i, 0⟩) hio
    refine ⟨w', ?_, hst, by simpa using hm⟩
    simpa [gioBody, hs] using hb
  stop i off b w hg := by
    cases hs : env.seek i with
    | false => simp [gioBody, hs]
    | true =>
      have hio : (env.io i).ok = false := by simpa [hs] using hg
      obtain ⟨b', w', hb⟩ := (isTransferBody_readBody env length).stop i off b
        (w.log (.seek off) ⟨env.seek i, 0⟩) hio
      exact ⟨b', w', by simpa [gioBody, hs] using hb⟩

end Bodies

theorem BlkReq.Inside.fits {req : BlkReq} {cap : UInt64} (h : req.Inside cap) :
    (req.sector * 512).toNat = req.start ∧
      (req.sector * 512).toNat + req.buf.flatten.length < 2 ^ 64 := by
  have hcap := cap.toNat_lt
  have hsec : req.sector.toNat * 512 < 2 ^ 64 := by
    simp only [Inside, start] at h
    omega
  have hstart : (req.sector * 512).toNat = req.start := by
    rw [UInt64.toNat_mul, UInt64.toNat_ofNat, start]
    exact Nat.mod_eq_of_lt hsec
  refine ⟨hstart, ?_⟩
  rw [hstart]
  simp only [Inside] at h
  omega

/-- A buffer was refused. -/
def AnyFailed (good : ℕ → Bool) (bs : List Bytes) : Prop := ∃ i < bs.length, good i = false

/-- Every buffer was transferred whole. -/
def NoneShort (env : HostEnv) (bs : List Bytes) : Prop :=
  ∀ i, (hi : i < bs.length) → (env.io i).n = bs[i].length

theorem IsTransferBody.kept_iff {env : HostEnv} {req : BlkReq} {good : ℕ → Bool}
    {body : ℕ → UInt64 → Bytes → World → Flow} {cap : UInt64} (st : ℕ → UInt8)
    (h : IsTransferBody env req.type good body) (ht : req.type = .read ∨ req.type = .write)
    (hin : req.Inside cap) :
    ((run req st body).status = .ok → Transferred req st (run req st body)) ↔
      AnyFailed good req.buf ∨ NoneShort env req.buf := by
  obtain ⟨hstart, hfit⟩ := hin.fits
  have hok : (run req st body).status = .ok ↔ ∀ j < req.buf.length, good j = true := by
    simpa [run] using h.status_ok_iff req.buf 0 (req.sector * 512) ⟨st, []⟩
  have hshort : answered env 0 req.start req.buf = ranges req.start req.buf ↔
      NoneShort env req.buf := by
    simpa [NoneShort] using answered_eq_ranges_iff env req.buf 0 req.start
  by_cases hall : ∀ j < req.buf.length, good j = true
  · -- the answer is OK, so everything depends on how much the calls moved
    have hall0 : ∀ j < req.buf.length, good (0 + j) = true := by simpa using hall
    have hnf : ¬ AnyFailed good req.buf := by
      rintro ⟨i, hi, hbad⟩
      simp [hall i hi] at hbad
    have hmoves : (run req st body).world.moves = answered env 0 req.start req.buf := by
      have := h.moves_eq req.buf 0 (req.sector * 512) ⟨st, []⟩ hall0 hfit
      simpa [run, World.moves, hstart] using this
    simp only [hok.mpr hall, hnf, false_or, forall_const, ← hshort]
    constructor
    · intro htr
      rw [← hmoves, htr.moves]
    · intro hfull
      have hfull' : answered env 0 (req.sector * 512).toNat req.buf =
          ranges (req.sector * 512).toNat req.buf := by rw [hstart]; exact hfull
      obtain ⟨hbuf, hst⟩ := h.full req.buf 0 (req.sector * 512) ⟨st, []⟩ hall0 hfit hfull'
      rcases ht with ht | ht
      all_goals
        exact ⟨hmoves.trans hfull, by simpa [run, ht, hstart] using hbuf,
          by simpa [run, ht, hstart] using hst⟩
  · -- the loop stops at the failed call with an error
    have hfail : AnyFailed good req.buf := by
      simpa [AnyFailed] using hall
    exact iff_of_true (fun hs => absurd (hok.mp hs) hall) (.inl hfail)

/-! ### The handlers -/

/-- Some host call fails, or the backend refuses the request: GIO is read-only. -/
def Handler.Refused (env : HostEnv) (req : BlkReq) : Handler → Prop
  | .rawPosix | .rawWin => AnyFailed (fun i => (env.io i).ok) req.buf
  | .gio => req.type = .write ∨ AnyFailed (fun i => env.seek i && (env.io i).ok) req.buf
  | .qemu => env.accepts = false ∨ AnyFailed (fun i => (env.io i).ok) req.buf

open Handler

def Handler.asked : Handler → ℕ → ℕ
  | .rawWin, n => toDword n
  | .rawPosix, n | .gio, n | .qemu, n => n

/-- At most the bytes asked for are moved, and a successful call of QEMU's block layer moves all. -/
def Handler.Contract (env : HostEnv) (req : BlkReq) (h : Handler) : Prop :=
  ∀ i, (hi : i < req.buf.length) → (env.io i).n ≤ h.asked req.buf[i].length ∧
    (h = .qemu → (env.io i).ok = true → (env.io i).n = req.buf[i].length)

section Handlers

variable (env : HostEnv) (req : BlkReq) (st : ℕ → UInt8)

theorem isTransferBody_request (ht : req.type = .read ∨ req.type = .write) :
    IsTransferBody env req.type (fun i => (env.io i).ok) (rawPosixBody env req.type) ∧
      IsTransferBody env req.type (fun i => (env.io i).ok) (rawWinBody env req.type) ∧
      IsTransferBody env req.type (fun i => (env.io i).ok) (ioCoBody env req.type) := by
  rcases ht with ht | ht <;> rw [ht]
  · exact ⟨isTransferBody_readBody env length,
      isTransferBody_readBody env fun b => toDword b.length,
      isTransferBody_readBody env length⟩
  · exact ⟨isTransferBody_writeBody env length,
      isTransferBody_writeBody env fun b => toDword b.length,
      isTransferBody_writeBody env length⟩

/-- **Complete transfer.** A READ or WRITE request inside the disk is answered OK only after
every byte of every buffer was moved, exactly when the request is refused or one of its host
calls fails, or no host call is short. -/
theorem transferKept_iff (h : Handler) (cap : UInt64)
    (ht : req.type = .read ∨ req.type = .write) (hin : req.Inside cap) :
    ((h.request env req st).status = .ok → Transferred req st (h.request env req st)) ↔
      h.Refused env req ∨ NoneShort env req.buf := by
  obtain ⟨hposix, hwin, hqemu⟩ := isTransferBody_request env req ht
  cases h with
  | rawPosix => exact hposix.kept_iff st ht hin
  | rawWin => exact hwin.kept_iff st ht hin
  | gio =>
    rcases ht with ht | ht
    · have hb : IsTransferBody env req.type (fun i => env.seek i && (env.io i).ok)
          (gioBody env) := ht ▸ isTransferBody_gioBody env
      simpa [request, gioRequest, Refused, ht] using hb.kept_iff st (.inl ht) hin
    · simp [request, gioRequest, Refused, ht]
  | qemu =>
    cases ha : env.accepts with
    | false => simp [request, qemuRequest, Refused, ha]
    | true =>
      simpa [request, qemuRequest, Refused, ha] using hqemu.kept_iff st ht hin

end Handlers

def HostEnv.moving (n : ℕ) : HostEnv := ⟨fun _ => true, fun _ => ⟨true, n⟩, fun _ => true, true⟩

/-- A WRITE of two one-byte buffers to sector 0 of a one-sector disk, moved completely. -/
theorem transferKept_rawPosix_two_buffers :
    let req : BlkReq := ⟨.write, 0, [[7], [8]]⟩
    let r := rawPosix.request (.moving 1) req fun _ => 0
    req.Inside 512 ∧ r.status = .ok ∧ Transferred req (fun _ => 0) r := by
  intro req r
  have hin : req.Inside 512 := by simp [req, BlkReq.Inside, BlkReq.start]
  have hlen : NoneShort (.moving 1) req.buf := by
    intro i hi
    match i, hi with
    | 0, _ => rfl
    | 1, _ => rfl
  have hkept := (transferKept_iff (.moving 1) req (fun _ => 0) .rawPosix 512 (.inr rfl)
    hin).mpr (.inr hlen)
  exact ⟨hin, rfl, hkept rfl⟩

/-- A WRITE of two bytes of which `pwrite` moves one is answered OK. -/
theorem short_write_not_transferred :
    ¬ ∀ (h : Handler) (cap : UInt64) (env : HostEnv) (req : BlkReq) (st : ℕ → UInt8),
      req.type = .read ∨ req.type = .write → req.Inside cap → h.Contract env req →
      (h.request env req st).status = .ok → Transferred req st (h.request env req st) := by
  intro hall
  have htr := hall .rawPosix 512 (.moving 1) ⟨.write, 0, [[7, 8]]⟩ (fun _ => 0) (.inr rfl)
    (by simp [BlkReq.Inside, BlkReq.start])
    (fun i hi => by
      obtain rfl : i = 0 := by simpa using hi
      simp [HostEnv.moving, asked])
    rfl
  have hmoves := htr.moves
  simp [request, rawRequestPosix, run, forBuf, rawPosixBody, writeBody, Flow.ofAnswer,
    HostEnv.moving, World.writeFrom, World.log, World.moves, ranges, BlkReq.start] at hmoves

end Backend

end Anyfs
