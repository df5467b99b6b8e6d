import Anyfs.Core.UrlFs
import Anyfs.Lib.Rounds
import Mathlib.Data.Int.Init

/-!
# The loop of a remote read

`readLoop` counts the bytes of a round in natural numbers and stops when there is no progress. The
loop of `read` does neither: a chunk that ends before the position makes the step negative, one that
ends at the position makes it zero, and the chunk is in the cache from then on. What `readLoop`
returns, this loop returns too (`readLoop_rounds`), and if the server does not fail, that is the
part of the file that was asked for.
-/

namespace Anyfs

open List Rounds

/-- A call of `stream_ops.read`. The caller has room for the bytes it asks for. -/
structure UrlReadCall where
  position : ℕ
  length : ℕ
  offset : ℕ
  buffer : Bytes
  room : offset + length ≤ buffer.length

open UrlReadCall

/-- The variables of the loop in `read`. -/
structure UrlReadState where
  pos : ℤ
  copied : ℤ
  buffer : Bytes
  backend : UrlFsBackend

/-- How a read ends: it returns a count, a request fails, or `set` is out of the buffer. -/
inductive UrlReadEnd where
  | returned (copied : ℤ) (buffer : Bytes)
  | failed (e : UrlFsError)
  | rangeError

/-- `subarray` with bounds that are not negative. -/
def subarray (chunk : Bytes) (first last : ℕ) : Bytes := (chunk.take last).drop first

/-- `set` of a typed array. -/
def setBytes (buffer : Bytes) (target : ℤ) (data : Bytes) : Option Bytes :=
  if target < 0 ∨ buffer.length < target + data.length then none
  else some (buffer.take target.toNat ++ data ++ buffer.drop (target.toNat + data.length))

/-- One round of the loop of `read`, up to `stop`. -/
def readRound (server : Server) (offset stop : ℕ) (s : UrlReadState) :
    Except UrlReadEnd UrlReadState :=
  if s.pos < stop then
    let idx := s.pos.toNat / chunkSize
    match getChunk server s.backend idx with
    | (.error e, _) => .error (.failed e)
    | (.ok chunk, b) =>
      let inChunkOff := s.pos - idx * chunkSize
      let want : ℤ := min (stop - s.pos) (chunk.length - inChunkOff)
      let data := subarray chunk inChunkOff.toNat (inChunkOff + want).toNat
      match setBytes s.buffer (offset + s.copied) data with
      | none => .error .rangeError
      | some buffer => .ok ⟨s.pos + want, s.copied + want, buffer, b⟩
  else .error (.returned s.copied s.buffer)

def UrlReadCall.stop (c : UrlReadCall) (b : UrlFsBackend) : ℕ := min (c.position + c.length) b.size

def UrlReadCall.start (c : UrlReadCall) (b : UrlFsBackend) : UrlReadState :=
  ⟨c.position, 0, c.buffer, b⟩

/-- `stream_ops.read`, after a number of rounds. -/
def urlRead (server : Server) (b : UrlFsBackend) (c : UrlReadCall) (n : ℕ) :
    Except UrlReadEnd UrlReadState :=
  if b.size ≤ c.position then .error (.returned 0 c.buffer)
  else run (readRound server c.offset (c.stop b)) n (c.start b)

/-! ### Chunks that are too short -/

variable {server : Server} {offset stop : ℕ} {s s' : UrlReadState} {b b' : UrlFsBackend} {idx : ℕ}
  {chunk : Bytes}

theorem get_of_getChunk (h : getChunk server b idx = (.ok chunk, b')) :
    b'.cache.get idx = some chunk := by
  rcases getChunk_cases h with ⟨-, rfl⟩ | ⟨hmiss, -, hcache, -⟩
  · exact OrderedMap.get_set_self _ _ _
  · -- the oldest chunk goes, and this is the newest
    rw [hcache]
    dsimp only [cacheChunk]
    split_ifs with hfull
    · have hne := OrderedMap.oldest_set_ne (v := chunk) hmiss
        (Nat.lt_of_le_of_lt (by decide : 1 ≤ maxCachedChunks) hfull)
      cases hold : (b.cache.set idx chunk).oldest with
      | none => exact OrderedMap.get_set_self _ _ _
      | some k =>
        rw [OrderedMap.get_erase_of_ne fun h => hne (by rw [hold, h])]
        exact OrderedMap.get_set_self _ _ _
    · exact OrderedMap.get_set_self _ _ _

variable (server) in
theorem getChunk_of_get (h : b.cache.get idx = some chunk) :
    ∃ b', getChunk server b idx = (.ok chunk, b') ∧ b'.cache.get idx = some chunk := by
  rw [getChunk, h]
  exact ⟨_, rfl, OrderedMap.get_set_self _ _ _⟩

/-- The next chunk ends before the position. -/
def UrlReadState.Short (server : Server) (stop : ℕ) (s : UrlReadState) : Prop :=
  s.pos < stop ∧ ∃ chunk b, getChunk server s.backend (s.pos.toNat / chunkSize) = (.ok chunk, b) ∧
    chunk.length ≤ s.pos.toNat % chunkSize

/-! ### One round -/

def UrlReadState.want (s : UrlReadState) (stop : ℕ) (chunk : Bytes) : ℤ :=
  min (stop - s.pos) (chunk.length - (s.pos - (s.pos.toNat / chunkSize : ℕ) * chunkSize))

variable {buffer : Bytes}

theorem length_setBytes {buffer' data : Bytes} {target : ℤ}
    (h : setBytes buffer target data = some buffer') : buffer'.length = buffer.length := by
  rw [setBytes] at h
  split_ifs at h with hout
  cases h
  rw [length_append, length_append, length_take, length_drop]
  omega

theorem readRound_eq_ok (h : readRound server offset stop s = .ok s') :
    s.pos < stop ∧ ∃ chunk b,
      getChunk server s.backend (s.pos.toNat / chunkSize) = (.ok chunk, b) ∧
      s'.pos = s.pos + s.want stop chunk ∧ s'.copied = s.copied + s.want stop chunk ∧
      s'.buffer.length = s.buffer.length ∧ s'.backend = b := by
  rw [readRound] at h
  split_ifs at h with hpos
  refine ⟨hpos, ?_⟩
  dsimp only at h
  rcases hget : getChunk server s.backend (s.pos.toNat / chunkSize) with ⟨_ | chunk, b⟩
  · rw [hget] at h
    cases h
  · rw [hget] at h
    dsimp only at h
    split at h
    · cases h
    · rename_i buffer hset
      obtain rfl := Except.ok.inj h
      exact ⟨chunk, b, rfl, rfl, rfl, length_setBytes hset, rfl⟩

theorem readRound_eq_returned {k : ℤ}
    (h : readRound server offset stop s = .error (.returned k buffer)) :
    ¬ s.pos < stop ∧ k = s.copied := by
  rw [readRound] at h
  split_ifs at h with hpos
  · dsimp only at h
    split at h
    · cases h
    · split at h <;> cases h
  · cases h
    exact ⟨hpos, rfl⟩

theorem setBytes_nil {target : ℤ} (h : 0 ≤ target) (hle : target ≤ buffer.length) :
    setBytes buffer target [] = some buffer := by
  rw [setBytes, if_neg]
  · simp
  · rw [length_nil]
    omega

theorem pos_mod {pos : ℤ} (h : 0 ≤ pos) :
    pos - (pos.toNat / chunkSize : ℕ) * chunkSize = (pos.toNat % chunkSize : ℕ) := by
  have := Nat.div_add_mod' pos.toNat chunkSize
  omega

theorem readRound_of_set (hnonneg : 0 ≤ s.pos) (hpos : s.pos < stop)
    (hget : getChunk server s.backend (s.pos.toNat / chunkSize) = (.ok chunk, b))
    (hset : setBytes s.buffer (offset + s.copied) (subarray chunk (s.pos.toNat % chunkSize)
      ((s.pos.toNat % chunkSize : ℕ) + s.want stop chunk).toNat) = some buffer) :
    readRound server offset stop s =
      .ok ⟨s.pos + s.want stop chunk, s.copied + s.want stop chunk, buffer, b⟩ := by
  have hmod : s.pos - _ = _ := pos_mod hnonneg
  rw [UrlReadState.want, hmod] at hset ⊢
  rw [readRound, if_pos hpos]
  dsimp only
  rw [hget]
  dsimp only
  rw [hmod, Int.toNat_natCast, hset]

/-! ### Reads that get on -/

/-- What the loop keeps. -/
structure UrlReadCall.Running (c : UrlReadCall) (stop : ℕ) (s : UrlReadState) : Prop where
  position_le : c.position ≤ s.pos
  pos_le : s.pos ≤ stop
  copied : s.copied = s.pos - c.position
  room : s.buffer.length = c.buffer.length

variable {c : UrlReadCall}

section

variable (h : c.Running stop s)
include h

theorem UrlReadCall.Running.want_pos (hpos : s.pos < stop)
    (hlong : s.pos.toNat % chunkSize < chunk.length) : 0 < s.want stop chunk := by
  have hle := h.position_le
  have hmod : s.pos - _ = _ := pos_mod (by omega)
  rw [UrlReadState.want, hmod]
  omega

theorem UrlReadCall.Running.of_le (hround : readRound server offset stop s = .ok s')
    (hle : s.pos ≤ s'.pos) : c.Running stop s' := by
  obtain ⟨-, chunk, b, -, hpos, hcopied, hroom, -⟩ := readRound_eq_ok hround
  have hwant : s.want stop chunk ≤ stop - s.pos := Int.min_le_left _ _
  obtain ⟨hposition, -, hcount, hlen⟩ := h
  exact ⟨by omega, by omega, by omega, by omega⟩

theorem UrlReadCall.Running.lt_of_round (hshort : ¬ s.Short server stop)
    (hround : readRound server offset stop s = .ok s') : s.pos < s'.pos := by
  obtain ⟨hlt, chunk, b, hget, hpos, -⟩ := readRound_eq_ok hround
  have hlong : s.pos.toNat % chunkSize < chunk.length := by
    by_contra hle
    exact hshort ⟨hlt, chunk, b, hget, Nat.not_lt.mp hle⟩
  have hwant := h.want_pos hlt hlong
  omega

theorem UrlReadCall.running_of_run
    (hshort : ∀ n t, run (readRound server offset stop) n s = .ok t → ¬ t.Short server stop)
    {n : ℕ} (hrun : run (readRound server offset stop) n s = .ok s') : c.Running stop s' :=
  run_invariant h (fun k t _ hk ht hround =>
    ht.of_le hround (Int.le_of_lt (ht.lt_of_round (hshort k t hk) hround))) hrun

theorem UrlReadCall.Running.ends
    (hshort : ∀ n t, run (readRound server offset stop) n s = .ok t → ¬ t.Short server stop) :
    Ends (readRound server offset stop) s := by
  refine Ends.of_measure (fun t => (stop - t.pos).toNat) fun k t t' hk ht => ?_
  have hrunning := running_of_run h hshort hk
  have hlt := hrunning.lt_of_round (hshort k t hk) ht
  have hle := (hrunning.of_le ht (Int.le_of_lt hlt)).pos_le
  omega

end

/-! ### Reads that do not -/

/-- A state that a round does not change, because the chunk in the cache ends at the position. -/
structure UrlReadCall.Stuck (c : UrlReadCall) (stop : ℕ) (s : UrlReadState) : Prop where
  running : c.Running stop s
  lt : s.pos < stop
  short : ∃ chunk, s.backend.cache.get (s.pos.toNat / chunkSize) = some chunk ∧
    chunk.length = s.pos.toNat % chunkSize

theorem readRound_of_short (h : c.Running stop s) (hstop : stop ≤ c.position + c.length)
    (hpos : s.pos < stop)
    (hget : getChunk server s.backend (s.pos.toNat / chunkSize) = (.ok chunk, b))
    (hshort : chunk.length ≤ s.pos.toNat % chunkSize) :
    readRound server c.offset stop s =
      .ok ⟨s.pos + s.want stop chunk, s.copied + s.want stop chunk, s.buffer, b⟩ := by
  obtain ⟨hle, -, hcopied, hroom⟩ := h
  have hcroom := c.room
  have hdata : ∀ last, subarray chunk (s.pos.toNat % chunkSize) last = [] := by
    intro last
    rw [subarray]
    exact drop_eq_nil_of_le (Nat.le_trans (length_take_le' _ _) hshort)
  refine readRound_of_set (by omega) hpos hget ?_
  rw [hdata]
  exact setBytes_nil (by omega) (by omega)

theorem UrlReadCall.Stuck.round (h : c.Stuck stop s) (hstop : stop ≤ c.position + c.length) :
    ∃ s', readRound server c.offset stop s = .ok s' ∧ c.Stuck stop s' := by
  obtain ⟨chunk, hcache, hlen⟩ := h.short
  obtain ⟨b, hget, hcache'⟩ := getChunk_of_get server hcache
  have hle := h.running.position_le
  have hlt := h.lt
  have hmod : s.pos - _ = _ := pos_mod (by omega)
  have hwant : s.want stop chunk = 0 := by
    rw [UrlReadState.want, hmod]
    omega
  refine ⟨_, readRound_of_short h.running hstop h.lt hget (Nat.le_of_eq hlen), ?_⟩
  rw [hwant, Int.add_zero, Int.add_zero]
  exact ⟨⟨h.running.position_le, h.running.pos_le, h.running.copied, h.running.room⟩, h.lt,
    chunk, hcache', hlen⟩

theorem UrlReadCall.Running.stuck (h : c.Running stop s) (hstop : stop ≤ c.position + c.length)
    (hshort : s.Short server stop)
    (hforward : ∀ s', readRound server c.offset stop s = .ok s' → s.pos ≤ s'.pos) :
    ∃ s', readRound server c.offset stop s = .ok s' ∧ c.Stuck stop s' := by
  obtain ⟨hlt, chunk, b, hget, hle⟩ := hshort
  have hround := readRound_of_short h hstop hlt hget hle
  have hpos : s.pos ≤ s.pos + s.want stop chunk := hforward _ hround
  have hrunning := h.of_le hround hpos
  have hposition := h.position_le
  have hmod : s.pos - _ = _ := pos_mod (by omega)
  have hwant : s.want stop chunk = 0 := by
    rw [UrlReadState.want, hmod] at hpos ⊢
    omega
  have hlen : chunk.length = s.pos.toNat % chunkSize := by
    rw [UrlReadState.want, hmod] at hwant
    omega
  rw [hwant, Int.add_zero, Int.add_zero] at hround hrunning
  exact ⟨_, hround, hrunning, hlt, chunk, get_of_getChunk hget, hlen⟩

/-! ### When a read ends -/

/-- A read ends after some rounds, returns a count that was asked for, and never goes back. -/
structure UrlReadEnds (server : Server) (b : UrlFsBackend) (c : UrlReadCall) : Prop where
  ends : ∃ n e, urlRead server b c n = .error e
  count : ∀ n k buffer, urlRead server b c n = .error (.returned k buffer) → 0 ≤ k ∧ k ≤ c.length
  forward : ∀ n s s', urlRead server b c n = .ok s → urlRead server b c (n + 1) = .ok s' →
    s.pos ≤ s'.pos

theorem UrlReadCall.running_start (h : ¬ b.size ≤ c.position) :
    c.Running (c.stop b) (c.start b) := by
  refine ⟨Int.le_refl _, ?_, (Int.sub_self _).symm, rfl⟩
  rw [start, stop]
  dsimp only
  omega

/-- A chunk that has all the bytes of the file it stands for. -/
def Covers (size : ℕ) (e : ℕ × Bytes) : Prop := min chunkSize (size - e.1 * chunkSize) ≤ e.2.length

/-- All chunks are complete: those in the cache, and those the server sends. -/
structure UrlFsBackend.Whole (server : Server) (b : UrlFsBackend) : Prop where
  cached : ∀ e ∈ b.cache.entries, Covers b.size e
  sent : ∀ cache n idx buf, (fetchChunk server ⟨b.size, cache, n⟩ idx).1 = .ok buf →
    Covers b.size (idx, buf)

theorem UrlFsBackend.Whole.getChunk (h : b.Whole server)
    (hget : getChunk server b idx = (.ok chunk, b')) :
    Covers b.size (idx, chunk) ∧ b'.Whole server ∧ b'.size = b.size := by
  obtain ⟨hchunk, hcached, hsize⟩ :=
    forall_mem_getChunk h.cached (fun buf hbuf => h.sent b.cache b.sent idx buf hbuf) hget
  exact ⟨hchunk, ⟨hsize.symm ▸ hcached, hsize.symm ▸ h.sent⟩, hsize⟩

theorem UrlFsBackend.Whole.not_short (h : s.backend.Whole server) (hnonneg : 0 ≤ s.pos)
    (hstop : stop ≤ s.backend.size) : ¬ s.Short server stop := by
  rintro ⟨hlt, chunk, b, hget, hshort⟩
  have hcovers : min chunkSize (s.backend.size - s.pos.toNat / chunkSize * chunkSize) ≤
      chunk.length := (h.getChunk hget).1
  have hmod := Nat.div_add_mod' s.pos.toNat chunkSize
  have hlt' := Nat.mod_lt s.pos.toNat chunkSize_pos
  omega

theorem UrlReadCall.not_short_of_whole (h : b.Whole server) (hsize : ¬ b.size ≤ c.position) {n : ℕ}
    (hrun : run (readRound server c.offset (c.stop b)) n (c.start b) = .ok s) :
    ¬ s.Short server (c.stop b) := by
  have hstop : c.stop b ≤ b.size := Nat.min_le_right _ _
  obtain ⟨hrunning, hwhole, hsame⟩ : c.Running (c.stop b) s ∧ s.backend.Whole server ∧
      s.backend.size = b.size := by
    refine run_invariant (P := fun t => c.Running (c.stop b) t ∧ t.backend.Whole server ∧
      t.backend.size = b.size) ⟨running_start hsize, h, rfl⟩ (fun k t t' _ ht hround => ?_) hrun
    obtain ⟨ht, hwhole, hsame⟩ := ht
    have hnonneg : 0 ≤ t.pos := Int.le_trans (Int.natCast_nonneg _) ht.position_le
    have hlt := ht.lt_of_round (hwhole.not_short hnonneg (hsame ▸ hstop)) hround
    obtain ⟨-, chunk, b', hget, -, -, -, rfl⟩ := readRound_eq_ok hround
    obtain ⟨-, hwhole', hsame'⟩ := hwhole.getChunk hget
    exact ⟨ht.of_le hround (Int.le_of_lt hlt), hwhole', hsame'.trans hsame⟩
  exact hwhole.not_short (Int.le_trans (Int.natCast_nonneg _) hrunning.position_le) (hsame ▸ hstop)

theorem urlReadEnds_iff (server : Server) (b : UrlFsBackend) (c : UrlReadCall) :
    UrlReadEnds server b c ↔
      ∀ n s, urlRead server b c n = .ok s → ¬ s.Short server (c.stop b) := by
  have hstop : c.stop b ≤ c.position + c.length := Nat.min_le_left _ _
  by_cases hsize : b.size ≤ c.position
  · have hread : ∀ n, urlRead server b c n = .error (.returned 0 c.buffer) :=
      fun n => if_pos hsize
    refine ⟨fun _ n s hs => ?_, fun _ => ⟨⟨0, _, hread 0⟩, fun n k buffer h => ?_,
      fun n s s' h => ?_⟩⟩
    · rw [hread] at hs
      cases hs
    · rw [hread] at h
      cases h
      exact ⟨Int.le_refl _, Int.natCast_nonneg _⟩
    · rw [hread] at h
      cases h
  have hread : ∀ n, urlRead server b c n =
      run (readRound server c.offset (c.stop b)) n (c.start b) := fun n => if_neg hsize
  have hstart := running_start hsize
  constructor
  · rintro ⟨hends, -, hforward⟩ n s hs hshort
    have hstep : ∀ k t t', run (readRound server c.offset (c.stop b)) k (c.start b) = .ok t →
        readRound server c.offset (c.stop b) t = .ok t' → t.pos ≤ t'.pos := by
      intro k t t' hk ht
      refine hforward k t t' ((hread k).trans hk) ?_
      rw [hread, run_add hk 1, run_one, ht]
    rw [hread] at hs
    have hrunning : c.Running (c.stop b) s :=
      run_invariant hstart
        (fun k t t' hk ht hround => ht.of_le hround (hstep k t t' hk hround)) hs
    obtain ⟨s', hround, hstuck⟩ := hrunning.stuck hstop hshort fun s' => hstep n s s' hs
    have hrun : run (readRound server c.offset (c.stop b)) (n + 1) (c.start b) = .ok s' := by
      rw [run_add hs 1, run_one, hround]
    obtain ⟨m, e, hm⟩ := hends
    exact not_ends_of_forever (fun t ht => ht.round hstop) hrun hstuck
      ⟨m, e, (hread m).symm.trans hm⟩
  · intro hlong
    simp only [hread] at hlong
    refine ⟨?_, fun n k buffer h => ?_, fun n s s' h h' => ?_⟩
    · obtain ⟨n, e, hn⟩ := hstart.ends hlong
      exact ⟨n, e, (hread n).trans hn⟩
    · rw [hread] at h
      obtain ⟨m, s, hs, hlast⟩ := exists_of_run_error h
      have hrunning := running_of_run hstart hlong hs
      obtain ⟨-, rfl⟩ := readRound_eq_returned hlast
      obtain ⟨hposition, hpos, hcopied, -⟩ := hrunning
      omega
    · rw [hread] at h h'
      rw [run_add h 1] at h'
      have hround := run_one.mp h'
      have hrunning := running_of_run hstart hlong h
      exact Int.le_of_lt (hrunning.lt_of_round (hlong n s h) hround)

/-- **A remote read ends unless a chunk is too short.** Whatever the server sends and whatever the
cache holds, a read throws or returns a count between zero and the length it was called with, and
its position never goes back, exactly when every chunk it takes reaches beyond the position it is
taken for. That is so when all chunks of the cache and of the server are complete. -/
theorem urlRead_ends_iff (server : Server) (b : UrlFsBackend) (c : UrlReadCall) :
    (UrlReadEnds server b c ↔
      ∀ n s, urlRead server b c n = .ok s → ¬ s.Short server (c.stop b)) ∧
    (b.Whole server → UrlReadEnds server b c) := by
  refine ⟨urlReadEnds_iff server b c, fun h => (urlReadEnds_iff server b c).mpr fun n s hs => ?_⟩
  rw [urlRead] at hs
  split_ifs at hs with hsize
  exact not_short_of_whole h hsize hs

def Server.empty : Server := fun _ _ _ => ⟨206, []⟩

def UrlReadCall.firstByte : UrlReadCall := ⟨0, 1, 0, [0], by decide⟩

/-- A server that sends nothing for the only byte of a file: the read does not end. -/
theorem urlRead_forever : ¬ ∃ n e, urlRead .empty (.mount 1) .firstByte n = .error e := by
  have hstop : 1 ≤ firstByte.position + firstByte.length := by decide
  -- after the first round the empty chunk is in the cache
  have hround : readRound .empty 0 1 (firstByte.start (.mount 1)) =
      .ok ⟨0, 0, [0], (getChunk .empty (.mount 1) 0).2⟩ := rfl
  have hstuck : firstByte.Stuck 1 ⟨0, 0, [0], (getChunk .empty (.mount 1) 0).2⟩ :=
    ⟨⟨by decide, by decide, by decide, rfl⟩, by decide, [], rfl, rfl⟩
  exact not_ends_of_forever (fun t ht => ht.round hstop) (run_one.mpr hround) hstuck

/-! ### The loop that counts its rounds -/

theorem readLoop_of_short (n : ℕ) {pos : ℕ} {bytes : Bytes} (hpos : pos < stop)
    (hcache : b.cache.get (pos / chunkSize) = some chunk)
    (hshort : chunk.length ≤ pos % chunkSize) : (readLoop server n pos stop b).1 ≠ .ok bytes := by
  induction n generalizing b bytes with
  | zero =>
    rw [readLoop, if_pos hpos]
    rintro ⟨⟩
  | succ n ih =>
    obtain ⟨b', hget, hcache'⟩ := getChunk_of_get server hcache
    have hmod := Nat.div_add_mod' pos chunkSize
    have hwant : min (stop - pos) (chunk.length - (pos - pos / chunkSize * chunkSize)) = 0 := by
      omega
    rw [readLoop, if_pos hpos]
    dsimp only
    rw [hget]
    dsimp only
    rw [hwant, Nat.add_zero]
    cases hrest : (readLoop server n pos stop b').1 with
    | error e => rintro ⟨⟩
    | ok rest => exact absurd hrest (ih hcache')

theorem setBytes_append {buffer₁ buffer₂ : Bytes} {target : ℕ} {xs ys : Bytes}
    (h₁ : setBytes buffer target xs = some buffer₁)
    (h₂ : setBytes buffer₁ (target + xs.length : ℕ) ys = some buffer₂) :
    setBytes buffer target (xs ++ ys) = some buffer₂ := by
  have hlen := length_setBytes h₁
  rw [setBytes] at h₁ h₂ ⊢
  split_ifs at h₁ h₂ with hroom₁ hroom₂
  cases h₁
  rw [if_neg (by rw [length_append]; omega), ← h₂, Int.toNat_natCast, Int.toNat_natCast]
  have hfirst : (buffer.take target ++ xs).length = target + xs.length := by
    rw [length_append, length_take]
    omega
  rw [take_left' hfirst, ← hfirst, drop_length_add_append, drop_drop, hfirst,
    length_append, Nat.add_assoc, ← append_assoc (buffer.take target)]

theorem readRound_eq {pos copied want : ℕ} (hs : s.pos = pos)
    (hcopied : s.copied = copied) (hpos : pos < stop)
    (hget : getChunk server s.backend (pos / chunkSize) = (.ok chunk, b))
    (hlong : pos % chunkSize < chunk.length)
    (hwant : min (stop - pos) (chunk.length - (pos - pos / chunkSize * chunkSize)) = want)
    (hset : setBytes s.buffer (offset + copied : ℕ)
      ((chunk.drop (pos - pos / chunkSize * chunkSize)).take want) = some buffer) :
    readRound server offset stop s = .ok ⟨(pos + want : ℕ), (copied + want : ℕ), buffer, b⟩ := by
  have hmod := Nat.div_add_mod' pos chunkSize
  have hoff : pos - pos / chunkSize * chunkSize = pos % chunkSize := by omega
  have htoNat : s.pos.toNat = pos := by rw [hs, Int.toNat_natCast]
  have hstep : s.want stop chunk = want := by
    have hmod' : s.pos - _ = _ := pos_mod (by omega)
    rw [UrlReadState.want, hmod', htoNat, hs]
    omega
  have hset' : setBytes s.buffer (offset + s.copied) (subarray chunk (s.pos.toNat % chunkSize)
      ((s.pos.toNat % chunkSize : ℕ) + s.want stop chunk).toNat) = some buffer := by
    rw [hstep, htoNat, hcopied, ← Int.natCast_add, ← Int.natCast_add, Int.toNat_natCast, subarray,
      drop_take, Nat.add_sub_cancel_left, ← hoff, hset]
  rw [readRound_of_set (by omega) (by omega) (htoNat.symm ▸ hget) hset', hstep, hs, hcopied,
    ← Int.natCast_add, ← Int.natCast_add]

theorem run_of_end {pos copied : ℕ} (hpos : ¬ pos < stop)
    (hroom : offset + copied ≤ buffer.length) :
    run (readRound server offset stop) 1 ⟨pos, copied, buffer, b⟩ =
        .error (.returned (copied + ([] : Bytes).length : ℕ) buffer) ∧
      setBytes buffer (offset + copied : ℕ) [] = some buffer := by
  have hround : readRound server offset stop ⟨pos, copied, buffer, b⟩ =
      .error (.returned copied buffer) := if_neg fun h => hpos (Int.ofNat_lt.mp h)
  exact ⟨run_succ_of_error hround 0, setBytes_nil (by omega) (by omega)⟩

theorem readLoop_rounds (n : ℕ) {pos copied : ℕ} {bytes : Bytes}
    (hloop : (readLoop server n pos stop b).1 = .ok bytes)
    (hroom : offset + copied + (stop - pos) ≤ buffer.length) :
    ∃ m buffer', run (readRound server offset stop) m ⟨pos, copied, buffer, b⟩ =
        .error (.returned (copied + bytes.length : ℕ) buffer') ∧
      setBytes buffer (offset + copied : ℕ) bytes = some buffer' := by
  induction n generalizing pos copied buffer bytes b with
  | zero =>
    rw [readLoop] at hloop
    split_ifs at hloop with hpos
    obtain rfl := Except.ok.inj hloop
    exact ⟨1, buffer, run_of_end hpos (by omega)⟩
  | succ n ih =>
    rw [readLoop] at hloop
    split_ifs at hloop with hpos
    · dsimp only at hloop
      rcases hget : getChunk server b (pos / chunkSize) with ⟨e | chunk, b'⟩
      · rw [hget] at hloop
        cases hloop
      rw [hget] at hloop
      dsimp only at hloop
      generalize hwant : min (stop - pos) (chunk.length - (pos - pos / chunkSize * chunkSize)) =
        want at hloop
      have hmod := Nat.div_add_mod' pos chunkSize
      cases hrest : (readLoop server n (pos + want) stop b').1 with
      | error e =>
        rw [hrest] at hloop
        cases hloop
      | ok rest =>
        rw [hrest] at hloop
        obtain rfl := Except.ok.inj hloop
        -- a chunk that is too short is never left behind
        have hlong : pos % chunkSize < chunk.length := by
          by_contra hshort
          have hzero : want = 0 := by omega
          rw [hzero, Nat.add_zero] at hrest
          exact readLoop_of_short n hpos (get_of_getChunk hget) (Nat.not_lt.mp hshort) hrest
        generalize hdata : (chunk.drop (pos - pos / chunkSize * chunkSize)).take want = data
        have hlen : data.length = want := by
          rw [← hdata, length_take, length_drop]
          omega
        obtain ⟨buffer₁, hset⟩ : ∃ buffer₁,
            setBytes buffer (offset + copied : ℕ) data = some buffer₁ := ⟨_, if_neg (by omega)⟩
        have hround : readRound server offset stop ⟨pos, copied, buffer, b⟩ =
            .ok ⟨(pos + want : ℕ), (copied + want : ℕ), buffer₁, b'⟩ :=
          readRound_eq rfl rfl hpos hget hlong hwant (hdata.symm ▸ hset)
        have hrest' : offset + (copied + want) + (stop - (pos + want)) ≤ buffer₁.length := by
          rw [length_setBytes hset]
          omega
        obtain ⟨m, buffer', hrun, hset'⟩ := ih hrest hrest'
        rw [← Nat.add_assoc, ← hlen] at hset'
        refine ⟨m + 1, buffer', ?_, setBytes_append hset hset'⟩
        rw [run_succ_of_ok hround, hrun, length_append, hlen, Nat.add_assoc]
    · obtain rfl := Except.ok.inj hloop
      exact ⟨1, buffer, run_of_end hpos (by omega)⟩

/-- The backends that calls of `read` leave behind, after any number of their rounds. -/
inductive UrlFsBackend.After (server : Server) (b₀ : UrlFsBackend) : UrlFsBackend → Prop
  | mount : After server b₀ b₀
  | read {b : UrlFsBackend} (c : UrlReadCall) (n : ℕ) {s : UrlReadState} : After server b₀ b →
      urlRead server b c n = .ok s → After server b₀ s.backend

theorem UrlFsBackend.After.caches {content : Bytes} (hserver : server.Serves content)
    (h : After server (.mount content.length) b) : b.Caches content := by
  induction h with
  | mount => exact caches_mount content
  | @read b c n s _ hread ih =>
    rw [urlRead] at hread
    split_ifs at hread with hsize
    refine run_invariant (P := fun t => t.backend.Caches content) ih
      (fun k t t' _ ht hround => ?_) hread
    obtain ⟨hlt, chunk, b', hget, -, -, -, rfl⟩ := readRound_eq_ok hround
    have hstop : c.stop b ≤ content.length := ih.size ▸ Nat.min_le_right _ _
    have hle : t.pos.toNat / chunkSize * chunkSize ≤ t.pos.toNat := Nat.div_mul_le_self _ _
    have hlen := ih.size
    have hspec := getChunk_spec hserver ht
      (show t.pos.toNat / chunkSize * chunkSize < content.length by omega)
    rw [hget] at hspec
    exact hspec.2

/-- **The loop reads the file.** After any reads, the loop as it is written ends, returns the number
of bytes the file has left for it, puts them where it was told to and leaves the rest of the buffer
alone. -/
theorem urlRead_reads_file {content : Bytes} (hserver : server.Serves content)
    (hb : UrlFsBackend.After server (.mount content.length) b) (c : UrlReadCall) :
    ∃ n buffer',
      urlRead server b c n =
        .error (.returned ((content.drop c.position).take c.length).length buffer') ∧
      setBytes c.buffer c.offset ((content.drop c.position).take c.length) = some buffer' := by
  have hcaches := hb.caches hserver
  have hroom := c.room
  by_cases hend : b.size ≤ c.position
  · rw [drop_eq_nil_of_le (hcaches.size ▸ hend), take_nil]
    exact ⟨0, c.buffer, if_pos hend, setBytes_nil (by omega) (by omega)⟩
  · have hstop : c.stop b = min (c.position + c.length) content.length := by
      rw [stop, hcaches.size]
    have hbytes : (content.drop c.position).take (c.stop b - c.position) =
        (content.drop c.position).take c.length := by
      rw [hstop, take_eq_take_iff, length_drop]
      omega
    have hloop : (readLoop server (c.stop b - c.position) c.position (c.stop b) b).1 =
        .ok ((content.drop c.position).take c.length) := by
      rw [readLoop_spec hserver _ (Nat.le_refl _) (by omega) hcaches, hbytes]
    obtain ⟨m, buffer', hrun, hset⟩ :
        ∃ m buffer', run (readRound server c.offset (c.stop b)) m (c.start b) =
            .error (.returned (0 + ((content.drop c.position).take c.length).length : ℕ) buffer') ∧
          setBytes c.buffer (c.offset + 0 : ℕ) ((content.drop c.position).take c.length) =
            some buffer' :=
      readLoop_rounds _ hloop (by
        rw [Nat.add_zero]
        omega)
    rw [Nat.zero_add] at hrun
    exact ⟨m, buffer', (if_neg hend).trans hrun, hset⟩

/-- Two bytes are left of a file of three, of which another read took the first two. -/
theorem urlRead_reads_file_fickle :
    ∃ s n, urlRead (.fickle [7, 8, 9]) (.mount 3) ⟨0, 2, 0, [0, 0], by decide⟩ 1 = .ok s ∧
      urlRead (.fickle [7, 8, 9]) s.backend ⟨1, 4, 0, [0, 0, 0, 0], by decide⟩ n =
        .error (.returned 2 [8, 9, 0, 0]) := by
  have hread : urlRead (.fickle [7, 8, 9]) (.mount 3) ⟨0, 2, 0, [0, 0], by decide⟩ 1 = .ok _ := rfl
  obtain ⟨n, buffer', hrun, hset⟩ := urlRead_reads_file (Server.serves_fickle _)
    (.read _ 1 .mount hread) ⟨1, 4, 0, [0, 0, 0, 0], by decide⟩
  cases hset
  exact ⟨_, n, hread, hrun⟩

end Anyfs
