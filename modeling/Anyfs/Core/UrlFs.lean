import Anyfs.Lib.Bytes
import Anyfs.Lib.OrderedMap

/-!
# Reading a remote file

`url-fs.ts` reads a remote file through range requests, chunk by chunk, and keeps the chunks it used
last. The server is a function of the number of requests so far.
-/

namespace Anyfs

open List OrderedMap

def chunkSize : ℕ := 512 * 1024

def maxCachedChunks : ℕ := 32

theorem chunkSize_pos : 0 < chunkSize := by decide

/-- An answer of the server. -/
structure Response where
  status : ℕ
  body : Bytes

/-- The answer to the request for the bytes from `start` to `last`, after `sent` requests. -/
abbrev Server := (sent start last : ℕ) → Response

/-- `UrlFsBackend`, with the number of requests sent so far. -/
structure UrlFsBackend where
  size : ℕ
  cache : OrderedMap ℕ Bytes
  sent : ℕ

/-- The backend `mount` creates for a file of a given size. -/
def UrlFsBackend.mount (size : ℕ) : UrlFsBackend := ⟨size, .empty, 0⟩

/-- Why a read does not return: an error of the server, or too little for the loop to get on. -/
inductive UrlFsError where
  | http (start last status : ℕ)
  | noProgress
  deriving DecidableEq

section Read

variable (server : Server)

/-- `fetchChunk`. A server that ignores ranges sends the whole file. -/
def fetchChunk (b : UrlFsBackend) (idx : ℕ) : Except UrlFsError Bytes × UrlFsBackend :=
  let start := idx * chunkSize
  let last := min (start + chunkSize) b.size - 1
  let xhr := server b.sent start last
  let b := { b with sent := b.sent + 1 }
  if xhr.status ≠ 206 ∧ xhr.status ≠ 200 then (.error (.http start last xhr.status), b)
  else if xhr.status = 200 ∧ last - start + 1 < xhr.body.length then
    (.ok ((xhr.body.take (last + 1)).drop start), b)
  else (.ok xhr.body, b)

/-- A chunk is cached, and the oldest dropped. -/
def cacheChunk (cache : OrderedMap ℕ Bytes) (idx : ℕ) (buf : Bytes) : OrderedMap ℕ Bytes :=
  let cache := cache.set idx buf
  if maxCachedChunks < cache.size then
    match cache.oldest with
    | some k => cache.erase k
    | none => cache
  else cache

/-- `getChunk`: a hit goes to the end of the cache, a miss is fetched. -/
def getChunk (b : UrlFsBackend) (idx : ℕ) : Except UrlFsError Bytes × UrlFsBackend :=
  match b.cache.get idx with
  | some hit => (.ok hit, { b with cache := (b.cache.erase idx).set idx hit })
  | none =>
    let r := fetchChunk server b idx
    match r.1 with
    | .error e => (.error e, r.2)
    | .ok buf => (.ok buf, { r.2 with cache := cacheChunk r.2.cache idx buf })

/-- The loop of `read` from `pos` up to `stop`, for a number of rounds. -/
def readLoop : ℕ → ℕ → ℕ → UrlFsBackend → Except UrlFsError Bytes × UrlFsBackend
  | 0, pos, stop, b => (if pos < stop then .error .noProgress else .ok [], b)
  | n + 1, pos, stop, b =>
    if pos < stop then
      let idx := pos / chunkSize
      let r := getChunk server b idx
      match r.1 with
      | .error e => (.error e, r.2)
      | .ok chunk =>
        let inChunkOff := pos - idx * chunkSize
        let want := min (stop - pos) (chunk.length - inChunkOff)
        let rest := readLoop n (pos + want) stop r.2
        (rest.1.map (((chunk.drop inChunkOff).take want) ++ ·), rest.2)
    else (.ok [], b)

/-- `stream_ops.read`: the bytes written to the buffer. Every round copies at least one byte. -/
def urlFsRead (b : UrlFsBackend) (position length : ℕ) : Except UrlFsError Bytes × UrlFsBackend :=
  if b.size ≤ position then (.ok [], b)
  else
    let stop := min (position + length) b.size
    readLoop server (stop - position) position stop b

def runReads : List (ℕ × ℕ) → UrlFsBackend → List (Except UrlFsError Bytes) × UrlFsBackend
  | [], b => ([], b)
  | (position, length) :: reads, b =>
    let r := urlFsRead server b position length
    let rest := runReads reads r.2
    (r.1 :: rest.1, rest.2)

end Read

/-! ### The file behind the cache -/

/-- The server answers every request for bytes of the file with these bytes, or with the whole
file. -/
def Server.Serves (server : Server) (content : Bytes) : Prop :=
  ∀ sent start last, start ≤ last → last < content.length →
    server sent start last = ⟨206, (content.take (last + 1)).drop start⟩ ∨
      server sent start last = ⟨200, content⟩

def fileChunk (content : Bytes) (idx : ℕ) : Bytes := (content.drop (idx * chunkSize)).take chunkSize

/-- The backend of a file: what it caches are chunks of the file, and not too many. -/
structure UrlFsBackend.Caches (content : Bytes) (b : UrlFsBackend) : Prop where
  size : b.size = content.length
  chunk : ∀ e ∈ b.cache.entries, e.2 = fileChunk content e.1
  bound : b.cache.size ≤ maxCachedChunks

section Cache

variable {server : Server} {content : Bytes} {b : UrlFsBackend} {idx : ℕ}

theorem UrlFsBackend.caches_mount (content : Bytes) :
    (UrlFsBackend.mount content.length).Caches content :=
  ⟨rfl, by simp [mount, empty], Nat.zero_le _⟩

theorem fileChunk_eq (h : idx * chunkSize < content.length) :
    (content.take (min (idx * chunkSize + chunkSize) content.length - 1 + 1)).drop
      (idx * chunkSize) = fileChunk content idx := by
  have hpos := chunkSize_pos
  have hlen : (content.drop (idx * chunkSize)).length = content.length - idx * chunkSize :=
    length_drop
  rw [Nat.sub_add_cancel (by omega), fileChunk, drop_take,
    take_eq_take_min (l := content.drop _) (i := chunkSize), hlen]
  congr 1
  omega

theorem fetchChunk_eq (hserver : server.Serves content) (hsize : b.size = content.length)
    (h : idx * chunkSize < content.length) :
    fetchChunk server b idx = (.ok (fileChunk content idx), { b with sent := b.sent + 1 }) := by
  have hpos := chunkSize_pos
  have hchunk := fileChunk_eq h
  rw [fetchChunk, hsize]
  generalize hlast : min (idx * chunkSize + chunkSize) content.length - 1 = last at hchunk ⊢
  rcases hserver b.sent (idx * chunkSize) last (by omega) (by omega) with hxhr | hxhr
  · rw [hxhr]
    simp [hchunk]
  · rw [hxhr]
    by_cases hlong : last - idx * chunkSize + 1 < content.length
    · simp [hlong, hchunk]
    · -- the file is a single chunk, and the answer is all of it
      have hfirst : idx * chunkSize = 0 := by omega
      have hall : content.length ≤ last + 1 := by omega
      rw [hfirst, drop_zero, take_of_length_le hall] at hchunk
      rw [if_neg fun h => h.2 rfl, if_neg fun h => hlong h.2, ← hchunk]

theorem forall_mem_cacheChunk {P : ℕ × Bytes → Prop} {cache : OrderedMap ℕ Bytes} {buf : Bytes}
    (h : ∀ e ∈ cache.entries, P e) (hnew : P (idx, buf)) :
    ∀ e ∈ (cacheChunk cache idx buf).entries, P e := by
  have hset : ∀ e ∈ (cache.set idx buf).entries, P e := by
    intro e he
    rcases mem_of_mem_set he with rfl | he
    · exact hnew
    · exact h e he
  dsimp only [cacheChunk]
  split_ifs
  · cases (cache.set idx buf).oldest with
    | none => exact hset
    | some k => exact fun e he => hset e (mem_of_mem_erase he)
  · exact hset

theorem size_cacheChunk_le {cache : OrderedMap ℕ Bytes} {buf : Bytes}
    (h : cache.size ≤ maxCachedChunks) : (cacheChunk cache idx buf).size ≤ maxCachedChunks := by
  have hlen : (cache.set idx buf).size ≤ maxCachedChunks + 1 :=
    Nat.le_trans size_set_le (Nat.succ_le_succ h)
  dsimp only [cacheChunk]
  split_ifs with hfull
  · cases hold : (cache.set idx buf).oldest with
    | none =>
      rw [oldest_eq_none.mp hold] at hfull
      exact absurd hfull (Nat.not_lt_zero _)
    | some k =>
      have hlt := size_erase_lt (mem_keys_of_oldest hold)
      dsimp only
      omega
  · omega

theorem getChunk_cases {chunk : Bytes} {b' : UrlFsBackend}
    (h : getChunk server b idx = (.ok chunk, b')) :
    (b.cache.get idx = some chunk ∧ b' = { b with cache := (b.cache.erase idx).set idx chunk }) ∨
      b.cache.get idx = none ∧ (fetchChunk server b idx).1 = .ok chunk ∧
        b'.cache = cacheChunk b.cache idx chunk ∧ b'.size = b.size := by
  have hkeep : (fetchChunk server b idx).2.cache = b.cache ∧
      (fetchChunk server b idx).2.size = b.size := by
    rw [fetchChunk]
    split_ifs <;> exact ⟨rfl, rfl⟩
  rw [getChunk] at h
  cases hget : b.cache.get idx with
  | some hit =>
    rw [hget] at h
    cases h
    exact .inl ⟨rfl, rfl⟩
  | none =>
    rw [hget] at h
    dsimp only at h
    cases hres : (fetchChunk server b idx).1 with
    | error e => rw [hres] at h; cases h
    | ok buf =>
      rw [hres] at h
      cases h
      exact .inr ⟨rfl, rfl, congrArg (cacheChunk · idx _) hkeep.1, hkeep.2⟩

/-- What holds of the chunks in the cache and of the one the server may send holds of the chunk
that is taken, and of the cache afterwards. -/
theorem forall_mem_getChunk {P : ℕ × Bytes → Prop} (h : ∀ e ∈ b.cache.entries, P e)
    (hfetch : ∀ buf, (fetchChunk server b idx).1 = .ok buf → P (idx, buf)) {chunk : Bytes}
    {b' : UrlFsBackend} (hget : getChunk server b idx = (.ok chunk, b')) :
    P (idx, chunk) ∧ (∀ e ∈ b'.cache.entries, P e) ∧ b'.size = b.size := by
  rcases getChunk_cases hget with ⟨hhit, rfl⟩ | ⟨-, hres, hcache, hsize⟩
  · have hP : P (idx, chunk) := h _ (mem_of_get hhit)
    refine ⟨hP, fun e he => ?_, rfl⟩
    rcases mem_of_mem_set he with rfl | he
    · exact hP
    · exact h e (mem_of_mem_erase he)
  · rw [hcache]
    exact ⟨hfetch _ hres, forall_mem_cacheChunk h (hfetch _ hres), hsize⟩

theorem getChunk_spec (hserver : server.Serves content) (h : b.Caches content)
    (hidx : idx * chunkSize < content.length) :
    (getChunk server b idx).1 = .ok (fileChunk content idx) ∧
      (getChunk server b idx).2.Caches content := by
  have hfetch := fetchChunk_eq hserver h.size hidx
  -- the chunk is the one of the file, wherever it comes from
  have hbound : ∃ chunk b', getChunk server b idx = (.ok chunk, b') ∧
      b'.cache.size ≤ maxCachedChunks := by
    rw [getChunk]
    cases hget : b.cache.get idx with
    | some hit =>
      have hlt := size_erase_lt (mem_keys_of_get hget)
      exact ⟨_, _, rfl, Nat.le_trans size_set_le (Nat.lt_of_lt_of_le hlt h.bound)⟩
    | none =>
      dsimp only
      rw [hfetch]
      exact ⟨_, _, rfl, size_cacheChunk_le h.bound⟩
  obtain ⟨chunk, b', hget, hbound⟩ := hbound
  obtain ⟨hchunk, hentries, hsize⟩ :=
    forall_mem_getChunk (P := fun e => e.2 = fileChunk content e.1) h.chunk
      (fun buf hbuf => (Except.ok.inj ((congrArg Prod.fst hfetch).symm.trans hbuf)).symm) hget
  rw [hget]
  exact ⟨congrArg Except.ok hchunk, hsize.trans h.size, hentries, hbound⟩

theorem drop_fileChunk (content : Bytes) (pos want : ℕ)
    (hwant : want ≤ (fileChunk content (pos / chunkSize)).length -
      (pos - pos / chunkSize * chunkSize)) :
    ((fileChunk content (pos / chunkSize)).drop (pos - pos / chunkSize * chunkSize)).take want =
      (content.drop pos).take want := by
  have hle : pos / chunkSize * chunkSize ≤ pos := Nat.div_mul_le_self pos chunkSize
  rw [fileChunk, length_take] at hwant
  rw [fileChunk, drop_take, drop_drop, take_take, Nat.add_sub_cancel' hle]
  congr 1
  omega

section

variable (hserver : server.Serves content)
include hserver

theorem readLoop_spec (n : ℕ) {pos stop : ℕ}
    (hn : stop - pos ≤ n) (hstop : stop ≤ content.length) (h : b.Caches content) :
    (readLoop server n pos stop b).1 = .ok ((content.drop pos).take (stop - pos)) := by
  induction n generalizing pos b with
  | zero =>
    have hdone : stop - pos = 0 := Nat.le_zero.mp hn
    rw [readLoop, if_neg (by omega), hdone, take_zero]
  | succ n ih =>
    rw [readLoop]
    by_cases hpos : pos < stop
    · rw [if_pos hpos]
      have hle : pos / chunkSize * chunkSize ≤ pos := Nat.div_mul_le_self pos chunkSize
      have hlt : pos < pos / chunkSize * chunkSize + chunkSize :=
        Nat.lt_div_mul_add chunkSize_pos
      obtain ⟨hchunk, hcaches⟩ := getChunk_spec hserver h
        (show pos / chunkSize * chunkSize < content.length by omega)
      dsimp only
      rw [hchunk]
      dsimp only
      -- the chunk reaches beyond the position, so the round gets on
      have hlen : (fileChunk content (pos / chunkSize)).length =
          min chunkSize (content.length - pos / chunkSize * chunkSize) := by
        rw [fileChunk, length_take, length_drop]
      generalize hwant : min (stop - pos) ((fileChunk content (pos / chunkSize)).length -
        (pos - pos / chunkSize * chunkSize)) = want
      have hpart := drop_fileChunk content pos want (by omega)
      rw [ih (by omega) hcaches, hpart, Except.map]
      have hsplit : stop - pos = want + (stop - (pos + want)) := by omega
      rw [hsplit, take_add, drop_drop]
    · rw [if_neg hpos, Nat.sub_eq_zero_of_le (Nat.not_lt.mp hpos), take_zero]

theorem readLoop_caches (n : ℕ) {pos stop : ℕ} (hstop : stop ≤ content.length)
    (h : b.Caches content) : (readLoop server n pos stop b).2.Caches content := by
  induction n generalizing pos b with
  | zero => exact h
  | succ n ih =>
    rw [readLoop]
    by_cases hpos : pos < stop
    · rw [if_pos hpos]
      have hle : pos / chunkSize * chunkSize ≤ pos := Nat.div_mul_le_self pos chunkSize
      obtain ⟨hchunk, hcaches⟩ := getChunk_spec hserver h
        (show pos / chunkSize * chunkSize < content.length by omega)
      dsimp only
      rw [hchunk]
      exact ih hcaches
    · rw [if_neg hpos]
      exact h

theorem urlFsRead_spec (h : b.Caches content) (position length : ℕ) :
    (urlFsRead server b position length).1 =
        .ok ((content.take (min (position + length) content.length)).drop position) ∧
      (urlFsRead server b position length).2.Caches content := by
  rw [urlFsRead]
  split_ifs with hend
  · rw [h.size] at hend
    refine ⟨?_, h⟩
    rw [drop_eq_nil_of_le]
    rw [length_take]
    omega
  · dsimp only
    rw [h.size, drop_take]
    have hstop : min (position + length) content.length ≤ content.length := Nat.min_le_right _ _
    exact ⟨readLoop_spec hserver _ (Nat.le_refl _) hstop h, readLoop_caches hserver _ hstop h⟩

theorem runReads_spec (reads : List (ℕ × ℕ)) (h : b.Caches content) :
    (runReads server reads b).1 = reads.map (fun r =>
        .ok ((content.take (min (r.1 + r.2) content.length)).drop r.1)) ∧
      (runReads server reads b).2.Caches content := by
  induction reads generalizing b with
  | nil => exact ⟨rfl, h⟩
  | cons r reads ih =>
    obtain ⟨hread, hcaches⟩ := urlFsRead_spec hserver h r.1 r.2
    obtain ⟨hrest, hend⟩ := ih hcaches
    refine ⟨?_, hend⟩
    rw [runReads, map_cons, ← hread, ← hrest]

end

end Cache

/-- **A mounted URL is the remote file.** Every read of a run returns the bytes of the file from its
position up to its end or the end of the file, and in every round of every read the cache holds
at most 32 chunks. -/
theorem urlFs_reads_file {server : Server} {content : Bytes} (hserver : server.Serves content)
    (reads : List (ℕ × ℕ)) :
    (runReads server reads (.mount content.length)).1 = reads.map (fun r =>
        .ok ((content.take (min (r.1 + r.2) content.length)).drop r.1)) ∧
      ∀ n position length, (readLoop server n position (min (position + length) content.length)
        (runReads server reads (.mount content.length)).2).2.cache.size ≤ 32 := by
  obtain ⟨hreads, hcaches⟩ := runReads_spec hserver reads (UrlFsBackend.caches_mount content)
  exact ⟨hreads, fun n position length =>
    (readLoop_caches hserver n (Nat.min_le_right _ _) hcaches).bound⟩

def Server.fickle (content : Bytes) : Server := fun sent start last =>
  if sent % 2 = 0 then ⟨206, (content.take (last + 1)).drop start⟩ else ⟨200, content⟩

theorem Server.serves_fickle (content : Bytes) : (Server.fickle content).Serves content := by
  intro sent start last _ _
  rw [Server.fickle]
  split_ifs
  · exact .inl rfl
  · exact .inr rfl

/-- A file of three bytes on such a server. -/
theorem urlFs_reads_file_fickle :
    (runReads (.fickle [7, 8, 9]) [(1, 5), (0, 2)] (.mount 3)).1 = [.ok [8, 9], .ok [7, 8]] :=
  (urlFs_reads_file (Server.serves_fickle _) [(1, 5), (0, 2)]).1

end Anyfs
