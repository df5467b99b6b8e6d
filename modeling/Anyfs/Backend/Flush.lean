import Anyfs.Backend.Request

/-!
# Flush requests and durability

The handlers make the flush call inside the loop over the data buffers, so whether it is made at all
depends on the number of buffers; LKL attaches none to a flush.
-/

namespace Anyfs

namespace Backend

def Flow.world : Flow → World
  | .ret _ _ w => w
  | .next _ w => w

@[simp]
theorem Flow.world_ofAnswer (ok : Bool) (b : Bytes) (w : World) :
    (Flow.ofAnswer ok b w).world = w := by
  cases ok <;> rfl

def Outcome.Flushed (r : Outcome) : Prop :=
  ∃ a : Answer, (HostCall.flush, a) ∈ r.world.calls ∧ a.ok = true

/-- The flush types a handler knows. The GIO backend has nothing to flush. -/
def Handler.FlushType : Handler → BlkType → Prop
  | .rawPosix, t | .rawWin, t => t = .flush ∨ t = .flushOut
  | .qemu, t => t = .flush
  | .gio, _ => False

/-- When a flush request keeps its promise. A call the QEMU thread does not take is an error anyway.
-/
def Handler.FlushKept (env : HostEnv) (req : BlkReq) : Handler → Prop
  | .rawPosix => req.buf ≠ []
  | .rawWin => req.buf ≠ [] ∧ env.flush 0 = true
  | .qemu => req.buf ≠ [] ∨ env.accepts = false
  | .gio => False

/-! ### The loop only adds to the record of calls -/

theorem calls_subset_forBuf {body : ℕ → UInt64 → Bytes → World → Flow}
    (hbody : ∀ i off b w, w.calls ⊆ (body i off b w).world.calls) :
    ∀ (bs : List Bytes) (i : ℕ) (off : UInt64) (w : World),
      w.calls ⊆ (forBuf body i off bs w).world.calls := by
  intro bs
  induction bs with
  | nil => intro i off w; exact fun _ h => h
  | cons b bs ih =>
    intro i off w
    have hb := hbody i off b w
    rw [forBuf]
    cases hf : body i off b w with
    | ret st b' w' => simpa [hf, Flow.world] using hb
    | next b' w' =>
      rw [hf] at hb
      exact List.Subset.trans hb (ih _ _ w')

theorem calls_subset_ioCoBody_flush (env : HostEnv) (i : ℕ) (off : UInt64) (b : Bytes)
    (w : World) : w.calls ⊆ (ioCoBody env .flush i off b w).world.calls := by
  simp [ioCoBody, logFlush, World.log]

/-! ### The handlers on a flush request -/

section Handlers

variable (env : HostEnv) (req : BlkReq) (st : ℕ → UInt8)

theorem run_nil {body : ℕ → UInt64 → Bytes → World → Flow} (h : req.buf = []) :
    run req st body = ⟨.ok, [], ⟨st, []⟩⟩ := by
  rw [run, h, forBuf]

theorem rawRequestPosix_flush {b : Bytes} {bs : List Bytes} (hbuf : req.buf = b :: bs)
    (ht : req.type = .flush ∨ req.type = .flushOut) :
    (rawRequestPosix env req st).world = logFlush env 0 ⟨st, []⟩ ∧
      (rawRequestPosix env req st).status = if env.flush 0 then .ok else .ioerr := by
  rcases ht with ht | ht <;>
    · rw [rawRequestPosix, run, hbuf, ht, forBuf]
      simp only [rawPosixBody]
      split_ifs <;> exact ⟨rfl, rfl⟩

theorem rawRequestWin_flush {b : Bytes} {bs : List Bytes} (hbuf : req.buf = b :: bs)
    (ht : req.type = .flush ∨ req.type = .flushOut) :
    (rawRequestWin env req st).world = logFlush env 0 ⟨st, []⟩ ∧
      (rawRequestWin env req st).status = .ok := by
  rcases ht with ht | ht <;>
    · rw [rawRequestWin, run, hbuf, ht, forBuf]
      exact ⟨rfl, rfl⟩

theorem flushed_of_run_ioCoBody {b : Bytes} {bs : List Bytes} (hbuf : req.buf = b :: bs)
    (hok : (run req st (ioCoBody env .flush)).status = .ok) :
    (run req st (ioCoBody env .flush)).Flushed := by
  rw [run, hbuf, forBuf] at hok ⊢
  by_cases hf : env.flush 0 = true
  · have hnext : ioCoBody env .flush 0 (req.sector * 512) b ⟨st, []⟩ =
        .next b (logFlush env 0 ⟨st, []⟩) := by
      simp [ioCoBody, Flow.ofAnswer, hf]
    rw [hnext]
    refine ⟨⟨true, 0⟩, ?_, rfl⟩
    refine calls_subset_forBuf (calls_subset_ioCoBody_flush env) _ _ _ _ ?_
    simp [logFlush, World.log, hf]
  · have hret : ioCoBody env .flush 0 (req.sector * 512) b ⟨st, []⟩ =
        .ret .ioerr b (logFlush env 0 ⟨st, []⟩) := by
      simp [ioCoBody, Flow.ofAnswer, hf]
    rw [hret] at hok
    cases hok

theorem flushed_iff_of_world_eq {r : Outcome} (h : r.world = logFlush env 0 ⟨st, []⟩) :
    r.Flushed ↔ env.flush 0 = true := by
  simp [Outcome.Flushed, h, logFlush, World.log]

theorem not_flushed_of_world_eq {r : Outcome} (h : r.world = ⟨st, []⟩) : ¬ r.Flushed := by
  simp [Outcome.Flushed, h]

/-- **Flush durability.** A flush request of a type the handler knows is answered OK only
after a successful flush exactly when it carries a buffer (and, on Windows, the flush call
succeeds; a call the QEMU thread refuses is an error in any case). -/
theorem flushKept_iff (h : Handler) (ht : h.FlushType req.type) :
    ((h.request env req st).status = .ok → (h.request env req st).Flushed) ↔
      h.FlushKept env req := by
  cases h with
  | rawPosix =>
    simp only [Handler.request, Handler.FlushKept]
    cases hbuf : req.buf with
    | nil =>
      rw [rawRequestPosix, run_nil req st hbuf]
      simp [not_flushed_of_world_eq st]
    | cons b bs =>
      obtain ⟨hw, hs⟩ := rawRequestPosix_flush env req st hbuf ht
      rw [flushed_iff_of_world_eq env st hw, hs]
      simp
  | rawWin =>
    simp only [Handler.request, Handler.FlushKept]
    cases hbuf : req.buf with
    | nil =>
      rw [rawRequestWin, run_nil req st hbuf]
      simp [not_flushed_of_world_eq st]
    | cons b bs =>
      obtain ⟨hw, hs⟩ := rawRequestWin_flush env req st hbuf ht
      rw [flushed_iff_of_world_eq env st hw, hs]
      simp
  | gio => exact ht.elim
  | qemu =>
    -- the answer of the coroutine counts only if the call was taken
    simp only [Handler.request, Handler.FlushKept, qemuRequest]
    cases ha : env.accepts with
    | false => simp
    | true =>
      rw [show req.type = .flush from ht]
      cases hbuf : req.buf with
      | nil =>
        rw [if_pos rfl, run_nil req st hbuf]
        simp [not_flushed_of_world_eq st]
      | cons b bs =>
        rw [if_pos rfl]
        simpa using flushed_of_run_ioCoBody env req st hbuf

end Handlers

def HostEnv.calm : HostEnv := ⟨fun _ => true, fun _ => ⟨true, 0⟩, fun _ => true, true⟩

/-- A flush with one empty buffer, the smallest one that keeps its promise. -/
theorem flushKept_rawPosix_one_buffer :
    Handler.rawPosix.FlushType .flush ∧
      ((Handler.rawPosix.request .calm ⟨.flush, 0, [[]]⟩ fun _ => 0).status = .ok →
        (Handler.rawPosix.request .calm ⟨.flush, 0, [[]]⟩ fun _ => 0).Flushed) :=
  ⟨.inl rfl, (flushKept_iff .calm ⟨.flush, 0, [[]]⟩ (fun _ => 0) .rawPosix (.inl rfl)).mpr
    (by simp [Handler.FlushKept])⟩

/-- The flush LKL sends has no buffers: it is answered OK, and nothing was flushed. -/
theorem flush_without_buffers_not_flushed :
    ¬ ∀ (h : Handler) (env : HostEnv) (req : BlkReq) (st : ℕ → UInt8), h.FlushType req.type →
      (h.request env req st).status = .ok → (h.request env req st).Flushed := by
  intro hall
  have hf := hall .rawPosix .calm ⟨.flush, 0, []⟩ (fun _ => 0) (.inl rfl) rfl
  obtain ⟨a, ha, -⟩ := hf
  cases ha

end Backend

end Anyfs
