import Anyfs.Core.Api

/-!
# The C side of the bridge

`anyfs_ts.c` gives small numbers to JavaScript in place of sessions: the places of a table of eight.
Sessions are known here by the order in which they were opened. A file offset has 64 bits and comes
in two words.
-/

namespace Anyfs

open List Option

/-- `g_handles`, how many sessions were opened, and those that were closed. -/
structure Handles where
  table : List (Option ℕ)
  opened : ℕ
  closed : List ℕ

namespace Handles

def boot : Handles := ⟨replicate 8 none, 0, []⟩

variable (s : Handles)

def allocHandle : Option ℕ := s.table.findIdx? isNone

def getHandle (h : ℤ) : Option ℕ :=
  if h < 0 ∨ 8 ≤ h then none else (s.table[h.toNat]?).join

/-- `anyfs_ts_session_open`, where `anyfs_session_open` succeeds or fails. -/
def anyfsTsSessionOpen (success : Bool) : Handles × ℤ :=
  if success then
    match s.allocHandle with
    | some h => (⟨s.table.set h (some s.opened), s.opened + 1, s.closed⟩, h)
    | none => (⟨s.table, s.opened + 1, s.closed ++ [s.opened]⟩, -2)
  else (s, -1)

def anyfsTsSessionClose (h : ℤ) : Handles × ℤ :=
  match s.getHandle h with
  | some d => ({ s with table := s.table.set h.toNat none, closed := s.closed ++ [d] }, 0)
  | none => (s, -1)

/-- `anyfs_ts_kernel_halt`: its loop closes and clears the places in order. -/
def anyfsTsKernelHalt : Handles :=
  { s with table := s.table.map fun _ => none, closed := s.closed ++ s.table.filterMap id }

end Handles

/-- The calls of the bridge. -/
inductive BridgeCall where
  | sessionOpen (success : Bool)
  | sessionClose (h : ℤ)
  | kernelHalt

def BridgeCall.run (s : Handles) : BridgeCall → Handles
  | .sessionOpen success => (s.anyfsTsSessionOpen success).1
  | .sessionClose h => (s.anyfsTsSessionClose h).1
  | .kernelHalt => s.anyfsTsKernelHalt

def bridgeRun (calls : List BridgeCall) : Handles := calls.foldl BridgeCall.run .boot

namespace Handles

/-- The sessions behind handles and the closed ones are all there are, each of them once. -/
structure Ok (s : Handles) : Prop where
  length : s.table.length = 8
  once : (s.table.filterMap id ++ s.closed).Perm (range s.opened)

variable {s : Handles}

theorem perm_filterMap_set {l : List (Option ℕ)} {i : ℕ} (hi : l[i]? = some none) (d : ℕ) :
    ((l.set i (some d)).filterMap id).Perm (d :: l.filterMap id) := by
  induction l generalizing i with
  | nil => cases hi
  | cons a l ih =>
    cases i with
    | zero =>
      obtain rfl := some.inj hi
      exact .refl _
    | succ i =>
      have hl := ih hi
      cases a with
      | none => exact hl
      | some b => exact (hl.cons b).trans (.swap d b _)

theorem Ok.sessionClose (hs : s.Ok) (h : ℤ) : (s.anyfsTsSessionClose h).1.Ok := by
  rw [anyfsTsSessionClose]
  cases hd : s.getHandle h with
  | none => exact hs
  | some d =>
    rw [getHandle] at hd
    split_ifs at hd
    obtain ⟨hlt, hget⟩ := List.getElem?_eq_some_iff.mp (join_eq_some_iff.mp hd)
    have hperm :=
      perm_filterMap_set (l := s.table.set h.toNat none) (i := h.toNat) (by simp [hlt]) d
    rw [set_set, ← hget, set_getElem_self] at hperm
    refine ⟨(length_set ..).trans hs.length,
      Perm.trans ?_ (hperm.symm.append_right s.closed |>.trans hs.once)⟩
    rw [← append_assoc]
    exact perm_append_singleton d _

theorem allocHandle_spec {i : ℕ} (h : s.allocHandle = some i) : s.table[i]? = some none := by
  obtain ⟨hi, hnone, -⟩ := findIdx?_eq_some_iff_getElem.mp h
  rw [List.getElem?_eq_getElem hi, isNone_iff_eq_none.mp hnone]

theorem Ok.sessionOpen (hs : s.Ok) (success : Bool) : (s.anyfsTsSessionOpen success).1.Ok := by
  rw [anyfsTsSessionOpen]
  split_ifs
  · have hnew : (s.opened :: (s.table.filterMap id ++ s.closed)).Perm (range (s.opened + 1)) := by
      rw [range_succ]
      exact (hs.once.cons _).trans (perm_append_singleton _ _).symm
    cases halloc : s.allocHandle with
    | some i =>
      refine ⟨(length_set ..).trans hs.length, Perm.trans ?_ hnew⟩
      exact (perm_filterMap_set (allocHandle_spec halloc) s.opened).append_right s.closed
    | none =>
      refine ⟨hs.length, Perm.trans ?_ hnew⟩
      rw [← append_assoc]
      exact perm_append_singleton _ _
  · exact hs

theorem Ok.kernelHalt (hs : s.Ok) : s.anyfsTsKernelHalt.Ok := by
  refine ⟨(length_map _).trans hs.length, Perm.trans ?_ hs.once⟩
  simpa [anyfsTsKernelHalt, filterMap_map] using perm_append_comm

theorem ok_foldl (calls : List BridgeCall) (hs : s.Ok) : (calls.foldl BridgeCall.run s).Ok := by
  induction calls generalizing s with
  | nil => exact hs
  | cons c calls ih =>
    cases c with
    | sessionOpen success => exact ih (hs.sessionOpen success)
    | sessionClose h => exact ih (hs.sessionClose h)
    | kernelHalt => exact ih hs.kernelHalt

/-- **Handles.** After any calls, the sessions that have a handle and those that were closed are all
the sessions there were, each of them once; halting the kernel closes those that are left. A new
handle was free, and the other handles stand for what they stood for. -/
theorem handles_once (calls : List BridgeCall) :
    ((bridgeRun calls).table.filterMap id ++ (bridgeRun calls).closed).Perm
        (range (bridgeRun calls).opened) ∧
      (bridgeRun calls).anyfsTsKernelHalt.closed.Perm (range (bridgeRun calls).opened) ∧
      ∀ h h' : ℤ, 0 ≤ h → ((bridgeRun calls).anyfsTsSessionOpen true).2 = h →
        (bridgeRun calls).getHandle h = none ∧
        ((bridgeRun calls).anyfsTsSessionOpen true).1.getHandle h' =
          if h' = h then some (bridgeRun calls).opened else (bridgeRun calls).getHandle h' := by
  have hs : (bridgeRun calls).Ok := ok_foldl calls ⟨rfl, .refl _⟩
  generalize bridgeRun calls = s at hs
  refine ⟨hs.once, ?_, fun h h' hh hopen => ?_⟩
  · simpa [anyfsTsKernelHalt, filterMap_map] using hs.kernelHalt.once
  · rw [anyfsTsSessionOpen, if_pos rfl] at hopen ⊢
    cases halloc : s.allocHandle with
    | none =>
      rw [halloc] at hopen
      cases hopen
      cases hh
    | some i =>
      rw [halloc] at hopen
      obtain rfl : (i : ℤ) = h := hopen
      have hi := allocHandle_spec halloc
      have hlt := (List.getElem?_eq_some_iff.mp hi).1
      refine ⟨?_, ?_⟩
      · simp [getHandle, hi]
      · rw [getHandle, getHandle, getElem?_set]
        grind [Ok]

end Handles

/-! ### Offsets -/

/-- The words of a PREAD: `read` cuts the offset in two, and `call` writes them to the heap. -/
def preadWords (fd buf want off : ℤ) : List ℤ :=
  (WasmApi.place [.num fd, .num buf, .num want, .num (toInt32 (off % 2 ^ 32)),
    .num (toInt32 (off / 2 ^ 32 % 2 ^ 32))] []).1

/-- What `api_run` makes of them: the descriptor, the buffer, the size and the offset. -/
def apiRunPread (a : List ℤ) : ℤ × ℤ × ℤ × ℤ :=
  (a.getD 0 0, a.getD 1 0 % 2 ^ 32, a.getD 2 0 % 2 ^ 32,
    (a.getD 4 0 % 2 ^ 32 * 2 ^ 32 + a.getD 3 0 % 2 ^ 32).bmod (2 ^ 64))

theorem toInt32_emod (v : ℤ) : toInt32 v % 2 ^ 32 = v % 2 ^ 32 := by
  rw [toInt32]
  exact Int.bmod_emod

/-- **Offsets survive the bridge.** `anyfs_ts_pread` gets the offset that `read` was called with. -/
theorem pread_roundTrip (fd : Int32) (buf want : UInt32) (off : Int64) :
    apiRunPread (preadWords fd.toInt buf.toNat want.toNat off.toInt) =
      (fd.toInt, (buf.toNat : ℤ), (want.toNat : ℤ), off.toInt) := by
  have hfd : toInt32 fd.toInt = fd.toInt := by
    rw [toInt32, Int.bmod_eq_of_le (by have := fd.le_toInt; omega) (by have := fd.toInt_lt; omega)]
  have hbuf := buf.toNat_lt
  have hwant := want.toNat_lt
  have hjoin : (off.toInt / 2 ^ 32 % 2 ^ 32 * 2 ^ 32 + off.toInt % 2 ^ 32 : ℤ) =
      off.toInt % (2 ^ 64 : ℕ) := by omega
  have hoff : (off.toInt % (2 ^ 64 : ℕ)).bmod (2 ^ 64) = off.toInt := by
    rw [Int.emod_bmod, Int.bmod_eq_of_le (by have := off.le_toInt; omega)
      (by have := off.toInt_lt; omega)]
  simp only [preadWords, WasmApi.place, apiRunPread, getD_cons_zero, getD_cons_succ,
    toInt32_emod, hfd, Int.emod_emod_of_dvd, dvd_refl, hjoin, hoff, Prod.mk.injEq, true_and]
  exact ⟨by omega, by omega, trivial⟩

end Anyfs
