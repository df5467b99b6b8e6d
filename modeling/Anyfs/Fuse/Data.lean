import Anyfs.Fuse.Path
import Anyfs.Lib.Pieces

/-!
# Reading and writing through FUSE

`anyfs_fuse_read` and `anyfs_fuse_write` ask LKL for the rest until the whole range is moved, a call
moves nothing, or a call fails. `pread64` moves nothing only behind the end of the file; `pwrite64`
may do so anywhere, and the write is then short. The files with the table of partitions are built
for every read. Both functions return an `int`, so the number of bytes is converted to one.
-/

namespace Anyfs

open List Pieces

/-- The answer of LKL to the call that finds a number of bytes moved: the error `-(e + 1)`, or how
many bytes it can move. -/
abbrev LklCounts := ℕ → Except (Fin 4095) ℕ

/-- `lkl_sys_pread64`: inside the file it moves one byte more than the count. -/
def lklSysPread64 (file : Bytes) (counts : LklCounts) (offset : ℕ) : Call UInt8 (Fin 4095) Unit :=
  reader (file.drop offset) counts

/-- The result after the loop, as an `int`; what LKL fails with is negative. -/
def transferred {σ : Type*} (r : Outcome UInt8 (Fin 4095) σ) : ℤ :=
  match r.error with
  | some e => Int.negSucc e
  | none => Int.bmod r.moved.length (2 ^ 32)

/-- The disk whose table a path stands for. -/
def tableOf (fs : FuseFs) (path : Bytes) : Option ℤ :=
  match fs.modeA, parseFusePath fs.disks.length path with
  | none, some (.synthFile, fp) => some fp.diskIdx
  | _, _ => none

/-- `anyfs_fuse_read`: what it puts into the buffer, and its result. `build` is
`build_partitions_table`. -/
def anyfsFuseRead (build : ℤ → Option Bytes) (fs : FuseFs) (file : Bytes) (counts : LklCounts)
    (path : Bytes) (size offset : ℕ) : Bytes × ℤ :=
  match tableOf fs path with
  | some diskIdx =>
    match build diskIdx with
    | none => ([], - EIO)
    | some content =>
      if offset < content.length then
        let n := min (content.length - offset) size
        ((content.drop offset).take n, Int.bmod n (2 ^ 32))
      else ([], 0)
  | none =>
    let r := loop (lklSysPread64 file counts offset) () size []
    (r.moved, transferred r)

theorem transferred_of_stopped {σ : Type*} {count : Except (Fin 4095) ℕ}
    {r : Outcome UInt8 (Fin 4095) σ} (h : Stopped count r.error) :
    count = .ok 0 ∧ transferred r = Int.bmod r.moved.length (2 ^ 32) ∨
      ∃ e, count = .error e ∧ transferred r = Int.negSucc e := by
  rw [transferred]
  generalize r.error = error at h
  cases h with
  | stalled hzero => exact .inl ⟨hzero, rfl⟩
  | failed herror => exact .inr ⟨_, herror, rfl⟩

/-- **Reads are exact.** A read returns the bytes that the table or the file has in the range,
however LKL cuts them, unless there is no table or a `pread64` fails: then the bytes before that
call are in the buffer and the result is its error. -/
theorem anyfsFuseRead_exact (build : ℤ → Option Bytes) (fs : FuseFs) (file : Bytes)
    (counts : LklCounts) (path : Bytes) (size offset : ℕ) :
    (∃ content, (tableOf fs path).elim (some file) build = some content ∧
      anyfsFuseRead build fs file counts path size offset =
        ((content.drop offset).take size,
          Int.bmod ((content.drop offset).take size).length (2 ^ 32))) ∨
    ((tableOf fs path).elim (some file) build = none ∧
      anyfsFuseRead build fs file counts path size offset = ([], - EIO)) ∨
    ∃ n e, tableOf fs path = none ∧ (0 < size → n < size) ∧ n ≤ (file.drop offset).length ∧
      counts n = .error e ∧ anyfsFuseRead build fs file counts path size offset =
        ((file.drop offset).take n, Int.negSucc e) := by
  rw [anyfsFuseRead]
  cases tableOf fs path with
  | some diskIdx =>
    dsimp only [Option.elim]
    cases build diskIdx with
    | none => exact .inr (.inl ⟨rfl, rfl⟩)
    | some content =>
      refine .inl ⟨content, rfl, ?_⟩
      dsimp only
      split_ifs with h
      · have hlen : ((content.drop offset).take size).length =
            min (content.length - offset) size := by
          rw [length_take, length_drop, Nat.min_comm]
        rw [hlen, Prod.mk.injEq, take_eq_take_iff, length_drop]
        exact ⟨by omega, rfl⟩
      · rw [drop_eq_nil_of_le (Nat.not_lt.mp h), take_nil]
        rfl
  | none =>
    dsimp only [Option.elim]
    obtain ⟨n, hmoved, hend⟩ :=
      loop_spec (fst_reader (file.drop offset) counts) () size
    rw [lklSysPread64, hmoved]
    rcases hend with ⟨herror, rfl⟩ | ⟨hlt, hlen, hstop⟩
    · refine .inl ⟨file, rfl, ?_⟩
      rw [transferred, herror, hmoved]
    · rcases transferred_of_stopped hstop with ⟨hzero, -⟩ | ⟨e, herror, hret⟩
      · exact absurd hzero (onward_ne_zero counts n)
      · exact .inr (.inr ⟨n, e, rfl, hlt, hlen, onward_eq_error herror, by rw [hret]⟩)

end Anyfs
