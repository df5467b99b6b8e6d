import Anyfs.Lib.Bytes
import Mathlib.Data.UInt

/-!
# The rings of a proxied connection

`struct ring` of `host_proxy.c`: a buffer of `RING_CAP` bytes with two free-running 64-bit counters.
Only the offsets into the buffer are reduced, so how many bytes are in the ring is a difference that
may wrap around (`Ring.used`).
-/

namespace Anyfs.Proxy

@[irreducible] def ringCap : UInt64 := 4 * 1024 * 1024

def ringMask : UInt64 := ringCap - 1

/-- `struct ring`. -/
structure Ring where
  buf : ℕ → UInt8
  head : UInt64
  tail : UInt64

/-- A part of the buffer: what `ring_writable` and `ring_readable` return. -/
structure Span where
  off : UInt64
  len : UInt64
  deriving DecidableEq

namespace Ring

def new : Ring := ⟨fun _ => 0, 0, 0⟩

variable (r : Ring)

/-- `ring_writable`. -/
def writable : Span :=
  let freeb := ringCap - (r.head - r.tail)
  let off := r.head &&& ringMask
  let until_ := ringCap - off
  ⟨off, if freeb < until_ then freeb else until_⟩

/-- `ring_readable`. -/
def readable : Span :=
  let avail := r.head - r.tail
  let off := r.tail &&& ringMask
  let until_ := ringCap - off
  ⟨off, if avail < until_ then avail else until_⟩

/-- `ring_pcommit`. -/
def pcommit (n : UInt64) : Ring := { r with head := r.head + n }

/-- `ring_ccommit`. -/
def ccommit (n : UInt64) : Ring := { r with tail := r.tail + n }

/-- `ring_empty`. -/
def empty : Bool := r.head = r.tail

/-- `ring_drain`. -/
def drain : Ring := { r with tail := r.head }

def fill (p : Span) (bs : Bytes) : Ring :=
  { r with buf := ByteStore.overwrite r.buf p.off.toNat bs }

def bytes (p : Span) (n : UInt64) : Bytes := ByteStore.slice r.buf p.off.toNat n.toNat

def used : ℕ := (r.head - r.tail).toNat

variable {r : Ring} {n : UInt64}

@[simp] theorem used_new : new.used = 0 := rfl

@[simp] theorem used_drain : r.drain.used = 0 := by simp [used, drain]

theorem empty_iff : r.empty = true ↔ r.used = 0 := by
  rw [empty, decide_eq_true_iff, used]
  constructor
  · intro h
    simp [h]
  · intro h
    have hsub : r.head - r.tail = 0 := UInt64.toNat_inj.mp h
    exact sub_eq_zero.mp hsub

theorem used_pcommit (h : r.used + n.toNat < 2 ^ 64) : (r.pcommit n).used = r.used + n.toNat := by
  have hsub : r.head + n - r.tail = (r.head - r.tail) + n := by
    rw [add_sub_right_comm]
  rw [used, pcommit, hsub, UInt64.toNat_add]
  exact Nat.mod_eq_of_lt h

theorem used_ccommit (h : n.toNat ≤ r.used) : (r.ccommit n).used = r.used - n.toNat := by
  have hsub : r.head - (r.tail + n) = (r.head - r.tail) - n := by
    rw [sub_add_eq_sub_sub]
  rw [used, ccommit, hsub]
  exact UInt64.toNat_sub_of_le _ _ (UInt64.le_iff_toNat_le.mpr h)

theorem used_add_writable (h : r.used ≤ ringCap.toNat) :
    r.used + r.writable.len.toNat ≤ ringCap.toNat := by
  have hfree : (ringCap - (r.head - r.tail)).toNat = ringCap.toNat - r.used :=
    UInt64.toNat_sub_of_le _ _ (UInt64.le_iff_toNat_le.mpr h)
  have hle : r.writable.len.toNat ≤ (ringCap - (r.head - r.tail)).toNat := by
    rw [writable]
    dsimp only
    split_ifs with hlt
    · exact le_rfl
    · exact UInt64.le_iff_toNat_le.mp (UInt64.not_lt.mp hlt)
  omega

theorem readable_le_used (r : Ring) : r.readable.len.toNat ≤ r.used := by
  rw [readable, used]
  dsimp only
  split_ifs with hlt
  · exact le_rfl
  · exact UInt64.le_iff_toNat_le.mp (UInt64.not_lt.mp hlt)

end Ring

end Anyfs.Proxy
