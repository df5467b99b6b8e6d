import Anyfs.Lib.Bytes

/-!
# Output into a buffer of limited size

A function that fills a buffer is described by the single bytes it writes, in order (`Writes`).
`emit` writes chunks and stops before the first one that does not leave room for a zero byte.
-/

/-- Stores into a buffer, by index. -/
abbrev Writes := List (ℕ × UInt8)

namespace Writes

def put (o : ℕ) : Bytes → Writes
  | [] => []
  | b :: bs => (o, b) :: put (o + 1) bs

def apply (m : ℕ → UInt8) : Writes → ℕ → UInt8
  | [] => m
  | (i, b) :: ws => apply (ByteStore.overwrite m i [b]) ws

theorem apply_append (m : ℕ → UInt8) (ws ws' : Writes) :
    apply m (ws ++ ws') = apply (apply m ws) ws' := by
  induction ws generalizing m with
  | nil => rfl
  | cons w ws ih => exact ih _

theorem apply_put (m : ℕ → UInt8) (o : ℕ) (bs : Bytes) :
    apply m (put o bs) = ByteStore.overwrite m o bs := by
  induction bs generalizing m o with
  | nil => rw [put, apply, ByteStore.overwrite_nil]
  | cons b bs ih =>
    rw [put, apply, ih, ← List.length_singleton (a := b), ByteStore.overwrite_append,
      List.singleton_append]

theorem put_append (o : ℕ) (bs bs' : Bytes) :
    put o (bs ++ bs') = put o bs ++ put (o + bs.length) bs' := by
  induction bs generalizing o with
  | nil => rfl
  | cons b bs ih =>
    rw [List.cons_append, put, ih, put, List.cons_append, List.length_cons, Nat.add_right_comm,
      Nat.add_assoc]

theorem lt_of_mem_put {o i : ℕ} {b : UInt8} {bs : Bytes} (h : (i, b) ∈ put o bs) :
    i < o + bs.length := by
  induction bs generalizing o with
  | nil => exact absurd h List.not_mem_nil
  | cons c bs ih =>
    rw [put, List.mem_cons] at h
    rw [List.length_cons]
    rcases h with h | h
    · obtain ⟨rfl, -⟩ := Prod.mk.inj h
      omega
    · have := ih h
      omega

end Writes

/-- Writing chunks from position `o` on: the writes, and the position at the end, or `none` for an
overflow. -/
def emit (cap : ℕ) : ℕ → List Bytes → Writes × Option ℕ
  | o, [] => ([], some o)
  | o, c :: cs =>
    if cap ≤ o + c.length then ([], none)
    else
      let r := emit cap (o + c.length) cs
      (Writes.put o c ++ r.1, r.2)

variable {cap o : ℕ}

theorem emit_append (cs ds : List Bytes) :
    emit cap o (cs ++ ds) =
      match emit cap o cs with
      | (ws, none) => (ws, none)
      | (ws, some o') => (ws ++ (emit cap o' ds).1, (emit cap o' ds).2) := by
  induction cs generalizing o with
  | nil => rfl
  | cons c cs ih =>
    rw [List.cons_append, emit, emit]
    split_ifs
    · rfl
    · rw [ih]
      rcases emit cap (o + c.length) cs with ⟨ws, _ | o'⟩
      · rfl
      · dsimp only
        rw [List.append_assoc]

theorem emit_of_lt {cs : List Bytes} (h : o + cs.flatten.length < cap) :
    emit cap o cs = (Writes.put o cs.flatten, some (o + cs.flatten.length)) := by
  induction cs generalizing o with
  | nil => rfl
  | cons c cs ih =>
    rw [List.flatten_cons, List.length_append] at h
    rw [emit, if_neg (by omega), ih (by omega), List.flatten_cons, Writes.put_append,
      List.length_append, Nat.add_assoc]

theorem emit_of_le {cs : List Bytes} (ho : o < cap) (h : cap ≤ o + cs.flatten.length) :
    (emit cap o cs).2 = none := by
  induction cs generalizing o with
  | nil => simp only [List.flatten_nil, List.length_nil] at h; omega
  | cons c cs ih =>
    rw [List.flatten_cons, List.length_append] at h
    rw [emit]
    split_ifs with hcap
    · rfl
    · exact ih (by omega) (by omega)

theorem lt_of_mem_emit {cs : List Bytes} {w : ℕ × UInt8} (h : w ∈ (emit cap o cs).1) :
    w.1 < cap := by
  induction cs generalizing o with
  | nil => exact absurd h List.not_mem_nil
  | cons c cs ih =>
    rw [emit] at h
    split_ifs at h with hcap
    · exact absurd h List.not_mem_nil
    · rcases List.mem_append.mp h with h | h
      · have := Writes.lt_of_mem_put h
        omega
      · exact ih h
