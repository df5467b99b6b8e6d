import Anyfs.Lib.Fifo
import Anyfs.Proxy.Ring

/-!
# One producer and one consumer on a ring

Each load, the filling, the taking and each commit is a step of its own, so the value of the other
side's counter may be out of date by the time it is used. `head` and `tail` are the lengths of the
streams that went in and came out modulo `2 ^ 64`, and the byte at place `i` of the stream is at
offset `i % RING_CAP` of the buffer for as long as it was not consumed (`Spsc.Ok`). A span the
producer holds lies beyond the stream and one the consumer holds lies within it.
-/

namespace Anyfs.Proxy

open List

/-! ### Counters and offsets -/

theorem toNat_ringCap : ringCap.toNat = 2 ^ 22 := by
  rw [ringCap]
  rfl

theorem ringCap_pos : 0 < ringCap.toNat := by
  rw [toNat_ringCap]
  decide

theorem toNat_ofNat_and_ringMask (n : ℕ) :
    (UInt64.ofNat n &&& ringMask).toNat = n % ringCap.toNat := by
  have hmask : ringMask.toNat = 2 ^ 22 - 1 := by
    rw [ringMask, ringCap]
    rfl
  rw [UInt64.toNat_and, hmask, Nat.and_two_pow_sub_one_eq_mod, UInt64.toNat_ofNat', toNat_ringCap]
  exact Nat.mod_mod_of_dvd n (Nat.pow_dvd_pow 2 (by decide))

theorem toNat_ofNat_sub {a b : ℕ} (hle : b ≤ a) (hcap : a ≤ b + ringCap.toNat) :
    (UInt64.ofNat a - UInt64.ofNat b).toNat = a - b := by
  rw [← UInt64.ofNat_sub hle]
  have hsub : a - b ≤ ringCap.toNat := by omega
  exact UInt64.toNat_ofNat_of_lt' (hsub.trans_lt ringCap.toNat_lt)

theorem mod_ringCap_ne {i j : ℕ} (hlt : i < j) (hcap : j < i + ringCap.toNat) :
    i % ringCap.toNat ≠ j % ringCap.toNat := by
  intro heq
  have hdvd : ringCap.toNat ∣ j - i :=
    Nat.dvd_of_mod_eq_zero (Nat.sub_mod_eq_zero_of_mod_eq heq.symm)
  have hle := Nat.le_of_dvd (by omega) hdvd
  omega

theorem add_mod_ringCap {n i : ℕ} (h : n % ringCap.toNat + i < ringCap.toNat) :
    (n + i) % ringCap.toNat = n % ringCap.toNat + i := by
  rw [← Nat.mod_add_mod, Nat.mod_eq_of_lt h]

/-! ### Spans -/

/-- A span starts at place `n` of the stream and lies inside the buffer. -/
structure Span.At (p : Span) (n : ℕ) : Prop where
  off : p.off.toNat = n % ringCap.toNat
  inside : p.off.toNat + p.len.toNat ≤ ringCap.toNat

def Span.Covers (p : Span) (i : ℕ) : Prop := p.off.toNat ≤ i ∧ i < p.off.toNat + p.len.toNat

section Spans

variable {r : Ring} {p q : Span} {h t n m : ℕ}

theorem Span.At.mod_eq (hp : p.At n) {i : ℕ} (hi : i < p.len.toNat) :
    (n + i) % ringCap.toNat = p.off.toNat + i := by
  have hin := hp.inside
  rw [hp.off]
  exact add_mod_ringCap (by rw [← hp.off]; omega)

theorem toNat_until (n : ℕ) :
    (ringCap - (UInt64.ofNat n &&& ringMask)).toNat = ringCap.toNat - n % ringCap.toNat := by
  have hlt := Nat.mod_lt n ringCap_pos
  rw [UInt64.toNat_sub_of_le, toNat_ofNat_and_ringMask]
  rw [UInt64.le_iff_toNat_le, toNat_ofNat_and_ringMask]
  exact hlt.le

theorem Span.at_of_min (n : ℕ) (a : UInt64) :
    Span.At ⟨.ofNat n &&& ringMask, if a < ringCap - (.ofNat n &&& ringMask) then a
      else ringCap - (.ofNat n &&& ringMask)⟩ n := by
  have hlt := Nat.mod_lt n ringCap_pos
  refine ⟨toNat_ofNat_and_ringMask n, ?_⟩
  dsimp only
  rw [toNat_ofNat_and_ringMask]
  split_ifs with ha
  · rw [UInt64.lt_iff_toNat_lt, toNat_until] at ha
    omega
  · rw [toNat_until]
    omega

theorem writable_at (hhead : r.head = .ofNat h) (htail : r.tail = .ofNat t) (hle : t ≤ h)
    (hcap : h ≤ t + ringCap.toNat) :
    r.writable.At h ∧ h + r.writable.len.toNat ≤ t + ringCap.toNat := by
  constructor
  · rw [Ring.writable, hhead, htail]
    exact Span.at_of_min h _
  · have hused : r.used = h - t := by
      rw [Ring.used, hhead, htail]
      exact toNat_ofNat_sub hle hcap
    have hfree := Ring.used_add_writable (r := r) (by omega)
    omega

theorem readable_at (hhead : r.head = .ofNat h) (htail : r.tail = .ofNat t) (hle : t ≤ h)
    (hcap : h ≤ t + ringCap.toNat) : r.readable.At t ∧ t + r.readable.len.toNat ≤ h := by
  constructor
  · rw [Ring.readable, hhead, htail]
    exact Span.at_of_min t _
  · have hused : r.used = h - t := by
      rw [Ring.used, hhead, htail]
      exact toNat_ofNat_sub hle hcap
    have hread := Ring.readable_le_used r
    omega

theorem Span.At.disjoint (hp : p.At n) (hq : q.At m) (hle : m + q.len.toNat ≤ n)
    (hcap : n + p.len.toNat ≤ m + ringCap.toNat) (i : ℕ) : ¬ (p.Covers i ∧ q.Covers i) := by
  rintro ⟨⟨hpl, hpu⟩, hql, hqu⟩
  have hi := hp.mod_eq (i := i - p.off.toNat) (by omega)
  have hj := hq.mod_eq (i := i - q.off.toNat) (by omega)
  exact mod_ringCap_ne (i := m + (i - q.off.toNat)) (j := n + (i - p.off.toNat)) (by omega)
    (by omega) (by omega)

end Spans

/-! ### The machine -/

/-- Where the producer is. -/
inductive ProdAt where
  | idle
  /-- It has loaded `head`. -/
  | loaded (h : UInt64)
  /-- It has a span. -/
  | span (p : Span)

/-- Where the consumer is. -/
inductive ConsAt where
  | idle
  /-- It has loaded `head`. -/
  | loaded (h : UInt64)
  /-- It has a span. -/
  | span (p : Span)
  /-- It has taken bytes from the start of its span. -/
  | taken (p : Span) (bs : Bytes)

/-- A ring with its producer and its consumer. -/
structure Spsc where
  ring : Ring
  prod : ProdAt
  cons : ConsAt
  produced : Bytes
  consumed : Bytes

/-- The steps of the two. -/
inductive SpscAct where
  /-- The producer loads `head`. -/
  | pLoad
  /-- The producer loads `tail`: the end of `ring_writable`. -/
  | pSpan
  /-- The producer fills the start of its span. -/
  | fill (bs : Bytes)
  /-- `ring_pcommit`. -/
  | pcommit (n : UInt64)
  /-- The consumer loads `head`. -/
  | cLoad
  /-- The consumer loads `tail`: the end of `ring_readable`. -/
  | cSpan
  /-- The consumer takes the start of its span. -/
  | take (n : UInt64)
  /-- `ring_ccommit`. -/
  | ccommit (n : UInt64)

def Ring.seen (r : Ring) (h : UInt64) : Ring := { r with head := h }

/-- The loads, stores and copies of the two. -/
inductive SpscStep : Spsc → SpscAct → Spsc → Prop
  | pLoad {s : Spsc} : s.prod = .idle →
      SpscStep s .pLoad { s with prod := .loaded s.ring.head }
  | pSpan {s : Spsc} {h : UInt64} : s.prod = .loaded h →
      SpscStep s .pSpan { s with prod := .span (s.ring.seen h).writable }
  | fill {s : Spsc} {p : Span} {bs : Bytes} : s.prod = .span p → bs.length ≤ p.len.toNat →
      SpscStep s (.fill bs) { s with ring := s.ring.fill p bs }
  | pcommit {s : Spsc} {p : Span} {n : UInt64} : s.prod = .span p → n ≤ p.len →
      SpscStep s (.pcommit n)
        { s with
          ring := s.ring.pcommit n
          prod := .idle
          produced := s.produced ++ s.ring.bytes p n }
  | cLoad {s : Spsc} : s.cons = .idle →
      SpscStep s .cLoad { s with cons := .loaded s.ring.head }
  | cSpan {s : Spsc} {h : UInt64} : s.cons = .loaded h →
      SpscStep s .cSpan { s with cons := .span (s.ring.seen h).readable }
  | take {s : Spsc} {p : Span} {n : UInt64} : s.cons = .span p → n ≤ p.len →
      SpscStep s (.take n) { s with cons := .taken p (s.ring.bytes p n) }
  | ccommit {s : Spsc} {p : Span} {bs : Bytes} {n : UInt64} : s.cons = .taken p bs →
      n.toNat ≤ bs.length →
      SpscStep s (.ccommit n)
        { s with
          ring := s.ring.ccommit n
          cons := .idle
          consumed := s.consumed ++ bs.take n.toNat }

def spscMachine : Machine Spsc SpscAct := ⟨SpscStep⟩

def Spsc.new : Spsc := ⟨.new, .idle, .idle, [], []⟩

def Spsc.fifo (s : Spsc) : Fifo UInt8 :=
  ⟨s.produced.drop s.consumed.length, s.produced, s.consumed⟩

/-! ### The invariant -/

def Spsc.prodSpan (s : Spsc) : Option Span :=
  match s.prod with
  | .span p => some p
  | _ => none

def Spsc.consSpan (s : Spsc) : Option Span :=
  match s.cons with
  | .span p | .taken p _ => some p
  | _ => none

def ProdOk (s : Spsc) : ProdAt → Prop
  | .idle => True
  | .loaded h => h = s.ring.head
  | .span p => p.At s.produced.length ∧
      s.produced.length + p.len.toNat ≤ s.consumed.length + ringCap.toNat

/-- What holds where the consumer is: its span lies within the stream, and it took what comes
next. -/
def ConsOk (s : Spsc) : ConsAt → Prop
  | .idle => True
  | .loaded h => ∃ n, h = .ofNat n ∧ s.consumed.length ≤ n ∧ n ≤ s.produced.length
  | .span p => p.At s.consumed.length ∧ s.consumed.length + p.len.toNat ≤ s.produced.length
  | .taken p bs =>
    (p.At s.consumed.length ∧ s.consumed.length + p.len.toNat ≤ s.produced.length) ∧
      bs.length ≤ p.len.toNat ∧ bs <+: s.produced.drop s.consumed.length

/-- What holds along every run. -/
structure Spsc.Ok (s : Spsc) : Prop where
  fifo : s.fifo.Ok ringCap.toNat
  head : s.ring.head = .ofNat s.produced.length
  tail : s.ring.tail = .ofNat s.consumed.length
  /-- What is queued is in the buffer. -/
  content : ∀ i, s.consumed.length ≤ i → i < s.produced.length →
    s.produced[i]? = some (s.ring.buf (i % ringCap.toNat))
  prod : ProdOk s s.prod
  cons : ConsOk s s.cons

namespace Spsc.Ok

variable {s s' : Spsc} {l : SpscAct}

theorem le (hok : s.Ok) : s.consumed.length ≤ s.produced.length := by
  have hlen := congrArg length hok.fifo.stream
  rw [length_append] at hlen
  exact Nat.le.intro hlen.symm

theorem le_add_cap (hok : s.Ok) : s.produced.length ≤ s.consumed.length + ringCap.toNat := by
  have hlen : (s.produced.drop s.consumed.length).length ≤ ringCap.toNat := hok.fifo.bounded
  rw [length_drop] at hlen
  omega

theorem used_eq (hok : s.Ok) : s.ring.used = s.produced.length - s.consumed.length := by
  rw [Ring.used, hok.head, hok.tail]
  exact toNat_ofNat_sub hok.le hok.le_add_cap

theorem prodSpan_at (hok : s.Ok) {p : Span} (hp : s.prodSpan = some p) :
    p.At s.produced.length ∧
      s.produced.length + p.len.toNat ≤ s.consumed.length + ringCap.toNat := by
  have hprod := hok.prod
  rw [Spsc.prodSpan] at hp
  split at hp
  next q hpc =>
    cases hp
    rwa [hpc] at hprod
  next => cases hp

theorem consSpan_at (hok : s.Ok) {q : Span} (hq : s.consSpan = some q) :
    q.At s.consumed.length ∧ s.consumed.length + q.len.toNat ≤ s.produced.length := by
  have hcons := hok.cons
  rw [Spsc.consSpan] at hq
  split at hq
  next p hpc =>
    cases hq
    rwa [hpc] at hcons
  next p bs hpc =>
    cases hq
    rw [hpc] at hcons
    exact hcons.1
  next => cases hq

theorem bytes_isPrefix (hok : s.Ok) {p : Span} {n : UInt64} (hp : p.At s.consumed.length)
    (hfilled : s.consumed.length + p.len.toNat ≤ s.produced.length) (hn : n ≤ p.len) :
    s.ring.bytes p n <+: s.produced.drop s.consumed.length := by
  have hn := UInt64.le_iff_toNat_le.mp hn
  rw [prefix_iff_eq_take]
  refine ext_getElem? fun i => ?_
  rw [Ring.bytes, ByteStore.length_slice]
  rcases Nat.lt_or_ge i n.toNat with hi | hi
  · rw [ByteStore.getElem?_slice _ _ hi, List.getElem?_take_of_lt hi, List.getElem?_drop,
      hok.content _ (by omega) (by omega), hp.mod_eq (by omega)]
  · rw [List.getElem?_eq_none (by simpa using hi),
      List.getElem?_eq_none (by rw [length_take]; omega)]

theorem fifo_step (hok : s.Ok) (h : SpscStep s l s') :
    s'.fifo = s.fifo ∨ ∃ a, s.fifo.step ringCap.toNat a = some s'.fifo := by
  cases h with
  | pLoad | pSpan | fill | cLoad | cSpan | take => exact .inl rfl
  | @pcommit p n hpc hn =>
    have hle := hok.le
    obtain ⟨-, hfree⟩ : ProdOk s (.span p) := hpc ▸ hok.prod
    have hn := UInt64.le_iff_toNat_le.mp hn
    refine .inr ⟨.push (s.ring.bytes p n), ?_⟩
    rw [Fifo.step, if_pos]
    · simp only [Spsc.fifo, drop_append_of_le_length hle]
    · simp only [Spsc.fifo, length_drop, Ring.bytes, ByteStore.length_slice]
      omega
  | @ccommit p bs n hpc hn =>
    obtain ⟨-, -, hbs⟩ : ConsOk s (.taken p bs) := hpc ▸ hok.cons
    have htake : (s.produced.drop s.consumed.length).take n.toNat = bs.take n.toNat := by
      obtain ⟨t, ht⟩ := hbs
      rw [← ht, take_append_of_le_length hn]
    have hlen : bs.length ≤ s.fifo.queue.length := hbs.length_le
    refine .inr ⟨.pop n.toNat, ?_⟩
    rw [Fifo.step, if_pos (hn.trans hlen)]
    simp only [Spsc.fifo, htake, drop_drop, length_append, length_take, Nat.min_eq_left hn]

theorem consOk_of_isPrefix {w : ConsAt} (hcons : s'.consumed = s.consumed)
    (hprod : s.produced <+: s'.produced) (hw : ConsOk s w) : ConsOk s' w := by
  have hle := hprod.length_le
  cases w with
  | idle => trivial
  | loaded h =>
    obtain ⟨n, rfl, hlo, hhi⟩ := hw
    exact ⟨n, rfl, hcons ▸ hlo, hhi.trans hle⟩
  | span p => exact ⟨hcons ▸ hw.1, by rw [hcons]; exact hw.2.trans hle⟩
  | taken p bs =>
    obtain ⟨⟨hp, hfilled⟩, hlen, hbs⟩ := hw
    refine ⟨⟨hcons ▸ hp, by rw [hcons]; exact hfilled.trans hle⟩, hlen, ?_⟩
    rw [hcons]
    exact hbs.trans (hprod.drop _)

theorem prodOk_of_le {w : ProdAt} (hhead : s'.ring.head = s.ring.head)
    (hprod : s'.produced = s.produced) (hle : s.consumed.length ≤ s'.consumed.length)
    (hw : ProdOk s w) : ProdOk s' w := by
  cases w with
  | idle => trivial
  | loaded h => exact hw.trans hhead.symm
  | span p =>
    obtain ⟨hp, hfree⟩ := hw
    refine ⟨hprod ▸ hp, ?_⟩
    rw [hprod]
    omega

theorem content_fill {p : Span} {bs : Bytes} (hp : p.At s.produced.length)
    (hfree : s.produced.length + p.len.toNat ≤ s.consumed.length + ringCap.toNat)
    (hlen : bs.length ≤ p.len.toNat) {i : ℕ} (hlo : s.consumed.length ≤ i)
    (hhi : i < s.produced.length) :
    (s.ring.fill p bs).buf (i % ringCap.toNat) = s.ring.buf (i % ringCap.toNat) := by
  refine ByteStore.overwrite_of_notMem _ ?_
  by_contra hin
  obtain ⟨hge, hlt⟩ := not_or.mp hin
  -- the place of the span with this offset would be less than `RING_CAP` further on
  have hk := hp.mod_eq (i := i % ringCap.toNat - p.off.toNat) (by omega)
  exact mod_ringCap_ne (i := i)
    (j := s.produced.length + (i % ringCap.toNat - p.off.toNat)) (by omega) (by omega) (by omega)

theorem content_pcommit (hok : s.Ok) {p : Span} {n : UInt64} (hp : p.At s.produced.length)
    (hn : n ≤ p.len) {i : ℕ} (hlo : s.consumed.length ≤ i)
    (hhi : i < (s.produced ++ s.ring.bytes p n).length) :
    (s.produced ++ s.ring.bytes p n)[i]? = some (s.ring.buf (i % ringCap.toNat)) := by
  have hn := UInt64.le_iff_toNat_le.mp hn
  rw [length_append, Ring.bytes, ByteStore.length_slice] at hhi
  rcases Nat.lt_or_ge i s.produced.length with hi | hi
  · rw [List.getElem?_append_left hi]
    exact hok.content i hlo hi
  · have hmod := hp.mod_eq (i := i - s.produced.length) (by omega)
    rw [Nat.add_sub_cancel' hi] at hmod
    rw [List.getElem?_append_right hi, Ring.bytes, ByteStore.getElem?_slice _ _ (by omega), hmod]

theorem ofNat_add_ofNat_toNat (a : ℕ) (n : UInt64) :
    UInt64.ofNat (a + n.toNat) = UInt64.ofNat a + n := by
  rw [UInt64.ofNat_add, UInt64.ofNat_toNat]

theorem step (hok : s.Ok) (h : SpscStep s l s') : s'.Ok := by
  have hfifo : s'.fifo.Ok ringCap.toNat := by
    rcases hok.fifo_step h with heq | ⟨a, ha⟩
    · exact heq ▸ hok.fifo
    · exact hok.fifo.step ha
  cases h with
  | pLoad hpc => exact ⟨hfifo, hok.head, hok.tail, hok.content, rfl, hok.cons⟩
  | @pSpan h hpc =>
    obtain rfl : h = s.ring.head := (hpc ▸ hok.prod : ProdOk s (.loaded h))
    have hspan := writable_at (r := s.ring) hok.head hok.tail hok.le hok.le_add_cap
    exact ⟨hfifo, hok.head, hok.tail, hok.content, hspan, hok.cons⟩
  | @fill p bs hpc hlen =>
    have hp : ProdOk s (.span p) := hpc ▸ hok.prod
    refine ⟨hfifo, hok.head, hok.tail, ?_, ?_, ?_⟩
    · intro i hlo hhi
      rw [content_fill hp.1 hp.2 hlen hlo hhi]
      exact hok.content i hlo hhi
    · exact prodOk_of_le (s := s) rfl rfl le_rfl hok.prod
    · exact consOk_of_isPrefix (s := s) rfl prefix_rfl hok.cons
  | @pcommit p n hpc hn =>
    have hp : ProdOk s (.span p) := hpc ▸ hok.prod
    refine ⟨hfifo, ?_, hok.tail, ?_, trivial, ?_⟩
    · simp only [Ring.pcommit, hok.head, length_append, Ring.bytes, ByteStore.length_slice,
        ofNat_add_ofNat_toNat]
    · exact fun i hlo hhi => hok.content_pcommit hp.1 hn hlo hhi
    · exact consOk_of_isPrefix (s := s) rfl (prefix_append ..) hok.cons
  | cLoad hpc =>
    refine ⟨hfifo, hok.head, hok.tail, hok.content, hok.prod, ?_⟩
    exact ⟨s.produced.length, hok.head, hok.le, le_rfl⟩
  | @cSpan h hpc =>
    -- the producer may have committed since `head` was loaded
    obtain ⟨n, rfl, hlo, hhi⟩ : ConsOk s (.loaded h) := hpc ▸ hok.cons
    have hcap := hok.le_add_cap
    obtain ⟨hp, hfilled⟩ := readable_at (r := s.ring.seen (.ofNat n)) rfl hok.tail hlo (by omega)
    exact ⟨hfifo, hok.head, hok.tail, hok.content, hok.prod, hp, hfilled.trans hhi⟩
  | @take p n hpc hn =>
    have hp : ConsOk s (.span p) := hpc ▸ hok.cons
    refine ⟨hfifo, hok.head, hok.tail, hok.content, hok.prod, hp, ?_, ?_⟩
    · rw [Ring.bytes, ByteStore.length_slice]
      exact UInt64.le_iff_toNat_le.mp hn
    · exact hok.bytes_isPrefix hp.1 hp.2 hn
  | @ccommit p bs n hpc hn =>
    have hlen : (s.consumed ++ bs.take n.toNat).length = s.consumed.length + n.toNat := by
      rw [length_append, length_take, Nat.min_eq_left hn]
    refine ⟨hfifo, hok.head, ?_, ?_, ?_, trivial⟩
    · simp only [Ring.ccommit, hok.tail, hlen, ofNat_add_ofNat_toNat]
    · intro i hlo hhi
      dsimp only at hlo
      exact hok.content i (by omega) hhi
    · exact prodOk_of_le (s := s) rfl rfl (by dsimp only; omega) hok.prod

end Spsc.Ok

/-! ### Every run -/

section Runs

variable {s : Spsc} {guard : Spsc → SpscAct → Prop}

theorem spscOk_new : Spsc.new.Ok where
  fifo := ⟨Nat.zero_le _, rfl⟩
  head := rfl
  tail := rfl
  content _ _ h := absurd h (Nat.not_lt_zero _)
  prod := trivial
  cons := trivial

theorem reach_spscOk (h : spscMachine.Reach guard .new s) : s.Ok :=
  h.invariant spscOk_new fun _ _ _ hok _ hs => hok.step hs

theorem reach_fifo (h : spscMachine.Reach guard .new s) :
    (Fifo.machine UInt8 ringCap.toNat).Reach (fun _ _ => True) .empty s.fifo := by
  refine h.simulation Spsc.fifo fun s l s' hreach _ hs => ?_
  rcases (reach_spscOk hreach).fifo_step hs with heq | ⟨a, ha⟩
  · exact .inl heq
  · exact .inr ⟨a, trivial, ha⟩

end Runs

end Anyfs.Proxy
