import Anyfs.Lib.Bytes
import Mathlib.Data.List.TakeWhile
import Mathlib.Data.Nat.Digits.Lemmas

/-!
# C strings

A C string is the list of its bytes without the terminating zero. Here are library functions on
them, among them `strtoul`/`strtol` in base ten with their white space, signs and saturation, for a
64-bit `long`.
-/

namespace CString

open List

def ascii (s : String) : Bytes := s.toList.map fun c => UInt8.ofNat c.toNat

def digitChar (d : ℕ) : UInt8 := UInt8.ofNat (48 + d)

/-- `%u` of `printf`. -/
def decimal (n : ℕ) : Bytes :=
  if n = 0 then [48] else (Nat.digits 10 n).reverse.map digitChar

/-- `%d` of `printf`. -/
def decimalInt (n : ℤ) : Bytes := if n < 0 then 45 :: decimal n.natAbs else decimal n.natAbs

def hexChar (d : ℕ) : UInt8 := if d < 10 then UInt8.ofNat (48 + d) else UInt8.ofNat (87 + d)

/-- `%08x` of `printf` on a 32-bit number. -/
def hex8 (n : UInt32) : Bytes :=
  (List.range 8).reverse.map fun i => hexChar (n.toNat / 16 ^ i % 16)

/-- `isdigit` in the C locale. -/
def isDigit (c : UInt8) : Bool := 48 ≤ c && c ≤ 57

/-- `isspace` in the C locale. -/
def isSpace (c : UInt8) : Bool := c == 32 || (9 ≤ c && c ≤ 13)

def digitsValue (ds : Bytes) : ℕ := ds.foldl (fun v c => v * 10 + (c.toNat - 48)) 0

def scanSign : Bytes → Bool × Bytes
  | 45 :: s => (true, s)
  | 43 :: s => (false, s)
  | s => (false, s)

/-- The sign, the digits and the rest that `strtoul` and `strtol` find after white space. -/
def scanNumber (s : Bytes) : Bool × Bytes × Bytes :=
  let r := scanSign (s.dropWhile isSpace)
  (r.1, r.2.takeWhile isDigit, r.2.dropWhile isDigit)

/-- `strtoul` in base ten: the value, and the end pointer. A number that does not fit
saturates, and a minus sign negates in the unsigned type. -/
def strtoul (s : Bytes) : UInt64 × Bytes :=
  let (neg, ds, rest) := scanNumber s
  if ds = [] then (0, s)
  else if 2 ^ 64 ≤ digitsValue ds then (UInt64.ofNat (2 ^ 64 - 1), rest)
  else (if neg then 0 - UInt64.ofNat (digitsValue ds) else UInt64.ofNat (digitsValue ds), rest)

/-- `strtol` in base ten: the value, and the end pointer, saturating at both ends. -/
def strtol (s : Bytes) : ℤ × Bytes :=
  let (neg, ds, rest) := scanNumber s
  if ds = [] then (0, s)
  else if neg then (max (-(digitsValue ds : ℤ)) (-2 ^ 63), rest)
  else (min (digitsValue ds : ℤ) (2 ^ 63 - 1), rest)

/-- `atoi`: the value of `strtol`, cast to `int`. -/
def atoi (s : Bytes) : ℤ := Int.bmod (strtol s).1 (2 ^ 32)

def Numeral (ds : Bytes) : Prop := ds ≠ [] ∧ ∀ c ∈ ds, isDigit c = true

/-- A number that `strtoul` and `strtol` read to the end of the text: blanks, a sign, digits. -/
def Scanned (s : Bytes) (neg : Bool) (ds : Bytes) : Prop :=
  ∃ ws sign, s = ws ++ (sign ++ ds) ∧ (∀ c ∈ ws, isSpace c = true) ∧
    (neg = false ∧ (sign = [] ∨ sign = [43]) ∨ neg = true ∧ sign = [45]) ∧ Numeral ds

/-- The value `strtoul` gives to a sign and digits. -/
def strtoulValue (neg : Bool) (ds : Bytes) : UInt64 :=
  if 2 ^ 64 ≤ digitsValue ds then UInt64.ofNat (2 ^ 64 - 1)
  else if neg then 0 - UInt64.ofNat (digitsValue ds) else UInt64.ofNat (digitsValue ds)

def cstr (b : Bytes) : Bytes := b.takeWhile (· != 0)

/-- `strchr`: what is before the first `c`, and what is after it. -/
def strchr (c : UInt8) : Bytes → Option (Bytes × Bytes)
  | [] => none
  | b :: s => if b = c then some ([], s) else (strchr c s).map fun p => (b :: p.1, p.2)

/-- What `snprintf` leaves in a buffer of `cap` bytes. -/
def snprintf (cap : ℕ) (s : Bytes) : Bytes := s.take (cap - 1)

variable {s ds : Bytes} {neg : Bool}

theorem snprintf_eq_self_iff {cap : ℕ} (h : 0 < cap ∨ s ≠ []) :
    snprintf cap s = s ↔ s.length < cap := by
  rw [snprintf, take_eq_self_iff]
  rcases h with h | h
  · omega
  · have hpos := length_pos_iff.mpr h
    omega

variable {c : UInt8}

theorem strchr_append {a : Bytes} (h : c ∉ a) (b : Bytes) :
    strchr c (a ++ c :: b) = some (a, b) := by
  induction a with
  | nil => simp [strchr]
  | cons x a ih =>
    rw [mem_cons, not_or] at h
    simp [strchr, Ne.symm h.1, ih h.2]

theorem strchr_eq_none (h : c ∉ s) : strchr c s = none := by
  induction s with
  | nil => rfl
  | cons x s ih =>
    rw [mem_cons, not_or] at h
    simp [strchr, Ne.symm h.1, ih h.2]

theorem strchr_cases (c : UInt8) (s : Bytes) :
    (c ∉ s ∧ strchr c s = none) ∨ ∃ a b, s = a ++ c :: b ∧ c ∉ a ∧ strchr c s = some (a, b) := by
  by_cases h : c ∈ s
  · obtain ⟨a, b, rfl, ha⟩ := eq_append_cons_of_mem h
    exact .inr ⟨a, b, rfl, ha, strchr_append ha b⟩
  · exact .inl ⟨h, strchr_eq_none h⟩

theorem cstr_eq_self_iff {d : Bytes} : cstr d = d ↔ 0 ∉ d := by
  rw [cstr, takeWhile_eq_self_iff]
  constructor
  · intro h h0
    simpa using h 0 h0
  · intro h c hc
    rw [bne_iff_ne]
    rintro rfl
    exact h hc

/-! ### Numbers that are printed and read back -/

theorem isDigit_digitChar {d : ℕ} (h : d < 10) : isDigit (digitChar d) = true := by
  revert d
  decide

theorem toNat_digitChar {d : ℕ} (h : d < 10) : (digitChar d).toNat - 48 = d := by
  revert d
  decide

theorem decimal_ne_nil (n : ℕ) : decimal n ≠ [] := by
  rw [decimal]
  split_ifs with h
  · exact cons_ne_nil _ _
  · simpa [Nat.digits_eq_nil_iff_eq_zero] using h

theorem isDigit_of_mem_decimal {n : ℕ} (h : c ∈ decimal n) : isDigit c = true := by
  rw [decimal] at h
  split_ifs at h with hn
  · rw [mem_singleton.mp h]
    decide
  · obtain ⟨d, hd, rfl⟩ := mem_map.mp h
    exact isDigit_digitChar (Nat.digits_lt_base (by decide) (mem_reverse.mp hd))

theorem digitsValue_decimal (n : ℕ) : digitsValue (decimal n) = n := by
  have hfold : ∀ ds : List ℕ, (∀ d ∈ ds, d < 10) →
      digitsValue (ds.reverse.map digitChar) = Nat.ofDigits 10 ds := by
    intro ds hds
    rw [digitsValue, foldl_map, foldl_reverse]
    induction ds with
    | nil => rfl
    | cons d ds ih =>
      have hd : d < 10 := hds d mem_cons_self
      rw [foldr_cons, ih fun e he => hds e (mem_cons_of_mem _ he), Nat.ofDigits_cons,
        toNat_digitChar hd]
      simp [Nat.mul_comm, Nat.add_comm]
  rw [decimal]
  split_ifs with hn
  · rw [hn]
    decide
  · rw [hfold _ fun d hd => Nat.digits_lt_base (by decide) hd, Nat.ofDigits_digits]

theorem decimal_of_head_eq {n : ℕ} (h : (decimal n).head? = some 48) : decimal n = [48] := by
  rw [decimal] at h ⊢
  split_ifs at h ⊢ with hn
  · rfl
  · have hne : Nat.digits 10 n ≠ [] := Nat.digits_ne_nil_iff_ne_zero.mpr hn
    have hlast := Nat.getLast_digit_ne_zero 10 hn
    have hlt : (Nat.digits 10 n).getLast hne < 10 :=
      Nat.digits_lt_base (by decide) (getLast_mem hne)
    rw [List.head?_map, List.head?_reverse, List.getLast?_eq_getLast_of_ne_nil hne] at h
    have hdigit := toNat_digitChar hlt
    rw [Option.some.inj h] at hdigit
    exact absurd hdigit.symm hlast

theorem length_decimal_le {n m : ℕ} (hm : 0 < m) (h : n < 10 ^ m) : (decimal n).length ≤ m := by
  rw [decimal]
  split_ifs with hn
  · exact hm
  · rw [length_map, length_reverse, Nat.digits_length_le_iff (by decide)]
    exact h

theorem isDigit_bounds (h : isDigit c = true) : 48 ≤ c.toNat ∧ c.toNat ≤ 57 := by
  simp only [isDigit, Bool.and_eq_true, decide_eq_true_eq, UInt8.le_iff_toNat_le] at h
  exact h

theorem isSpace_of_isDigit (h : isDigit c = true) : isSpace c = false := by
  obtain ⟨hlo, -⟩ := isDigit_bounds h
  have hblank : c ≠ 32 := by
    rintro rfl
    exact absurd hlo (by decide)
  have hctl : ¬ c ≤ 13 := fun hle => by
    have : c.toNat ≤ 13 := hle
    omega
  simp [isSpace, hblank, hctl]

theorem scanNumber_digits {rest : Bytes} (hne : ds ≠ []) (hds : ∀ c ∈ ds, isDigit c = true)
    (hrest : ∀ c ∈ rest.head?, isDigit c = false) :
    scanNumber (ds ++ rest) = (false, ds, rest) := by
  have htake : (ds ++ rest).takeWhile isDigit = ds := by
    rw [takeWhile_append_of_pos hds]
    cases rest with
    | nil => simp
    | cons c rest => simp [hrest c rfl]
  have hdrop : (ds ++ rest).dropWhile isDigit = rest := by
    rw [dropWhile_append_of_pos hds]
    cases rest with
    | nil => rfl
    | cons c rest => simp [hrest c rfl]
  -- nothing is skipped before the first digit
  obtain ⟨c, ds, rfl⟩ := exists_cons_of_ne_nil hne
  have hspace : isSpace c = false := isSpace_of_isDigit (hds c mem_cons_self)
  obtain ⟨hlo, -⟩ := isDigit_bounds (hds c mem_cons_self)
  have hsign : scanSign (c :: (ds ++ rest)) = (false, c :: (ds ++ rest)) := by
    rw [scanSign]
    · intro s hs
      obtain ⟨rfl, -⟩ := List.cons.inj hs
      revert hlo
      decide
    · intro s hs
      obtain ⟨rfl, -⟩ := List.cons.inj hs
      revert hlo
      decide
  rw [cons_append] at htake hdrop
  rw [scanNumber, cons_append, dropWhile_cons_of_neg (by simp [hspace]), hsign, htake, hdrop]

theorem strtoul_decimal {n : ℕ} {rest : Bytes} (hn : n < 2 ^ 64)
    (hrest : ∀ c ∈ rest.head?, isDigit c = false) :
    strtoul (decimal n ++ rest) = (UInt64.ofNat n, rest) := by
  have hscan := scanNumber_digits (decimal_ne_nil n) (fun _ => isDigit_of_mem_decimal) hrest
  rw [strtoul, hscan]
  dsimp only
  rw [if_neg (decimal_ne_nil n), digitsValue_decimal, if_neg (by omega), if_neg (by decide)]

theorem Numeral.strtol_append {rest : Bytes} (h : Numeral ds)
    (hrest : ∀ c ∈ rest.head?, isDigit c = false) :
    CString.strtol (ds ++ rest) = (min (digitsValue ds : ℤ) (2 ^ 63 - 1), rest) := by
  rw [CString.strtol, scanNumber_digits h.1 h.2 hrest]
  dsimp only
  rw [if_neg h.1, if_neg Bool.false_ne_true]

theorem decimal_injective : Function.Injective decimal := fun m n h => by
  rw [← digitsValue_decimal m, h, digitsValue_decimal]

theorem numeral_decimal (n : ℕ) : Numeral (decimal n) :=
  ⟨decimal_ne_nil n, fun _ => isDigit_of_mem_decimal⟩

/-! ### Numbers that are read to the end -/

theorem Numeral.scanned (h : Numeral ds) : Scanned ds false ds :=
  ⟨[], [], rfl, by simp, .inl ⟨rfl, .inl rfl⟩, h⟩

theorem scanSign_append {sign : Bytes} (hds : Numeral ds)
    (hsign : neg = false ∧ (sign = [] ∨ sign = [43]) ∨ neg = true ∧ sign = [45]) :
    scanSign (sign ++ ds) = (neg, ds) := by
  obtain ⟨rfl, rfl | rfl⟩ | ⟨rfl, rfl⟩ := hsign
  · obtain ⟨c, ds, rfl⟩ := exists_cons_of_ne_nil hds.1
    have hc : isDigit c = true := hds.2 c mem_cons_self
    rw [nil_append, scanSign]
    · rintro s hs
      obtain ⟨rfl, -⟩ := List.cons.inj hs
      exact absurd hc (by decide)
    · rintro s hs
      obtain ⟨rfl, -⟩ := List.cons.inj hs
      exact absurd hc (by decide)
  · rfl
  · rfl

theorem dropWhile_isSpace_append {sign : Bytes} (hds : Numeral ds)
    (hsign : neg = false ∧ (sign = [] ∨ sign = [43]) ∨ neg = true ∧ sign = [45]) :
    (sign ++ ds).dropWhile isSpace = sign ++ ds := by
  obtain ⟨rfl, rfl | rfl⟩ | ⟨rfl, rfl⟩ := hsign
  · obtain ⟨c, ds, rfl⟩ := exists_cons_of_ne_nil hds.1
    rw [nil_append, dropWhile_cons_of_neg]
    rw [isSpace_of_isDigit (hds.2 c mem_cons_self)]
    exact Bool.false_ne_true
  · exact dropWhile_cons_of_neg (by decide)
  · exact dropWhile_cons_of_neg (by decide)

theorem scanned_iff : Scanned s neg ds ↔ scanNumber s = (neg, ds, []) ∧ ds ≠ [] := by
  constructor
  · rintro ⟨ws, sign, rfl, hws, hsign, hds⟩
    refine ⟨?_, hds.1⟩
    rw [scanNumber, dropWhile_append_of_pos hws, dropWhile_isSpace_append hds hsign,
      scanSign_append hds hsign]
    dsimp only
    rw [takeWhile_eq_self_iff.mpr hds.2, dropWhile_eq_nil_iff.mpr hds.2]
  · rintro ⟨h, hne⟩
    simp only [scanNumber, Prod.mk.injEq] at h
    obtain ⟨hneg, htake, hdrop⟩ := h
    -- what follows the white space is a sign and digits, for each of the three cases of the sign
    have hsplit : ∀ r : Bytes, (scanSign r).1 = neg → (scanSign r).2 = ds → ∃ sign, r = sign ++ ds ∧
          (neg = false ∧ (sign = [] ∨ sign = [43]) ∨ neg = true ∧ sign = [45]) := by
      intro r h₁ h₂
      fun_cases scanSign r with
      | case1 s => exact ⟨[45], by rw [← h₂]; rfl, .inr ⟨h₁.symm, rfl⟩⟩
      | case2 s => exact ⟨[43], by rw [← h₂]; rfl, .inl ⟨h₁.symm, .inr rfl⟩⟩
      | case3 _ hminus hplus =>
        rw [scanSign] at h₁ h₂
        · exact ⟨[], h₂, .inl ⟨h₁.symm, .inl rfl⟩⟩
        all_goals assumption
    have hrest : (scanSign (s.dropWhile isSpace)).2 = ds := by
      rw [← takeWhile_append_dropWhile (p := isDigit) (l := (scanSign _).2), htake, hdrop,
        append_nil]
    obtain ⟨sign, hr, hsign⟩ := hsplit _ hneg hrest
    refine ⟨s.takeWhile isSpace, sign, ?_, ?_, hsign, hne, ?_⟩
    · rw [← hr, takeWhile_append_dropWhile]
    · exact fun c hc => mem_takeWhile_imp hc
    · exact fun c hc => mem_takeWhile_imp (htake ▸ hc)

theorem Scanned.numeral (h : Scanned s neg ds) : Numeral ds := by
  obtain ⟨_, _, _, _, _, hds⟩ := h
  exact hds

theorem Scanned.ne_nil (h : Scanned s neg ds) : s ≠ [] := by
  obtain ⟨ws, sign, rfl, -, -, hds, -⟩ := h
  simp [hds]

theorem Scanned.unique {neg' : Bool} {ds' : Bytes} (h : Scanned s neg ds)
    (h' : Scanned s neg' ds') : neg = neg' ∧ ds = ds' := by
  have heq := (scanned_iff.mp h).1.symm.trans (scanned_iff.mp h').1
  simp only [Prod.mk.injEq] at heq
  exact ⟨heq.1, heq.2.1⟩

theorem Scanned.strtoul (h : Scanned s neg ds) : strtoul s = (strtoulValue neg ds, []) := by
  obtain ⟨hscan, hne⟩ := scanned_iff.mp h
  rw [CString.strtoul, hscan, strtoulValue]
  dsimp only
  rw [if_neg hne]
  split_ifs <;> rfl

theorem exists_scanned_of_strtoul (hs : s ≠ []) (h : (strtoul s).2 = []) :
    ∃ neg ds, Scanned s neg ds := by
  obtain ⟨neg, ds, rest, hscan⟩ : ∃ neg ds rest, scanNumber s = (neg, ds, rest) := ⟨_, _, _, rfl⟩
  rw [strtoul, hscan] at h
  dsimp only at h
  have hrest : ds ≠ [] → rest = [] := by
    intro hne
    rw [if_neg hne] at h
    split_ifs at h <;> exact h
  have hne : ds ≠ [] := by
    intro hnil
    rw [if_pos hnil] at h
    exact hs h
  exact ⟨neg, ds, scanned_iff.mpr ⟨by rw [hscan, hrest hne], hne⟩⟩

theorem strtoulValue_eq_zero : strtoulValue neg ds = 0 ↔ digitsValue ds = 0 := by
  rw [strtoulValue]
  split_ifs with hbig hneg
  · exact iff_of_false (by decide) (by omega)
  · have hlt : digitsValue ds < 2 ^ 64 := Nat.lt_of_not_le hbig
    rw [← UInt64.toNat_inj, UInt64.toNat_sub, UInt64.toNat_ofNat_of_lt' hlt, UInt64.toNat_zero]
    omega
  · have hlt : digitsValue ds < 2 ^ 64 := Nat.lt_of_not_le hbig
    rw [← UInt64.toNat_inj, UInt64.toNat_ofNat_of_lt' hlt, UInt64.toNat_zero]

theorem strtoulValue_of_lt (h : digitsValue ds < 2 ^ 64) :
    strtoulValue false ds = UInt64.ofNat (digitsValue ds) := by
  rw [strtoulValue, if_neg (by omega), if_neg Bool.false_ne_true]

theorem Scanned.strtol (h : Scanned s neg ds) :
    strtol s = (if neg then max (-(digitsValue ds : ℤ)) (-2 ^ 63)
      else min (digitsValue ds : ℤ) (2 ^ 63 - 1), []) := by
  obtain ⟨hscan, hne⟩ := scanned_iff.mp h
  rw [CString.strtol, hscan]
  dsimp only
  rw [if_neg hne]
  split_ifs <;> rfl

theorem Numeral.strtol (h : Numeral ds) :
    strtol ds = (min (digitsValue ds : ℤ) (2 ^ 63 - 1), []) := h.scanned.strtol

theorem atoi_decimalInt {n : ℤ} (hlo : -2 ^ 31 ≤ n) (hhi : n < 2 ^ 31) :
    atoi (decimalInt n) = n := by
  have hnum : Numeral (decimal n.natAbs) := numeral_decimal _
  rw [atoi, decimalInt]
  split_ifs with hneg
  · have hscan : Scanned (45 :: decimal n.natAbs) true (decimal n.natAbs) :=
      ⟨[], [45], rfl, by simp, .inr ⟨rfl, rfl⟩, hnum⟩
    rw [hscan.strtol, digitsValue_decimal, if_pos rfl, max_eq_left (by omega)]
    rw [show -(n.natAbs : ℤ) = n by omega]
    exact Int.bmod_eq_of_le (by omega) (by omega)
  · rw [hnum.strtol, digitsValue_decimal, min_eq_left (by omega)]
    rw [show (n.natAbs : ℤ) = n by omega]
    exact Int.bmod_eq_of_le (by omega) (by omega)

theorem numeral_of_strtol {r : Bytes} (hc : isDigit c = true)
    (h : (strtol (c :: r)).2 = []) : Numeral (c :: r) := by
  have hhead : ∀ b ∈ ((c :: r).dropWhile isDigit).head?, isDigit b = false := by
    intro b hb
    have hnot := List.head?_dropWhile_not isDigit (c :: r)
    rw [hb] at hnot
    simpa using hnot
  have hdigits : (c :: r).takeWhile isDigit ≠ [] := by simp [hc]
  have hscan := scanNumber_digits hdigits (fun _ => mem_takeWhile_imp) hhead
  rw [takeWhile_append_dropWhile] at hscan
  have hend : (c :: r).dropWhile isDigit = [] := by
    rw [strtol, hscan] at h
    dsimp only at h
    rwa [if_neg hdigits, if_neg Bool.false_ne_true] at h
  exact ⟨cons_ne_nil _ _, dropWhile_eq_nil_iff.mp hend⟩

end CString
