import Anyfs.Lib.CString

/-!
# The kernel's `printf`

`format` of `lkl_elf_glue.c` reads its arguments one by one from what was passed; to read an
argument of another type or behind the last one, or a string behind the end of its array, is
undefined (`none`). Against it stands the grammar of the standard's `printf`.
-/

namespace Anyfs.Macho

open List Option CString

/-- The types that arguments are passed with. On LP64 all integer types of eight bytes are
`long`. -/
inductive ArgType where
  | int
  | long
  | pointer
  | double
  | longDouble
  deriving DecidableEq

/-- An argument as it is passed. -/
inductive Arg where
  | int (v : BitVec 32)
  | long (v : BitVec 64)
  | pointer (v : BitVec 64)
  | double (v : BitVec 64)
  | longDouble (v : BitVec 128)

def Arg.signed : Arg → ℤ
  | .int v => v.toInt
  | .long v => v.toInt
  | _ => 0

def Arg.unsigned : Arg → ℕ
  | .int v => v.toNat
  | .long v => v.toNat
  | .pointer v => v.toNat
  | _ => 0

def Arg.type : Arg → ArgType
  | .int _ => .int
  | .long _ => .long
  | .pointer _ => .pointer
  | .double _ => .double
  | .longDouble _ => .longDouble

/-! ### The formatter -/

/-- `va_arg(ap, int)`. -/
def vaInt : List Arg → Option (BitVec 32 × List Arg)
  | .int v :: args => some (v, args)
  | _ => none

/-- `va_arg` of a pointer. -/
def vaPointer : List Arg → Option (BitVec 64 × List Arg)
  | .pointer v :: args => some (v, args)
  | _ => none

/-- `va_arg` of a `long long` if `wide`, and otherwise of an `int` that is extended. -/
def vaInteger (wide : Bool) (extend : BitVec 32 → BitVec 64) :
    List Arg → Option (BitVec 64 × List Arg)
  | .long v :: args => if wide then some (v, args) else none
  | .int v :: args => if wide then none else some (extend v, args)
  | _ => none

/-- `put`: the buffer has 512 bytes, the last one for the terminator. -/
def put (o : Bytes) (c : UInt8) : Bytes := if o.length < 511 then o ++ [c] else o

/-- `put_str` of a string. -/
def putStr (o s : Bytes) : Bytes := s.foldl put o

/-- `put_str` of a pointer. `array` is what stands from an address up to the end of its array. -/
def putPointer (array : ℕ → Bytes) (o : Bytes) (v : BitVec 64) : Option Bytes :=
  if v = 0 then some (putStr o (ascii "(null)"))
  else if 0 ∈ array v.toNat then some (putStr o (cstr (array v.toNat)))
  else none

/-- The string `digit` of `put_num`. -/
def digitTable (upper : Bool) : Bytes :=
  ascii (if upper then "0123456789ABCDEF" else "0123456789abcdef")

/-- The first loop of `put_num`, with the places that are left in `digits`. -/
def numDigits (table : Bytes) (base : ℕ) : ℕ → ℕ → Bytes
  | 0, _ => []
  | n + 1, v =>
    table.getD (v % base) 0 :: if v / base = 0 then [] else numDigits table base n (v / base)

def putNum (o : Bytes) (v : BitVec 64) (base : ℕ) (upper : Bool) : Bytes :=
  putStr o (numDigits (digitTable upper) base 24 v.toNat).reverse

def putSigned (o : Bytes) (v : BitVec 64) : Bytes :=
  if v.toInt < 0 then putNum (put o 45) (-v) 10 false else putNum o v 10 false

def isFlag (c : UInt8) : Bool := c = 45 || c = 43 || c = 32 || c = 35 || c = 48

/-- `skip_count`: the stars, and the rest. -/
def skipCount : Bytes → ℕ × Bytes
  | [] => (0, [])
  | c :: p => if c = 42 then (1, p) else (0, (c :: p).dropWhile isDigit)

def skipPrecision : Bytes → ℕ × Bytes
  | [] => (0, [])
  | c :: p => if c = 46 then skipCount p else (0, c :: p)

/-- A length modifier: whether it makes the argument `wide`, and the rest. -/
def skipModifier : Bytes → Bool × Bytes
  | 104 :: 104 :: p => (false, p)
  | 104 :: p => (false, p)
  | 108 :: 108 :: p => (true, p)
  | 108 :: p => (true, p)
  | 122 :: p => (true, p)
  | 116 :: p => (true, p)
  | 106 :: p => (true, p)
  | p => (false, p)

/-- What stands between `%` and the conversion: the stars, `wide`, and the rest. -/
def scanSpec (p : Bytes) : ℕ × Bool × Bytes :=
  let width := skipCount (p.dropWhile isFlag)
  let precision := skipPrecision width.2
  (width.1 + precision.1, skipModifier precision.2)

def supported : Bytes := ascii "sdiuxXpc"

def skipStars : ℕ → List Arg → Option (List Arg)
  | 0, args => some args
  | n + 1, args => (vaInt args).bind fun r => skipStars n r.2

/-- One conversion of the formatter. -/
def convert (array : ℕ → Bytes) (c : UInt8) (wide : Bool) (args : List Arg) (o : Bytes) :
    Option (Bytes × List Arg) :=
  if c = 115 then
    (vaPointer args).bind fun r => (putPointer array o r.1).map fun o => (o, r.2)
  else if c = 99 then (vaInt args).map fun r => (put o (UInt8.ofNat r.1.toNat), r.2)
  else if c = 112 then
    (vaPointer args).map fun r => (putNum (putStr o (ascii "0x")) r.1 16 false, r.2)
  else if c = 100 ∨ c = 105 then
    (vaInteger wide (·.signExtend 64) args).map fun r => (putSigned o r.1, r.2)
  else
    (vaInteger wide (·.setWidth 64) args).map fun r =>
      (putNum o r.1 (if c = 117 then 10 else 16) (c = 88), r.2)

/-- The loop of `format`. The first argument bounds the number of rounds. -/
def formatLoop (array : ℕ → Bytes) : ℕ → Bytes → List Arg → Bytes → Option (Bytes × List Arg)
  | 0, _, _, _ => none
  | _ + 1, [], args, o => some (o, args)
  | fuel + 1, c :: p, args, o =>
    if c ≠ 37 then formatLoop array fuel p args (put o c)
    else if p.head? = some 37 then formatLoop array fuel p.tail args (put o 37)
    else
      let spec := scanSpec p
      match spec.2.2 with
      | [] => some (putStr o (c :: p), args)
      | conv :: rest =>
        if conv ∈ supported then
          (skipStars spec.1 args).bind fun args =>
            (convert array conv spec.2.1 args o).bind fun r => formatLoop array fuel rest r.2 r.1
        else some (putStr o (c :: p), args)

/-- `format`: the buffer up to the terminator, the result, and the arguments that were not taken. -/
def format (array : ℕ → Bytes) (fmt : Bytes) (args : List Arg) : Option (Bytes × ℕ × List Arg) :=
  (formatLoop array (fmt.length + 1) fmt args []).map fun r => (r.1 ++ [0], r.1.length, r.2)

/-! ### The standard's `printf` -/

/-- The length modifiers. -/
inductive LengthMod where
  | none | hh | h | l | ll | j | z | t | L
  deriving DecidableEq

def LengthMod.text : LengthMod → Bytes
  | .none => []
  | .hh => [104, 104]
  | .h => [104]
  | .l => [108]
  | .ll => [108, 108]
  | .j => [106]
  | .z => [122]
  | .t => [116]
  | .L => [76]

/-- The conversion specifiers. -/
inductive Conv where
  | d | i | o | u | x | X | f | F | e | E | g | G | a | A | c | s | p | n
  deriving DecidableEq

def Conv.char : Conv → UInt8
  | .d => 100 | .i => 105 | .o => 111 | .u => 117 | .x => 120 | .X => 88 | .f => 102 | .F => 70
  | .e => 101 | .E => 69 | .g => 103 | .G => 71 | .a => 97 | .A => 65 | .c => 99 | .s => 115
  | .p => 112 | .n => 110

def Conv.argType : Conv → LengthMod → Option ArgType
  | .d, m | .i, m | .o, m | .u, m | .x, m | .X, m =>
    match m with
    | .none | .hh | .h => some .int
    | .L => none
    | _ => some .long
  | .n, m => if m = .L then none else some .pointer
  | .c, m => if m = .none ∨ m = .l then some .int else none
  | .s, m => if m = .none ∨ m = .l then some .pointer else none
  | .p, m => if m = .none then some .pointer else none
  | _, m =>
    if m = .none ∨ m = .l then some .double else if m = .L then some .longDouble else none

/-- A width or a precision. -/
inductive Count where
  | star
  | digits (ds : Bytes)

def Count.text : Option Count → Bytes
  | none => []
  | some .star => [42]
  | some (.digits ds) => ds

def Count.stars : Option Count → ℕ
  | some .star => 1
  | _ => 0

/-- A conversion specification of C. -/
structure Conversion where
  flags : Bytes
  width : Option Count
  precision : Option Count
  modifier : LengthMod
  conv : Conv
  type : ArgType
  flags_ok : ∀ c ∈ flags, isFlag c = true
  /-- Zeros before the width are flags. -/
  width_ok : ∀ ds, width = some (.digits ds) →
    (∀ c ∈ ds, isDigit c = true) ∧ ∀ c ∈ ds.head?, c ≠ 48
  precision_ok : ∀ ds, precision = some (.digits ds) → ∀ c ∈ ds, isDigit c = true
  type_ok : conv.argType modifier = some type

namespace Conversion

variable (s : Conversion) (rest : Bytes)

def stars : ℕ := Count.stars s.width + Count.stars s.precision

def afterWidth : Bytes :=
  (if s.precision.isSome then 46 :: Count.text s.precision else []) ++
    (s.modifier.text ++ s.conv.char :: rest)

def body : Bytes := s.flags ++ (Count.text s.width ++ s.afterWidth rest)

end Conversion

def number (base : ℕ) (upper : Bool) (n : ℕ) : Bytes :=
  if n = 0 then [48] else (Nat.digits base n).reverse.map fun d => (digitTable upper).getD d 0

def signedNumber (n : ℤ) : Bytes := (if n < 0 then [45] else []) ++ number 10 false n.natAbs

/-- What the standard's `printf` prints for an argument without flags, width and precision. -/
def Conv.printed (array : ℕ → Bytes) (k : Conv) (a : Arg) : Bytes :=
  match k with
  | .d | .i => signedNumber a.signed
  | .u => number 10 false a.unsigned
  | .x => number 16 false a.unsigned
  | .X => number 16 true a.unsigned
  | .c => [UInt8.ofNat a.unsigned]
  | .p => ascii "0x" ++ number 16 false a.unsigned
  | .s => if a.unsigned = 0 then ascii "(null)" else cstr (array a.unsigned)
  | _ => []

/-- What a format is made of. -/
inductive Directive where
  | byte (c : UInt8) (hc : c ≠ 37 ∧ c ≠ 0)
  | percent
  | conversion (s : Conversion)

open Directive

namespace Directive

def text : Directive → Bytes
  | .byte c _ => [c]
  | .percent => [37, 37]
  | .conversion s => 37 :: s.body []

def argTypes : Directive → List ArgType
  | .conversion s => replicate s.stars .int ++ [s.type]
  | _ => []

def isSupported : Directive → Bool
  | .conversion s => s.conv.char ∈ supported
  | _ => true

/-- No flags, width, precision, `h` or `hh`, and other modifiers only for integers. -/
def Plain : Directive → Prop
  | .conversion s => s.flags = [] ∧ s.width = none ∧ s.precision = none ∧
      s.modifier ≠ .h ∧ s.modifier ≠ .hh ∧
      (s.modifier = .none ∨ s.conv ∈ [.d, .i, .u, .x, .X])
  | _ => True

def arg (d : Directive) (args : List Arg) : Option Arg := args[d.argTypes.length - 1]?

/-- What C prints for the directive. -/
def printed (array : ℕ → Bytes) (args : List Arg) : Directive → Bytes
  | .byte c _ => [c]
  | .percent => [37]
  | .conversion s => ((arg (.conversion s) args).map (s.conv.printed array)).getD []

def Terminated (array : ℕ → Bytes) (args : List Arg) : Directive → Prop
  | .conversion s => s.conv = .s → ∀ v, arg (.conversion s) args = some (.pointer v) → v ≠ 0 →
      0 ∈ array v.toNat
  | _ => True

end Directive

/-- What the standard's `printf` prints for plain directives. -/
def printf (array : ℕ → Bytes) : List Directive → List Arg → Bytes
  | [], _ => []
  | d :: ds, args => d.printed array args ++ printf array ds (args.drop d.argTypes.length)

def Terminated (array : ℕ → Bytes) : List Directive → List Arg → Prop
  | [], _ => True
  | d :: ds, args => d.isSupported = true →
      d.Terminated array args ∧ Terminated array ds (args.drop d.argTypes.length)

/-! ### The buffer -/

theorem put_take (full : Bytes) (c : UInt8) : put (full.take 511) c = (full ++ [c]).take 511 := by
  rw [put, length_take]
  split_ifs with h
  · rw [take_of_length_le (by omega), take_of_length_le]
    rw [length_append, length_singleton]
    omega
  · rw [take_append_of_le_length (by omega)]

theorem putStr_take (full s : Bytes) : putStr (full.take 511) s = (full ++ s).take 511 := by
  induction s generalizing full with
  | nil => rw [append_nil, putStr, foldl_nil]
  | cons c s ih =>
    rw [putStr, foldl_cons, put_take, ← putStr, ih, append_assoc, singleton_append]

theorem numDigits_eq (table : Bytes) {base n v : ℕ} (hbase : 1 < base) (hv : v < base ^ (n + 1)) :
    numDigits table base (n + 1) v =
      (if v = 0 then [0] else Nat.digits base v).map fun d => table.getD d 0 := by
  induction n generalizing v with
  | zero =>
    have hdiv : v / base = 0 := Nat.div_eq_of_lt (by simpa using hv)
    rw [numDigits, if_pos hdiv]
    split_ifs with h0
    · rw [h0, Nat.zero_mod, map_singleton]
    · rw [Nat.digits_def' hbase (Nat.pos_of_ne_zero h0), hdiv, Nat.digits_zero, map_singleton]
  | succ n ih =>
    rw [numDigits]
    by_cases h0 : v = 0
    · rw [h0, Nat.zero_div, if_pos rfl, if_pos rfl, Nat.zero_mod, map_singleton]
    rw [if_neg h0, Nat.digits_def' hbase (Nat.pos_of_ne_zero h0), map_cons]
    by_cases hdiv : v / base = 0
    · rw [if_pos hdiv, hdiv, Nat.digits_zero, map_nil]
    · have hlt : v / base < base ^ (n + 1) := Nat.div_lt_of_lt_mul (by rwa [pow_succ'] at hv)
      rw [if_neg hdiv, ih hlt, if_neg hdiv]

theorem putNum_take (full : Bytes) (v : BitVec 64) {base : ℕ} (hbase : base = 10 ∨ base = 16)
    (upper : Bool) :
    putNum (full.take 511) v base upper = (full ++ number base upper v.toNat).take 511 := by
  have hlt : v.toNat < base ^ (23 + 1) := by
    rcases hbase with rfl | rfl <;> exact v.isLt.trans (by decide)
  rw [putNum, putStr_take, numDigits_eq _ (by omega) hlt, number]
  split_ifs with h0
  · cases upper <;> rfl
  · rw [← map_reverse]

theorem toNat_neg_of_toInt_neg {v : BitVec 64} (h : v.toInt < 0) : (-v).toNat = v.toInt.natAbs := by
  have hlt := v.isLt
  rw [BitVec.toInt_eq_toNat_cond] at h ⊢
  rw [BitVec.toNat_neg]
  split_ifs at h ⊢ <;> omega

theorem putSigned_take (full : Bytes) (v : BitVec 64) :
    putSigned (full.take 511) v = (full ++ signedNumber v.toInt).take 511 := by
  rw [putSigned, signedNumber]
  split_ifs with h
  · rw [put_take, putNum_take _ _ (.inl rfl), toNat_neg_of_toInt_neg h, append_assoc]
  · have hnat : v.toNat = v.toInt.natAbs := by
      have hlt := v.isLt
      rw [BitVec.toInt_eq_toNat_cond] at h ⊢
      split_ifs at h ⊢ <;> omega
    rw [putNum_take _ _ (.inl rfl), hnat, nil_append]

/-! ### One directive -/

def LengthMod.wide : LengthMod → Bool
  | .none | .hh | .h | .L => false
  | _ => true

theorem skipModifier_text (m : LengthMod) (k : Conv) (rest : Bytes) :
    skipModifier (m.text ++ k.char :: rest) =
      (m.wide, (if m = .L then [76] else []) ++ k.char :: rest) := by
  cases m <;> cases k <;> rfl

theorem exists_letter (m : LengthMod) (k : Conv) (rest : Bytes) :
    ∃ a t, m.text ++ k.char :: rest = a :: t ∧ 64 < a := by
  cases m <;> cases k <;> exact ⟨_, _, rfl, by decide⟩

theorem skipCount_text {k : Option Count} {a : UInt8} {t : Bytes}
    (hk : ∀ ds, k = some (.digits ds) → ∀ c ∈ ds, isDigit c = true) (hdigit : isDigit a = false)
    (hstar : a ≠ 42) : skipCount (Count.text k ++ a :: t) = (Count.stars k, a :: t) := by
  have hnone : skipCount (a :: t) = (0, a :: t) := by
    rw [skipCount, if_neg hstar, dropWhile_cons_of_neg (by rw [hdigit]; exact Bool.false_ne_true)]
  cases k with
  | none => exact hnone
  | some k =>
    cases k with
    | star => rfl
    | digits ds =>
      have hds := hk ds rfl
      cases ds with
      | nil => exact hnone
      | cons d ds =>
        have hd : d ≠ 42 := by
          rintro rfl
          exact absurd (hds 42 mem_cons_self) (by decide)
        rw [Count.text, cons_append, skipCount, if_neg hd, ← cons_append,
          dropWhile_append_of_pos hds,
          dropWhile_cons_of_neg (by rw [hdigit]; exact Bool.false_ne_true)]
        rfl

theorem letter_spec {a : UInt8} (h : 64 < a) :
    isFlag a = false ∧ isDigit a = false ∧ a ≠ 42 ∧ a ≠ 46 ∧ a ≠ 37 := by
  refine UInt8.forall_of_lt (P := fun a => 64 < a → isFlag a = false ∧ isDigit a = false ∧
    a ≠ 42 ∧ a ≠ 46 ∧ a ≠ 37) ?_ a h
  decide +kernel

theorem isFlag_of_isDigit {d : UInt8} (h : isDigit d = true) (h0 : d ≠ 48) : isFlag d = false := by
  refine UInt8.forall_of_lt (P := fun d => isDigit d = true → d ≠ 48 → isFlag d = false) ?_ d h h0
  decide +kernel

namespace Conversion

variable (s : Conversion) (rest : Bytes)

theorem exists_afterWidth :
    ∃ b t, s.afterWidth rest = b :: t ∧
      isFlag b = false ∧ isDigit b = false ∧ b ≠ 42 ∧ b ≠ 37 := by
  rw [afterWidth]
  split_ifs
  · exact ⟨46, _, rfl, by decide⟩
  · obtain ⟨a, t, hat, ha⟩ := exists_letter s.modifier s.conv rest
    obtain ⟨hflag, hdigit, hstar, -, hpercent⟩ := letter_spec ha
    exact ⟨a, t, hat, hflag, hdigit, hstar, hpercent⟩

theorem exists_afterFlags :
    ∃ b t, Count.text s.width ++ s.afterWidth rest = b :: t ∧ isFlag b = false ∧ b ≠ 37 := by
  obtain ⟨b, t, hbt, hflag, -, -, hpercent⟩ := s.exists_afterWidth rest
  rw [hbt]
  rcases hwidth : s.width with _ | _ | ⟨_ | ⟨d, ds⟩⟩
  · exact ⟨b, t, rfl, hflag, hpercent⟩
  · exact ⟨42, _, rfl, by decide⟩
  · exact ⟨b, t, rfl, hflag, hpercent⟩
  · obtain ⟨hdigit, hzero⟩ := s.width_ok _ hwidth
    have hd := hdigit d mem_cons_self
    refine ⟨d, _, rfl, isFlag_of_isDigit hd (hzero d rfl), ?_⟩
    rintro rfl
    exact absurd hd (by decide)

theorem scanSpec_body :
    scanSpec (s.body rest) = (s.stars, s.modifier.wide,
      (if s.modifier = .L then [76] else []) ++ s.conv.char :: rest) := by
  obtain ⟨b, t, hbt, hflag, -⟩ := s.exists_afterFlags rest
  have hflags : (s.body rest).dropWhile isFlag = Count.text s.width ++ s.afterWidth rest := by
    rw [body, dropWhile_append_of_pos s.flags_ok, hbt,
      dropWhile_cons_of_neg (by rw [hflag]; exact Bool.false_ne_true)]
  obtain ⟨b, t, hbt, -, hdigit, hstar, -⟩ := s.exists_afterWidth rest
  have hwidth := skipCount_text (t := t) (fun ds h => (s.width_ok ds h).1) hdigit hstar
  rw [← hbt] at hwidth
  have hprecision : skipPrecision (s.afterWidth rest) =
      (Count.stars s.precision, s.modifier.text ++ s.conv.char :: rest) := by
    obtain ⟨a, u, hau, ha⟩ := exists_letter s.modifier s.conv rest
    obtain ⟨-, hdigit, hstar, hdot, -⟩ := letter_spec ha
    rw [afterWidth, hau]
    have hcount := skipCount_text (t := u) s.precision_ok hdigit hstar
    cases hp : s.precision with
    | none => exact if_neg hdot
    | some k => rwa [hp] at hcount
  rw [scanSpec, hflags, hwidth, hprecision, skipModifier_text, stars]

theorem head_body_ne : (s.body rest).head? ≠ some 37 := by
  obtain ⟨b, t, hbt, -, hne⟩ := s.exists_afterFlags rest
  rw [body, hbt]
  have hflags := s.flags_ok
  cases hf : s.flags with
  | nil => exact fun h => hne (some.inj h)
  | cons c cs =>
    rintro ⟨⟩
    rw [hf] at hflags
    exact absurd (hflags 37 mem_cons_self) (by decide)

theorem notMem_supported_of_L (h : s.modifier = .L) : s.conv.char ∉ supported := by
  have htype := s.type_ok
  rw [h] at htype
  cases hc : s.conv <;> rw [hc] at htype <;> first | cases htype | decide +kernel

theorem formatLoop_conversion (array : ℕ → Bytes) (fuel : ℕ) (args : List Arg) (o : Bytes) :
    formatLoop array (fuel + 1) (37 :: s.body rest) args o =
      if s.conv.char ∈ supported then
        (skipStars s.stars args).bind fun args =>
          (convert array s.conv.char s.modifier.wide args o).bind fun r =>
            formatLoop array fuel rest r.2 r.1
      else some (putStr o (37 :: s.body rest), args) := by
  rw [formatLoop, if_neg (not_not.mpr rfl), if_neg (s.head_body_ne rest), scanSpec_body]
  by_cases hL : s.modifier = .L
  · rw [if_neg (s.notMem_supported_of_L hL), if_pos hL]
    exact if_neg (by decide +kernel)
  · rw [if_neg hL]
    rfl

theorem body_append : s.body [] ++ rest = s.body rest := by
  simp only [body, afterWidth, append_assoc, cons_append, nil_append]

end Conversion

theorem skipStars_eq {n : ℕ} {ts : List ArgType} {args : List Arg}
    (h : replicate n .int ++ ts <+: args.map Arg.type) :
    skipStars n args = some (args.drop n) ∧ ts <+: (args.drop n).map Arg.type := by
  induction n generalizing args with
  | zero => exact ⟨rfl, h⟩
  | succ n ih =>
    cases args with
    | nil => exact absurd (prefix_nil.mp h) (cons_ne_nil _ _)
    | cons a args =>
      obtain ⟨htype, hrest⟩ := cons_prefix_cons.mp h
      cases a <;> cases htype
      exact ih hrest

theorem exists_arg {s : Conversion} {ts : List ArgType} {args : List Arg}
    (h : (conversion s).argTypes ++ ts <+: args.map Arg.type) :
    ∃ a, skipStars s.stars args =
        some (a :: args.drop (conversion s).argTypes.length) ∧
      arg (.conversion s) args = some a ∧ s.type = a.type ∧
      ts <+: (args.drop (conversion s).argTypes.length).map Arg.type := by
  rw [argTypes, append_assoc, singleton_append] at h
  obtain ⟨hstars, hrest⟩ := skipStars_eq h
  rw [arg, argTypes, length_append, length_replicate,
    length_singleton, Nat.add_sub_cancel, ← List.head?_drop, ← tail_drop]
  cases hdrop : args.drop s.stars with
  | nil =>
    rw [hdrop] at hrest
    exact absurd (prefix_nil.mp hrest) (cons_ne_nil _ _)
  | cons a rest =>
    rw [hdrop] at hrest hstars
    obtain ⟨htype, hrest⟩ := cons_prefix_cons.mp hrest
    exact ⟨a, hstars, rfl, htype, hrest⟩

section Convert

variable {array : ℕ → Bytes} {a : Arg} {wide : Bool} (args : List Arg) (full : Bytes)

theorem vaInteger_signed (ha : a.type = if wide then .long else .int) :
    ∃ w, vaInteger wide (·.signExtend 64) (a :: args) = some (w, args) ∧ w.toInt = a.signed := by
  cases wide <;> cases a <;> cases ha
  · exact ⟨_, rfl, BitVec.toInt_signExtend_of_le (by decide)⟩
  · exact ⟨_, rfl, rfl⟩

theorem vaInteger_unsigned (ha : a.type = if wide then .long else .int) :
    ∃ w, vaInteger wide (·.setWidth 64) (a :: args) = some (w, args) ∧ w.toNat = a.unsigned := by
  cases wide <;> cases a <;> cases ha
  · exact ⟨_, rfl, BitVec.toNat_setWidth_of_le (by decide)⟩
  · exact ⟨_, rfl, rfl⟩

theorem convert_signed {c : UInt8} (hc : c = 100 ∨ c = 105)
    (ha : a.type = if wide then .long else .int) :
    convert array c wide (a :: args) (full.take 511) =
      some ((full ++ signedNumber a.signed).take 511, args) := by
  obtain ⟨w, hw, hval⟩ := vaInteger_signed args ha
  have hother : c ≠ 115 ∧ c ≠ 99 ∧ c ≠ 112 := by rcases hc with rfl | rfl <;> decide
  rw [convert, if_neg hother.1, if_neg hother.2.1, if_neg hother.2.2, if_pos hc, hw,
    map_some, putSigned_take, hval]

theorem convert_unsigned {c : UInt8} (hc : c ∉ [115, 99, 112, 100, 105])
    (ha : a.type = if wide then .long else .int) :
    convert array c wide (a :: args) (full.take 511) =
      some ((full ++ number (if c = 117 then 10 else 16) (c = 88) a.unsigned).take 511, args) := by
  obtain ⟨w, hw, hval⟩ := vaInteger_unsigned args ha
  simp only [mem_cons, not_mem_nil, or_false, not_or] at hc
  rw [convert, if_neg hc.1, if_neg hc.2.1, if_neg hc.2.2.1, if_neg (not_or.mpr hc.2.2.2), hw,
    map_some, putNum_take _ _ (by split_ifs <;> decide), hval]

theorem argType_integer {k : Conv} {m : LengthMod} {t : ArgType} (hk : k ∈ [Conv.d, .i, .u, .x, .X])
    (ht : k.argType m = some t) : t = if m.wide then .long else .int := by
  simp only [mem_cons, not_mem_nil, or_false] at hk
  rcases hk with rfl | rfl | rfl | rfl | rfl <;> cases m <;> cases ht <;> rfl

theorem convert_eq {k : Conv} {m : LengthMod} (hk : k.char ∈ supported)
    (ht : k.argType m = some a.type)
    (hterm : k = .s → ∀ v, a = .pointer v → v ≠ 0 → 0 ∈ array v.toNat) :
    convert array k.char m.wide (a :: args) (full.take 511) =
      some ((full ++ k.printed array a).take 511, args) := by
  cases k with
  | d => exact convert_signed args full (.inl rfl) (argType_integer (by decide) ht)
  | i => exact convert_signed args full (.inr rfl) (argType_integer (by decide) ht)
  | u => exact convert_unsigned args full (c := 117) (by decide) (argType_integer (by decide) ht)
  | x => exact convert_unsigned args full (c := 120) (by decide) (argType_integer (by decide) ht)
  | X => exact convert_unsigned args full (c := 88) (by decide) (argType_integer (by decide) ht)
  | c =>
    obtain ⟨v, rfl⟩ : ∃ v, a = .int v := by cases m <;> cases a <;> cases ht <;> exact ⟨_, rfl⟩
    exact congrArg (fun o => some (o, args)) (put_take full _)
  | p =>
    obtain ⟨v, rfl⟩ : ∃ v, a = .pointer v := by
      cases m <;> cases a <;> cases ht
      exact ⟨_, rfl⟩
    have hput := putNum_take (full ++ ascii "0x") v (.inr rfl) false
    rw [← putStr_take, append_assoc] at hput
    exact congrArg (fun o => some (o, args)) hput
  | s =>
    obtain ⟨v, rfl⟩ : ∃ v, a = .pointer v := by cases m <;> cases a <;> cases ht <;> exact ⟨_, rfl⟩
    have hput : putPointer array (full.take 511) v =
        some ((full ++ Conv.s.printed array (.pointer v)).take 511) := by
      rw [putPointer, Conv.printed, Arg.unsigned]
      by_cases hv : v = 0
      · rw [if_pos hv, if_pos (by rw [hv]; rfl), putStr_take]
      · rw [if_neg hv, if_pos (hterm rfl v rfl hv), putStr_take,
          if_neg (show v.toNat ≠ 0 from fun h0 => hv (BitVec.eq_of_toNat_eq h0))]
    exact (congrArg (Option.map fun o => (o, args)) hput)
  | o | f | F | e | E | g | G | a | A | n => exact absurd hk (by decide +kernel)

end Convert

/-! ### The format -/

theorem formatLoop_text {array : ℕ → Bytes} {ds : List Directive} {fuel : ℕ} {args : List Arg}
    (full : Bytes) (hfuel : (ds.flatMap text).length < fuel)
    (hargs : ds.flatMap argTypes <+: args.map Arg.type) (hterm : Terminated array ds args) :
    ∃ x, formatLoop array fuel (ds.flatMap text) args (full.take 511) =
        some ((full ++ x).take 511,
          args.drop ((ds.takeWhile isSupported).flatMap argTypes).length) ∧
      ((∀ d ∈ ds, d.isSupported = true) → x = printf array ds args) := by
  induction ds generalizing fuel args full with
  | nil =>
    obtain ⟨fuel, rfl⟩ := Nat.exists_eq_succ_of_ne_zero (Nat.ne_zero_of_lt hfuel)
    exact ⟨[], by rw [append_nil]; rfl, fun _ => rfl⟩
  | cons d ds ih =>
    obtain ⟨fuel, rfl⟩ := Nat.exists_eq_succ_of_ne_zero (Nat.ne_zero_of_lt hfuel)
    have hlt : (ds.flatMap text).length < fuel := by
      have hpos : 0 < d.text.length := by cases d <;> exact Nat.succ_pos _
      rw [flatMap_cons, length_append] at hfuel
      omega
    rw [flatMap_cons] at hargs
    have hall (h : ∀ d' ∈ d :: ds, d'.isSupported = true) : ∀ d' ∈ ds, d'.isSupported = true :=
      fun d' hd' => h d' (mem_cons_of_mem _ hd')
    cases d with
    | byte c hc =>
      obtain ⟨x, hx, hprintf⟩ := ih (full ++ [c]) hlt hargs (hterm rfl).2
      refine ⟨c :: x, ?_, fun h => congrArg (c :: ·) (hprintf (hall h))⟩
      rw [append_assoc, ← put_take] at hx
      exact (if_pos hc.1).trans hx
    | percent =>
      obtain ⟨x, hx, hprintf⟩ := ih (full ++ [37]) hlt hargs (hterm rfl).2
      refine ⟨37 :: x, ?_, fun h => congrArg (37 :: ·) (hprintf (hall h))⟩
      rw [append_assoc, ← put_take] at hx
      exact hx
    | conversion s =>
      rw [flatMap_cons, text, cons_append, s.body_append, s.formatLoop_conversion]
      by_cases hs : s.conv.char ∈ supported
      · have hsupp : (conversion s).isSupported = true := decide_eq_true hs
        obtain ⟨a, hstars, harg, htype, hrest⟩ := exists_arg hargs
        obtain ⟨hstr, hterm⟩ := hterm hsupp
        have hconv := convert_eq (args.drop (conversion s).argTypes.length) full hs
          (htype ▸ s.type_ok) fun hc v hv => hstr hc v (harg.trans (congrArg some hv))
        obtain ⟨x, hx, hprintf⟩ := ih (full ++ s.conv.printed array a) hlt hrest hterm
        refine ⟨s.conv.printed array a ++ x, ?_, fun h => ?_⟩
        · rw [if_pos hs, hstars, bind_some, hconv, bind_some, hx, append_assoc,
            takeWhile_cons_of_pos hsupp, flatMap_cons, length_append, drop_drop]
        · rw [hprintf (hall h), printf, printed, harg]
          rfl
      · refine ⟨37 :: s.body (ds.flatMap text), ?_, fun h => ?_⟩
        · have hsupp : ¬ (conversion s).isSupported = true :=
            fun h => hs (of_decide_eq_true h)
          rw [if_neg hs, putStr_take, takeWhile_cons_of_neg hsupp]
          rfl
        · exact absurd (of_decide_eq_true (h _ mem_cons_self)) hs

/-- **The kernel's `printf`.** For every format of the standard and arguments with terminated
strings: `format` takes the arguments of the directives before the first one that it does not
support, and no other; it returns the length of the text, at most 511; and for plain directives that
are all supported the text is the start of what the standard's `printf` prints. -/
theorem format_printf (array : ℕ → Bytes) (ds : List Directive) (args : List Arg)
    (hargs : ds.flatMap argTypes <+: args.map Arg.type) (hterm : Terminated array ds args) :
    ∃ out, format array (ds.flatMap text) args =
        some (out ++ [0], out.length,
          args.drop ((ds.takeWhile isSupported).flatMap argTypes).length) ∧
      out.length ≤ 511 ∧
      ((∀ d ∈ ds, d.isSupported = true ∧ d.Plain) → out = (printf array ds args).take 511) := by
  obtain ⟨x, hx, hprintf⟩ := formatLoop_text [] (Nat.lt_succ_self _) hargs hterm
  rw [take_nil, nil_append] at hx
  refine ⟨x.take 511, ?_, length_take_le _ _, fun h => ?_⟩
  · rw [format, hx]
    rfl
  · rw [hprintf fun d hd => (h d hd).1]

/-- A conversion without flags and width. -/
def Conversion.simple (precision : Option Bytes) (m : LengthMod) (k : Conv) (t : ArgType)
    (hds : precision.all (·.all isDigit) = true) (ht : k.argType m = some t) : Conversion where
  flags := []
  width := none
  precision := precision.map .digits
  modifier := m
  conv := k
  type := t
  flags_ok _ h := absurd h not_mem_nil
  width_ok _ h := absurd h (some_ne_none _).symm
  precision_ok _ h := by
    obtain ⟨ds, rfl, heq⟩ := map_eq_some_iff.mp h
    exact Count.digits.inj heq ▸ all_eq_true.mp hds
  type_ok := ht

/-- The directives `%ld`, a blank and `%s`, with or without a precision. -/
def longAndString (precision : Option Bytes) (hds : precision.all (·.all isDigit) = true) :
    List Directive :=
  [.conversion (.simple precision .l .d .long hds rfl), .byte 32 (by decide),
    .conversion (.simple precision .none .s .pointer hds rfl)]

theorem format_printf_longAndString :
    let args := [Arg.long (BitVec.intMin 64), .pointer 8]
    (∃ out, format (fun _ => ascii "ok\x00") (ascii "%.3ld %.3s") args =
      some (out ++ [0], out.length, []) ∧ out.length ≤ 511) ∧
    (printf (fun _ => ascii "ok\x00") (longAndString none rfl) args).take 511 =
      ascii "-9223372036854775808 ok" := by
  intro args
  have hterm (precision : Option Bytes) (hds : precision.all (·.all isDigit) = true) :
      Terminated (fun _ => ascii "ok\x00") (longAndString precision hds) args := by
    have hzero : 0 ∈ ascii "ok\x00" := by decide
    exact fun _ => ⟨nofun, fun _ => ⟨trivial, fun _ => ⟨fun _ _ _ _ => hzero, trivial⟩⟩⟩
  constructor
  · obtain ⟨out, hout, hle, -⟩ := format_printf _ (longAndString (some [51]) rfl) args
      (by decide) (hterm _ _)
    exact ⟨out, hout, hle⟩
  · obtain ⟨out, hout, -, hprintf⟩ := format_printf _ (longAndString none rfl) args (by decide)
      (hterm _ _)
    have hformat : (format (fun _ => ascii "ok\x00") (ascii "%ld %s") args).map Prod.fst =
        some (ascii "-9223372036854775808 ok" ++ [0]) := by decide +kernel
    have heq := (congrArg (Option.map Prod.fst) hout).symm.trans hformat
    rw [← append_cancel_right (Option.some.inj heq), hprintf]
    simp [longAndString, isSupported, Plain, Conversion.simple]
    decide

/-- For a `%.3s` of three bytes without a terminator `format` reads behind them. -/
theorem format_unterminated :
    (conversion (.simple (some [51]) .none .s .pointer rfl rfl)).text =
        [37, 46, 51, 115] ∧
      3 ≤ [65, 66, 67].length ∧
      format (fun _ => [65, 66, 67]) [37, 46, 51, 115] [.pointer 8] = none :=
  ⟨rfl, by decide, by decide +kernel⟩

end Anyfs.Macho
