import Anyfs.Macho.Symbols
import Anyfs.Lib.Fields
import Anyfs.Lib.Patches
import Anyfs.Lib.OrderedMap

/-!
# From ELF to Mach-O

`elf2dylib.py` checks a shared object (`Image.parse`) and writes assembly with a section for each of
its four segments (`writeAsm`). `Asm.start`, `Asm.eval` and `Asm.bytes` say what that assembly
means.
-/

namespace Anyfs.Macho

open List CString ByteStore Option LittleEndian

/-- `DELTA` and `PAGE`. -/
def delta : ℕ := 0x4000

/-- A program header. -/
structure Phdr where
  type : ℕ
  flags : ℕ
  offset : ℕ
  vaddr : ℕ
  filesz : ℕ
  memsz : ℕ
  deriving Inhabited

/-- A symbol of a symbol table. -/
structure ElfSym where
  name : Bytes
  info : ℕ
  shndx : ℕ
  value : ℕ

/-- What class `Elf` reads from the file; `dynamic` has the entries before `DT_NULL`. -/
structure Elf where
  type : ℕ
  machine : ℕ
  data : Bytes
  phdrs : List Phdr
  dynamic : List (ℤ × ℕ)
  dynsym : List ElfSym
  symtab : List ElfSym

/-- The values of a dynamic tag. -/
def Elf.dyn (elf : Elf) (tag : ℤ) : List ℕ :=
  (elf.dynamic.filter fun e => e.1 = tag).map Prod.snd

/-- `ARCHES`. -/
inductive Arch where
  | arm64
  | x86_64

def Arch.machine : Arch → ℕ
  | .arm64 => 183
  | .x86_64 => 62

/-- The type of `R_*_RELATIVE`. -/
def Arch.relType : Arch → ℕ
  | .arm64 => 1027
  | .x86_64 => 8

/-- A label of the assembly: `Lseg0` to `Lseg3`, or `Lbss`. -/
inductive AsmLabel where
  | seg (i : ℕ)
  | bss

/-- A label plus an offset. -/
structure AsmExpr where
  base : AsmLabel
  offset : ℕ

/-- `Image.label` from segment `i` on; `none` is `Reject`. -/
def label (addr : ℤ) : ℕ → List Phdr → Option AsmExpr
  | _, [] => none
  | i, p :: ps =>
    if p.vaddr ≤ addr ∧ addr ≤ p.vaddr + p.memsz then
      if i = 3 ∧ p.filesz < p.memsz ∧ p.vaddr + p.filesz ≤ addr then
        some ⟨.bss, (addr - p.vaddr - p.filesz).toNat⟩
      else some ⟨.seg i, (addr - p.vaddr).toNat⟩
    else label addr (i + 1) ps

/-- What `main` collects before it writes the assembly. -/
structure Image where
  data : Bytes
  loads : List Phdr
  slots : OrderedMap ℕ ℤ
  dynsyms : OrderedMap Bytes ℕ
  locals : List (Bytes × ℕ)

open Image

namespace Image

def seg (img : Image) (i : ℕ) : Phdr := img.loads.getD i default

def dtAccepted : List ℤ :=
  [0, 14, 16, 24, 30, 0x6FFFFFFB, 7, 8, 9, 0x6FFFFFF9, 6, 11, 5, 10, 4, 0x6FFFFEF5, 0x6FFFFFF0,
    0x6FFFFFFC, 0x6FFFFFFD]

/-- The tests of `parse` before the relocations. -/
def Shape (arch : Arch) (elf : Elf) (loads : List Phdr) : Prop :=
  (elf.type = 3 ∧ elf.machine = arch.machine) ∧
  loads.map Phdr.flags = [4, 5, 6, 6] ∧
  (∀ p ∈ loads, p.vaddr % delta = 0 ∧ p.offset = p.vaddr ∧
    p.offset + p.filesz ≤ elf.data.length) ∧
  (∀ pq ∈ loads.zip loads.tail, pq.1.vaddr + pq.1.memsz ≤ pq.2.vaddr) ∧
  (loads.getD 0 default).vaddr = 0 ∧
  (∀ p ∈ loads.take 2, p.memsz = p.filesz) ∧
  ((elf.phdrs.filter fun p => p.type = 0x6474E552).map fun p => (p.vaddr, p.memsz)) =
    [((loads.getD 2 default).vaddr, (loads.getD 2 default).memsz)] ∧
  (∀ tag ∈ [1, 22, 23, 17, 36], elf.dyn tag = []) ∧
  (∀ e ∈ elf.dynamic, e.1 ∈ dtAccepted) ∧
  (elf.dyn 30).headD 0 &&& 4 = 0

instance (arch : Arch) (elf : Elf) (loads : List Phdr) : Decidable (Shape arch elf loads) :=
  inferInstanceAs (Decidable (_ ∧ _))

def qword (data : Bytes) (off : ℕ) : ℕ := value ((data.drop off).take 8)

/-- The entries of the RELA table: `r_offset`, `r_info` and the signed `r_addend`. -/
def rela (elf : Elf) (loads : List Phdr) : Option (List (ℕ × ℕ × ℤ)) :=
  match elf.dyn 7, elf.dyn 8 with
  | [], [] => some []
  | start :: _, size :: _ =>
    if elf.dyn 9 ≠ [24] ∨ size % 24 ≠ 0 ∨ (loads.getD 0 default).filesz < start + size then none
    else some ((range (size / 24)).map fun k =>
      let off := start + 24 * k
      (qword elf.data off, qword elf.data (off + 8),
        Int.bmod (qword elf.data (off + 16)) (2 ^ 64)))
  | _, _ => none

def Writable (loads : List Phdr) (w : ℕ) : Prop :=
  ∃ p ∈ loads.drop 2, p.vaddr ≤ w ∧ w + 8 ≤ p.vaddr + p.filesz

instance (loads : List Phdr) (w : ℕ) : Decidable (Writable loads w) :=
  inferInstanceAs (Decidable (∃ p ∈ loads.drop 2, _))

def addSlot (arch : Arch) (loads : List Phdr) (slots : OrderedMap ℕ ℤ) (r : ℕ × ℕ × ℤ) :
    Option (OrderedMap ℕ ℤ) :=
  if r.2.1 ≠ arch.relType ∨ ¬ Writable loads r.1 then none
  else (label r.2.2 0 loads).map fun _ => slots.set r.1 r.2.2

def addDynsym (syms : OrderedMap Bytes ℕ) (s : ElfSym) : Option (OrderedMap Bytes ℕ) :=
  if s.name = [] then some syms else if s.shndx = 0 then none else some (syms.set s.name s.value)

def isLocal (s : ElfSym) : Bool :=
  (s.info % 16 = 1 ∨ s.info % 16 = 2) ∧ (0 < s.shndx ∧ s.shndx < 0xFF00) ∧ s.name ≠ [] ∧
    s.name.head? ≠ some 36

/-- `Image.parse`; `exports` has the names in the ELF file and those in the library. -/
def parse (arch : Arch) (elf : Elf) (exports : List (Bytes × Bytes)) : Option Image :=
  let loads := elf.phdrs.filter fun p => p.type = 1
  let locals : List (Bytes × ℕ) := (elf.symtab.filter isLocal).map fun s => (s.name, s.value)
  if Shape arch elf loads then
    (rela elf loads).bind fun entries =>
    (entries.foldlM (addSlot arch loads) .empty).bind fun slots =>
    (elf.dynsym.foldlM addDynsym .empty).bind fun dynsyms =>
    if (∀ e ∈ exports, dynsyms.get e.1 ≠ none) ∧
        ∀ s ∈ locals, (label s.2 0 loads).isSome = true then
      some ⟨elf.data, loads, slots, dynsyms, locals⟩
    else none
  else none

end Image

/-! ### The assembly -/

/-- A directive that places bytes. -/
inductive AsmItem where
  | incbin (data : Bytes)
  | quad (e : AsmExpr)
  | space (n : ℕ)

open AsmItem

/-- The assembly: the sections, the size of the zero-fill section, the local symbols and the
exports. -/
structure Asm where
  sections : ℕ → List AsmItem
  bss : ℕ
  names : List Bytes
  locals : List AsmExpr
  exported : List AsmExpr

def Image.segByte (img : Image) (p : Phdr) (k : ℕ) : UInt8 :=
  if k < p.filesz then img.data.getD (p.offset + k) 0 else 0

def Image.slotsOf (img : Image) (p : Phdr) : List (ℕ × ℤ) :=
  (img.slots.entries.filter fun e => p.vaddr ≤ e.1 ∧ e.1 < p.vaddr + p.filesz).insertionSort
    fun a b => a.1 ≤ b.1

def Image.chunk (img : Image) (p : Phdr) (pos stop : ℕ) : List AsmItem :=
  if pos < stop then [.incbin (slice (img.segByte p) pos (stop - pos))] else []

def slotItems (img : Image) (p : Phdr) : ℕ → List (ℕ × ℤ) → Option (List AsmItem)
  | pos, [] => some (img.chunk p pos p.filesz)
  | pos, (w, addend) :: ws =>
    if w - p.vaddr < pos then none
    else
      (label addend 0 img.loads).bind fun e =>
        (slotItems img p (w - p.vaddr + 8) ws).map fun items =>
          img.chunk p pos (w - p.vaddr) ++ .quad e :: items

def sectionItems (img : Image) (i : ℕ) : Option (List AsmItem) :=
  let p := img.seg i
  let tail := if p.filesz < p.memsz ∧ i ≠ 3 then [.space (p.memsz - p.filesz)] else []
  let gap := if i < 3 then (img.seg (i + 1)).vaddr - (p.vaddr + p.memsz) else 0
  (slotItems img p 0 (img.slotsOf p)).map fun items =>
    items ++ tail ++ if gap ≠ 0 then [.space gap] else []

/-- The expressions for the values of symbols; `none` is a symbol that there is not. -/
def labels (loads : List Phdr) : List (Option ℕ) → Option (List AsmExpr)
  | [] => some []
  | v :: vs =>
    v.bind fun value => (label value 0 loads).bind fun e => (labels loads vs).map (e :: ·)

def writeAsm (img : Image) (exports : List (Bytes × Bytes)) : Option Asm :=
  if ∀ i < 4, (sectionItems img i).isSome = true then
    (localNames (exports.map Prod.snd) (img.locals.map Prod.fst)).bind fun names =>
    (labels img.loads (img.locals.map fun s => some s.2)).bind fun locals =>
    (labels img.loads (exports.map fun e => img.dynsyms.get e.1)).map fun exported =>
      ⟨fun i => (sectionItems img i).getD [], (img.seg 3).memsz - (img.seg 3).filesz, names, locals,
        exported⟩
  else none

/-! ### What the assembly means -/

def AsmItem.bytes (ev : AsmExpr → ℕ) : AsmItem → Bytes
  | .incbin data => data
  | .quad e => encode 8 (ev e)
  | .space n => replicate n 0

def AsmItem.size : AsmItem → ℕ
  | .incbin data => data.length
  | .quad _ => 8
  | .space n => n

/-- The addresses of the `.quad` lines, for which the linker writes rebases. -/
def rebasesFrom : ℕ → List AsmItem → List ℕ
  | _, [] => []
  | a, .quad _ :: items => a :: rebasesFrom (a + 8) items
  | a, item :: items => rebasesFrom (a + item.size) items

namespace Asm

def size (asm : Asm) (i : ℕ) : ℕ := ((asm.sections i).map AsmItem.size).sum

def start (asm : Asm) : ℕ → ℕ
  | 0 => delta
  | i + 1 => (asm.start i + asm.size i + (delta - 1)) / delta * delta

def eval (asm : Asm) : AsmExpr → ℕ
  | ⟨.seg i, offset⟩ => asm.start i + offset
  | ⟨.bss, offset⟩ => asm.start 3 + asm.size 3 + offset

def bytes (asm : Asm) (i : ℕ) : Bytes := (asm.sections i).flatMap (AsmItem.bytes asm.eval)

def rebases (asm : Asm) : List ℕ :=
  (range 4).flatMap fun i => rebasesFrom (asm.start i) (asm.sections i)

end Asm

/-- The size of a section that `check_output` demands. -/
def Image.wantSize (img : Image) (i : ℕ) : ℕ :=
  if i = 3 then (img.seg i).filesz else (img.seg (i + 1)).vaddr - (img.seg i).vaddr

def slotPatch (p : Phdr) (val : ℤ → ℕ) (e : ℕ × ℤ) : ℕ × Bytes :=
  (e.1 - p.vaddr, encode 8 (val e.2))

def Image.filled (img : Image) (val : ℤ → ℕ) (i : ℕ) : Bytes :=
  let p := img.seg i
  slice (patch (img.segByte p) ((img.slots.entries.filter fun e =>
    p.vaddr ≤ e.1 ∧ e.1 < p.vaddr + p.filesz).map (slotPatch p val))) 0 (img.wantSize i)

/-- The bytes that `check_output` demands: those of the file, with zeros behind them, and with
`addend + DELTA` in the slots. -/
def Image.want (img : Image) (i : ℕ) : Bytes := img.filled (fun a => (a + delta).toNat) i

/-- The layout of the ELF file, one page up, as `check_output` demands it. -/
structure Faithful (img : Image) (exports : List (Bytes × Bytes)) (asm : Asm) : Prop where
  start : ∀ i < 4, asm.start i = (img.seg i).vaddr + delta
  bytes : ∀ i < 4, asm.bytes i = img.want i
  bss : asm.bss = (img.seg 3).memsz - (img.seg 3).filesz ∧
    asm.start 3 + asm.size 3 = (img.seg 3).vaddr + (img.seg 3).filesz + delta
  rebases : asm.rebases.Perm (img.slots.entries.map fun e => e.1 + delta)
  locals : asm.locals.map asm.eval = img.locals.map fun s => s.2 + delta
  exported : asm.exported.map asm.eval =
    exports.map fun e => (img.dynsyms.get e.1).getD 0 + delta

/-! ### The bytes of a section -/

theorem AsmItem.length_bytes (ev : AsmExpr → ℕ) (item : AsmItem) :
    (item.bytes ev).length = item.size := by
  cases item with
  | incbin data => rfl
  | quad e => exact length_encode 8 _
  | space n => exact length_replicate

theorem length_flatMap_bytes (ev : AsmExpr → ℕ) (items : List AsmItem) :
    (items.flatMap (bytes ev)).length = (items.map size).sum := by
  simp only [length_flatMap, length_bytes]

section Slots

variable {img : Image} {p : Phdr} {ev : AsmExpr → ℕ} {val : ℤ → ℕ} {pos : ℕ}
  {ws : List (ℕ × ℤ)} {items : List AsmItem}

theorem flatMap_chunk (stop : ℕ) :
    (img.chunk p pos stop).flatMap (bytes ev) =
      slice (img.segByte p) pos (stop - pos) := by
  rw [chunk]
  split_ifs with hlt
  · simp [bytes]
  · rw [Nat.sub_eq_zero_of_le (Nat.le_of_not_lt hlt)]
    rfl

theorem size_chunk (stop : ℕ) : ((img.chunk p pos stop).map size).sum = stop - pos := by
  rw [← length_flatMap_bytes fun _ => 0, flatMap_chunk, length_slice]

theorem slotItems_cons {w : ℕ} {addend : ℤ}
    (h : slotItems img p pos ((w, addend) :: ws) = some items) :
    pos ≤ w - p.vaddr ∧ ∃ e rest, label addend 0 img.loads = some e ∧
      slotItems img p (w - p.vaddr + 8) ws = some rest ∧
      items = img.chunk p pos (w - p.vaddr) ++ .quad e :: rest := by
  rw [slotItems] at h
  split_ifs at h with hlt
  obtain ⟨e, he, h⟩ := bind_eq_some_iff.mp h
  obtain ⟨rest, hrest, rfl⟩ := map_eq_some_iff.mp h
  exact ⟨Nat.le_of_not_lt hlt, e, rest, he, hrest, rfl⟩

theorem le_size_slotItems (h : slotItems img p pos ws = some items) :
    p.filesz ≤ pos + (items.map size).sum := by
  induction ws generalizing pos items with
  | nil =>
    cases h
    rw [size_chunk]
    omega
  | cons w ws ih =>
    obtain ⟨hle, e, rest, -, hrest, rfl⟩ := slotItems_cons h
    have ih := ih hrest
    rw [map_append, map_cons, sum_append, sum_cons, size_chunk, size]
    omega

theorem rebasesFrom_append (a : ℕ) (xs ys : List AsmItem) :
    rebasesFrom a (xs ++ ys) =
      rebasesFrom a xs ++ rebasesFrom (a + (xs.map size).sum) ys := by
  induction xs generalizing a with
  | nil => simp [rebasesFrom]
  | cons x xs ih => cases x <;> simp [rebasesFrom, ih, size, Nat.add_assoc]

theorem rebasesFrom_chunk (a stop : ℕ) : rebasesFrom a (img.chunk p pos stop) = [] := by
  rw [chunk]
  split_ifs <;> rfl

theorem rebases_slotItems (h : slotItems img p pos ws = some items) (a : ℕ) :
    rebasesFrom (a + pos) items = ws.map fun e => a + (e.1 - p.vaddr) := by
  induction ws generalizing pos items with
  | nil =>
    cases h
    exact rebasesFrom_chunk _ _
  | cons w ws ih =>
    obtain ⟨hle, e, rest, -, hrest, rfl⟩ := slotItems_cons h
    have hpos : a + pos + (w.1 - p.vaddr - pos) = a + (w.1 - p.vaddr) := by omega
    rw [rebasesFrom_append, rebasesFrom_chunk, size_chunk, nil_append, hpos, rebasesFrom, map_cons,
      Nat.add_assoc a, ih hrest]

theorem slotItems_apart (h : slotItems img p pos ws = some items) :
    (∀ e ∈ ws, pos ≤ e.1 - p.vaddr) ∧
      ws.Pairwise fun a b => a.1 - p.vaddr + 8 ≤ b.1 - p.vaddr := by
  induction ws generalizing pos items with
  | nil => exact ⟨fun _ h => absurd h not_mem_nil, .nil⟩
  | cons w ws ih =>
    obtain ⟨hle, e, rest, -, hrest, -⟩ := slotItems_cons h
    obtain ⟨hlater, hpair⟩ := ih hrest
    refine ⟨fun e he => ?_, pairwise_cons.mpr ⟨hlater, hpair⟩⟩
    rcases mem_cons.mp he with rfl | he
    · exact hle
    · have := hlater e he
      omega

theorem bytes_slotItems (hval : ∀ a e, label a 0 img.loads = some e → ev e = val a)
    (hfit : ∀ e ∈ ws, e.1 - p.vaddr + 8 ≤ p.filesz) (h : slotItems img p pos ws = some items) :
    items.flatMap (bytes ev) =
      slice (patch (img.segByte p) (ws.map (slotPatch p val))) pos (p.filesz - pos) := by
  induction ws generalizing pos items with
  | nil =>
    cases h
    exact flatMap_chunk _
  | cons w ws ih =>
    obtain ⟨w, addend⟩ := w
    obtain ⟨hle, e, rest, he, hrest, rfl⟩ := slotItems_cons h
    have hw : w - p.vaddr + 8 ≤ p.filesz := hfit _ mem_cons_self
    have ih := ih (fun e he => hfit e (mem_cons_of_mem _ he)) hrest
    have hlater := (slotItems_apart hrest).1
    have hpatch : patch (img.segByte p) (((w, addend) :: ws).map (slotPatch p val)) =
        patch (overwrite (img.segByte p) (w - p.vaddr) (encode 8 (val addend)))
          (ws.map (slotPatch p val)) := rfl
    have hsplit : p.filesz - pos =
        (w - p.vaddr - pos) + (8 + (p.filesz - (w - p.vaddr + 8))) := by omega
    rw [flatMap_append, flatMap_cons, flatMap_chunk, ih, bytes, hval _ _ he,
      hsplit, slice_add, slice_add, Nat.add_sub_cancel' hle]
    refine congrArg₂ (· ++ ·) ?_ (congrArg₂ (· ++ ·) ?_ ?_)
    · -- before the slot
      refine slice_congr fun a _ ha => (patch_of_notMem _ fun q hq => .inl ?_).symm
      obtain ⟨x, hx, rfl⟩ := mem_map.mp hq
      rcases mem_cons.mp hx with rfl | hx
      · exact Nat.lt_of_lt_of_le ha (by dsimp only [slotPatch]; omega)
      · have := hlater x hx
        dsimp only [slotPatch]
        omega
    · -- the slot, which the later ones leave alone
      have hslot := slice_overwrite (img.segByte p) (w - p.vaddr) (encode 8 (val addend))
      rw [length_encode] at hslot
      rw [hpatch]
      refine hslot.symm.trans (slice_congr fun a _ ha => (patch_of_notMem _ fun q hq => ?_).symm)
      obtain ⟨x, hx, rfl⟩ := mem_map.mp hq
      exact .inl (Nat.lt_of_lt_of_le ha (hlater x hx))
    · rw [hpatch]
      refine slice_congr fun a ha _ => patch_congr (overwrite_of_notMem _ (.inr ?_)).symm _
      rw [length_encode]
      exact ha

theorem patch_slotsOf (h : slotItems img p pos (img.slotsOf p) = some items) (val : ℤ → ℕ)
    (st : ℕ → UInt8) :
    patch st ((img.slotsOf p).map (slotPatch p val)) =
      patch st ((img.slots.entries.filter fun e =>
        p.vaddr ≤ e.1 ∧ e.1 < p.vaddr + p.filesz).map (slotPatch p val)) := by
  refine patch_perm ((perm_insertionSort _ _).map _) ?_ st
  refine pairwise_map.mpr ((slotItems_apart h).2.imp fun hab => ?_)
  simpa only [slotPatch, length_encode] using hab

end Slots

/-! ### The segments -/

/-- What `parse` has tested. -/
structure Image.Ok (img : Image) : Prop where
  length : img.loads.length = 4
  aligned : ∀ i < 4, (img.seg i).vaddr % delta = 0
  next : ∀ i < 3, (img.seg i).vaddr + (img.seg i).memsz ≤ (img.seg (i + 1)).vaddr
  first : (img.seg 0).vaddr = 0
  full : ∀ i < 2, (img.seg i).memsz = (img.seg i).filesz
  slots : ∀ e ∈ img.slots.entries, ∃ i, (i = 2 ∨ i = 3) ∧ (img.seg i).vaddr ≤ e.1 ∧
    e.1 + 8 ≤ (img.seg i).vaddr + (img.seg i).filesz

theorem writable_of_foldlM {arch : Arch} {loads : List Phdr} {rs : List (ℕ × ℕ × ℤ)}
    {slots slots' : OrderedMap ℕ ℤ} (hslots : ∀ e ∈ slots.entries, Writable loads e.1)
    (h : rs.foldlM (addSlot arch loads) slots = some slots') :
    ∀ e ∈ slots'.entries, Writable loads e.1 := by
  induction rs generalizing slots with
  | nil =>
    cases h
    exact hslots
  | cons r rs ih =>
    rw [foldlM_cons] at h
    obtain ⟨next, hadd, h⟩ := bind_eq_some_iff.mp h
    refine ih (fun e he => ?_) h
    rw [addSlot] at hadd
    split_ifs at hadd with hr
    obtain ⟨-, -, rfl⟩ := map_eq_some_iff.mp hadd
    rcases OrderedMap.mem_of_mem_set he with rfl | he
    · exact not_not.mp (not_or.mp hr).2
    · exact hslots e he

theorem Image.parse_ok {arch : Arch} {elf : Elf} {exports : List (Bytes × Bytes)} {img : Image}
    (h : parse arch elf exports = some img) : img.Ok := by
  rw [parse] at h
  split_ifs at h with hshape
  obtain ⟨-, hflags, hplace, hnext, hfirst, hfull, -⟩ := hshape
  obtain ⟨rs, -, h⟩ := bind_eq_some_iff.mp h
  obtain ⟨slots, hslots, h⟩ := bind_eq_some_iff.mp h
  obtain ⟨dynsyms, -, h⟩ := bind_eq_some_iff.mp h
  split_ifs at h
  cases h
  have hw := writable_of_foldlM (fun _ he => absurd he not_mem_nil) hslots
  generalize (elf.phdrs.filter fun p => p.type = 1) = loads at *
  obtain ⟨a, b, c, d, rfl⟩ : ∃ a b c d, loads = [a, b, c, d] := by
    have hlen : loads.length = 4 := by simpa using congrArg length hflags
    obtain ⟨a, loads, rfl⟩ := exists_of_length_succ loads hlen
    obtain ⟨b, c, d, rfl⟩ := length_eq_three.mp (Nat.succ.inj hlen)
    exact ⟨a, b, c, d, rfl⟩
  simp only [tail_cons, zip_cons_cons, zip_nil_right, forall_mem_cons,
    take_succ_cons, take_zero, not_mem_nil, false_imp_iff, implies_true,
    and_true] at hplace hnext hfull
  refine ⟨rfl, ?_, ?_, hfirst, ?_, fun e he => ?_⟩
  · intro i hi
    obtain rfl | rfl | rfl | rfl : i = 0 ∨ i = 1 ∨ i = 2 ∨ i = 3 := by omega
    exacts [hplace.1.1, hplace.2.1.1, hplace.2.2.1.1, hplace.2.2.2.1]
  · intro i hi
    obtain rfl | rfl | rfl : i = 0 ∨ i = 1 ∨ i = 2 := by omega
    exacts [hnext.1, hnext.2.1, hnext.2.2]
  · intro i hi
    obtain rfl | rfl : i = 0 ∨ i = 1 := by omega
    exacts [hfull.1, hfull.2]
  · obtain ⟨q, hq, hlo, hhi⟩ := hw e he
    rcases mem_pair.mp hq with rfl | rfl
    · exact ⟨2, .inl rfl, hlo, hhi⟩
    · exact ⟨3, .inr rfl, hlo, hhi⟩

section Layout

variable {img : Image} {exports : List (Bytes × Bytes)} {asm : Asm} {ev : AsmExpr → ℕ}
  {val : ℤ → ℕ} {items : List AsmItem} {i : ℕ}

def Image.Within (img : Image) : Prop := ∀ i < 3, (img.seg i).filesz ≤ (img.seg i).memsz

theorem Image.Ok.next_filesz (hok : img.Ok) (hle : img.Within) (hi : i < 3) :
    (img.seg i).vaddr + (img.seg i).filesz ≤ (img.seg (i + 1)).vaddr :=
  Nat.le_trans (Nat.add_le_add_left (hle i hi) _) (hok.next i hi)

theorem Image.Ok.fits (hok : img.Ok) (hle : img.Within) (hi : i < 4) {e : ℕ × ℤ}
    (he : e ∈ img.slotsOf (img.seg i)) : e.1 - (img.seg i).vaddr + 8 ≤ (img.seg i).filesz := by
  obtain ⟨hmem, hseg⟩ := mem_filter.mp ((mem_insertionSort _).mp he)
  obtain ⟨hlo, hhi⟩ := of_decide_eq_true hseg
  obtain ⟨j, hj, hlo', hhi'⟩ := hok.slots e hmem
  have h0 : _ ≤ (img.seg 1).vaddr := hok.next_filesz hle (by decide)
  have h1 : _ ≤ (img.seg 2).vaddr := hok.next_filesz hle (by decide)
  have h2 : _ ≤ (img.seg 3).vaddr := hok.next_filesz hle (by decide)
  obtain rfl | rfl | rfl | rfl : i = 0 ∨ i = 1 ∨ i = 2 ∨ i = 3 := by omega
  all_goals rcases hj with rfl | rfl <;> omega

/-- Every slot is in one segment. -/
theorem Image.Ok.slotsOf_perm (hok : img.Ok) (hle : img.Within) :
    ((range 4).flatMap fun i => img.slotsOf (img.seg i)).Perm img.slots.entries := by
  have h0 : _ ≤ (img.seg 1).vaddr := hok.next_filesz hle (i := 0) (by decide)
  have h1 : _ ≤ (img.seg 2).vaddr := hok.next_filesz hle (i := 1) (by decide)
  have h2 : _ ≤ (img.seg 3).vaddr := hok.next_filesz hle (i := 2) (by decide)
  have hnone : ∀ i < 2, img.slotsOf (img.seg i) = [] := by
    intro i hi
    refine (perm_nil.mp ((perm_insertionSort _ _).trans (.of_eq (filter_eq_nil_iff.mpr ?_))))
    intro e he hin
    obtain ⟨j, hj, hlo, hhi⟩ := hok.slots e he
    have hin := of_decide_eq_true hin
    obtain rfl | rfl : i = 0 ∨ i = 1 := by omega
    all_goals rcases hj with rfl | rfl <;> omega
  have hlast : (img.slots.entries.filter fun e => (img.seg 3).vaddr ≤ e.1 ∧
        e.1 < (img.seg 3).vaddr + (img.seg 3).filesz) =
      img.slots.entries.filter fun e => !decide ((img.seg 2).vaddr ≤ e.1 ∧
        e.1 < (img.seg 2).vaddr + (img.seg 2).filesz) := by
    refine filter_congr fun e he => ?_
    obtain ⟨j, hj, hlo, hhi⟩ := hok.slots e he
    rw [← decide_not, decide_eq_decide]
    rcases hj with rfl | rfl <;> omega
  have hsegs : ((range 4).flatMap fun i => img.slotsOf (img.seg i)) =
      img.slotsOf (img.seg 2) ++ img.slotsOf (img.seg 3) := by
    simp [range_succ, hnone]
  rw [hsegs]
  refine ((perm_insertionSort _ _).append ((perm_insertionSort _ _).trans (.of_eq hlast))).trans ?_
  exact filter_append_perm _ _

theorem rebases_sectionItems (h : sectionItems img i = some items) (a : ℕ) :
    rebasesFrom a items = (img.slotsOf (img.seg i)).map fun e => a + (e.1 - (img.seg i).vaddr) := by
  obtain ⟨lines, hlines, rfl⟩ := map_eq_some_iff.mp h
  have hspace (b n : ℕ) (c : Prop) [Decidable c] :
      rebasesFrom b (if c then [.space n] else []) = [] := by
    split_ifs <;> rfl
  rw [rebasesFrom_append, rebasesFrom_append, hspace, hspace, append_nil, append_nil]
  exact rebases_slotItems hlines a

theorem Asm.rebases_perm (hok : img.Ok) (hle : img.Within)
    (hsec : ∀ i < 4, sectionItems img i = some (asm.sections i))
    (hstart : ∀ i < 4, asm.start i = (img.seg i).vaddr + delta) :
    asm.rebases.Perm (img.slots.entries.map fun e => e.1 + delta) := by
  refine (Perm.of_eq ?_).trans ((hok.slotsOf_perm hle).map _)
  rw [map_flatMap]
  refine flatMap_congr fun i hi => ?_
  rw [mem_range] at hi
  rw [rebases_sectionItems (hsec i hi), hstart i hi]
  refine map_congr_left fun e he => ?_
  have hlo := (of_decide_eq_true (mem_filter.mp ((mem_insertionSort _).mp he)).2).1
  omega

theorem flatMap_space (c : Prop) [Decidable c] (n : ℕ) :
    (if c then [space n] else []).flatMap (bytes ev) =
      replicate (if c then n else 0) 0 := by
  split_ifs
  · exact append_nil _
  · rfl

theorem bytes_sectionItems (hok : img.Ok) (hle : img.Within) (hi : i < 4)
    (hval : ∀ a e, label a 0 img.loads = some e → ev e = val a)
    (h : sectionItems img i = some items) : items.flatMap (bytes ev) = img.filled val i := by
  obtain ⟨lines, hlines, rfl⟩ := map_eq_some_iff.mp h
  have hfits := fun e he => hok.fits hle hi (e := e) he
  have hzero (n : ℕ) : slice (patch (img.segByte (img.seg i))
      ((img.slotsOf (img.seg i)).map (slotPatch (img.seg i) val))) (img.seg i).filesz n =
        replicate n 0 := by
    refine eq_replicate_iff.mpr ⟨length_slice _ _ _, fun b hb => ?_⟩
    obtain ⟨k, -, rfl⟩ := mem_map.mp hb
    rw [patch_of_notMem _ fun q hq => ?_, segByte, if_neg (Nat.not_lt.mpr (Nat.le_add_right _ _))]
    obtain ⟨e, he, rfl⟩ := mem_map.mp hq
    rw [slotPatch, length_encode]
    exact .inr (Nat.le_trans (hfits e he) (Nat.le_add_right _ _))
  rw [flatMap_append, flatMap_append, bytes_slotItems hval hfits hlines, flatMap_space,
    flatMap_space, append_assoc, replicate_append_replicate, ← hzero, Nat.sub_zero,
    filled, ← patch_slotsOf hlines]
  refine (congrArg _ (congrArg (slice _ · _) (Nat.zero_add _).symm)).trans ?_
  rw [← slice_add]
  refine congrArg (slice _ 0) ?_
  have hle := hle i
  have hnext := hok.next i
  rw [wantSize]
  split_ifs <;> omega

theorem le_size_sectionItems (h : sectionItems img i = some items) (hi : i < 3) :
    (img.seg i).filesz + ((img.seg (i + 1)).vaddr - ((img.seg i).vaddr + (img.seg i).memsz)) ≤
      (items.map size).sum := by
  obtain ⟨lines, hlines, rfl⟩ := map_eq_some_iff.mp h
  have hlines := le_size_slotItems hlines
  rw [← length_flatMap_bytes fun _ => 0] at hlines ⊢
  rw [flatMap_append, flatMap_append, flatMap_space, flatMap_space, length_append,
    length_append, length_replicate, length_replicate, if_pos hi]
  split_ifs <;> omega

theorem writeAsm_some (h : writeAsm img exports = some asm) :
    (∀ i < 4, sectionItems img i = some (asm.sections i)) ∧
      asm.bss = (img.seg 3).memsz - (img.seg 3).filesz ∧
      labels img.loads (img.locals.map fun s => some s.2) = some asm.locals ∧
      labels img.loads (exports.map fun e => img.dynsyms.get e.1) = some asm.exported := by
  rw [writeAsm] at h
  split_ifs at h with hall
  obtain ⟨names, -, h⟩ := bind_eq_some_iff.mp h
  obtain ⟨locals, hlocals, h⟩ := bind_eq_some_iff.mp h
  obtain ⟨exported, hexported, rfl⟩ := map_eq_some_iff.mp h
  refine ⟨fun i hi => ?_, rfl, hlocals, hexported⟩
  obtain ⟨items, hitems⟩ := isSome_iff_exists.mp (hall i hi)
  simp only [hitems, getD_some]

theorem Asm.size_eq (hok : img.Ok) (hle : img.Within)
    (hsec : ∀ i < 4, sectionItems img i = some (asm.sections i)) (hi : i < 4) :
    asm.size i = img.wantSize i := by
  rw [Asm.size, ← length_flatMap_bytes fun _ => 0,
    bytes_sectionItems hok hle hi (fun _ _ _ => (rfl : 0 = 0)) (hsec i hi)]
  exact length_slice _ _ _

theorem Asm.start_eq (hok : img.Ok) (hsize : ∀ i < 4, asm.size i = img.wantSize i) (hi : i < 4) :
    asm.start i = (img.seg i).vaddr + delta := by
  induction i with
  | zero => rw [Asm.start, hok.first, Nat.zero_add]
  | succ i ih =>
    have haligned := hok.aligned _ hi
    have hnext := hok.next i (by omega)
    rw [Asm.start, ih (by omega), hsize i (by omega), wantSize, if_neg (by omega)]
    unfold delta at *
    omega

theorem label_cases {a : ℤ} {loads : List Phdr} {e : AsmExpr} (h : label a i loads = some e) :
    ∃ k p, loads[k]? = some p ∧ (p.vaddr ≤ a ∧ a ≤ p.vaddr + p.memsz) ∧
      (e = ⟨.seg (i + k), (a - p.vaddr).toNat⟩ ∨
        i + k = 3 ∧ p.vaddr + p.filesz ≤ a ∧ e = ⟨.bss, (a - p.vaddr - p.filesz).toNat⟩) := by
  induction loads generalizing i with
  | nil => cases h
  | cons p ps ih =>
    rw [label] at h
    split_ifs at h with hin hbss
    · cases h
      exact ⟨0, p, rfl, hin, .inr ⟨hbss.1, hbss.2.2, rfl⟩⟩
    · cases h
      exact ⟨0, p, rfl, hin, .inl rfl⟩
    · obtain ⟨k, q, hk, hq⟩ := ih h
      rw [Nat.add_assoc, Nat.add_comm 1] at hq
      exact ⟨k + 1, q, hk, hq⟩

theorem Asm.eval_label (hok : img.Ok) (hstart : ∀ i < 4, asm.start i = (img.seg i).vaddr + delta)
    (hsize : asm.size 3 = (img.seg 3).filesz) (a : ℤ) (e : AsmExpr)
    (h : label a 0 img.loads = some e) : asm.eval e = (a + delta).toNat := by
  obtain ⟨k, p, hk, hin, he⟩ := label_cases h
  have hlt : k < 4 := hok.length ▸ (List.getElem?_eq_some_iff.mp hk).1
  obtain rfl : img.seg k = p := by rw [seg, getD_eq_getElem?_getD, hk, Option.getD_some]
  have hstart := hstart k hlt
  rw [Nat.zero_add] at he
  rcases he with rfl | ⟨rfl, hbss, rfl⟩
  · rw [Asm.eval, hstart]
    omega
  · rw [Asm.eval, hstart, hsize]
    omega

theorem labels_eval {loads : List Phdr} {vs : List (Option ℕ)} {es : List AsmExpr}
    (hev : ∀ a e, label a 0 loads = some e → ev e = (a + delta).toNat)
    (h : labels loads vs = some es) : es.map ev = vs.map fun v => v.getD 0 + delta := by
  induction vs generalizing es with
  | nil =>
    cases h
    rfl
  | cons v vs ih =>
    obtain ⟨value, rfl, hvalue⟩ := bind_eq_some_iff.mp h
    obtain ⟨e, he, hrest⟩ := bind_eq_some_iff.mp hvalue
    obtain ⟨es, hes, rfl⟩ := map_eq_some_iff.mp hrest
    rw [map_cons, map_cons, hev _ _ he, ih hes]
    rfl

theorem faithful_of_within (hok : img.Ok) (hle : img.Within)
    (hw : writeAsm img exports = some asm) : Faithful img exports asm := by
  obtain ⟨hsec, hbss, hlocals, hexported⟩ := writeAsm_some hw
  have hsize : ∀ i < 4, asm.size i = img.wantSize i := fun i hi => Asm.size_eq hok hle hsec hi
  have hstart : ∀ i < 4, asm.start i = (img.seg i).vaddr + delta :=
    fun i hi => Asm.start_eq hok hsize hi
  have hlast : asm.size 3 = (img.seg 3).filesz := hsize 3 (by decide)
  have heval := Asm.eval_label hok hstart hlast
  refine ⟨hstart, fun i hi => bytes_sectionItems hok hle hi heval (hsec i hi), ⟨hbss, ?_⟩,
    Asm.rebases_perm hok hle hsec hstart, ?_, ?_⟩
  · rw [hstart 3 (by decide), hlast]
    omega
  · rw [labels_eval heval hlocals, List.map_map]
    rfl
  · rw [labels_eval heval hexported, List.map_map]
    rfl

theorem within_of_start (hok : img.Ok) (hsec : ∀ i < 4, sectionItems img i = some (asm.sections i))
    (hstart : ∀ i < 4, asm.start i = (img.seg i).vaddr + delta) :
    (img.seg 2).filesz ≤ (img.seg 2).memsz := by
  have hsize : (img.seg 2).filesz + ((img.seg 3).vaddr - ((img.seg 2).vaddr + (img.seg 2).memsz)) ≤
      asm.size 2 := le_size_sectionItems (hsec 2 (by decide)) (by decide)
  have hnext : _ ≤ (img.seg 3).vaddr := hok.next 2 (by decide)
  have hthird := hstart 2 (by decide)
  have hfourth := hstart 3 (by decide)
  rw [Asm.start, hthird] at hfourth
  unfold delta at *
  omega

end Layout

/-- **Layout of a converted library.** For whatever `parse` and `write_asm` accept, the assembly has
the layout, the bytes and the symbols that `check_output` demands if and only if the third segment
has no more bytes in the file than in memory. -/
theorem layout_faithful_iff {arch : Arch} {elf : Elf} {exports : List (Bytes × Bytes)} {img : Image}
    {asm : Asm} (h : parse arch elf exports = some img) (hw : writeAsm img exports = some asm) :
    Faithful img exports asm ↔ (img.seg 2).filesz ≤ (img.seg 2).memsz := by
  have hok := parse_ok h
  refine ⟨fun hf => within_of_start hok (writeAsm_some hw).1 hf.start, fun hle => ?_⟩
  refine faithful_of_within hok (fun i hi => ?_) hw
  obtain hi | rfl : i < 2 ∨ i = 2 := by omega
  · exact (hok.full i hi).ge
  · exact hle

/-- A shared object with a slot, a symbol that is exported, and a local one behind the data. Its
file begins with the header, the program headers, the RELA table and the dynamic table. -/
def fourPages (memsz : ℕ) : Elf where
  type := 3
  machine := 183
  data :=
    let field := encode
    [0x7F, 0x45, 0x4C, 0x46, 2, 1, 1] ++ replicate 9 0 ++ field 2 3 ++ field 2 183 ++
      field 4 1 ++ field 8 0 ++ field 8 64 ++ field 12 0 ++ field 2 64 ++ field 2 56 ++
      field 2 6 ++ field 6 0 ++
    (phdrs.flatMap fun p => field 4 p.type ++ field 4 p.flags ++ field 8 p.offset ++
      field 8 p.vaddr ++ field 8 p.vaddr ++ field 8 p.filesz ++ field 8 p.memsz ++
      field 8 delta) ++
    (field 8 0x8000 ++ field 8 1027 ++ field 8 0x4000) ++
    ([7, 400, 8, 24, 9, 24, 0, 0].flatMap fun n => field 8 n) ++ replicate 48672 0
  phdrs := phdrs
  dynamic := [(7, 400), (8, 24), (9, 24)]
  dynsym := [⟨[], 0, 0, 0⟩, ⟨ascii "f", 0x12, 1, 0x4000⟩]
  symtab := [⟨ascii "g", 0x11, 2, 0xC010⟩]
where
  phdrs : List Phdr :=
    [⟨1, 4, 0, 0, 488, 488⟩, ⟨1, 5, 0x4000, 0x4000, 8, 8⟩, ⟨1, 6, 0x8000, 0x8000, 8, memsz⟩,
      ⟨1, 6, 0xC000, 0xC000, 8, 24⟩, ⟨2, 4, 424, 424, 64, 64⟩,
      ⟨0x6474E552, 4, 0x8000, 0x8000, 8, memsz⟩]

def fExport : List (Bytes × Bytes) := [(ascii "f", ascii "_f")]

/-- What `parse` makes of it. -/
def fourPagesImage (memsz : ℕ) : Image where
  data := (fourPages memsz).data
  loads := (fourPages memsz).phdrs.take 4
  slots := OrderedMap.empty.set 0x8000 0x4000
  dynsyms := OrderedMap.empty.set (ascii "f") 0x4000
  locals := [(ascii "g", 0xC010)]

theorem parse_fourPages {memsz : ℕ} (h : memsz ∈ [0, 8]) :
    parse .arm64 (fourPages memsz) fExport = some (fourPagesImage memsz) := by
  have hrela : ∀ m ∈ [0, 8], rela (fourPages m)
      ((fourPages m).phdrs.filter fun p => p.type = 1) = some [(0x8000, 1027, 0x4000)] := by
    decide +kernel
  have hshape : Shape .arm64 (fourPages memsz)
      ((fourPages memsz).phdrs.filter fun p => p.type = 1) := by
    rcases mem_pair.mp h with rfl | rfl <;>
      simp [-reduceReplicate, Shape, fourPages, fourPages.phdrs, Arch.machine, delta,
        Elf.dyn, dtAccepted]
  rw [parse, if_pos hshape, hrela memsz h]
  rcases mem_pair.mp h with rfl | rfl <;> rfl

def fourPagesAsm (memsz : ℕ) : Asm :=
  ⟨fun i => (sectionItems (fourPagesImage memsz) i).getD [], 16, [ascii "_g"], [⟨.bss, 8⟩],
    [⟨.seg 1, 0⟩]⟩

theorem writeAsm_fourPages {memsz : ℕ} (h : memsz ∈ [0, 8]) :
    writeAsm (fourPagesImage memsz) fExport = some (fourPagesAsm memsz) := by
  have hall : ∀ m ∈ [0, 8], ∀ i < 4, (sectionItems (fourPagesImage m) i).isSome = true := by
    decide +kernel
  rw [writeAsm, if_pos (hall memsz h)]
  rcases mem_pair.mp h with rfl | rfl <;> rfl

theorem layout_faithful_iff_fourPages :
    parse .arm64 (fourPages 8) fExport = some (fourPagesImage 8) ∧
      writeAsm (fourPagesImage 8) fExport = some (fourPagesAsm 8) ∧
      Faithful (fourPagesImage 8) fExport (fourPagesAsm 8) :=
  have hparse := parse_fourPages (show 8 ∈ [0, 8] by decide)
  have hasm := writeAsm_fourPages (show 8 ∈ [0, 8] by decide)
  ⟨hparse, hasm, (layout_faithful_iff hparse hasm).mpr (by decide)⟩

/-- With eight bytes in the file and none in memory, the fourth segment starts a page too high. -/
theorem layout_fourPages_moved :
    parse .arm64 (fourPages 0) fExport = some (fourPagesImage 0) ∧
      writeAsm (fourPagesImage 0) fExport = some (fourPagesAsm 0) ∧
      (fourPagesAsm 0).start 3 = ((fourPagesImage 0).seg 3).vaddr + delta + 0x4000 ∧
      ¬ Faithful (fourPagesImage 0) fExport (fourPagesAsm 0) := by
  have hstart : (fourPagesAsm 0).start 3 = ((fourPagesImage 0).seg 3).vaddr + delta + 0x4000 := by
    decide +kernel
  refine ⟨parse_fourPages (by decide), writeAsm_fourPages (by decide), hstart, fun hf => ?_⟩
  have hmoved := hf.start 3 (by decide)
  rw [hstart, delta] at hmoved
  omega

end Anyfs.Macho
