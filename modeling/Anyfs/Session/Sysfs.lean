import Anyfs.Lib.CString
import Anyfs.Lib.InPlaceSort

/-!
# The partitions of a disk in sysfs

`anyfs_sysfs_walk` fills the caller's buffer with the partitions it finds and sorts them by their
index. It goes on counting when the buffer is full, but then it does not sort: which partitions are
in the buffer, and in which order, is left to `readdir`.
-/

namespace Anyfs

open List CString InPlaceSort

/-- `AnyfsSysfsPart`. -/
structure SysfsPart where
  index : UInt32
  startBytes : UInt64
  sizeBytes : UInt64
  readOnly : Bool
  name : Bytes
  deriving DecidableEq

variable (files : Bytes → Option Bytes)

/-- `read_small`: the beginning of a file, without newlines and blanks at its end. -/
def readSmall (path : Bytes) (cap : ℕ) : Option Bytes :=
  (files path).map fun content =>
    (content.take (cap - 1)).rdropWhile fun c => c == 10 || c == 13 || c == 32

def readU64 (path : Bytes) : Option UInt64 :=
  (readSmall files path 64).bind fun buf =>
    let s := cstr buf
    if (strtoul s).2 = s then none else some (strtoul s).1

def sysfsDir (diskName : Bytes) : Bytes := snprintf 128 (ascii "/sys/block/" ++ diskName)

def sysfsAttr (diskName n attr : Bytes) : Bytes :=
  snprintf 192 (sysfsDir diskName ++ [47] ++ n ++ [47] ++ attr)

/-- A directory entry, if it is a partition. -/
def sysfsPart (diskName n : Bytes) : Option SysfsPart :=
  if n.head? = some 46 then none
  else if diskName.isPrefixOf n then
    let rest :=
      match n.drop diskName.length with
      | 112 :: r => r
      | r => r
    if rest = [] then none
    else
      let (idx, tail) := strtoul rest
      if tail ≠ [] ∨ idx = 0 then none
      else
        let start := readU64 files (sysfsAttr diskName n (ascii "start"))
        let size := readU64 files (sysfsAttr diskName n (ascii "size"))
        let ro := readU64 files (sysfsAttr diskName n (ascii "ro"))
        some ⟨idx.toUInt32, start.elim 0 (· * 512), size.elim 0 (· * 512), ro.any (· != 0),
          n.take 63⟩
  else none

def sysfsLoop (files : Bytes → Option Bytes) (diskName : Bytes) :
    List Bytes → ℕ → List SysfsPart → ℕ × List SysfsPart
  | [], got, buf => (got, buf)
  | n :: ns, got, buf =>
    match sysfsPart files diskName n with
    | none => sysfsLoop files diskName ns got buf
    | some p =>
      if buf.length ≤ got then sysfsLoop files diskName ns (got + 1) buf
      else sysfsLoop files diskName ns (got + 1) (buf.set got p)

/-- `anyfs_sysfs_walk` for a directory (`none` if it cannot be opened) and a buffer. -/
def anyfsSysfsWalk (files : Bytes → Option Bytes) (diskName : Bytes) (buf : List SysfsPart) :
    Option (List Bytes) → Int32 × List SysfsPart
  | none => (-1, buf)
  | some names =>
    let (got, buf) := sysfsLoop files diskName names 0 buf
    (Int32.ofNat got, if 1 < got ∧ got ≤ buf.length then sortTo (·.index.toNat) got buf else buf)

/-! ### What the loop leaves in the buffer -/

section Loop

variable {files : Bytes → Option Bytes} {diskName : Bytes} {names names' : List Bytes}
  {buf : List SysfsPart}

def sysfsParts (files : Bytes → Option Bytes) (diskName : Bytes) (names : List Bytes) :
    List SysfsPart := names.filterMap (sysfsPart files diskName)

theorem sysfsLoop_eq (files : Bytes → Option Bytes) (diskName : Bytes) (names : List Bytes)
    (got : ℕ) (buf : List SysfsPart) :
    sysfsLoop files diskName names got buf =
      (got + (sysfsParts files diskName names).length,
        buf.take got ++ (sysfsParts files diskName names).take (buf.length - got) ++
          buf.drop (got + (sysfsParts files diskName names).length)) := by
  induction names generalizing got buf with
  | nil => simp [sysfsLoop, sysfsParts]
  | cons n names ih =>
    rw [sysfsLoop, sysfsParts, filterMap_cons]
    cases sysfsPart files diskName n with
    | none => exact ih got buf
    | some p =>
      dsimp only
      split_ifs with hfull
      · rw [ih, Nat.sub_eq_zero_of_le hfull, Nat.sub_eq_zero_of_le (Nat.le_succ_of_le hfull),
          take_of_length_le hfull, take_of_length_le (Nat.le_succ_of_le hfull),
          sysfsParts, length_cons, Nat.add_right_comm, Nat.add_assoc]
        simp
      · have hset : buf.set got p = buf.take got ++ p :: buf.drop (got + 1) :=
          set_eq_take_append_cons_drop.trans (if_pos (Nat.lt_of_not_le hfull))
        have hlen : (buf.take got).length = got := by rw [length_take]; omega
        have htake : (buf.set got p).take (got + 1) = buf.take got ++ [p] := by
          rw [hset, take_append, hlen, Nat.add_sub_cancel_left]
          simp
        have hdrop : ∀ k, (buf.set got p).drop (got + 1 + k) = buf.drop (got + 1 + k) := by
          intro k
          rw [hset, drop_append, hlen, show got + 1 + k - got = k + 1 from by omega]
          simp [Nat.add_assoc]
        rw [ih, htake, hdrop, length_set, length_cons, sysfsParts,
          show buf.length - got = buf.length - (got + 1) + 1 from by omega, take_succ_cons]
        simp [Nat.add_assoc, Nat.add_comm 1]

theorem exists_anyfsSysfsWalk (h : (sysfsParts files diskName names).length ≤ buf.length) :
    ∃ s : List SysfsPart, s.Perm (sysfsParts files diskName names) ∧
      s.Pairwise (·.index.toNat ≤ ·.index.toNat) ∧
      anyfsSysfsWalk files diskName buf (some names) =
        (Int32.ofNat (sysfsParts files diskName names).length,
          s ++ buf.drop (sysfsParts files diskName names).length) := by
  rw [anyfsSysfsWalk, sysfsLoop_eq]
  simp only [Nat.zero_add, take_zero, nil_append, Nat.sub_zero, take_of_length_le h]
  generalize sysfsParts files diskName names = ps at h ⊢
  have hlen : ps.length ≤ (ps ++ buf.drop ps.length).length := by simp
  obtain ⟨s, hperm, hsorted, hsort⟩ := exists_sortTo (fun p : SysfsPart => p.index.toNat) hlen
  rw [take_left] at hperm
  rw [drop_left] at hsort
  refine ⟨s, hperm, hsorted, ?_⟩
  rw [← hsort]
  split_ifs with hmany
  · rfl
  · -- without a second element there is nothing to sort
    match hps : ps.length with
    | 0 | 1 => rfl
    | n + 2 => exact absurd ⟨by omega, hlen⟩ hmany

theorem anyfsSysfsWalk_full (h : buf.length < (sysfsParts files diskName names).length) :
    anyfsSysfsWalk files diskName buf (some names) =
      (Int32.ofNat (sysfsParts files diskName names).length,
        (sysfsParts files diskName names).take buf.length) := by
  rw [anyfsSysfsWalk, sysfsLoop_eq]
  simp only [Nat.zero_add, take_zero, nil_append, Nat.sub_zero]
  rw [drop_eq_nil_of_le (Nat.le_of_lt h), append_nil, if_neg]
  rw [length_take]
  omega

end Loop

/-! ### The order of the directory -/

/-- What is in the buffer does not depend on the order in which `readdir` gives the directory: the
partitions are sorted by index, and those that are left out have greater indices. -/
structure OrderFree (files : Bytes → Option Bytes) (diskName : Bytes) (buf : List SysfsPart)
    (names : List Bytes) : Prop where
  same : ∀ names', names'.Perm names → anyfsSysfsWalk files diskName buf (some names') =
    anyfsSysfsWalk files diskName buf (some names)
  content : ∃ ps : List SysfsPart,
    (anyfsSysfsWalk files diskName buf (some names)).2 =
      ps ++ buf.drop (sysfsParts files diskName names).length ∧
    ps.length = min (sysfsParts files diskName names).length buf.length ∧
    ps.Pairwise (·.index < ·.index) ∧ (∀ p ∈ ps, p ∈ sysfsParts files diskName names) ∧
    ∀ p ∈ ps, ∀ q ∈ sysfsParts files diskName names, q ∉ ps → p.index < q.index

section Order

variable {files : Bytes → Option Bytes} {diskName : Bytes} {names : List Bytes}
  {buf : List SysfsPart}

theorem pairwise_index_lt {s ps : List SysfsPart} (hperm : s.Perm ps)
    (hdistinct : (ps.map (·.index)).Nodup) (hs : s.Pairwise (·.index.toNat ≤ ·.index.toNat)) :
    s.Pairwise (·.index < ·.index) := by
  have hnodup : s.Pairwise (·.index ≠ ·.index) :=
    pairwise_map.mp ((hperm.map SysfsPart.index).nodup_iff.mpr hdistinct)
  refine (hs.and hnodup).imp fun {p q} h => UInt32.lt_iff_toNat_lt.mpr ?_
  exact Nat.lt_of_le_of_ne h.1 fun heq => h.2 (UInt32.toNat_inj.mp heq)

theorem take_reverse_ne {ps : List SysfsPart} {k : ℕ} (hdistinct : (ps.map (·.index)).Nodup)
    (hlen : 1 < ps.length) (hk : 1 ≤ k) : ps.reverse.take k ≠ ps.take k := by
  intro heq
  have hhead := congrArg List.head? heq
  rw [List.head?_take, List.head?_take, if_neg (by omega), if_neg (by omega), List.head?_reverse]
    at hhead
  match ps with
  | p :: q :: ps =>
    rw [List.getLast?_cons_cons, List.getLast?_eq_getLast_of_ne_nil (by simp)] at hhead
    have hlast : (q :: ps).getLast (by simp) ∈ q :: ps := getLast_mem _
    rw [Option.some.inj hhead] at hlast
    exact (nodup_cons.mp hdistinct).1 (mem_map_of_mem hlast)

/-- **Discovery does not depend on the order exactly when all partitions fit.** For every directory
whose partitions have distinct indices, all orders of the directory give the same count and the same
contents, sorted by index, if and only if there are not too many. -/
theorem anyfsSysfsWalk_orderFree_iff
    (hdistinct : ((sysfsParts files diskName names).map (·.index)).Nodup) (hbuf : 1 ≤ buf.length) :
    OrderFree files diskName buf names ↔
      (sysfsParts files diskName names).length ≤ buf.length := by
  constructor
  · intro h
    by_contra hfull
    have hparts : sysfsParts files diskName names.reverse =
        (sysfsParts files diskName names).reverse := filterMap_reverse
    have hsame := h.same names.reverse names.reverse_perm
    have hlen : buf.length < (sysfsParts files diskName names.reverse).length := by
      rw [hparts, length_reverse]
      omega
    rw [anyfsSysfsWalk_full hlen, anyfsSysfsWalk_full (Nat.lt_of_not_le hfull), hparts] at hsame
    exact take_reverse_ne hdistinct (by omega) hbuf (Prod.mk.inj hsame).2
  · intro hle
    obtain ⟨s, hperm, hsorted, hwalk⟩ := exists_anyfsSysfsWalk hle
    have hstrict := pairwise_index_lt hperm hdistinct hsorted
    refine ⟨fun names' hnames => ?_, s, by rw [hwalk], ?_, hstrict,
      fun p hp => hperm.mem_iff.mp hp, ?_⟩
    · have hparts : (sysfsParts files diskName names').Perm (sysfsParts files diskName names) :=
        hnames.filterMap _
      obtain ⟨s', hperm', hsorted', hwalk'⟩ :=
        exists_anyfsSysfsWalk (hparts.length_eq ▸ hle)
      have hstrict' := pairwise_index_lt (hperm'.trans hparts) hdistinct hsorted'
      have heq : s' = s :=
        List.Perm.eq_of_pairwise (fun p q _ _ hpq hqp => absurd hpq (UInt32.lt_asymm hqp))
          hstrict' hstrict (hperm'.trans (hparts.trans hperm.symm))
      rw [hwalk', hwalk, heq, hparts.length_eq]
    · rw [hperm.length_eq, Nat.min_eq_left hle]
    · intro p hp q hq hnot
      exact absurd (hperm.mem_iff.mpr hq) hnot

theorem anyfsSysfsWalk_orderFree_vda :
    OrderFree (fun _ => some (ascii "8\n")) (ascii "vda")
      [⟨0, 0, 0, false, []⟩, ⟨0, 0, 0, false, []⟩]
      [ascii "vda2", ascii "size", ascii "vda1"] :=
  (anyfsSysfsWalk_orderFree_iff (by decide +kernel) (by decide)).mpr (by decide +kernel)

/-- Two partitions and a buffer for one: the buffer has the one that `readdir` gave first. -/
theorem anyfsSysfsWalk_readdirOrder :
    ((anyfsSysfsWalk (fun _ => none) (ascii "vda") [⟨0, 0, 0, false, []⟩]
        (some [ascii "vda1", ascii "vda2"])).2.map (·.index) = [1]) ∧
      ((anyfsSysfsWalk (fun _ => none) (ascii "vda") [⟨0, 0, 0, false, []⟩]
        (some [ascii "vda2", ascii "vda1"])).2.map (·.index) = [2]) := by
  decide +kernel

end Order

end Anyfs
