import Anyfs.Session.Enter
import Anyfs.Share.Split

/-!
# Resolving a share specification

`anyfs_share_resolve` copies the text of a `--share` specification, splits off the name, rewrites a
bare integer and a missing disk, parses the path and enters it. Three of the steps copy into buffers
of fixed size. The buffers are a parameter (`shareReading`), so that what the code reads and what
the complete specification says are two instances of one definition.
-/

namespace Anyfs

open List Option CString

/-! ### The text that is read -/

/-- A specification as it is read: its name, its path, and the path after the rewrites. -/
structure ShareReading where
  name : Option Bytes
  path : Bytes
  arg : Bytes
  deriving DecidableEq

def startsWithDigit (s : Bytes) : Bool := (s.head?.map isDigit).getD false

/-- Step 3: with one disk, a path without a disk gets `disk0/`. -/
def prefixDisk (copy : ℕ → Bytes → Bytes) (nDisks : ℕ) (path : Bytes) : Bytes :=
  if nDisks = 1 ∧ ¬ (ascii "disk").isPrefixOf path then copy 256 (ascii "disk0/" ++ path) else path

/-- Steps 1 to 3, where `copy n` copies a text into a buffer of `n` bytes. A bare integer is
refused when there are several disks. -/
def shareReading (copy : ℕ → Bytes → Bytes) (nDisks : ℕ) (spec : Bytes) : Option ShareReading :=
  let split := anyfsShareSplit (copy 256 spec)
  if startsWithDigit split.2 then
    if 1 < nDisks then none
    else some ⟨split.1, split.2, prefixDisk copy nDisks (copy 64 (112 :: split.2))⟩
  else some ⟨split.1, split.2, prefixDisk copy nDisks split.2⟩

def wholeCopy (_ : ℕ) (s : Bytes) : Bytes := s

/-! ### The path -/

/-- `sscanf(path_arg, "disk%u%c", &whole_idx, &tail) == 1`: the number, if it is all there is. -/
def scanWholeDisk (arg : Bytes) : Option UInt32 :=
  if ¬ (ascii "disk").isPrefixOf arg then none
  else
    let r := arg.drop 4
    if r = [] ∨ (strtoul r).2 ≠ [] then none else some (strtoul r).1.toUInt32

/-- What an argument is parsed to. -/
def shareParse (arg : Bytes) : Option AnyfsPath :=
  match scanWholeDisk arg with
  | some w => some ⟨some (Int.bmod w.toNat (2 ^ 32)), []⟩
  | none => anyfsPathParse arg

/-- The checks of `anyfs_share_resolve` that end in an error. -/
inductive ShareError where
  | bareInteger
  | badPath
  | noDisk
  | notRegistered
  | wholeDisk
  | enterPath
  deriving DecidableEq

def AnyfsPath.disk (ap : AnyfsPath) : ℤ := ap.diskIdx.getD 0

@[simp] theorem AnyfsPath.disk_some (n : ℤ) (comp : List AnyfsPathComp) :
    AnyfsPath.disk ⟨some n, comp⟩ = n := rfl

@[simp] theorem AnyfsPath.disk_none (comp : List AnyfsPathComp) :
    AnyfsPath.disk ⟨none, comp⟩ = 0 := rfl

/-- What a specification names. -/
def shareTarget (nDisks : ℕ) (spec : Bytes) : Except ShareError (ShareReading × AnyfsPath) :=
  match shareReading snprintf nDisks spec with
  | none => .error .bareInteger
  | some rd =>
    match shareParse rd.arg with
    | none => .error .badPath
    | some ap =>
      if 1 < nDisks ∧ ap.diskIdx = none then .error .noDisk
      else if (nDisks : ℤ) ≤ ap.disk then .error .notRegistered
      else .ok (rd, ap)

/-! ### The name -/

def anyfsShareAutoName (path : Bytes) (sz : ℕ) : Bytes :=
  snprintf sz (path.map fun c => if c = slash then 95 else c)

/-- The loop that appends the partitions to the canonical name, up to 160 bytes. -/
def appendComps (canonical : Bytes) : List AnyfsPathComp → Bytes
  | [] => canonical
  | c :: rest =>
    let piece := ascii "_p" ++ decimal c.p.toNat
    if 160 - canonical.length ≤ piece.length then
      canonical ++ snprintf (160 - canonical.length) piece
    else appendComps (canonical ++ piece) rest

def canonicalName (disk : ℤ) (comp : List AnyfsPathComp) : Bytes :=
  appendComps (ascii "disk" ++ decimalInt disk) comp

def shareName (rd : ShareReading) (ap : AnyfsPath) (sz : ℕ) : Bytes :=
  match rd.name with
  | some name =>
    if name = [] then anyfsShareAutoName (canonicalName ap.disk ap.comp) sz else snprintf sz name
  | none => anyfsShareAutoName (canonicalName ap.disk ap.comp) sz

/-! ### The call -/

/-- What `anyfs_share_resolve` returns. A failure names the check that ended the call. -/
structure ShareRet where
  rc : ℤ
  error : Option ShareError
  name : Bytes
  lkl : Bytes
  disks : List Session
  kernel : Kernel

/-- A run of `anyfs_share_resolve`. It does not return when an index is outside the array, or while
another thread is entering the same slot. -/
structure ShareRun where
  reads : List ℤ
  entered : Option (ℤ × List AnyfsPathComp)
  ret : Option ShareRet

def ShareRet.fail (e : ShareError) (disks : List Session) (k : Kernel) : ShareRet :=
  ⟨-1, some e, [], [], disks, k⟩

/-- `disks[i]`, when `i` is inside the array. -/
def diskAt (disks : List Session) (i : ℤ) : Option Session :=
  if i < 0 then none else disks[i.toNat]?

section Calls

variable (env : KernelEnv) (ce : CredEnv)

def enterShare (s : Session) (k : Kernel) (comp : List AnyfsPathComp) (flags : MountFlags) :
    Option EnterRet :=
  if comp = [] then anyfsSessionEnter env ce s k 0 flags
  else anyfsSessionEnterPath env ce s k comp flags

/-- `anyfs_share_resolve`. A chain that cannot be entered reads the disk once more. -/
def anyfsShareResolve (disks : List Session) (k : Kernel) (spec : Bytes) (flags : MountFlags)
    (nameSz lklSz : ℕ) : ShareRun :=
  match shareTarget disks.length spec with
  | .error e => ⟨[], none, some (.fail e disks k)⟩
  | .ok (rd, ap) =>
    let i := ap.disk
    match diskAt disks i with
    | none => ⟨[i], none, none⟩
    | some s =>
      match enterShare env ce s k ap.comp flags with
      | none => ⟨[i], some (i, ap.comp), none⟩
      | some r =>
        let disks := disks.set i.toNat r.session
        if r.rc < 0 then
          if ap.comp = [] then ⟨[i], some (i, ap.comp), some (.fail .wholeDisk disks r.kernel)⟩
          else ⟨[i, i], some (i, ap.comp), some (.fail .enterPath disks r.kernel)⟩
        else
          ⟨[i], some (i, ap.comp),
            some ⟨0, none, shareName rd ap nameSz, snprintf lklSz r.lklPath, disks, r.kernel⟩⟩

end Calls

/-! ### The disk that is read -/

variable {arg : Bytes} {nDisks : ℕ} {rd : ShareReading}

theorem scanWholeDisk_eq_some {w : UInt32} :
    scanWholeDisk arg = some w ↔ ∃ num neg ds, arg = ascii "disk" ++ num ∧ Scanned num neg ds ∧
      w = (strtoulValue neg ds).toUInt32 := by
  constructor
  · intro h
    rw [scanWholeDisk] at h
    split_ifs at h with hpre
    obtain ⟨num, rfl⟩ := isPrefixOf_iff_prefix.mp hpre
    rw [show (ascii "disk" ++ num).drop 4 = num from rfl] at h
    dsimp only at h
    split_ifs at h with hbad
    obtain ⟨hne, hrest⟩ := not_or.mp hbad
    obtain ⟨neg, ds, hscan⟩ := exists_scanned_of_strtoul hne (not_not.mp hrest)
    rw [hscan.strtoul] at h
    exact ⟨num, neg, ds, rfl, hscan, (some.inj h).symm⟩
  · rintro ⟨num, neg, ds, rfl, hscan, rfl⟩
    have hpre : (ascii "disk").isPrefixOf (ascii "disk" ++ num) = true :=
      isPrefixOf_iff_prefix.mpr (prefix_append _ _)
    rw [scanWholeDisk, if_neg (not_not.mpr hpre), show (ascii "disk" ++ num).drop 4 = num from rfl]
    dsimp only
    rw [hscan.strtoul, if_neg (not_or.mpr ⟨hscan.ne_nil, not_not.mpr rfl⟩)]

theorem notMem_of_scanWholeDisk {w : UInt32} (h : scanWholeDisk arg = some w) :
    112 ∉ arg ∧ 80 ∉ arg := by
  obtain ⟨num, neg, ds, rfl, ⟨ws, sign, rfl, hws, hsign, -, hds⟩, -⟩ := scanWholeDisk_eq_some.mp h
  have hnot : ∀ c : UInt8, isSpace c = false → isDigit c = false → c ≠ 43 → c ≠ 45 →
      c ∉ ascii "disk" → c ∉ ascii "disk" ++ (ws ++ (sign ++ ds)) := by
    intro c hspace hdigit hplus hminus hdisk hmem
    rcases mem_append.mp hmem with hmem | hmem
    · exact hdisk hmem
    rcases mem_append.mp hmem with hmem | hmem
    · exact absurd (hws _ hmem) (by simp [hspace])
    rcases mem_append.mp hmem with hmem | hmem
    · rcases hsign with ⟨-, rfl | rfl⟩ | ⟨-, rfl⟩
      · exact not_mem_nil hmem
      · exact hplus (mem_singleton.mp hmem)
      · exact hminus (mem_singleton.mp hmem)
    · exact absurd (hds _ hmem) (by simp [hdigit])
  exact ⟨hnot 112 (by decide) (by decide) (by decide) (by decide) (by decide),
    hnot 80 (by decide) (by decide) (by decide) (by decide) (by decide)⟩

theorem scanWholeDisk_of_segments {disk comps : List Bytes} (h : Segments arg disk comps)
    (hcomps : ∀ seg ∈ comps, LooseComp seg) : scanWholeDisk arg = none := by
  cases hscan : scanWholeDisk arg with
  | none => rfl
  | some w =>
    obtain ⟨hp, hP⟩ := notMem_of_scanWholeDisk hscan
    obtain ⟨seg, segs, rfl⟩ := exists_cons_of_ne_nil h.comps_pos
    obtain ⟨num, q, neg, ds, ⟨l, hl, -, rfl⟩, -⟩ := hcomps seg mem_cons_self
    have hmem : l ∈ trimSlashes arg := by
      have hne : l ≠ slash := by rcases hl with rfl | rfl <;> decide
      rw [h.text, mem_intercalate_slash hne]
      exact ⟨_, mem_append_right _ mem_cons_self, mem_cons_self⟩
    rcases hl with rfl | rfl
    · exact absurd ((mem_trimSlashes (by decide)).mp hmem) hp
    · exact absurd ((mem_trimSlashes (by decide)).mp hmem) hP

/-- A bare disk whose number, read by `strtoul` and cut to 32 bits, is negative as an `int`. -/
def WrappedWhole (arg : Bytes) : Prop :=
  ∃ num neg ds, arg = ascii "disk" ++ num ∧ Scanned num neg ds ∧
    2 ^ 31 ≤ (strtoulValue neg ds).toNat % 2 ^ 32

/-- A path whose disk number, read by `strtol` and cut to 32 bits, is negative as an `int`. -/
def WrappedPath (arg : Bytes) : Prop :=
  ∃ ds comps, Segments arg [ascii "disk" ++ ds] comps ∧ (∀ seg ∈ comps, LooseComp seg) ∧
    Numeral ds ∧ 2 ^ 31 ≤ min (digitsValue ds) (2 ^ 63 - 1) % 2 ^ 32

/-- The disk number of a specification, as the code reads it, is negative as an `int`. -/
def WrappedDisk (nDisks : ℕ) (spec : Bytes) : Prop :=
  ∃ rd, shareReading snprintf nDisks spec = some rd ∧ (WrappedWhole rd.arg ∨ WrappedPath rd.arg)

theorem bmod_neg_iff (v : ℕ) : Int.bmod (v : ℤ) (2 ^ 32) < 0 ↔ 2 ^ 31 ≤ v % 2 ^ 32 := by
  rw [Int.bmod_def]
  split_ifs <;> omega

theorem natCast_saturated (v : ℕ) : ((min v (2 ^ 63 - 1) : ℕ) : ℤ) = min (v : ℤ) (2 ^ 63 - 1) := by
  omega

theorem shareParse_of_scan {w : UInt32} (h : scanWholeDisk arg = some w) :
    shareParse arg = some ⟨some (Int.bmod w.toNat (2 ^ 32)), []⟩ := by
  rw [shareParse, h]

theorem shareParse_of_none (h : scanWholeDisk arg = none) :
    shareParse arg = anyfsPathParse arg := by
  rw [shareParse, h]

theorem shareParse_neg_iff :
    (∃ ap, shareParse arg = some ap ∧ ap.disk < 0) ↔ WrappedWhole arg ∨ WrappedPath arg := by
  constructor
  · rintro ⟨ap, hap, hneg⟩
    cases hscan : scanWholeDisk arg with
    | some w =>
      obtain ⟨num, neg, ds, harg, hnum, rfl⟩ := scanWholeDisk_eq_some.mp hscan
      obtain rfl := some.inj ((shareParse_of_scan hscan).symm.trans hap)
      rw [AnyfsPath.disk_some, bmod_neg_iff, UInt64.toNat_toUInt32] at hneg
      exact .inl ⟨num, neg, ds, harg, hnum, by omega⟩
    | none =>
      rw [shareParse_of_none hscan] at hap
      obtain ⟨disk, comps, hsegs, hd, hc⟩ := anyfsPathParse_eq_some.mp hap
      obtain ⟨-, hcomps⟩ := loose_of_parse hd hc
      obtain ⟨idx, comp⟩ := ap
      cases idx with
      | none => simp at hneg
      | some n =>
        obtain ⟨seg, hseg, rfl⟩ : ∃ seg, parseDiskPrefix seg = .idx n ∧ disk = [seg] := by
          simpa [forall₂_cons_right_iff] using hd
        obtain ⟨ds, rfl, hds, rfl⟩ := parseDiskPrefix_eq_idx.mp hseg
        rw [AnyfsPath.disk_some, ← natCast_saturated, bmod_neg_iff] at hneg
        exact .inr ⟨ds, comps, hsegs, hcomps, hds, hneg⟩
  · rintro (⟨num, neg, ds, harg, hnum, hbig⟩ | ⟨ds, comps, hsegs, hcomps, hds, hbig⟩)
    · refine ⟨_, shareParse_of_scan (scanWholeDisk_eq_some.mpr ⟨num, neg, ds, harg, hnum, rfl⟩), ?_⟩
      rw [AnyfsPath.disk_some, bmod_neg_iff, UInt64.toNat_toUInt32]
      omega
    · have hdisk : ∀ seg ∈ [ascii "disk" ++ ds], LooseDisk seg := by
        intro seg hseg
        exact ⟨ds, mem_singleton.mp hseg, hds⟩
      obtain ⟨ap, hap, hd, -⟩ := exists_anyfsPathParse_of_loose hsegs hdisk hcomps
      refine ⟨ap, ?_, ?_⟩
      · rw [shareParse_of_none (scanWholeDisk_of_segments hsegs hcomps), hap]
      · obtain ⟨idx, comp⟩ := ap
        obtain ⟨n, hn, rfl⟩ : ∃ n, parseDiskPrefix (ascii "disk" ++ ds) = .idx n ∧
          idx = some n := by
          cases idx with
          | none => simp at hd
          | some n => exact ⟨n, by simpa using hd, rfl⟩
        obtain ⟨ds', heq, -, rfl⟩ := parseDiskPrefix_eq_idx.mp hn
        obtain rfl := append_cancel_left heq
        rw [AnyfsPath.disk_some, ← natCast_saturated, bmod_neg_iff]
        exact hbig

variable {ap : AnyfsPath}

theorem shareTarget_eq_ok {spec : Bytes} :
    shareTarget nDisks spec = .ok (rd, ap) ↔ shareReading snprintf nDisks spec = some rd ∧
      shareParse rd.arg = some ap ∧ ¬ (1 < nDisks ∧ ap.diskIdx = none) ∧ ap.disk < nDisks := by
  rw [shareTarget]
  cases shareReading snprintf nDisks spec with
  | none => simp
  | some rd' =>
    dsimp only
    cases hparse : shareParse rd'.arg with
    | none =>
      refine iff_of_false (by simp) ?_
      rintro ⟨hrd, hap, -⟩
      cases hrd
      simp [hparse] at hap
    | some ap' =>
      dsimp only
      split_ifs with hno hreg
      · refine iff_of_false (by simp) ?_
        rintro ⟨hrd, hap, hyes, -⟩
        cases hrd
        obtain rfl := some.inj (hparse.symm.trans hap)
        exact hyes hno
      · refine iff_of_false (by simp) ?_
        rintro ⟨hrd, hap, -, hlt⟩
        cases hrd
        obtain rfl := some.inj (hparse.symm.trans hap)
        omega
      · constructor
        · intro h
          obtain ⟨rfl, rfl⟩ := Prod.mk.inj (Except.ok.inj h)
          exact ⟨rfl, hparse, hno, by omega⟩
        · rintro ⟨hrd, hap, -⟩
          cases hrd
          obtain rfl := some.inj (hparse.symm.trans hap)
          rfl

section Reads

variable {env : KernelEnv} {ce : CredEnv} {disks : List Session} {k : Kernel} {spec : Bytes}
  {flags : MountFlags} {nameSz lklSz : ℕ}

theorem mem_reads_anyfsShareResolve {i : ℤ} :
    i ∈ (anyfsShareResolve env ce disks k spec flags nameSz lklSz).reads ↔
      ∃ rd ap, shareTarget disks.length spec = .ok (rd, ap) ∧ i = ap.disk := by
  rw [anyfsShareResolve]
  cases htarget : shareTarget disks.length spec with
  | error e => simp
  | ok t =>
    obtain ⟨rd, ap⟩ := t
    dsimp only
    split
    · simp
    split
    · simp
    split_ifs <;> simp

end Reads

/-- Every read of the disk array is inside the array exactly when the disk number of the
specification does not wrap around to a negative `int`. -/
theorem anyfsShareResolve_reads_iff (env : KernelEnv) (ce : CredEnv) (disks : List Session)
    (k : Kernel) (spec : Bytes) (flags : MountFlags) (nameSz lklSz : ℕ) :
    (∀ i ∈ (anyfsShareResolve env ce disks k spec flags nameSz lklSz).reads,
      0 ≤ i ∧ i < disks.length) ↔ ¬ WrappedDisk disks.length spec := by
  simp only [mem_reads_anyfsShareResolve]
  constructor
  · rintro h ⟨rd, hrd, hwrap⟩
    obtain ⟨ap, hap, hneg⟩ := shareParse_neg_iff.mpr hwrap
    have hidx : ap.diskIdx ≠ none := by
      intro hnone
      rw [AnyfsPath.disk, hnone] at hneg
      exact absurd hneg (by decide)
    have htarget : shareTarget disks.length spec = .ok (rd, ap) :=
      shareTarget_eq_ok.mpr ⟨hrd, hap, fun hno => hidx hno.2, by omega⟩
    obtain ⟨hpos, -⟩ := h _ ⟨rd, ap, htarget, rfl⟩
    omega
  · rintro h i ⟨rd, ap, htarget, rfl⟩
    obtain ⟨hrd, hap, -, hlt⟩ := shareTarget_eq_ok.mp htarget
    refine ⟨?_, hlt⟩
    by_contra hneg
    exact h ⟨rd, hrd, shareParse_neg_iff.mp ⟨ap, hap, by omega⟩⟩

/-- With one disk, `disk4294967295` reads `disks[-1]`. -/
theorem anyfsShareResolve_reads_before_array :
    (anyfsShareResolve .accepting .empty [.opened Disk.single fun _ => []] .fresh
      (ascii "disk4294967295") ⟨false, false, 0⟩ 64 64).reads = [-1] := by
  have htarget : shareTarget 1 (ascii "disk4294967295") =
      .ok (⟨none, ascii "disk4294967295", ascii "disk4294967295"⟩, ⟨some (-1), []⟩) :=
    shareTarget_eq_ok.mpr ⟨by decide +kernel, by decide +kernel, by decide, by decide⟩
  rw [anyfsShareResolve, length_singleton, htarget]
  rfl

/-! ### What a specification denotes -/

/-- What an argument means. -/
def ShareDenotes (arg : Bytes) (disk : ℤ) (chain : List UInt32) : Prop :=
  DiskSeg arg disk ∧ chain = [] ∨
    ∃ ap, PathText arg ap ∧ ap.disk = disk ∧ ap.comp.map (·.p) = chain

/-- The number of a bare disk has something before its digits or does not fit an `int`. -/
def SloppyWhole (arg : Bytes) : Prop :=
  ∃ num neg ds, arg = ascii "disk" ++ num ∧ Scanned num neg ds ∧
    (num ≠ ds ∨ 2 ^ 31 ≤ digitsValue ds)

def ShareFits (nDisks : ℕ) (spec : Bytes) : Prop :=
  spec.length < 256 ∧
    (startsWithDigit (anyfsShareSplit spec).2 = true → (anyfsShareSplit spec).2.length + 1 < 64) ∧
    (nDisks = 1 → ¬ (ascii "disk").isPrefixOf (anyfsShareSplit spec).2 →
      (anyfsShareSplit spec).2.length + 6 < 256)

theorem anyfsShareSplit_injective : Function.Injective anyfsShareSplit := by
  intro s t h
  rcases anyfsShareSplit_cases s with ⟨-, hs⟩ | ⟨name, path, -, rfl, hs⟩ <;>
    rcases anyfsShareSplit_cases t with ⟨-, ht⟩ | ⟨name', path', -, rfl, ht⟩ <;>
      rw [hs, ht] at h <;> simp_all

theorem shareReading_eq_some {copy : ℕ → Bytes → Bytes} {spec : Bytes} :
    shareReading copy nDisks spec = some rd ↔
      anyfsShareSplit (copy 256 spec) = (rd.name, rd.path) ∧
        if startsWithDigit rd.path then
          nDisks ≤ 1 ∧ rd.arg = prefixDisk copy nDisks (copy 64 (112 :: rd.path))
        else rd.arg = prefixDisk copy nDisks rd.path := by
  obtain ⟨name, path, arg⟩ := rd
  rw [shareReading]
  obtain ⟨name', path'⟩ := anyfsShareSplit (copy 256 spec)
  dsimp only
  split_ifs with hdigit hmany <;> grind

theorem prefixDisk_eq_iff {path : Bytes} :
    prefixDisk snprintf nDisks path = prefixDisk wholeCopy nDisks path ↔
      (nDisks = 1 → ¬ (ascii "disk").isPrefixOf path → path.length + 6 < 256) := by
  rw [prefixDisk, prefixDisk]
  split_ifs with h
  · rw [wholeCopy, snprintf_eq_self_iff (.inl (by decide)), length_append]
    have hlen : (ascii "disk0/").length = 6 := rfl
    rw [hlen]
    constructor
    · intro hlt _ _
      omega
    · intro hlt
      have := hlt h.1 h.2
      omega
  · exact iff_of_true rfl fun h₁ h₂ => absurd ⟨h₁, h₂⟩ h

theorem prefixDisk_rebased_eq_iff {path : Bytes} :
    prefixDisk snprintf nDisks (snprintf 64 (112 :: path)) =
      prefixDisk wholeCopy nDisks (112 :: path) ↔ path.length + 1 < 64 := by
  have hdisk : ∀ l : Bytes, ¬ (ascii "disk").isPrefixOf (112 :: l) = true := fun l => by
    exact Bool.false_ne_true
  have hcut : snprintf 64 (112 :: path) = 112 :: path.take 62 := rfl
  constructor
  · intro h
    rw [hcut, prefixDisk, prefixDisk] at h
    have hlen := congrArg length h
    split_ifs at hlen with h₁ h₂ h₂
    · simp [snprintf, wholeCopy, ascii] at hlen
      omega
    · exact absurd ⟨h₁.1, hdisk _⟩ h₂
    · exact absurd ⟨h₂.1, hdisk _⟩ h₁
    · simp at hlen
      omega
  · intro h
    rw [(snprintf_eq_self_iff (.inl (by decide))).mpr (by simpa using h), prefixDisk_eq_iff]
    intro _ _
    rw [length_cons]
    omega

theorem shareReading_complete_iff {spec : Bytes} (h : shareReading snprintf nDisks spec = some rd) :
    shareReading wholeCopy nDisks spec = some rd ↔ ShareFits nDisks spec := by
  rw [shareReading_eq_some] at h ⊢
  obtain ⟨hsplit, hrest⟩ := h
  have hwhole : anyfsShareSplit (wholeCopy 256 spec) = (rd.name, rd.path) ↔ spec.length < 256 := by
    rw [← hsplit, anyfsShareSplit_injective.eq_iff, eq_comm, wholeCopy,
      snprintf_eq_self_iff (.inl (by decide))]
  rw [hwhole, ShareFits]
  refine and_congr_right fun hlt => ?_
  -- nothing is cut by the first copy, so the path is the one of the whole text
  rw [hwhole.mpr hlt |> fun h => (show anyfsShareSplit spec = _ from h)]
  dsimp only
  split_ifs at hrest ⊢ with hdigit
  · obtain ⟨hle, harg⟩ := hrest
    rw [harg, wholeCopy, prefixDisk_rebased_eq_iff]
    constructor
    · rintro ⟨-, hfit⟩
      exact ⟨fun _ => hfit, fun _ _ => by omega⟩
    · rintro ⟨hfit, -⟩
      exact ⟨hle, hfit hdigit⟩
  · rw [hrest, prefixDisk_eq_iff]
    exact ⟨fun hfit => ⟨fun h => absurd h hdigit, hfit⟩, fun hfit => hfit.2⟩

theorem PathText.scanWholeDisk (h : PathText arg ap) : scanWholeDisk arg = none := by
  obtain ⟨disk, comps, hsegs, hd, hc⟩ := h
  exact scanWholeDisk_of_segments hsegs (loose_of_pathText hd hc).2

theorem shareDenotes_iff (h : shareParse arg = some ap) :
    ShareDenotes arg ap.disk (ap.comp.map (·.p)) ↔
      ¬ SloppyWhole arg ∧ ¬ SloppyPath SloppyNumber arg := by
  cases hscan : scanWholeDisk arg with
  | some w =>
    obtain ⟨num, neg, ds, rfl, hnum, rfl⟩ := scanWholeDisk_eq_some.mp hscan
    obtain rfl := some.inj ((shareParse_of_scan hscan).symm.trans h)
    rw [AnyfsPath.disk_some]
    constructor
    · rintro (⟨⟨ds', harg, hds, -, hlt⟩, -⟩ | ⟨ap', htext, -, hchain⟩)
      · obtain rfl := append_cancel_left harg
        refine ⟨?_, ?_⟩
        · rintro ⟨num', neg', ds', harg', hnum', hsloppy⟩
          obtain rfl := append_cancel_left harg'
          obtain ⟨-, rfl⟩ := hnum'.unique hds.scanned
          rcases hsloppy with hne | hge
          · exact hne rfl
          · omega
        · rintro ⟨disk, comps, hsegs, -, hcomps, -⟩
          simp [scanWholeDisk_of_segments hsegs hcomps] at hscan
      · simp [htext.scanWholeDisk] at hscan
    · rintro ⟨hclean, -⟩
      have hsloppy : ¬ (num ≠ ds ∨ 2 ^ 31 ≤ digitsValue ds) := fun hs =>
        hclean ⟨num, neg, ds, rfl, hnum, hs⟩
      push Not at hsloppy
      obtain ⟨rfl, hlt⟩ := hsloppy
      have hds : Numeral num := hnum.numeral
      obtain ⟨rfl, -⟩ := hnum.unique hds.scanned
      refine .inl ⟨⟨num, rfl, hds, ?_, hlt⟩, rfl⟩
      rw [toUInt32_strtoulValue (by omega), UInt32.toNat_ofNat_of_lt' (hlt.trans (by decide))]
      exact Int.bmod_eq_of_le (by omega) (by omega)
  | none =>
    rw [shareParse_of_none hscan] at h
    have hwhole : ¬ SloppyWhole arg := by
      rintro ⟨num, neg, ds, harg, hnum, -⟩
      have hsome := scanWholeDisk_eq_some.mpr ⟨num, neg, ds, harg, hnum, rfl⟩
      simp [hscan] at hsome
    constructor
    · rintro (⟨hseg, -⟩ | ⟨ap', htext, -⟩)
      · obtain ⟨ds, rfl, hds, -⟩ := hseg
        have hsome := scanWholeDisk_eq_some.mpr ⟨ds, false, ds, rfl, hds.scanned, rfl⟩
        simp [hscan] at hsome
      · exact ⟨hwhole, htext.not_sloppyNumber⟩
    · rintro ⟨-, hclean⟩
      obtain ⟨comp, htext, hmap⟩ := exists_pathText h hclean
      exact .inr ⟨_, htext, rfl, hmap⟩

/-- A successful call read the complete specification and entered the disk and the chain of
partitions that it denotes. -/
def ShareExact (nDisks : ℕ) (spec : Bytes) (entered : Option (ℤ × List AnyfsPathComp)) : Prop :=
  ∃ rd disk comp, shareReading snprintf nDisks spec = some rd ∧
    shareReading wholeCopy nDisks spec = some rd ∧ entered = some (disk, comp) ∧
    ShareDenotes rd.arg disk (comp.map (·.p))

def SharePlain (nDisks : ℕ) (spec : Bytes) : Prop :=
  ∀ rd ∈ shareReading wholeCopy nDisks spec,
    ¬ SloppyWhole rd.arg ∧ ¬ SloppyPath SloppyNumber rd.arg

section Exact

variable {env : KernelEnv} {ce : CredEnv} {disks : List Session} {k : Kernel} {spec : Bytes}
  {flags : MountFlags} {nameSz lklSz : ℕ} {r : ShareRet}

theorem anyfsShareResolve_cases
    (h : (anyfsShareResolve env ce disks k spec flags nameSz lklSz).ret = some r) :
    r.rc = -1 ∨ ∃ rd ap s e, shareTarget disks.length spec = .ok (rd, ap) ∧
      diskAt disks ap.disk = some s ∧ enterShare env ce s k ap.comp flags = some e ∧
      ¬ e.rc < 0 := by
  rw [anyfsShareResolve] at h
  cases htarget : shareTarget disks.length spec with
  | error e =>
    rw [htarget] at h
    exact .inl (some.inj h ▸ rfl)
  | ok t =>
    obtain ⟨rd, ap⟩ := t
    rw [htarget] at h
    dsimp only at h
    cases hdisk : diskAt disks ap.disk with
    | none => simp [hdisk] at h
    | some s =>
      rw [hdisk] at h
      dsimp only at h
      cases henter : enterShare env ce s k ap.comp flags with
      | none => simp [henter] at h
      | some e =>
        rw [henter] at h
        dsimp only at h
        split_ifs at h with hrc hcomp
        · exact .inl (some.inj h ▸ rfl)
        · exact .inl (some.inj h ▸ rfl)
        · exact .inr ⟨rd, ap, s, e, rfl, hdisk, henter, hrc⟩

variable {s : Session}

theorem anyfsShareResolve_of_enter {rd : ShareReading} {ap : AnyfsPath} {e : EnterRet}
    (htarget : shareTarget disks.length spec = .ok (rd, ap)) (hdisk : diskAt disks ap.disk = some s)
    (henter : enterShare env ce s k ap.comp flags = some e) (hrc : ¬ e.rc < 0) :
    anyfsShareResolve env ce disks k spec flags nameSz lklSz =
      ⟨[ap.disk], some (ap.disk, ap.comp), some ⟨0, none, shareName rd ap nameSz,
        snprintf lklSz e.lklPath, disks.set ap.disk.toNat e.session, e.kernel⟩⟩ := by
  rw [anyfsShareResolve, htarget]
  dsimp only
  rw [hdisk]
  dsimp only
  rw [henter]
  dsimp only
  rw [if_neg hrc]

theorem anyfsShareResolve_ret
    (h : (anyfsShareResolve env ce disks k spec flags nameSz lklSz).ret = some r) :
    r.rc = -1 ∨ r.rc = 0 ∧ ∃ rd ap, shareTarget disks.length spec = .ok (rd, ap) ∧
      (anyfsShareResolve env ce disks k spec flags nameSz lklSz).entered =
        some (ap.disk, ap.comp) := by
  obtain hrc | ⟨rd, ap, s, e, htarget, hdisk, henter, hrc⟩ := anyfsShareResolve_cases h
  · exact .inl hrc
  · rw [anyfsShareResolve_of_enter htarget hdisk henter hrc] at h ⊢
    exact .inr ⟨some.inj h ▸ rfl, rd, ap, htarget, rfl⟩

/-- No thread is entering a part of the disk or the whole disk. -/
def Session.Idle (s : Session) : Prop :=
  s.wholeState ≠ .mounting ∧ ∀ i, (s.slot i).state ≠ .mounting

theorem enterLeaf_ne_none {i : ℕ} {query : Option Bytes}
    (h : (s.slot i).state ≠ .mounting) : enterLeaf env ce s k i query flags ≠ none := by
  rw [enterLeaf]
  split_ifs
  · cases hst : (s.slot i).state <;> simp_all [enterFsSlot]
  · cases hst : (s.slot i).state <;> simp_all [enterContainer, enterContainerSlot]

theorem walkFrom_ne_none (h : s.Idle) :
    ∀ {comp : List AnyfsPathComp} {parent : Option ℕ},
      walkFrom env ce s k parent flags comp ≠ none
  | [], _ => by simp [walkFrom]
  | c :: rest, parent => by
    rw [walkFrom]
    cases hc : s.disk.findSlotByPair parent c.p with
    | none => simp
    | some i =>
      by_cases hrest : rest = []
      · simpa [hrest] using enterLeaf_ne_none (h.2 i)
      · simp only [hrest, if_false, enterContainer]
        -- a container that lets the walk pass was entered before, so the session is the same
        cases hst : (s.slot i).state with
        | new => simp [enterContainerSlot, hst, containerRc_neg]
        | mounting => exact absurd hst (h.2 i)
        | mounted => simpa [enterContainerSlot, hst] using walkFrom_ne_none h
        | failed => simp [enterContainerSlot, hst]

theorem enterShare_ne_none {comp : List AnyfsPathComp} (h : s.Idle) :
    enterShare env ce s k comp flags ≠ none := by
  rw [enterShare]
  split_ifs
  · rw [anyfsSessionEnter, if_pos rfl, enterWhole]
    have hwhole := h.1
    cases hst : s.wholeState <;> simp_all <;> split_ifs <;> simp
  · simpa [anyfsSessionEnterPath, anyfsSessionWalk] using walkFrom_ne_none h

theorem ShareDenotes.nonneg {disk : ℤ} {chain : List UInt32} (h : ShareDenotes arg disk chain) :
    0 ≤ disk := by
  obtain ⟨⟨ds, -, -, rfl, -⟩, -⟩ | ⟨⟨idx, comp⟩, ⟨disk, comps, -, hdisk, -⟩, rfl, -⟩ := h
  · omega
  · cases idx with
    | none => exact le_rfl
    | some n =>
      obtain ⟨_, _, ⟨ds, -, -, rfl, -⟩, -⟩ := forall₂_cons_right_iff.mp hdisk
      exact Int.natCast_nonneg _

/-- A call returns under the condition, if nobody is entering one of the disks. One that returns
gives 0 or -1, and one that gives 0 has entered what the complete specification denotes exactly
when the specification fits the buffers and its numbers are plain. -/
theorem anyfsShareResolve_exact_iff :
    let run := anyfsShareResolve env ce disks k spec flags nameSz lklSz
    (ShareFits disks.length spec → SharePlain disks.length spec → (∀ s ∈ disks, s.Idle) →
      ∃ r, run.ret = some r) ∧
    ∀ r, run.ret = some r → (r.rc = 0 ∨ r.rc = -1) ∧ (r.rc = 0 →
      (ShareExact disks.length spec run.entered ↔
        ShareFits disks.length spec ∧ SharePlain disks.length spec)) := by
  intro run
  refine ⟨fun hfits hplain hidle => ?_, fun r h => ?_⟩
  · cases htarget : shareTarget disks.length spec with
    | error e => exact ⟨.fail e disks k, by simp [run, anyfsShareResolve, htarget]⟩
    | ok t =>
      obtain ⟨rd, ap⟩ := t
      obtain ⟨hrd, hap, -, hlt⟩ := shareTarget_eq_ok.mp htarget
      have hwhole := (shareReading_complete_iff hrd).mpr hfits
      have hpos := ((shareDenotes_iff hap).mpr (hplain rd hwhole)).nonneg
      have hidx : ap.disk.toNat < disks.length := by omega
      have hdisk : diskAt disks ap.disk = some disks[ap.disk.toNat] := by
        simp [diskAt, hpos, hidx]
      have hne : enterShare env ce disks[ap.disk.toNat] k ap.comp flags ≠ none :=
        enterShare_ne_none (hidle _ (getElem_mem hidx))
      obtain ⟨e, henter⟩ := Option.ne_none_iff_exists'.mp hne
      simp only [run, anyfsShareResolve, htarget, hdisk, henter]
      split_ifs <;> exact ⟨_, rfl⟩
  rcases anyfsShareResolve_ret h with hrc | ⟨hrc, rd, ap, htarget, hentered⟩
  · exact ⟨.inr hrc, fun h0 => absurd (hrc.symm.trans h0) (by decide)⟩
  refine ⟨.inl hrc, fun _ => ?_⟩
  obtain ⟨hrd, hap, -, -⟩ := shareTarget_eq_ok.mp htarget
  rw [hentered]
  constructor
  · rintro ⟨rd', disk, comp, hrd', hwhole, hent, hden⟩
    obtain rfl := some.inj (hrd.symm.trans hrd')
    obtain ⟨rfl, rfl⟩ := Prod.mk.inj (some.inj hent)
    refine ⟨(shareReading_complete_iff hrd).mp hwhole, ?_⟩
    intro rd₂ hrd₂
    obtain rfl := some.inj (hwhole.symm.trans hrd₂)
    exact (shareDenotes_iff hap).mp hden
  · rintro ⟨hfits, hplain⟩
    have hwhole := (shareReading_complete_iff hrd).mpr hfits
    exact ⟨rd, _, _, hrd, hwhole, rfl, (shareDenotes_iff hap).mpr (hplain rd hwhole)⟩

end Exact

def mountedSingle : Session := (Session.opened Disk.single fun _ => []).setState 0 .mounted

theorem enterShare_mountedSingle :
    enterShare .accepting .empty mountedSingle .fresh [⟨1, none⟩] ⟨false, false, 0⟩ =
      some ⟨0, snprintf 64 (Disk.single.mountName 0).point, mountedSingle, .fresh⟩ := rfl

/-- The specification `data=p1` is complete and plain, so its share is the first partition. -/
theorem anyfsShareResolve_exact_p1 : ∃ r,
    (anyfsShareResolve .accepting .empty [mountedSingle] .fresh (ascii "data=p1")
      ⟨false, false, 0⟩ 64 64).ret = some r ∧ r.rc = 0 ∧
    (ShareExact 1 (ascii "data=p1") (anyfsShareResolve .accepting .empty [mountedSingle] .fresh
      (ascii "data=p1") ⟨false, false, 0⟩ 64 64).entered ↔
        ShareFits 1 (ascii "data=p1") ∧ SharePlain 1 (ascii "data=p1")) := by
  have htarget : shareTarget [mountedSingle].length (ascii "data=p1") =
      .ok (⟨some (ascii "data"), ascii "p1", ascii "disk0/p1"⟩, ⟨some 0, [⟨1, none⟩]⟩) :=
    shareTarget_eq_ok.mpr ⟨by decide +kernel, by decide +kernel, by decide, by decide⟩
  have hrun : anyfsShareResolve .accepting .empty [mountedSingle] .fresh (ascii "data=p1")
      ⟨false, false, 0⟩ 64 64 = _ :=
    anyfsShareResolve_of_enter htarget rfl enterShare_mountedSingle (by decide)
  have hret := congrArg ShareRun.ret hrun
  exact ⟨_, hret, rfl, (anyfsShareResolve_exact_iff.2 _ hret).2 rfl⟩

/-- A name of 252 bytes pushes the last digit of `p12` out of the buffer: partition 1 is
entered. -/
theorem anyfsShareResolve_cuts_spec :
    let spec := replicate 252 97 ++ ascii "=p12"
    let run := anyfsShareResolve .accepting .empty [mountedSingle] .fresh spec ⟨false, false, 0⟩
      64 64
    (∃ r, run.ret = some r ∧ r.rc = 0) ∧ run.entered = some (0, [⟨1, none⟩]) ∧
      ¬ ShareExact 1 spec run.entered := by
  intro spec run
  have hread : shareReading snprintf 1 spec =
      some ⟨some (replicate 252 97), ascii "p1", ascii "disk0/p1"⟩ := by decide +kernel
  have hwhole : shareReading wholeCopy 1 spec =
      some ⟨some (replicate 252 97), ascii "p12", ascii "disk0/p12"⟩ := by decide +kernel
  have htarget : shareTarget [mountedSingle].length spec =
      .ok (⟨some (replicate 252 97), ascii "p1", ascii "disk0/p1"⟩,
        ⟨some 0, [⟨1, none⟩]⟩) :=
    shareTarget_eq_ok.mpr ⟨hread, by decide +kernel, by decide, by decide⟩
  have hrun : run = _ := anyfsShareResolve_of_enter htarget rfl enterShare_mountedSingle (by decide)
  refine ⟨⟨_, congrArg ShareRun.ret hrun, rfl⟩, congrArg ShareRun.entered hrun, ?_⟩
  rintro ⟨rd, disk, comp, hrd, hrd', -⟩
  have heq := hrd.symm.trans hread
  rw [hrd'.symm.trans hwhole] at heq
  exact absurd heq (by decide +kernel)

end Anyfs
