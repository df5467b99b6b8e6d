import Anyfs.Session.Agreement
import Anyfs.Session.Busy

/-!
# Read-only mounts

`MS_RDONLY` alone does not keep a mount from writing to the image: the block device is marked
read-only first, and the filesystems with a journal are told not to replay it (`Protected`).
-/

namespace Anyfs

open List Option CString

/-! ### Protected mounts -/

/-- The last `BLKROSET` on a device, as far as the log shows it, set it read-only. -/
def MarkedReadonly (dev : Bytes) (before : List KernelCall) : Prop :=
  ∃ pre rc mid, before = pre ++ .roset dev true rc :: mid ∧ 0 ≤ rc ∧
    ∀ ro rc', .roset dev ro rc' ∉ mid

def comma : UInt8 := 44

/-- The options keep the journal from being replayed. -/
def JournalOff (fstype opts : Bytes) : Prop :=
  (fstype = ascii "ext3" ∨ fstype = ascii "ext4" → ascii "noload" ∈ opts.splitOn comma) ∧
    (fstype = ascii "xfs" ∨ fstype = ascii "btrfs" → ascii "norecovery" ∈ opts.splitOn comma)

/-- A call made after the calls `before` writes to no image: a mount is read-only, its device
was marked and its journal is left alone. -/
def Protected (before : List KernelCall) : KernelCall → Prop
  | .mount dev _ fstype rdonly opts _ =>
    rdonly = true ∧ MarkedReadonly dev before ∧ JournalOff fstype opts
  | _ => True

/-- Every mount is protected by what came before. -/
def AllProtected (l : List KernelCall) : Prop :=
  ∀ pre c post, l = pre ++ c :: post → Protected pre c

section Protected

variable {l l₁ l₂ before : List KernelCall} {c : KernelCall} {dev : Bytes}

theorem MarkedReadonly.append_left (l : List KernelCall) (h : MarkedReadonly dev before) :
    MarkedReadonly dev (l ++ before) := by
  obtain ⟨pre, rc, mid, rfl, hrc, hmid⟩ := h
  exact ⟨l ++ pre, rc, mid, (append_assoc ..).symm, hrc, hmid⟩

theorem Protected.append_left (l : List KernelCall) (h : Protected before c) :
    Protected (l ++ before) c := by
  cases c with
  | mount dev name fstype rdonly opts rc => exact ⟨h.1, h.2.1.append_left l, h.2.2⟩
  | _ => trivial

theorem AllProtected.append (h₁ : AllProtected l₁) (h₂ : AllProtected l₂) :
    AllProtected (l₁ ++ l₂) := by
  intro pre c post heq
  rcases append_eq_append_iff.mp heq.symm with ⟨as, hl₁, has⟩ | ⟨bs, hpre, hl₂⟩
  · cases as with
    | nil =>
      rw [append_nil] at hl₁
      rw [nil_append] at has
      subst hl₁
      simpa using (h₂ [] c post has.symm).append_left l₁
    | cons a as =>
      obtain ⟨rfl, rfl⟩ := cons.inj has
      exact h₁ pre c as hl₁
  · rw [hpre]
    exact (h₂ bs c post hl₂).append_left l₁

theorem allProtected_of_noMount (h : ∀ c ∈ l, ¬ c.IsMount) : AllProtected l := by
  rintro pre c post rfl
  have hc : ¬ c.IsMount := h c (by simp)
  cases c with
  | mount => exact absurd trivial hc
  | _ => trivial

theorem allProtected_of_marked {rc : ℤ} (hrc : 0 ≤ rc)
    (h : ∀ c ∈ l, ∃ name fstype opts rc, c = .mount dev name fstype true opts rc ∧
      JournalOff fstype opts) : AllProtected (.roset dev true rc :: l) := by
  intro pre c post heq
  rcases cons_eq_append_iff.mp heq with ⟨rfl, hcons⟩ | ⟨pre', rfl, hl⟩
  · obtain ⟨rfl, -⟩ := cons.inj hcons
    trivial
  · obtain ⟨name, fstype, opts, rc', rfl, hopts⟩ := h c (by simp [hl])
    refine ⟨rfl, ⟨[], rc, pre', rfl, hrc, fun ro rc'' hmem => ?_⟩, hopts⟩
    obtain ⟨_, _, _, _, hroset, -⟩ := h _ (by rw [hl]; exact mem_append_left _ hmem)
    cases hroset

end Protected

/-! ### The option string -/

theorem foldlM_appendOpt_eq {cap : ℕ} {opts : List Bytes} {buf r : Bytes}
    (hopts : ∀ o ∈ opts, o ≠ []) (h : opts.foldlM (appendOpt cap) buf = some r) :
    r = [comma].intercalate (if buf = [] then opts else buf :: opts) := by
  induction opts generalizing buf with
  | nil =>
    obtain rfl : buf = r := by simpa using h
    split_ifs with hbuf
    · rw [hbuf, intercalate_nil]
    · rw [intercalate_singleton]
  | cons o opts ih =>
    rw [foldlM_cons] at h
    obtain ⟨buf', happ, hrest⟩ := bind_eq_some_iff.mp h
    obtain rfl : buf ++ ((if buf = [] then [] else ascii ",") ++ o) = buf' :=
      (ite_none_left_eq_some.mp happ).2 |> some.inj
    have ho : o ≠ [] := hopts o mem_cons_self
    rw [ih (fun o ho => hopts o (mem_cons_of_mem _ ho)) hrest]
    by_cases hbuf : buf = []
    · simp [hbuf, ho]
    · have hcomma : ascii "," = [comma] := by decide
      rw [if_neg (by simp [hbuf]), if_neg hbuf, if_neg hbuf, intercalate_cons_cons, hcomma]
      cases opts with
      | nil => simp
      | cons o' opts => simp [intercalate_cons_cons]

theorem mountOptList_spec (fstype : Bytes) (rdonly : Bool) (flags : MountFlags) :
    ∀ o ∈ mountOptList fstype rdonly (fatCodepage flags), o ≠ [] ∧ comma ∉ o := by
  have hcp : comma ∉ decimal (fatCodepage flags) := by
    rw [fatCodepage]
    generalize flags.fatCp = c
    revert c
    decide
  intro o ho
  simp only [mountOptList, mem_append] at ho
  rcases ho with (((ho | ho) | ho) | ho) | ho
  · split_ifs at ho
    · obtain rfl := mem_singleton.mp ho
      decide +kernel
    · obtain rfl := mem_singleton.mp ho
      decide +kernel
    · cases ho
    · cases ho
  · split_ifs at ho
    · obtain rfl := mem_singleton.mp ho
      decide +kernel
    · cases ho
  · split_ifs at ho
    · obtain rfl := mem_singleton.mp ho
      decide +kernel
    · cases ho
  · split_ifs at ho
    · obtain rfl := mem_singleton.mp ho
      refine ⟨by simp [ascii], ?_⟩
      rw [mem_append, not_or]
      exact ⟨by decide +kernel, hcp⟩
    · cases ho
  · split_ifs at ho
    · obtain rfl := mem_singleton.mp ho
      decide +kernel
    · obtain rfl := mem_singleton.mp ho
      decide +kernel
    · cases ho

theorem splitOn_anyfsMountOpts {fstype opts : Bytes} {rdonly : Bool} {flags : MountFlags}
    {cap : ℕ} (h : anyfsMountOpts fstype rdonly (fatCodepage flags) cap = some opts)
    (hne : mountOptList fstype rdonly (fatCodepage flags) ≠ []) :
    opts.splitOn comma = mountOptList fstype rdonly (fatCodepage flags) := by
  rw [anyfsMountOpts] at h
  split_ifs at h
  have hspec := mountOptList_spec fstype rdonly flags
  rw [foldlM_appendOpt_eq (fun o ho => (hspec o ho).1) h, if_pos rfl,
    splitOn_intercalate comma (fun o ho => (hspec o ho).2) hne]

theorem journalOff_anyfsMountOpts {fstype opts : Bytes} {flags : MountFlags} {cap : ℕ}
    (h : anyfsMountOpts fstype true (fatCodepage flags) cap = some opts) :
    JournalOff fstype opts := by
  have hmem : ∀ o ∈ mountOptList fstype true (fatCodepage flags), o ∈ opts.splitOn comma := by
    intro o ho
    rw [splitOn_anyfsMountOpts h (ne_nil_of_mem ho)]
    exact ho
  constructor
  · intro hext
    refine hmem _ ?_
    have hxfs : ¬ (fstype = ascii "xfs" ∨ fstype = ascii "btrfs") := by
      rcases hext with rfl | rfl <;> decide
    simp [mountOptList, if_neg hxfs, hext.symm]
  · intro hxfs
    exact hmem _ (by simp [mountOptList, hxfs])

/-! ### The calls of a read-only mount -/

/-- The calls made since `k` are protected. -/
structure Kernel.Shielded (k k' : Kernel) : Prop where
  calls : k.calls <+: k'.calls
  made : AllProtected (k.made k')

section Shielded

variable {env : KernelEnv} {dev : Bytes} {name : MountName} {flags : MountFlags}
  {k k₁ k₂ : Kernel} {l : List KernelCall}

theorem Kernel.made_eq (h : k₁.calls = k.calls ++ l) : k.made k₁ = l := by
  rw [Kernel.made, h, drop_left]

theorem Kernel.Shielded.of_eq (h : k₁.calls = k.calls ++ l) (hl : AllProtected l) : k.Shielded k₁ :=
  ⟨h ▸ prefix_append _ _, by rwa [Kernel.made_eq h]⟩

theorem Kernel.Shielded.refl : k.Shielded k :=
  .of_eq (append_nil _).symm (allProtected_of_noMount (by simp))

theorem Kernel.Shielded.trans (h₁ : k.Shielded k₁) (h₂ : k₁.Shielded k₂) : k.Shielded k₂ := by
  refine ⟨h₁.calls.trans h₂.calls, ?_⟩
  rw [Kernel.made_trans h₁.calls h₂.calls]
  exact h₁.made.append h₂.made

theorem mountAuto_calls (hro : flags.rdonly = true) (ts : List Bytes) (k : Kernel) :
    ∃ l, (mountAuto env dev name flags ts k).kernel.calls = k.calls ++ l ∧
      ∀ c ∈ l, ∃ name fstype opts rc, c = .mount dev name fstype true opts rc ∧
        JournalOff fstype opts := by
  induction ts generalizing k with
  | nil => exact ⟨[], (append_nil _).symm, by simp⟩
  | cons t ts ih =>
    rw [mountAuto]
    by_cases ht : t = ascii "apfs" ∨ t = ascii "btrfs"
    · rw [if_pos ht]
      exact ih k
    rw [if_neg ht]
    rcases hopts : anyfsMountOpts t flags.rdonly (fatCodepage flags) mountDataSize with _ | opts
    · exact ih k
    dsimp only
    have hjournal : JournalOff t opts := journalOff_anyfsMountOpts (hro ▸ hopts)
    split_ifs with hrc
    · refine ⟨[_], rfl, ?_⟩
      simp only [mem_singleton, forall_eq, hro]
      exact ⟨_, _, _, _, rfl, hjournal⟩
    · obtain ⟨l, hl, hall⟩ := ih (mountWith env dev t name flags opts k).kernel
      refine ⟨_ :: l, hl.trans (append_assoc _ [_] l), ?_⟩
      simp only [forall_mem_cons, hro]
      exact ⟨⟨_, _, _, _, rfl, hjournal⟩, hall⟩

theorem mountMarked_calls (hro : flags.rdonly = true) (fstype : Option Bytes) (k : Kernel) :
    ∃ l, (mountMarked env dev fstype name flags k).kernel.calls = k.calls ++ l ∧
      ∀ c ∈ l, ∃ name fstype opts rc, c = .mount dev name fstype true opts rc ∧
        JournalOff fstype opts := by
  rw [mountMarked]
  split_ifs with hauto
  · exact mountAuto_calls hro _ (k.filesystems env).2
  · rcases hopts : anyfsMountOpts (fstype.getD []) flags.rdonly (fatCodepage flags)
      mountDataSize with _ | opts
    · exact ⟨[], (append_nil _).symm, by simp⟩
    · refine ⟨[_], rfl, ?_⟩
      simp only [mem_singleton, forall_eq, hro]
      exact ⟨_, _, _, _, rfl, journalOff_anyfsMountOpts (hro ▸ hopts)⟩

theorem mountViaDevpath_shielded (hro : flags.rdonly = true) (fstype : Option Bytes)
    (k : Kernel) : k.Shielded (mountViaDevpath env dev fstype name flags k).kernel := by
  rw [mountViaDevpath, hro]
  split_ifs with hneg
  · exact .of_eq rfl (allProtected_of_noMount (by simp [KernelCall.IsMount]))
  · have hcalls : ∃ l, (mountMarked env dev fstype name flags
        (k.setBdevRo env dev true).2).kernel.calls = (k.setBdevRo env dev true).2.calls ++ l ∧
        ∀ c ∈ l, ∃ name fstype opts rc, c = .mount dev name fstype true opts rc ∧
          JournalOff fstype opts := mountMarked_calls hro fstype _
    obtain ⟨l, hl, hall⟩ := hcalls
    exact .of_eq (hl.trans (append_assoc _ [_] l)) (allProtected_of_marked (not_lt.mp hneg) hall)

theorem anyfsMount_shielded (hro : flags.rdonly = true) (fstype : Option Bytes) (k : Kernel) :
    k.Shielded (anyfsMount env fstype name flags k).kernel := by
  have hlookup : k.Shielded (k.getVirtioBlkdev env).2.2 :=
    .of_eq rfl (allProtected_of_noMount (by simp [KernelCall.IsMount]))
  rw [anyfsMount]
  split_ifs with hneg
  · exact hlookup
  · exact hlookup.trans (mountViaDevpath_shielded hro fstype _)

theorem mountRetry_shielded {mount : Kernel → MountRet}
    (hmount : ∀ k : Kernel, k.Shielded (mount k).kernel) (conflict : Bool) (n : ℕ) (k : Kernel) :
    k.Shielded (mountRetry mount conflict n k).kernel := by
  induction n generalizing k with
  | zero => exact hmount k
  | succ n ih =>
    rw [mountRetry]
    split_ifs
    · exact (hmount k).trans (ih _)
    · exact hmount k

/-! ### Unmounting -/

theorem umount_shielded (name : MountName) (k : Kernel) : k.Shielded (anyfsUmount env name k).2 :=
  .of_eq rfl (allProtected_of_noMount (by simp [KernelCall.IsMount]))

end Shielded

section Calls

variable {env : KernelEnv} {ce : CredEnv} {s : Session} {k : Kernel} {flags : MountFlags}

theorem anyfsSessionLeave_shielded (s : Session) (k : Kernel) (part : UInt32) :
    k.Shielded (anyfsSessionLeave env s k part).kernel := by
  rw [anyfsSessionLeave]
  split_ifs
  · exact umount_shielded _ _
  · rcases s.disk.findSlotByPair none part with _ | i
    · exact .refl
    · dsimp only
      split_ifs
      · exact .refl
      · exact umount_shielded _ _
      · exact umount_shielded _ _

theorem releaseConflicts_shielded (s : Session) (k : Kernel) (part : UInt32) :
    k.Shielded (releaseConflicts env s k part).2 := by
  have hround : ∀ (sk : Session × Kernel) (i : ℕ), sk.2.Shielded (releasePart env sk i).2 := by
    intro sk i
    rw [releasePart]
    split_ifs
    · exact anyfsSessionLeave_shielded ..
    · exact .refl
  have hloop : ∀ (is : List ℕ) (sk : Session × Kernel),
      sk.2.Shielded (is.foldl (releasePart env) sk).2 := by
    intro is
    induction is with
    | nil => exact fun _ => .refl
    | cons i is ih => exact fun sk => (hround sk i).trans (ih _)
  rw [releaseConflicts]
  split_ifs
  · exact anyfsSessionLeave_shielded ..
  · exact .refl
  · exact hloop _ (s, k)

/-! ### The calls on a session -/

def EnterRet.Shielded (s : Session) (k : Kernel) (rdonly : Prop) (r : EnterRet) : Prop :=
  r.session.disk = s.disk ∧ (rdonly → k.Shielded r.kernel)

theorem mountFlags_rdonly (h : s.disk.readonly = true ∨ flags.rdonly = true) :
    (s.mountFlags flags).rdonly = true := by
  rcases h with h | h <;> simp [Session.mountFlags, h]

theorem release_shielded (s : Session) (k : Kernel) (part : UInt32) (replace : Bool) :
    k.Shielded (if replace then releaseConflicts env s k part else (s, k)).2 := by
  split_ifs
  · exact releaseConflicts_shielded ..
  · exact .refl

theorem disk_publishSlot (s : Session) (i : ℕ) (m : MountRet) :
    (publishSlot s i m).session.disk = s.disk := by
  rw [publishSlot]
  split_ifs <;> rfl

theorem mountSlot_shielded (s : Session) (k : Kernel) (i : ℕ) (flags : MountFlags) :
    (mountSlot env s k i flags).Shielded s k (s.disk.readonly = true ∨ flags.rdonly = true) := by
  by_cases hp : (s.disk.part i).parent = none
  · have hslot : mountSlot env s k i flags = publishSlot
        (if flags.replace then releaseConflicts env s k (s.disk.part i).index else (s, k)).1 i
        (mountRetry (anyfsMount env (some (s.slot i).fstypeHint) (s.disk.mountName i)
          (s.mountFlags flags)) (conflictMounted
            (if flags.replace then releaseConflicts env s k (s.disk.part i).index else (s, k)).1
            (s.disk.part i).index) busyRetries
          (if flags.replace then releaseConflicts env s k (s.disk.part i).index
            else (s, k)).2) := by
      rw [mountSlot, if_pos hp]
    rw [hslot, EnterRet.Shielded, disk_publishSlot, kernel_publishSlot]
    refine ⟨?_, fun hro => ?_⟩
    · split_ifs
      · exact (releaseConflicts_released ..).disk
      · rfl
    · refine (release_shielded s k _ flags.replace).trans (mountRetry_shielded ?_ _ _ _)
      exact anyfsMount_shielded (mountFlags_rdonly hro) _
  · rw [mountSlot, if_neg hp, EnterRet.Shielded, disk_publishSlot, kernel_publishSlot]
    exact ⟨rfl, fun hro => mountViaDevpath_shielded (mountFlags_rdonly hro) _ _⟩

variable {r : EnterRet}

theorem enterFsSlot_shielded {i : ℕ} (h : enterFsSlot env s k i flags = some r) :
    r.Shielded s k (s.disk.readonly = true ∨ flags.rdonly = true) := by
  rw [enterFsSlot] at h
  rcases hst : (s.slot i).state with _ | _ | _ | _
  all_goals simp only [hst, some.injEq, reduceCtorEq] at h
  · exact h ▸ mountSlot_shielded (s.setState i .mounting) k i flags
  · exact h ▸ ⟨rfl, fun _ => .refl⟩
  · exact h ▸ ⟨rfl, fun _ => .refl⟩

theorem enterWhole_shielded (h : enterWhole env s k flags = some r) :
    r.Shielded s k (s.disk.readonly = true ∨ flags.rdonly = true) := by
  obtain hent | ⟨-, hent⟩ | hent | ⟨-, s₁, k₁, conflict, m, hrel, hk₁, -, hm, hent⟩ :=
    enterWhole_cases env s k flags
  · exact some.inj (hent.symm.trans h) ▸ ⟨rfl, fun _ => .refl⟩
  · cases hent.symm.trans h
  · exact some.inj (hent.symm.trans h) ▸ ⟨rfl, fun _ => .refl⟩
  · have hshield : s.disk.readonly = true ∨ flags.rdonly = true → k.Shielded m.kernel := by
      intro hro
      rw [hm, hk₁]
      refine (release_shielded _ k 0 flags.replace).trans (mountRetry_shielded ?_ _ _ _)
      exact mountViaDevpath_shielded (mountFlags_rdonly hro) _
    have hdisk : s₁.disk = s.disk := hrel.disk
    split_ifs at hent
    · exact some.inj (hent.symm.trans h) ▸ ⟨hdisk, hshield⟩
    · exact some.inj (hent.symm.trans h) ▸ ⟨hdisk, hshield⟩

theorem enterContainer_shielded {i : ℕ} {query : Option Bytes} {rdonly : Prop}
    (h : enterContainer ce s k i query = some r) : r.Shielded s k rdonly := by
  obtain ⟨⟨rc, s'⟩, hslot, rfl⟩ := map_eq_some_iff.mp h
  refine ⟨?_, fun _ => .refl⟩
  rcases enterContainerSlot_cases hslot with ⟨-, -, rfl⟩ | ⟨-, -, rfl⟩ | ⟨-, -, rfl⟩ <;> rfl

theorem enterLeaf_shielded {i : ℕ} {query : Option Bytes}
    (h : enterLeaf env ce s k i query flags = some r) :
    r.Shielded s k (s.disk.readonly = true ∨ flags.rdonly = true) := by
  rw [enterLeaf] at h
  split_ifs at h
  · exact enterFsSlot_shielded h
  · exact enterContainer_shielded h

theorem anyfsSessionEnter_shielded {part : UInt32}
    (h : anyfsSessionEnter env ce s k part flags = some r) :
    r.Shielded s k (s.disk.readonly = true ∨ flags.rdonly = true) := by
  rw [anyfsSessionEnter] at h
  split_ifs at h
  · exact enterWhole_shielded h
  · rcases hi : s.disk.findSlotByPair none part with _ | i
    · simp only [hi, some.injEq] at h
      exact h ▸ ⟨rfl, fun _ => .refl⟩
    · simp only [hi] at h
      exact enterLeaf_shielded h

theorem walkFrom_shielded (comp : List AnyfsPathComp) {parent leaf : Option ℕ}
    (h : walkFrom env ce s k parent flags comp = some (r, leaf)) :
    r.Shielded s k (s.disk.readonly = true ∨ flags.rdonly = true) := by
  induction comp generalizing s k parent with
  | nil =>
    obtain ⟨rfl, -⟩ := Prod.mk.inj (some.inj h)
    exact ⟨rfl, fun _ => .refl⟩
  | cons c rest ih =>
    rw [walkFrom] at h
    rcases hi : s.disk.findSlotByPair parent c.p with _ | i
    · simp only [hi, some.injEq, Prod.mk.injEq] at h
      exact h.1 ▸ ⟨rfl, fun _ => .refl⟩
    simp only [hi] at h
    by_cases hrest : rest = []
    · rw [if_pos hrest] at h
      obtain ⟨r', hr', heq⟩ := map_eq_some_iff.mp h
      obtain ⟨rfl, -⟩ := Prod.mk.inj heq
      exact enterLeaf_shielded hr'
    rw [if_neg hrest] at h
    rcases hup : enterContainer ce s k i c.query with _ | r'
    · simp [hup] at h
    simp only [hup] at h
    have hr' : r'.Shielded s k (s.disk.readonly = true ∨ flags.rdonly = true) :=
      enterContainer_shielded hup
    split_ifs at h
    · obtain ⟨rfl, -⟩ := Prod.mk.inj (some.inj h)
      exact hr'
    · obtain ⟨hd, hmade⟩ := ih h
      rw [hr'.1] at hd hmade
      exact ⟨hd, fun hro => (hr'.2 hro).trans (hmade hro)⟩

theorem anyfsSessionEnterPath_shielded {comp : List AnyfsPathComp}
    (h : anyfsSessionEnterPath env ce s k comp flags = some r) :
    r.Shielded s k (s.disk.readonly = true ∨ flags.rdonly = true) := by
  obtain ⟨⟨r', leaf⟩, hwalk, rfl⟩ := map_eq_some_iff.mp h
  have hr' := walkFrom_shielded comp hwalk
  dsimp only
  split_ifs
  · exact hr'
  · cases leaf with
    | none => exact hr'
    | some i =>
      dsimp only
      split_ifs <;> exact hr'

/-! ### Runs -/

def Call.rdonly : Call → Bool
  | .enter _ flags => flags.rdonly
  | .enterPath _ flags => flags.rdonly
  | .leave _ => false

theorem exec_shielded {c : Call} {sk sk' : Session × Kernel} (h : c.exec env ce sk = some sk') :
    sk'.1.disk = sk.1.disk ∧
      (sk.1.disk.readonly = true ∨ c.rdonly = true → sk.2.Shielded sk'.2) := by
  cases c with
  | enter part flags =>
    obtain ⟨r, hr, rfl⟩ := map_eq_some_iff.mp h
    exact anyfsSessionEnter_shielded hr
  | enterPath comp flags =>
    obtain ⟨r, hr, rfl⟩ := map_eq_some_iff.mp h
    exact anyfsSessionEnterPath_shielded hr
  | leave part =>
    cases h
    exact ⟨(anyfsSessionLeave_released env sk.1 sk.2 part).disk,
      fun _ => anyfsSessionLeave_shielded sk.1 sk.2 part⟩

theorem disk_runCalls {calls : List Call} {sk sk' : Session × Kernel}
    (h : runCalls env ce calls sk = some sk') : sk'.1.disk = sk.1.disk := by
  induction calls generalizing sk with
  | nil => rw [some.inj h]
  | cons c calls ih =>
    obtain ⟨sk₁, hexec, hrun⟩ := bind_eq_some_iff.mp h
    exact (ih hrun).trans (exec_shielded hexec).1

theorem anyfsSessionClose_shielded (s : Session) (k : Kernel) :
    k.Shielded (anyfsSessionClose env s k) := by
  have hloop : ∀ (is : List ℕ) (k : Kernel), k.Shielded (is.foldl (closePart env s) k) := by
    intro is
    induction is with
    | nil => exact fun _ => .refl
    | cons i is ih =>
      intro k
      refine Kernel.Shielded.trans ?_ (ih _)
      rw [closePart]
      split_ifs
      · exact umount_shielded _ _
      · exact .refl
  rw [anyfsSessionClose]
  refine Kernel.Shielded.trans ?_ (hloop _ _)
  split_ifs
  · exact anyfsSessionLeave_shielded ..
  · exact .refl

/-- **Read-only means read-only.** After any run of calls on a session, a call mounts nothing but
read-only filesystems without journal replay, on devices that were marked read-only before, if
the session was opened read-only or the call asks for it. Closing the session then mounts
nothing unprotected either. -/
theorem readonly_mounts_protected {d : Disk} {cache : ℕ → Bytes} {k₀ : Kernel}
    {calls : List Call} {c : Call} {sk sk' : Session × Kernel}
    (hrun : runCalls env ce calls (Session.opened d cache, k₀) = some sk)
    (hexec : c.exec env ce sk = some sk') (hro : d.readonly = true ∨ c.rdonly = true) :
    sk.2.Shielded sk'.2 ∧ sk'.2.Shielded (anyfsSessionClose env sk'.1 sk'.2) := by
  have hdisk : sk.1.disk = d := disk_runCalls hrun
  exact ⟨(exec_shielded hexec).2 (hdisk ▸ hro), anyfsSessionClose_shielded _ _⟩

/-- A read-only enter of a partition with a journal, after the whole disk was entered for
writing: the partition is mounted, with its journal left alone. -/
theorem readonly_mounts_protected_ext4 : ∃ sk sk' dev name rc,
    runCalls .accepting .empty [.enter 0 ⟨false, false, 0⟩]
      (Session.opened Disk.single fun _ => ascii "ext4", .fresh) = some sk ∧
    (Call.enter 1 ⟨true, false, 0⟩).exec .accepting .empty sk = some sk' ∧
    .mount dev name (ascii "ext4") true (ascii "noload,errors=continue") rc ∈ sk.2.made sk'.2 ∧
    sk.2.Shielded sk'.2 := by
  have hrun : ((runCalls .accepting .empty [.enter 0 ⟨false, false, 0⟩]
      (Session.opened Disk.single fun _ => ascii "ext4", .fresh)).any fun sk =>
      ((Call.enter 1 ⟨true, false, 0⟩).exec .accepting .empty sk).any fun sk' =>
        decide (.mount (ascii "/dev/00000000") ⟨0, .part 1⟩ (ascii "ext4") true
          (ascii "noload,errors=continue") 0 ∈ sk.2.made sk'.2)) = true := by
    decide +kernel
  obtain ⟨sk, hsk, hrest⟩ := (any_eq_true _ _).mp hrun
  obtain ⟨sk', hsk', hmem⟩ := (any_eq_true _ _).mp hrest
  exact ⟨sk, sk', _, _, _, hsk, hsk', of_decide_eq_true hmem,
    (readonly_mounts_protected hsk hsk' (.inr rfl)).1⟩

end Calls

end Anyfs
