import Anyfs.Session.Types

/-!
# Entering a container

No kind of container can be brought up: `enter_container_slot` always ends in the sticky state
FAILED, with a reason that depends on the kind of the slot and, for LUKS, on the credential in the
query. It does not ask whether the slot is a container at all, so a plain filesystem is FAILED from
then on.
-/

namespace Anyfs

open CString

/-! ### LUKS credentials -/

/-- The host as `resolve_luks_credential` sees it: environment variables, files (or the error number
of opening them) and open descriptors (empty when a `read` fails). -/
structure CredEnv where
  getenv : Bytes → Option Bytes
  fopen : Bytes → Except ℕ Bytes
  read : ℤ → Bytes

def CredEnv.empty : CredEnv := ⟨fun _ => none, fun _ => .error 2, fun _ => []⟩

variable (ce : CredEnv)

/-- The credential is read from a file. -/
def readKeyfile (outCap : ℕ) (v : Bytes) : Except Bytes Bytes :=
  match ce.fopen v with
  | .error errno => .error (snprintf 160
      (ascii "keyfile=" ++ v ++ ascii ": open failed (errno=" ++ decimal errno ++ ascii ")"))
  | .ok content =>
    if content.take outCap = [] then
      .error (snprintf 160 (ascii "keyfile=" ++ v ++ ascii ": read failed"))
    else .ok (content.take outCap)

/-- What one `key=value` pair does: `none` when it is not a credential, an error text, or the key
bytes. -/
def luksPair (outCap : ℕ) (seg : Bytes) : Option (Except Bytes Bytes) :=
  if 61 ∉ seg then none
  else
    let k := seg.takeWhile (· != 61)
    let v := (seg.dropWhile (· != 61)).tail
    if k = ascii "key" then some (.ok (v.take outCap))
    else if k = ascii "keyref" then
      match ce.getenv v with
      | none => some (.error (snprintf 160 (ascii "keyref=" ++ v ++ ascii ": env var not set")))
      | some e => some (.ok (e.take outCap))
    else if k = ascii "keyfile" then some (readKeyfile ce outCap v)
    else if k = ascii "keyfd" then
      let (fd, rest) := strtol v
      if rest ≠ [] ∨ fd < 0 then
        some (.error (snprintf 160 (ascii "keyfd=" ++ v ++ ascii ": not a valid fd")))
      else
        let content := (ce.read (Int.bmod fd (2 ^ 32))).take outCap
        if content = [] then
          some (.error (snprintf 160 (ascii "keyfd=" ++ decimalInt fd ++ ascii ": read failed")))
        else some (.ok content)
    else none

/-- `resolve_luks_credential`: the first credential pair of the query wins. -/
def resolveLuksCredential (query : Option Bytes) (outCap : ℕ) : Except Bytes Bytes :=
  match query with
  | none => .ok []
  | some q => ((q.splitOn 38).findSome? (luksPair ce outCap)).getD (.ok [])

/-! ### The container slot -/

def containerRc : AnyfsPartKind → ℤ
  | .nestedPartitionTable => -ENOSYS
  | .luks => -ENOSYS
  | .lvmPv => -ENOSYS
  | .fs => -EINVAL
  | .unknown => -EINVAL

/-- The reason `enter_container_slot` records. -/
def containerFailReason (kind : AnyfsPartKind) (query : Option Bytes) : Bytes :=
  snprintf 200 <|
    match kind with
    | .luks =>
      match resolveLuksCredential ce query 128 with
      | .error qerr => ascii "LUKS credential: " ++ qerr
      | .ok [] => ascii "LUKS: no credential in query; expected " ++
          ascii "keyref=ENV / keyfile=PATH / keyfd=N / key=..."
      | .ok key => ascii "LUKS: credential resolved (" ++ decimal key.length ++
          ascii " bytes); passphrase->masterkey derivation requires " ++
          ascii "v3 (libcryptsetup not yet linked)"
    | .lvmPv => ascii "LVM2 PV activation requires v3 (LVM metadata parser)"
    | _ => ascii "dm setup failed (kind=" ++ anyfsPartkindName kind ++ ascii ", rc=" ++
        decimalInt (containerRc kind) ++ ascii ")"

/-- `enter_container_slot`, or `none` while another thread is in the middle of entering the slot. -/
def enterContainerSlot (s : Session) (i : ℕ) (query : Option Bytes) : Option (ℤ × Session) :=
  match (s.slot i).state with
  | .mounting => none
  | .mounted => some (0, s)
  | .failed => some (-3, s)
  | .new =>
    let kind := (s.disk.part i).kind
    some (containerRc kind, (s.setState i .mounting).setFail i (containerFailReason ce kind query))

theorem containerRc_neg (kind : AnyfsPartKind) : containerRc kind < 0 := by
  cases kind <;> decide

variable {ce : CredEnv} {s s' : Session} {i : ℕ} {query : Option Bytes} {rc : ℤ}

theorem enterContainerSlot_cases (h : enterContainerSlot ce s i query = some (rc, s')) :
    ((s.slot i).state = .mounted ∧ rc = 0 ∧ s' = s) ∨
      ((s.slot i).state = .failed ∧ rc = -3 ∧ s' = s) ∨
      ((s.slot i).state = .new ∧ rc < 0 ∧
        s' = s.setFail i (containerFailReason ce (s.disk.part i).kind query)) := by
  rw [enterContainerSlot] at h
  cases hst : (s.slot i).state with
  | mounting => simp [hst] at h
  | mounted => simp [hst] at h; exact .inl ⟨rfl, h.1.symm, h.2.symm⟩
  | failed => simp [hst] at h; exact .inr (.inl ⟨rfl, h.1.symm, h.2.symm⟩)
  | new =>
    simp only [hst, Option.some.injEq, Prod.mk.injEq] at h
    refine .inr (.inr ⟨rfl, h.1 ▸ containerRc_neg _, ?_⟩)
    rw [← h.2, Session.setFail_setState]

end Anyfs
