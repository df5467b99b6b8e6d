import Anyfs.Session.Enter

/-!
# FUSE paths

`fuse_path_to_lkl` turns a FUSE path into a path inside LKL. In Mode B it parses the path without
looking at the disk: after an optional `disk<N>` every leading segment `p<digits>` is a component of
a partition chain, and what follows is the path inside the partition. Only then the chain is walked.
-/

namespace Anyfs

open CString

/-- `PathKind`. -/
inductive PathKind where
  | inPartition
  | synthRoot
  | partNode
  | synthFile
  deriving DecidableEq

/-- The part of `FusePath` that parsing fills in. -/
structure FusePath where
  diskIdx : ℤ
  dsl : Option AnyfsPath
  inner : Bytes
  deriving DecidableEq

def dropSlash : Bytes → Bytes
  | 47 :: p => p
  | p => p

def isSynthFile (p : Bytes) : Bool := p = ascii ".partitions" ∨ p = ascii "partitions.txt"

/-- A segment that continues a partition chain: `p<digits>`, optionally with a query. -/
def isChainSeg : Bytes → Bool
  | 112 :: q =>
    (q.head?.map isDigit).getD false &&
      ((q.dropWhile isDigit).head?.map (· == 63)).getD true
  | _ => false

/-- The chain and the path below it. -/
def chainSplit (p : Bytes) : Bytes × Bytes :=
  let segs := p.splitOn slash
  ([slash].intercalate (segs.takeWhile isChainSeg), [slash].intercalate (segs.dropWhile isChainSeg))

/-- The second half of `parse_fuse_path`: the partition chain and the inner path. -/
def parseChain (diskIdx : ℤ) (p : Bytes) : Option (PathKind × FusePath) :=
  if p.head? ≠ some 112 then none
  else
    let diskIdx := if diskIdx < 0 then 0 else diskIdx
    let (chain, rest) := chainSplit p
    if chain.length = 0 ∨ 512 ≤ chain.length then none
    else
      match anyfsPathParse chain with
      | none => none
      | some dsl =>
        if rest ≠ [] then some (.inPartition, ⟨diskIdx, some dsl, slash :: snprintf 4095 rest⟩)
        else some (.partNode, ⟨diskIdx, some dsl, []⟩)

/-- What the first half of `parse_fuse_path` finds. The disk index of a chain is `-1` if none was
written. -/
inductive FuseHead where
  | error
  | root (diskIdx : ℤ)
  | file (diskIdx : ℤ)
  | chain (diskIdx : ℤ) (p : Bytes)
  deriving DecidableEq

/-- The first half of `parse_fuse_path`. -/
def fuseHead (ndisks : ℕ) (path : Bytes) : FuseHead :=
  let p := dropSlash path
  if p = [] then .root (-1)
  else if isSynthFile p then .file (-1)
  else if (ascii "disk").isPrefixOf p ∧ ((p.drop 4).head?.map isDigit).getD false then
    let (v, rest) := strtol (p.drop 4)
    match rest with
    | [] => if v < 0 ∨ ndisks ≤ v then .error else .root v
    | 47 :: q =>
      if v < 0 ∨ ndisks ≤ v then .error
      else if isSynthFile q then .file v
      else .chain v q
    | _ => .chain (-1) p
  else if 1 < ndisks then .error
  else .chain (-1) p

/-- `parse_fuse_path`; `none` stands for its result `-1`. -/
def parseFusePath (ndisks : ℕ) (path : Bytes) : Option (PathKind × FusePath) :=
  match fuseHead ndisks path with
  | .error => none
  | .root diskIdx => some (.synthRoot, ⟨diskIdx, none, []⟩)
  | .file diskIdx => some (.synthFile, ⟨diskIdx, none, []⟩)
  | .chain diskIdx p => parseChain diskIdx p

/-- The state of `anyfs-fuse`: `g_mount_point` in Mode A, the disks, the kernel and `g_enter_flags`.
-/
structure FuseFs where
  modeA : Option Bytes
  disks : List Session
  kernel : Kernel
  enterFlags : MountFlags
  /-- `g_disks` is an array of `ANYFS_MAX_DISKS`. -/
  length_disks_le : disks.length ≤ 16

def FuseFs.setDisk (f : FuseFs) (i : ℕ) (s : Session) (k : Kernel) : FuseFs where
  modeA := f.modeA
  disks := f.disks.set i s
  kernel := k
  enterFlags := f.enterFlags
  length_disks_le := by simpa using f.length_disks_le

/-- What `resolve_walk` returns. The leaf is a filesystem when `lkl_mount` is not empty. -/
structure WalkRet where
  rc : ℤ
  lklMount : Bytes
  fs : FuseFs

/-- The walk along the chain. -/
def resolveWalk (env : KernelEnv) (ce : CredEnv) (f : FuseFs) (fp : FusePath) : Option WalkRet :=
  if fp.diskIdx < 0 then some ⟨-ENOENT, [], f⟩
  else
    match f.disks[fp.diskIdx.toNat]?, fp.dsl with
    | some s, some dsl =>
      (anyfsSessionWalk env ce s f.kernel dsl.comp f.enterFlags).map fun (r, _) =>
        let f := f.setDisk fp.diskIdx.toNat r.session r.kernel
        if r.rc < 0 then ⟨- EIO, [], f⟩ else ⟨0, snprintf 64 r.lklPath, f⟩
    | _, _ => some ⟨-ENOENT, [], f⟩

/-- What `fuse_path_to_lkl` returns, with the buffer and the state afterwards. -/
structure FuseRet where
  rc : ℤ
  out : Bytes
  fs : FuseFs

/-- `LKL_PATH_BUF`, the size of every buffer handed to `fuse_path_to_lkl`. -/
def lklPathBuf : ℕ := 4096

def fusePathToLkl (env : KernelEnv) (ce : CredEnv) (f : FuseFs) (path : Bytes) (outLen : ℕ) :
    Option FuseRet :=
  match f.modeA with
  | some mountPoint => some ⟨0, snprintf outLen (mountPoint ++ slash :: dropSlash path), f⟩
  | none =>
    match parseFusePath f.disks.length path with
    | some (.inPartition, fp) =>
      (resolveWalk env ce f fp).map fun w =>
        if w.rc = 0 ∧ w.lklMount ≠ [] then ⟨0, snprintf outLen (w.lklMount ++ fp.inner), w.fs⟩
        else ⟨- EIO, [], w.fs⟩
    | _ => some ⟨-ENOENT, [], f⟩

example : parseFusePath 2 (ascii "/disk1/p2?key=x/p1/etc/passwd") =
    some (.inPartition, ⟨1, some ⟨none, [⟨2, some (ascii "key=x")⟩, ⟨1, none⟩]⟩,
      ascii "/etc/passwd"⟩) := by decide +kernel

end Anyfs
