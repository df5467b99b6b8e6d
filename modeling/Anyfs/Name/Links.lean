import Anyfs.Json.Retry
import Anyfs.Name.Escape

/-!
# Link targets and canonical paths

`anyfs_ts_readlink` and `anyfs_ts_realpath` let the kernel put a path into the caller's buffer and
escape it there. The kernel's limit of 4095 bytes is one for the path itself, while the escaped form
is longer. When it does not fit, `escape_out` returns the size it needs as a negative number, which
`pathOut` takes for an error.
-/

namespace Anyfs

open List

open List CString Utf8

/-! ### The kernel -/

/-- The directories of the kernel: where it is, the canonical path of the directory a path leads to,
and the target of the symbolic link at a path, or an error number. -/
structure LklDirs where
  cwd : Bytes
  chdir : Bytes → Except ℕ Bytes
  readlink : Bytes → Except ℕ Bytes
  /-- The working directory is the root or was entered by its canonical path. -/
  chdir_cwd : chdir cwd = .ok cwd
  /-- It fits the buffer it is saved in. -/
  cwd_short : cwd.length < 1024
  zero_notMem_cwd : 0 ∉ cwd

def LklDirs.boot (chdir readlink : Bytes → Except ℕ Bytes) (h : chdir [slash] = .ok [slash]) :
    LklDirs := ⟨[slash], chdir, readlink, h, by decide, by decide⟩

variable {heap : Heap} {dirs : LklDirs} {path p text : Bytes}

end Anyfs
