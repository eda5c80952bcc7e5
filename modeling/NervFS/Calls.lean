import NervFS.Lib.Programs
import Mathlib.Data.Int.Notation
import Mathlib.Data.Nat.Notation

/-!
The calls the server makes: the system calls of the handlers, the entry points of
the in-process lock table, and the allocations that may fail. A function of the
source that makes calls is a program over this interface, so one text serves the
sequential semantics, the interleaved one and the calling disciplines.
-/
namespace NervFS.Calls

open Programs

abbrev Bytes := List UInt8

/-- `struct timespec`. -/
structure Timespec where
  sec : ℤ
  nsec : ℤ
  deriving DecidableEq

/-- `nervfs_lock_kind_t`, also the two kinds of hold of the in-process lock table. -/
inductive LockKind
  | read
  | write
  deriving DecidableEq

/-- An inode, named by the directory entry it was created under and by how many
inodes were created under that entry before it. -/
structure Ino where
  name : Bytes
  generation : ℕ
  deriving DecidableEq

/-- A file descriptor: its number and the open file the kernel keeps for it. The
server only passes descriptors back to the kernel. -/
structure Fd where
  num : ℕ
  ino : Ino
  deriving DecidableEq

/-- A private read-only mapping of the first `size` bytes of a file. -/
structure Mapping where
  ino : Ino
  size : ℕ
  deriving DecidableEq

/-- A directory stream. -/
structure Dir where
  num : ℕ
  deriving DecidableEq

/-- The fields of `struct stat` that the server reads. -/
structure Stat where
  isReg : Bool
  size : ℕ
  mode : ℕ
  deriving DecidableEq

/-- What a socket write sends from: memory of the process, or `len` bytes of a mapping
from an offset on. -/
inductive Buffer
  | memory (bytes : Bytes)
  | mapped (map : Mapping) (off len : ℕ)
  deriving DecidableEq

namespace Buffer

def length : Buffer → ℕ
  | memory bytes => bytes.length
  | mapped _ _ len => len

/-- Pointer arithmetic on the start of the buffer. -/
def drop : Buffer → ℕ → Buffer
  | memory bytes, n => memory (bytes.drop n)
  | mapped map off len, n => mapped map (off + n) (len - n)

@[simp] theorem drop_zero (buf : Buffer) : buf.drop 0 = buf := by
  cases buf <;> simp [drop]

@[simp] theorem drop_drop (buf : Buffer) (n m : ℕ) : (buf.drop n).drop m = buf.drop (n + m) := by
  cases buf <;> simp [drop, Nat.add_assoc, Nat.sub_sub]

@[simp] theorem length_drop (buf : Buffer) (n : ℕ) : (buf.drop n).length = buf.length - n := by
  cases buf <;> simp [length, drop]

end Buffer

inductive Call
  | clockGettime
  | malloc (size : ℕ)
  | lockAcquire (kind : LockKind) (name : Bytes)
  | lockRelease (kind : LockKind) (name : Bytes)
  /-- `open(path, O_WRONLY | O_CREAT | O_TRUNC, 0644)` -/
  | openWrite (path : Bytes)
  /-- `open(path, O_RDONLY)` -/
  | openRead (path : Bytes)
  | fstat (fd : Fd)
  | mmap (fd : Fd) (size : ℕ)
  | munmap (map : Mapping)
  /-- `fcntl(fd, F_SETLKW, &fl)` on the whole file -/
  | setlkw (fd : Fd) (kind : LockKind)
  /-- `fcntl(fd, F_SETLK, &fl)` with `F_UNLCK` on the whole file -/
  | unlck (fd : Fd)
  | write (fd : Fd) (data : Bytes)
  | fsync (fd : Fd)
  | close (fd : Fd)
  | unlink (path : Bytes)
  | chmod (path : Bytes) (mode : UInt32)
  /-- `opendir` on the storage root; the stream delivers a list of names -/
  | opendir
  | closedir (dir : Dir)
  | stat (path : Bytes)
  | sockRead (fd : ℕ) (len : ℕ)
  | sockWrite (fd : ℕ) (buf : Buffer)
  | sockClose (fd : ℕ)
  /-- entry of `dispatch_request_timed`, not a system call -/
  | dispatch (opcode : UInt16)
  deriving DecidableEq

/-- The replies. A socket read gives at most the bytes asked for, none of them at the
end of the stream; a socket write moves a positive number of the bytes offered. -/
abbrev Reply : Call → Type
  | .clockGettime => Timespec
  | .malloc _ => Bool
  | .lockAcquire _ _ => Unit
  | .lockRelease _ _ => Unit
  | .openWrite _ => Option Fd
  | .openRead _ => Option Fd
  | .fstat _ => Option ℕ
  | .mmap _ _ => Option Mapping
  | .munmap _ => Unit
  | .setlkw _ _ => Bool
  | .unlck _ => Bool
  | .write _ _ => Option ℕ
  | .fsync _ => Unit
  | .close _ => Unit
  | .unlink _ => Bool
  | .chmod _ _ => Bool
  | .opendir => Option (Dir × List Bytes)
  | .closedir _ => Unit
  | .stat _ => Option Stat
  | .sockRead _ len => Option { bytes : Bytes // bytes.length ≤ len }
  | .sockWrite _ buf => Option { n : ℕ // 0 < n ∧ n ≤ buf.length }
  | .sockClose _ => Unit
  | .dispatch _ => Unit

abbrev Prog := Program Call Reply

def invoke (e : Call) : Prog (Reply e) := Program.perform e

def clockGettime : Prog Timespec := invoke .clockGettime
/-- `false` is the null pointer. -/
def malloc (size : ℕ) : Prog Bool := invoke (.malloc size)
def openWrite (path : Bytes) : Prog (Option Fd) := invoke (.openWrite path)
def openRead (path : Bytes) : Prog (Option Fd) := invoke (.openRead path)
def fstat (fd : Fd) : Prog (Option ℕ) := invoke (.fstat fd)
def mmap (fd : Fd) (size : ℕ) : Prog (Option Mapping) := invoke (.mmap fd size)
def munmap (map : Mapping) : Prog Unit := invoke (.munmap map)
def write (fd : Fd) (data : Bytes) : Prog (Option ℕ) := invoke (.write fd data)
def fsync (fd : Fd) : Prog Unit := invoke (.fsync fd)
def close (fd : Fd) : Prog Unit := invoke (.close fd)
def unlink (path : Bytes) : Prog Bool := invoke (.unlink path)
def chmod (path : Bytes) (mode : UInt32) : Prog Bool := invoke (.chmod path mode)
def opendir : Prog (Option (Dir × List Bytes)) := invoke .opendir
def closedir (dir : Dir) : Prog Unit := invoke (.closedir dir)
def stat (path : Bytes) : Prog (Option Stat) := invoke (.stat path)
def sockRead (fd len : ℕ) : Prog (Option { bytes : Bytes // bytes.length ≤ len }) :=
  invoke (.sockRead fd len)
def sockWrite (fd : ℕ) (buf : Buffer) : Prog (Option { n : ℕ // 0 < n ∧ n ≤ buf.length }) :=
  invoke (.sockWrite fd buf)
def sockClose (fd : ℕ) : Prog Unit := invoke (.sockClose fd)

/-- A write to the socket `fd` from memory of the process. -/
def SendsMemory (fd : ℕ) (e : Call) : Prop := ∃ bytes, e = .sockWrite fd (.memory bytes)

/-- The calls of an error response, which is built in an allocated buffer. -/
def SendsError (fd : ℕ) (e : Call) : Prop := SendsMemory fd e ∨ ∃ size, e = .malloc size

end NervFS.Calls
