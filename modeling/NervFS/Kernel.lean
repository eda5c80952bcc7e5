import NervFS.FileOps
import NervFS.Lib.KeyedStore
import Mathlib.Data.List.AList

/-!
The kernel below the file operations. The storage directory maps a name to the
inodes created under it, the last of which may still be linked; a descriptor or a
mapping reaches its inode also after the name is gone. Each call acts on one name,
so the kernel is a keyed store. What the kernel is free to choose (the time, a
refusal, a short count, the order of a listing) is read from a list of outcomes.
-/
namespace NervFS.Kernel

open Programs KeyedStore Calls FileOps

structure File where
  bytes : Bytes
  mode : ℕ
  deriving DecidableEq

/-- The inodes of one directory entry: those unlinked since, the oldest first, and the
one that the name refers to now. -/
structure Node where
  gone : List File := []
  current : Option File := none
  deriving DecidableEq

abbrev Storage := AList fun _ : Bytes => Node

def node (s : Storage) (name : Bytes) : Node := (s.lookup name).getD {}

def Node.file (v : Node) (generation : ℕ) : Option File :=
  if generation < v.gone.length then v.gone[generation]?
  else if generation = v.gone.length then v.current
  else none

def Node.setFile (v : Node) (generation : ℕ) (f : File) : Node :=
  if generation < v.gone.length then { v with gone := v.gone.set generation f }
  else { v with current := some f }

/-- The entry refers to a file with this content and mode. -/
def Node.put (v : Node) (f : File) : Node := { v with current := some f }

/-- The storage root, the umask of the server, and whether a mode lets it open a file for
reading or for writing. -/
structure Host where
  root : Bytes
  umask : ℕ
  permits : LockKind → ℕ → Bool

/-- The mode of a file that the open of an upload creates: 0644 less the umask. -/
def Host.newMode (host : Host) : ℕ := 0o644 ^^^ (0o644 &&& host.umask)

/-- The mode without the set-user-id bit, and without the set-group-id bit where the group
may execute the file. -/
def dropSetId (mode : ℕ) : ℕ :=
  if mode &&& 0o010 = 0 then mode &&& 0o3777 else mode &&& 0o1777

/-- The mode after the file is truncated or written to. A server that not even mode 0 keeps
from writing has the capabilities of root, and its writes leave the mode alone. -/
def Host.modeWritten (host : Host) (mode : ℕ) : ℕ :=
  if host.permits .write 0 then mode else dropSetId mode

theorem newMode_lt (host : Host) : host.newMode < 2 ^ 9 := by
  have hmasked : 0o644 &&& host.umask < 2 ^ 9 := by
    rw [Nat.and_comm]
    exact Nat.and_lt_two_pow host.umask (by decide)
  exact Nat.xor_lt_two_pow (by decide) hmasked

theorem dropSetId_and {mode mask : ℕ} (hmask : 0o1777 &&& mask = mask) :
    dropSetId mode &&& mask = mode &&& mask := by
  unfold dropSetId
  split
  · have hwide : 0o3777 &&& mask = mask := by
      rw [← hmask, ← Nat.and_assoc]
      rfl
    rw [Nat.and_assoc, hwide]
  · rw [Nat.and_assoc, hmask]

theorem dropSetId_of_lt {mode : ℕ} (h : mode < 2 ^ 9) : dropSetId mode = mode := by
  unfold dropSetId
  split
  · exact Nat.and_two_pow_sub_one_of_lt_two_pow (n := 11) (by omega)
  · exact Nat.and_two_pow_sub_one_of_lt_two_pow (n := 10) (by omega)

theorem dropSetId_idem (mode : ℕ) : dropSetId (dropSetId mode) = dropSetId mode := by
  have hexec : dropSetId mode &&& 0o010 = mode &&& 0o010 := dropSetId_and rfl
  unfold dropSetId at hexec ⊢
  rw [hexec]
  split <;> exact (Nat.and_assoc ..).trans rfl

theorem dropSetId_lt (mode : ℕ) : dropSetId mode < 2 ^ 12 := by
  unfold dropSetId
  split <;> exact Nat.and_lt_two_pow mode (by decide)

section Written
variable {host : Host} {mode : ℕ}

theorem modeWritten_of_permits (h : ∀ kind mode, host.permits kind mode = true) :
    host.modeWritten mode = mode :=
  if_pos (h .write 0)

theorem modeWritten_idem : host.modeWritten (host.modeWritten mode) = host.modeWritten mode := by
  unfold Host.modeWritten
  split
  · rfl
  · exact dropSetId_idem mode

theorem modeWritten_newMode : host.modeWritten host.newMode = host.newMode := by
  unfold Host.modeWritten
  split
  · rfl
  · exact dropSetId_of_lt (newMode_lt host)

theorem modeWritten_and {mask : ℕ} (hmask : 0o1777 &&& mask = mask) :
    host.modeWritten mode &&& mask = mode &&& mask := by
  unfold Host.modeWritten
  split
  · rfl
  · exact dropSetId_and hmask

theorem modeWritten_lt (h : mode < 2 ^ 12) : host.modeWritten mode < 2 ^ 12 := by
  unfold Host.modeWritten
  split
  · exact h
  · exact dropSetId_lt mode

end Written

/-- How much of an offered buffer a read or a write moves. -/
inductive Transfer
  | all
  | short (n : ℕ)
  | error
  deriving DecidableEq

/-- The outcomes of the calls still to come, one list for each kind of call. A list
that has run out stands for success; `false` is a refusal or a null pointer. -/
structure Outcomes where
  clocks : List Timespec := []
  mallocs : List Bool := []
  opens : List Bool := []
  fstats : List Bool := []
  mmaps : List Bool := []
  setlkws : List Bool := []
  unlinks : List Bool := []
  chmods : List Bool := []
  opendirs : List Bool := []
  stats : List Bool := []
  writes : List Transfer := []
  sends : List Transfer := []
  recvs : List Transfer := []
  orders : List (List Bytes) := []

/-- What the kernel keeps for one handler run: its file offsets by descriptor number,
the request bytes still to be read, and the response bytes sent. -/
structure Local where
  outcomes : Outcomes := {}
  offsets : List ℕ := []
  input : Bytes := []
  sent : Bytes := []

def Local.popClock (l : Local) : Local :=
  { l with outcomes := { l.outcomes with clocks := l.outcomes.clocks.tail } }

def Local.popMalloc (l : Local) : Local :=
  { l with outcomes := { l.outcomes with mallocs := l.outcomes.mallocs.tail } }

def Local.popOpen (l : Local) : Local :=
  { l with outcomes := { l.outcomes with opens := l.outcomes.opens.tail } }

def Local.popFstat (l : Local) : Local :=
  { l with outcomes := { l.outcomes with fstats := l.outcomes.fstats.tail } }

def Local.popMmap (l : Local) : Local :=
  { l with outcomes := { l.outcomes with mmaps := l.outcomes.mmaps.tail } }

def Local.popSetlkw (l : Local) : Local :=
  { l with outcomes := { l.outcomes with setlkws := l.outcomes.setlkws.tail } }

def Local.popUnlink (l : Local) : Local :=
  { l with outcomes := { l.outcomes with unlinks := l.outcomes.unlinks.tail } }

def Local.popChmod (l : Local) : Local :=
  { l with outcomes := { l.outcomes with chmods := l.outcomes.chmods.tail } }

def Local.popStat (l : Local) : Local :=
  { l with outcomes := { l.outcomes with stats := l.outcomes.stats.tail } }

def Local.popWrite (l : Local) : Local :=
  { l with outcomes := { l.outcomes with writes := l.outcomes.writes.tail } }

def Local.popSend (l : Local) : Local :=
  { l with outcomes := { l.outcomes with sends := l.outcomes.sends.tail } }

def Local.popRecv (l : Local) : Local :=
  { l with outcomes := { l.outcomes with recvs := l.outcomes.recvs.tail } }

def Local.addFd (l : Local) : Local := { l with offsets := l.offsets ++ [0] }

def Local.setOffset (l : Local) (num off : ℕ) : Local :=
  { l with offsets := l.offsets.set num off }

def Local.send (l : Local) (bytes : Bytes) : Local := { l with sent := l.sent ++ bytes }

def Local.consume (l : Local) (len : ℕ) : Local := { l with input := l.input.drop len }

/-- The directory entry a path names, for a path directly below the root. -/
def resolve (root path : Bytes) : Option Bytes :=
  if joinPath root [] <+: path then some (path.drop (root.length + 1)) else none

@[simp] theorem resolve_joinPath (root name : Bytes) :
    resolve root (joinPath root name) = some name := by
  have hsplit : joinPath root name = (root ++ [slash]) ++ name := by simp [joinPath]
  have hlen : root.length + 1 = (root ++ [slash]).length := by simp
  unfold resolve
  rw [if_pos, hsplit, hlen, List.drop_left]
  rw [hsplit]
  exact List.prefix_append _ _

def Transfer.count (t : Transfer) (avail : ℕ) : Option ℕ :=
  match t with
  | .all => some avail
  | .short n => some (min n avail)
  | .error => none

/-- Bytes between the old end of the file and the offset read as zero. -/
def writeAt (file : Bytes) (off : ℕ) (data : Bytes) : Bytes :=
  file.take off ++ List.replicate (off - file.length) 0 ++ data ++ file.drop (off + data.length)

def pageSize : ℕ := 4096

/-- A mapping shows the file and zeros up to the end of its last page. -/
def pageFill (file : Bytes) : Bytes :=
  file ++ List.replicate ((pageSize - file.length % pageSize) % pageSize) 0

def openWriteNode (host : Host) (name : Bytes) (v : Node) (l : Local) :
    Option Fd × Node × Local :=
  let fd : Fd := ⟨l.offsets.length, ⟨name, v.gone.length⟩⟩
  if !l.outcomes.opens.headD true then (none, v, l.popOpen)
  else
    match v.current with
    | some f =>
      if host.permits .write f.mode then
        (some fd, v.put ⟨[], host.modeWritten f.mode⟩, l.popOpen.addFd)
      else (none, v, l.popOpen)
    | none => (some fd, v.put ⟨[], host.newMode⟩, l.popOpen.addFd)

def openReadNode (host : Host) (name : Bytes) (v : Node) (l : Local) :
    Option Fd × Node × Local :=
  match v.current with
  | some f =>
    if l.outcomes.opens.headD true && host.permits .read f.mode then
      (some ⟨l.offsets.length, ⟨name, v.gone.length⟩⟩, v, l.popOpen.addFd)
    else (none, v, l.popOpen)
  | none => (none, v, l.popOpen)

def fstatNode (fd : Fd) (v : Node) (l : Local) : Option ℕ × Node × Local :=
  (if l.outcomes.fstats.headD true then
    (v.file fd.ino.generation).map fun f => f.bytes.length else none, v, l.popFstat)

def writeNode (host : Host) (fd : Fd) (data : Bytes) (v : Node) (l : Local) :
    Option ℕ × Node × Local :=
  match (l.outcomes.writes.headD .all).count data.length, v.file fd.ino.generation with
  | some n, some f =>
    let off := l.offsets.getD fd.num 0
    let mode := if data = [] then f.mode else host.modeWritten f.mode
    (some n, v.setFile fd.ino.generation ⟨writeAt f.bytes off (data.take n), mode⟩,
      l.popWrite.setOffset fd.num (off + n))
  | _, _ => (none, v, l.popWrite)

def unlinkNode (v : Node) (l : Local) : Bool × Node × Local :=
  match v.current with
  | some f =>
    if l.outcomes.unlinks.headD true then
      (true, { gone := v.gone ++ [f], current := none }, l.popUnlink)
    else (false, v, l.popUnlink)
  | none => (false, v, l.popUnlink)

def chmodNode (mode : UInt32) (v : Node) (l : Local) : Bool × Node × Local :=
  match v.current with
  | some f =>
    if l.outcomes.chmods.headD true then
      (true, v.put { f with mode := mode.toNat &&& 0o7777 }, l.popChmod)
    else (false, v, l.popChmod)
  | none => (false, v, l.popChmod)

def statNode (v : Node) (l : Local) : Option Stat × Node × Local :=
  (if l.outcomes.stats.headD true then
    v.current.map fun f => ⟨true, f.bytes.length, f.mode⟩ else none, v, l.popStat)

/-- The bytes that a socket write of `data` out of a buffer moves: at least one and no
more than the buffer holds, or an error. -/
def sendFrom (buf : Buffer) (data : Bytes) (l : Local) :
    Option { n : ℕ // 0 < n ∧ n ≤ buf.length } × Local :=
  let n := match l.outcomes.sends.headD .all with
    | .all => data.length
    | .short n => min (max 1 n) data.length
    | .error => 0
  if h : 0 < n ∧ n ≤ buf.length then (some ⟨n, h⟩, l.popSend.send (data.take n))
  else (none, l.popSend)

def recvInto (len : ℕ) (l : Local) : Option { bytes : Bytes // bytes.length ≤ len } × Local :=
  match l.outcomes.recvs.headD .all with
  | .error => (none, l.popRecv)
  | .all => (some ⟨l.input.take len, by simp⟩, l.popRecv.consume len)
  | .short n =>
    (some ⟨l.input.take (min (max 1 n) len), by simp⟩, l.popRecv.consume (min (max 1 n) len))

/-- Calls that concern the calling thread only. The remaining cases are file calls on
paths outside the storage directory, which find nothing. -/
def own : (e : Call) → Local → Reply e × Local
  | .clockGettime, l =>
    (l.outcomes.clocks.headD ⟨0, 0⟩, l.popClock)
  | .malloc _, l =>
    (l.outcomes.mallocs.headD true, l.popMalloc)
  | .lockAcquire _ _, l => ((), l)
  | .lockRelease _ _, l => ((), l)
  | .openWrite _, l => (none, l)
  | .openRead _, l => (none, l)
  | .fstat _, l => (none, l)
  | .mmap fd size, l =>
    (if l.outcomes.mmaps.headD true then some ⟨fd.ino, size⟩ else none, l.popMmap)
  | .munmap _, l => ((), l)
  | .setlkw _ _, l =>
    (l.outcomes.setlkws.headD true, l.popSetlkw)
  | .unlck _, l => (true, l)
  | .write _ _, l => (none, l)
  | .fsync _, l => ((), l)
  | .close _, l => ((), l)
  | .unlink _, l => (false, l)
  | .chmod _ _, l => (false, l)
  | .opendir, l => (none, l)
  | .closedir _, l => ((), l)
  | .stat _, l => (none, l)
  | .sockRead _ len, l => recvInto len l
  | .sockWrite _ (.memory bytes), l => sendFrom (.memory bytes) bytes l
  | .sockWrite _ (.mapped _ _ _), l => (none, l)
  | .sockClose _, l => ((), l)
  | .dispatch _, l => ((), l)

/-- The calls on one directory entry. -/
def touch (host : Host) : (e : Call) → Node → Local → Reply e × Node × Local
  | .openWrite path, v, l =>
    match resolve host.root path with
    | some name => openWriteNode host name v l
    | none => (none, v, l)
  | .openRead path, v, l =>
    match resolve host.root path with
    | some name => openReadNode host name v l
    | none => (none, v, l)
  | .fstat fd, v, l => fstatNode fd v l
  | .write fd data, v, l => writeNode host fd data v l
  | .unlink _, v, l => unlinkNode v l
  | .chmod _ mode, v, l => chmodNode mode v l
  | .stat _, v, l => statNode v l
  | .sockWrite _ (.mapped map off len), v, l =>
    let data := match v.file map.ino.generation with
      | some f => ((pageFill f.bytes).drop off).take len
      | none => []
    let q := sendFrom (.mapped map off len) data l
    (q.1, v, q.2)
  | e, v, l => ((own e l).1, v, (own e l).2)

def modeOf : LockKind → Mode
  | .read => .shared
  | .write => .exclusive

/-- The entry a path names decides which component a call on the path touches. -/
def roleOfPath (host : Host) (path : Bytes) (m : Mode) : Role Bytes :=
  match resolve host.root path with
  | some name => .access name m
  | none => .own

def role (host : Host) : Call → Role Bytes
  | .lockAcquire kind name => .acquire name (modeOf kind)
  | .lockRelease kind name => .release name (modeOf kind)
  | .openWrite path => roleOfPath host path .exclusive
  | .openRead path => roleOfPath host path .shared
  | .fstat fd => .access fd.ino.name .shared
  | .write fd _ => .access fd.ino.name .exclusive
  | .unlink path => roleOfPath host path .exclusive
  | .chmod path _ => roleOfPath host path .exclusive
  | .stat path => roleOfPath host path .shared
  | .sockWrite _ (.mapped map _ _) => .access map.ino.name .shared
  | .opendir => .other
  | _ => .own

/-- Where the objects that the kernel hands out come from. -/
def repliesOf (host : Host) : (e : Call) → Reply e → Prop
  | .openWrite path, r => ∀ fd ∈ r, resolve host.root path = some fd.ino.name
  | .openRead path, r => ∀ fd ∈ r, resolve host.root path = some fd.ino.name
  | .mmap fd size, r => ∀ map ∈ r, map = ⟨fd.ino, size⟩
  | _, _ => True

theorem openWriteNode_name {host : Host} {name : Bytes} {v : Node} {l : Local} {fd : Fd}
    (h : fd ∈ (openWriteNode host name v l).1) : fd.ino.name = name := by
  unfold openWriteNode at h
  split at h
  · cases h
  · split at h
    · split at h
      · cases h
        rfl
      · cases h
    · cases h
      rfl

theorem openReadNode_name {host : Host} {name : Bytes} {v : Node} {l : Local} {fd : Fd}
    (h : fd ∈ (openReadNode host name v l).1) : fd.ino.name = name := by
  unfold openReadNode at h
  split at h
  · split at h
    · cases h
      rfl
    · cases h
  · cases h

theorem openReadNode_node (host : Host) (name : Bytes) (v : Node) (l : Local) :
    (openReadNode host name v l).2.1 = v := by
  unfold openReadNode
  split
  · split <;> rfl
  · rfl

theorem own_repliesOf (host : Host) (e : Call) (l : Local) : repliesOf host e (own e l).1 := by
  cases e with
  | mmap fd size =>
    intro map hmap
    simp only [own] at hmap
    split at hmap
    · exact (Option.some.inj hmap).symm
    · cases hmap
  | openWrite path => exact fun fd h => nomatch h
  | openRead path => exact fun fd h => nomatch h
  | _ => trivial

theorem touch_repliesOf (host : Host) (e : Call) (v : Node) (l : Local) :
    repliesOf host e (touch host e v l).1 := by
  cases e with
  | openWrite path =>
    intro fd hfd
    simp only [touch] at hfd
    split at hfd
    · next name hname => rw [hname, openWriteNode_name hfd]
    · cases hfd
  | openRead path =>
    intro fd hfd
    simp only [touch] at hfd
    split at hfd
    · next name hname => rw [hname, openReadNode_name hfd]
    · cases hfd
  | mmap fd size => exact own_repliesOf host (.mmap fd size) l
  | _ => trivial

theorem roleOfPath_mode {host : Host} {path name : Bytes} {m m' : Mode}
    (h : roleOfPath host path m = .access name m') : m' = m := by
  unfold roleOfPath at h
  split at h
  · cases h
    rfl
  · cases h

/-- The calls that only read a component really leave it as it is. -/
theorem touch_shared (host : Host) (e : Call) (name : Bytes) (v : Node) (l : Local)
    (h : role host e = .access name .shared) : (touch host e v l).2.1 = v := by
  cases e with
  | openWrite path => exact nomatch roleOfPath_mode h
  | unlink path => exact nomatch roleOfPath_mode h
  | chmod path mode => exact nomatch roleOfPath_mode h
  | write fd data => cases h
  | openRead path =>
    simp only [touch]
    split
    · exact openReadNode_node ..
    · rfl
  | fstat fd => rfl
  | stat path => rfl
  | sockWrite fd buf =>
    cases buf with
    | memory bytes => cases h
    | mapped map off len => rfl
  | _ => rfl

def semantics (host : Host) : Semantics Call Reply Bytes Node Local where
  role := role host
  valid name := name.length ≤ nervfsMaxNameLen
  own := own
  touch := touch host
  replies := repliesOf host
  own_replies := own_repliesOf host
  touch_replies := touch_repliesOf host
  touch_shared e k v l := touch_shared host e k v l

end NervFS.Kernel
