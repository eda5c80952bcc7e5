import NervFS.Protocol
import Mathlib.Data.List.TakeWhile

/-!
The file operations under the handlers: the name resolver, which is pure, and the
wrappers around the system calls, which are programs. Names and paths are byte
strings; a C string is read up to its first null byte.
-/
namespace NervFS.FileOps

open Programs Calls Protocol

def nervfsMaxNameLen : ℕ := 255
def pathMax : ℕ := 4096

def slash : UInt8 := 0x2F
def dotName : Bytes := [0x2E]
def dotDotName : Bytes := [0x2E, 0x2E]

/-- What the string functions of C see of a buffer. -/
def cString (bytes : Bytes) : Bytes := bytes.takeWhile (· ≠ 0)

/-- The output of `snprintf` with the format `%s/%s` before it is cut to the buffer. -/
def joinPath (root name : Bytes) : Bytes := root ++ slash :: name

/-- `name` holds the `name_len` bytes that the source copies. -/
def safeResolvePath (root name : Bytes) (outSize : ℕ) : Option Bytes :=
  if name.length = 0 ∨ nervfsMaxNameLen < name.length then none
  else
    let safeName := cString (name ++ [0])
    if safeName.length ≠ name.length then none
    else if slash ∈ safeName then none
    else if safeName = dotName ∨ safeName = dotDotName then none
    else if outSize ≤ (joinPath root safeName).length then none
    else some (joinPath root safeName)

/-- The names the resolver accepts. -/
structure ValidName (root : Bytes) (outSize : ℕ) (name : Bytes) : Prop where
  nonempty : 0 < name.length
  short : name.length ≤ nervfsMaxNameLen
  no_nul : 0 ∉ name
  no_slash : slash ∉ name
  not_dot : name ≠ dotName
  not_dotDot : name ≠ dotDotName
  fits : root.length + 1 + name.length < outSize

theorem cString_of_no_nul {bytes : Bytes} (h : 0 ∉ bytes) : cString bytes = bytes := by
  unfold cString
  rw [List.takeWhile_eq_self_iff]
  intro b hb
  simp only [decide_eq_true_eq]
  rintro rfl
  exact h hb

theorem cString_append_nul {bytes : Bytes} (h : 0 ∉ bytes) : cString (bytes ++ [0]) = bytes := by
  induction bytes with
  | nil => rfl
  | cons b bs ih =>
    have hb : b ≠ 0 := fun hb => h (hb ▸ List.mem_cons_self)
    have hbs : 0 ∉ bs := fun hm => h (List.mem_cons_of_mem b hm)
    simpa [cString, hb] using ih hbs

/-- A smuggled null byte makes the string shorter than its claimed length. -/
theorem no_nul_of_cString_length {bytes : Bytes}
    (h : (cString (bytes ++ [0])).length = bytes.length) : 0 ∉ bytes := by
  induction bytes with
  | nil => simp
  | cons b bs ih =>
    by_cases hb : b = 0
    · subst hb
      simp [cString] at h
    · have htail : (cString (bs ++ [0])).length = bs.length := by
        simpa [cString, hb] using h
      intro hm
      rcases List.mem_cons.mp hm with h0 | hm
      · exact hb h0.symm
      · exact ih htail hm

theorem safeResolvePath_eq_some {root name : Bytes} {outSize : ℕ}
    (h : ValidName root outSize name) :
    safeResolvePath root name outSize = some (joinPath root name) := by
  have hlen : ¬ (name.length = 0 ∨ nervfsMaxNameLen < name.length) := by
    have h1 := h.nonempty
    have h2 := h.short
    omega
  have hfits : ¬ outSize ≤ (joinPath root name).length := by
    have h3 := h.fits
    simp only [joinPath, List.length_append, List.length_cons]
    omega
  unfold safeResolvePath
  simp only [cString_append_nul h.no_nul]
  rw [if_neg hlen, if_neg (by simp), if_neg h.no_slash,
    if_neg (not_or.mpr ⟨h.not_dot, h.not_dotDot⟩), if_neg hfits]

theorem validName_of_safeResolvePath {root name path : Bytes} {outSize : ℕ}
    (h : safeResolvePath root name outSize = some path) :
    ValidName root outSize name ∧ path = joinPath root name := by
  unfold safeResolvePath at h
  split at h
  · cases h
  rename_i hlen
  simp only at h
  split at h
  · cases h
  rename_i hnul
  have hno : 0 ∉ name := no_nul_of_cString_length (not_not.mp hnul)
  rw [cString_append_nul hno] at h
  split at h
  · cases h
  rename_i hslash
  split at h
  · cases h
  rename_i hdots
  split at h
  · cases h
  rename_i hfits
  have hjoin : (joinPath root name).length = root.length + 1 + name.length := by
    simp only [joinPath, List.length_append, List.length_cons]
    omega
  obtain ⟨hdot, hdotDot⟩ := not_or.mp hdots
  refine ⟨⟨by omega, by omega, hno, hslash, hdot, hdotDot, by omega⟩, ?_⟩
  exact (Option.some.inj h).symm

theorem safeResolvePath_isSome {root name : Bytes} {outSize : ℕ} :
    (safeResolvePath root name outSize).isSome ↔ ValidName root outSize name := by
  constructor
  · intro h
    obtain ⟨path, hp⟩ := Option.isSome_iff_exists.mp h
    exact (validName_of_safeResolvePath hp).1
  · intro h
    rw [safeResolvePath_eq_some h]
    rfl

/-- What `fileops_open_for_mmap_read` returns: 0 with its out parameters, -1 or -2. -/
inductive MmapRead
  | opened (map : Option Mapping) (size : ℕ) (fd : Fd)
  | notFound
  | mapFailed

def fileopsOpenForMmapRead (path : Bytes) : Prog MmapRead := do
  match ← openRead path with
  | none => return .notFound
  | some fd =>
    match ← fstat fd with
    | none =>
      close fd
      return .notFound
    | some size =>
      if size = 0 then
        return .opened none 0 fd
      match ← mmap fd size with
      | none =>
        close fd
        return .mapFailed
      | some map => return .opened (some map) size fd

def fileopsCloseMmap (map : Option Mapping) (size : ℕ) (fd : Fd) : Prog Unit := do
  match map with
  | none => close fd
  | some m =>
    if 0 < size then
      munmap m
    close fd

/-- `true` is the return value 0. -/
def fileopsDeleteFile (path : Bytes) : Prog Bool := unlink path

def fileopsChmodFile (path : Bytes) (mode : UInt32) : Prog Bool := chmod path mode

def fileopsLockFd (fd : Fd) (kind : LockKind) : Prog Bool := invoke (.setlkw fd kind)

def fileopsUnlockFd (fd : Fd) : Prog Bool := invoke (.unlck fd)

def fileopsLockAcquireWrite (name : Bytes) : Prog Unit := invoke (.lockAcquire .write name)
def fileopsLockReleaseWrite (name : Bytes) : Prog Unit := invoke (.lockRelease .write name)
def fileopsLockAcquireRead (name : Bytes) : Prog Unit := invoke (.lockAcquire .read name)
def fileopsLockReleaseRead (name : Bytes) : Prog Unit := invoke (.lockRelease .read name)

/-- `nervfs_dirent_t`. -/
structure Dirent where
  name : Bytes
  size : UInt64
  mode : UInt32
  deriving DecidableEq

/-- `sizeof(nervfs_dirent_t)`: 256 bytes of name, 8 of size, 4 of mode, padding. -/
def direntSize : ℕ := 272

/-- The body of the `readdir` loop, over the names that the stream still delivers.
`entries` holds the first `count` entries of the array and `capacity` its size. -/
def listLoop (root : Bytes) (dir : Dir) :
    (names : List Bytes) → (capacity : ℕ) → (entries : List Dirent) → Prog (Option (List Dirent))
  | [], _, entries => do
    closedir dir
    return some entries
  | dName :: names, capacity, entries => do
    if dName = dotName ∨ dName = dotDotName then
      listLoop root dir names capacity entries
    else
      let fullPath := joinPath root dName
      if pathMax ≤ fullPath.length then
        listLoop root dir names capacity entries
      else
        match ← stat fullPath with
        | none => listLoop root dir names capacity entries
        | some st =>
          if !st.isReg then
            listLoop root dir names capacity entries
          else
            let entry : Dirent :=
              { name := dName.take nervfsMaxNameLen
                size := UInt64.ofNat st.size
                mode := UInt32.ofNat (st.mode &&& 0o7777) }
            if entries.length = capacity then
              if ← malloc (capacity * 2 * direntSize) then
                listLoop root dir names (capacity * 2) (entries ++ [entry])
              else
                closedir dir
                return none
            else
              listLoop root dir names capacity (entries ++ [entry])

def fileopsListDir (root : Bytes) : Prog (Option (List Dirent)) := do
  match ← opendir with
  | none => return none
  | some (dir, names) =>
    if ← malloc (16 * direntSize) then
      listLoop root dir names 16 []
    else
      closedir dir
      return none

end NervFS.FileOps
