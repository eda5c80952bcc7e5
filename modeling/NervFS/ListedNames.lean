import NervFS.FileOps
import Mathlib.Data.List.Infix

/-!
What `fileops_list_dir` returns, down to the array that it grows. The loop with its array
refines the one that appends to a list, and the list has the names that the resolver accepts
and that are regular files, each once and in the order of the stream.
-/
namespace NervFS.ListedNames

open Programs Calls Protocol FileOps

/-- The array of entries. A slot that has not been written is `none`. -/
structure DirentArray where
  capacity : ℕ
  count : UInt32
  slots : List (Option Dirent)

namespace DirentArray

def alloc (capacity : ℕ) : DirentArray :=
  { capacity := capacity
    count := 0
    slots := List.replicate capacity none }

/-- `realloc` keeps what the old slots hold. -/
def grow (arr : DirentArray) : DirentArray :=
  { arr with
    capacity := arr.capacity * 2
    slots := arr.slots ++ List.replicate (arr.capacity * 2 - arr.capacity) none }

/-- `entries[count] = entry` and `count++`, which must not leave the array. -/
def put (arr : DirentArray) (entry : Dirent) : Prog DirentArray :=
  if arr.count.toNat < arr.slots.length then
    return { arr with
      count := arr.count + 1
      slots := arr.slots.set arr.count.toNat (some entry) }
  else .stuck

/-- What the caller reads: the first `count` entries. -/
def read (arr : DirentArray) : List Dirent := (arr.slots.take arr.count.toNat).filterMap id

/-- The array holds the entries in its first slots, and more slots are free. -/
structure Holds (arr : DirentArray) (entries : List Dirent) : Prop where
  positive : 0 < arr.capacity
  slots : arr.slots.length = arr.capacity
  count : arr.count.toNat = entries.length
  room : entries.length ≤ arr.capacity
  filled : entries.map some <+: arr.slots

theorem alloc_holds {capacity : ℕ} (h : 0 < capacity) : (alloc capacity).Holds [] := by
  refine ⟨h, List.length_replicate, rfl, Nat.zero_le _, List.nil_prefix⟩

theorem Holds.grow {arr : DirentArray} {entries : List Dirent} (h : arr.Holds entries) :
    arr.grow.Holds entries := by
  have hpositive := h.positive
  have hroom := h.room
  refine ⟨?_, ?_, h.count, ?_, ?_⟩
  · unfold DirentArray.grow
    dsimp only
    omega
  · unfold DirentArray.grow
    dsimp only
    rw [List.length_append, List.length_replicate, h.slots]
    omega
  · unfold DirentArray.grow
    dsimp only
    omega
  · exact h.filled.trans (List.prefix_append ..)

theorem Holds.put {arr : DirentArray} {entries : List Dirent} (h : arr.Holds entries)
    (entry : Dirent) (hfree : entries.length < arr.capacity)
    (hcount : entries.length + 1 < 2 ^ 32) :
    ∃ arr', arr.put entry = .ret arr' ∧ arr'.Holds (entries ++ [entry]) ∧
      arr'.capacity = arr.capacity := by
  refine ⟨_, if_pos ?_, ?_, rfl⟩
  · rw [h.count, h.slots]
    exact hfree
  · have hone : (1 : UInt32).toNat = 1 := rfl
    refine ⟨h.positive, ?_, ?_, ?_, ?_⟩
    · dsimp only
      rw [List.length_set]
      exact h.slots
    · dsimp only
      rw [UInt32.toNat_add, h.count, hone, List.length_append, List.length_singleton]
      exact Nat.mod_eq_of_lt hcount
    · dsimp only
      rw [List.length_append, List.length_singleton]
      omega
    · obtain ⟨rest, hrest⟩ := h.filled
      have hlen := congrArg List.length hrest
      rw [List.length_append, List.length_map, h.slots] at hlen
      cases rest with
      | nil =>
        rw [List.length_nil] at hlen
        omega
      | cons slot rest =>
        refine ⟨rest, ?_⟩
        dsimp only
        rw [← hrest, h.count, List.map_append, List.append_assoc, List.set_append_right _ _
          (by simp)]
        simp

theorem Holds.read {arr : DirentArray} {entries : List Dirent} (h : arr.Holds entries) :
    arr.read = entries := by
  have htake := List.prefix_iff_eq_take.mp h.filled
  rw [List.length_map] at htake
  unfold DirentArray.read
  rw [h.count, ← htake, List.filterMap_map]
  exact List.filterMap_some ..

end DirentArray

/-- The `readdir` loop with its array. -/
def fillLoop (root : Bytes) (dir : Dir) :
    (names : List Bytes) → DirentArray → Prog (Option DirentArray)
  | [], arr => do
    closedir dir
    return some arr
  | dName :: names, arr => do
    if dName = dotName ∨ dName = dotDotName then
      fillLoop root dir names arr
    else
      let fullPath := joinPath root dName
      if pathMax ≤ fullPath.length then
        fillLoop root dir names arr
      else
        match ← stat fullPath with
        | none => fillLoop root dir names arr
        | some st =>
          if !st.isReg then
            fillLoop root dir names arr
          else
            let entry : Dirent :=
              { name := dName.take nervfsMaxNameLen
                size := UInt64.ofNat st.size
                mode := UInt32.ofNat (st.mode &&& 0o7777) }
            if arr.count.toNat = arr.capacity then
              if ← malloc (arr.capacity * 2 * direntSize) then
                let arr ← arr.grow.put entry
                fillLoop root dir names arr
              else
                closedir dir
                return none
            else
              let arr ← arr.put entry
              fillLoop root dir names arr

/-- `fileops_list_dir` with its array. -/
def fileopsListDirArray (root : Bytes) : Prog (Option DirentArray) := do
  match ← opendir with
  | none => return none
  | some (dir, names) =>
    if ← malloc (16 * direntSize) then
      fillLoop root dir names (.alloc 16)
    else
      closedir dir
      return none

/-- The loop with the array does what the loop with the list does. -/
theorem fillLoop_refines (root : Bytes) (dir : Dir) (names : List Bytes) {arr : DirentArray}
    {entries : List Dirent} (h : arr.Holds entries)
    (hfew : entries.length + names.length < 2 ^ 32) :
    (fillLoop root dir names arr >>= fun r => .ret (r.map DirentArray.read)) =
      listLoop root dir names arr.capacity entries := by
  induction names generalizing arr entries with
  | nil =>
    apply congrArg (Program.call (Call.closedir dir))
    funext _
    change Program.ret (some arr.read) = _
    rw [h.read]
    rfl
  | cons dName names ih =>
    rw [List.length_cons] at hfew
    have hskip := ih h (by omega)
    unfold fillLoop listLoop
    by_cases hdots : dName = dotName ∨ dName = dotDotName
    · rw [if_pos hdots, if_pos hdots]
      exact hskip
    rw [if_neg hdots, if_neg hdots]
    dsimp only
    by_cases hlong : pathMax ≤ (joinPath root dName).length
    · rw [if_pos hlong, if_pos hlong]
      exact hskip
    rw [if_neg hlong, if_neg hlong]
    apply congrArg (Program.call (Call.stat (joinPath root dName)))
    funext found
    cases found with
    | none => exact hskip
    | some st =>
      dsimp only [Program.bind]
      by_cases hreg : (!st.isReg) = true
      · rw [if_pos hreg, if_pos hreg]
        exact hskip
      rw [if_neg hreg, if_neg hreg]
      have hstored : ∀ {arr' : DirentArray}, arr'.Holds entries → entries.length < arr'.capacity →
          ∀ entry, ((arr'.put entry >>= fillLoop root dir names) >>=
            fun r => .ret (r.map DirentArray.read)) =
              listLoop root dir names arr'.capacity (entries ++ [entry]) := by
        intro arr' h' hfree entry
        obtain ⟨arr'', hput, hholds, hcapacity⟩ := h'.put entry hfree (by omega)
        rw [hput, Program.ret_bind, ← hcapacity]
        apply ih hholds
        rw [List.length_append, List.length_singleton]
        omega
      rw [h.count]
      by_cases hfull : entries.length = arr.capacity
      · rw [if_pos hfull, if_pos hfull]
        apply congrArg (Program.call (Call.malloc (arr.capacity * 2 * direntSize)))
        funext grown
        cases grown with
        | false => rfl
        | true =>
          have hpositive := h.positive
          exact hstored h.grow (show entries.length < arr.capacity * 2 by omega) _
      · rw [if_neg hfull, if_neg hfull]
        have hroom := h.room
        exact hstored h (by omega) _

/-- The names that a directory delivers. -/
structure DirectoryName (name : Bytes) : Prop where
  nonempty : 1 ≤ name.length
  short : name.length ≤ nervfsMaxNameLen
  no_slash : slash ∉ name
  no_nul : 0 ∉ name

def disk (dir : Dir) (names : List Bytes) (files : Bytes → Option Stat) :
    (e : Call) → Unit → Option (Reply e × Unit)
  | .opendir, s => some (some (dir, names), s)
  | .malloc _, s => some (true, s)
  | .stat path, s => some (files path, s)
  | .closedir _, s => some ((), s)
  | _, _ => none

/-- What the operations on a name work with: the status of the path that it resolves to. -/
def statusOf (root : Bytes) (files : Bytes → Option Stat) (name : Bytes) : Option Stat :=
  (safeResolvePath root name pathMax).bind files

/-- The name is accepted and its path is a regular file. -/
def addressable (root : Bytes) (files : Bytes → Option Stat) (name : Bytes) : Bool :=
  (statusOf root files name).any Stat.isReg

def entryOf (name : Bytes) (st : Stat) : Dirent :=
  { name := name
    size := UInt64.ofNat st.size
    mode := UInt32.ofNat (st.mode &&& 0o7777) }

/-- What a name adds to the listing. -/
def shown (root : Bytes) (files : Bytes → Option Stat) (name : Bytes) : Option Dirent :=
  ((statusOf root files name).filter Stat.isReg).map (entryOf name)

section Scan
variable {root : Bytes} {dir : Dir} {stream : List Bytes} {files : Bytes → Option Stat}

/-- The two filters coincide: the one of the loop and the one of the resolver. -/
theorem statusOf_eq {name : Bytes} (h : DirectoryName name) :
    statusOf root files name =
      if name = dotName ∨ name = dotDotName then none
      else if pathMax ≤ (joinPath root name).length then none
      else files (joinPath root name) := by
  have hlen : (joinPath root name).length = root.length + 1 + name.length := by
    simp only [joinPath, List.length_append, List.length_cons]
    omega
  have hrefused : ¬ ValidName root pathMax name → statusOf root files name = none := by
    intro hno
    unfold statusOf
    rw [← safeResolvePath_isSome, Option.not_isSome_iff_eq_none] at hno
    rw [hno]
    rfl
  split
  · next hdots =>
    apply hrefused
    intro hvalid
    rcases hdots with hdot | hdot
    · exact hvalid.not_dot hdot
    · exact hvalid.not_dotDot hdot
  · next hdots =>
    obtain ⟨hdot, hdotDot⟩ := not_or.mp hdots
    split
    · next hlong =>
      apply hrefused
      intro hvalid
      have hfits := hvalid.fits
      omega
    · next hlong =>
      have hvalid : ValidName root pathMax name :=
        ⟨h.nonempty, h.short, h.no_nul, h.no_slash, hdot, hdotDot, by omega⟩
      unfold statusOf
      rw [safeResolvePath_eq_some hvalid]
      rfl

variable (root dir stream files)

theorem listLoop_run (names : List Bytes) (capacity : ℕ) (entries : List Dirent)
    (hnames : ∀ n ∈ names, DirectoryName n) :
    (listLoop root dir names capacity entries).run (disk dir stream files) () =
      some (some (entries ++ names.filterMap (shown root files)), ()) := by
  induction names generalizing capacity entries with
  | nil =>
    rw [List.filterMap_nil, List.append_nil]
    rfl
  | cons name names ih =>
    have hname := hnames name List.mem_cons_self
    have ih := fun capacity entries =>
      ih capacity entries fun n hn => hnames n (List.mem_cons_of_mem _ hn)
    have hstatus : statusOf root files name = _ := statusOf_eq hname
    have hskip : shown root files name = none →
        (listLoop root dir names capacity entries).run (disk dir stream files) () =
          some (some (entries ++ (name :: names).filterMap (shown root files)), ()) := by
      intro hnone
      rw [List.filterMap_cons_none hnone]
      exact ih capacity entries
    have hnone : statusOf root files name = none → shown root files name = none := by
      intro hno
      unfold shown
      rw [hno]
      rfl
    unfold listLoop
    by_cases hdots : name = dotName ∨ name = dotDotName
    · rw [if_pos hdots]
      rw [if_pos hdots] at hstatus
      exact hskip (hnone hstatus)
    rw [if_neg hdots]
    rw [if_neg hdots] at hstatus
    dsimp only
    by_cases hlong : pathMax ≤ (joinPath root name).length
    · rw [if_pos hlong]
      rw [if_pos hlong] at hstatus
      exact hskip (hnone hstatus)
    rw [if_neg hlong]
    rw [if_neg hlong] at hstatus
    have hcall : disk dir stream files (.stat (joinPath root name)) () =
        some (files (joinPath root name), ()) := rfl
    refine (Program.run_call_of hcall).trans ?_
    cases hfile : files (joinPath root name) with
    | none => exact hskip (hnone (hstatus.trans hfile))
    | some st =>
      rw [hfile] at hstatus
      dsimp only [Program.bind]
      by_cases hreg : st.isReg = true
      · have hshown : shown root files name = some (entryOf name st) := by
          unfold shown
          rw [hstatus, Option.filter_some, if_pos hreg]
          rfl
        have hcut : name.take nervfsMaxNameLen = name := List.take_of_length_le hname.short
        have hmore : ∀ capacity',
            (listLoop root dir names capacity' (entries ++ [entryOf name st])).run
              (disk dir stream files) () =
                some (some (entries ++ (name :: names).filterMap (shown root files)), ()) := by
          intro capacity'
          rw [ih, List.filterMap_cons_some hshown, List.append_assoc]
          rfl
        rw [hreg, hcut, if_neg (by decide)]
        by_cases hfull : entries.length = capacity
        · rw [if_pos hfull]
          have hmalloc : disk dir stream files (.malloc (capacity * 2 * direntSize)) () =
              some (true, ()) := rfl
          exact (Program.run_call_of hmalloc).trans (hmore (capacity * 2))
        · rw [if_neg hfull]
          exact hmore capacity
      · have hshown : shown root files name = none := by
          unfold shown
          rw [hstatus, Option.filter_some, if_neg hreg]
          rfl
        rw [Bool.eq_false_iff.mpr hreg]
        exact hskip hshown

theorem fillLoop_run (names : List Bytes) {arr : DirentArray} (h : arr.Holds [])
    (hfew : names.length < 2 ^ 32) (hnames : ∀ n ∈ names, DirectoryName n) :
    ∃ arr', (fillLoop root dir names arr).run (disk dir stream files) () = some (some arr', ()) ∧
      arr'.read = names.filterMap (shown root files) := by
  have hlist := listLoop_run root dir stream files names arr.capacity [] hnames
  rw [← fillLoop_refines root dir names h (by simpa using hfew), Program.run_bind] at hlist
  obtain ⟨found, hrun, hfound⟩ := Option.bind_eq_some_iff.mp hlist
  obtain ⟨result, ⟨⟩⟩ := found
  rw [Program.run_ret] at hfound
  have hmap := congrArg Prod.fst (Option.some.inj hfound)
  obtain ⟨arr', hresult, hread⟩ := Option.map_eq_some_iff.mp hmap
  exact ⟨arr', hresult ▸ hrun, hread⟩

end Scan

/-- The listing of a directory with the names `names`: the names of its addressable regular
files in the order of the stream, each once, with what `stat` says of them. -/
structure Lists (root : Bytes) (files : Bytes → Option Stat) (names : List Bytes)
    (entries : List Dirent) : Prop where
  names : entries.map Dirent.name = names.filter (addressable root files)
  once : (entries.map Dirent.name).Nodup
  stats : ∀ e ∈ entries, ∃ path st, safeResolvePath root e.name pathMax = some path ∧
    files path = some st ∧ st.isReg = true ∧ e.size.toNat = st.size ∧
      e.mode.toNat = st.mode &&& 0o7777

theorem shown_lists (root : Bytes) {files : Bytes → Option Stat} {names : List Bytes}
    (hnodup : names.Nodup) (hsizes : ∀ path st, files path = some st → st.size < 2 ^ 63) :
    Lists root files names (names.filterMap (shown root files)) := by
  have hshown : (names.filterMap (shown root files)).map Dirent.name =
      names.filter (addressable root files) := by
    rw [List.map_filterMap, ← List.filterMap_eq_filter]
    apply List.filterMap_congr
    intro name _
    unfold shown addressable
    cases hstatus : statusOf root files name with
    | none => simp [hstatus, Option.guard]
    | some st => by_cases hreg : st.isReg = true <;> simp [hstatus, hreg, entryOf, Option.guard]
  refine ⟨hshown, ?_, ?_⟩
  · rw [hshown]
    exact hnodup.filter _
  · intro e he
    obtain ⟨name, -, hname⟩ := List.mem_filterMap.mp he
    obtain ⟨st, hst, rfl⟩ := Option.map_eq_some_iff.mp hname
    obtain ⟨hstatus, hreg⟩ := Option.filter_eq_some_iff.mp hst
    obtain ⟨path, hpath, hfile⟩ := Option.bind_eq_some_iff.mp hstatus
    have hsize := hsizes path st hfile
    have hmode : st.mode &&& 0o7777 < 2 ^ 12 := Nat.and_lt_two_pow st.mode (by decide)
    refine ⟨path, st, hpath, hfile, hreg, ?_, ?_⟩
    · change (UInt64.ofNat st.size).toNat = st.size
      rw [UInt64.toNat_ofNat']
      omega
    · change (UInt32.ofNat (st.mode &&& 0o7777)).toNat = st.mode &&& 0o7777
      rw [UInt32.toNat_ofNat']
      omega

/-- `fileops_list_dir` lists what the resolver can address. -/
theorem fileopsListDir_exact (root : Bytes) (dir : Dir) (names : List Bytes)
    (files : Bytes → Option Stat) (hfew : names.length < 2 ^ 32) (hnodup : names.Nodup)
    (hnames : ∀ n ∈ names, DirectoryName n)
    (hsizes : ∀ path st, files path = some st → st.size < 2 ^ 63) :
    ∃ arr, (fileopsListDirArray root).run (disk dir names files) () = some (some arr, ()) ∧
      Lists root files names arr.read := by
  have hempty := DirentArray.alloc_holds (show 0 < 16 by omega)
  obtain ⟨arr, hrun, hread⟩ := fillLoop_run root dir names files names hempty hfew hnames
  refine ⟨arr, ?_, ?_⟩
  · unfold fileopsListDirArray
    have hopen : disk dir names files .opendir () = some (some (dir, names), ()) := rfl
    have hmalloc : disk dir names files (.malloc (16 * direntSize)) () = some (true, ()) := rfl
    refine (Program.run_call_of hopen).trans ?_
    exact (Program.run_call_of hmalloc).trans hrun
  · rw [hread]
    exact shown_lists root hnodup hsizes

def sampleFiles (path : Bytes) : Option Stat :=
  if path = [slash, 0x73, slash, 0x61] then some ⟨true, 5, 0o100644⟩
  else some ⟨false, 4096, 0o40755⟩

/-- A stream with the two dot names, a directory and a file. -/
theorem fileopsListDir_exact_sample :
    ∃ arr, (fileopsListDirArray [slash, 0x73]).run
        (disk ⟨3⟩ [dotName, [0x62], [0x61], dotDotName] sampleFiles) () = some (some arr, ()) ∧
      Lists [slash, 0x73] sampleFiles [dotName, [0x62], [0x61], dotDotName] arr.read := by
  apply fileopsListDir_exact [slash, 0x73] ⟨3⟩ [dotName, [0x62], [0x61], dotDotName] sampleFiles
    (by decide) (by decide)
  · intro n hn
    simp only [List.mem_cons, List.not_mem_nil, or_false] at hn
    rcases hn with rfl | rfl | rfl | rfl
    · exact ⟨by decide, by decide, by decide, by decide⟩
    · exact ⟨by decide, by decide, by decide, by decide⟩
    · exact ⟨by decide, by decide, by decide, by decide⟩
    · exact ⟨by decide, by decide, by decide, by decide⟩
  · intro path st h
    unfold sampleFiles at h
    split at h
    · cases h
      decide
    · cases h
      decide

end NervFS.ListedNames
