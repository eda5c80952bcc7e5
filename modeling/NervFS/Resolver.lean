import NervFS.FileOps
import NervFS.Lib.LexicalPath

/-!
Exactly which names `safe_resolve_path` accepts, and where the paths that it makes lead:
each to an entry of the storage root of its own.
-/
namespace NervFS.Resolver

open Calls FileOps LexicalPath

def pathSyntax : Syntax UInt8 where
  sep := slash
  here := dotName
  parent := dotDotName

theorem ValidName.plain {root name : Bytes} {outSize : ℕ} (h : ValidName root outSize name) :
    Plain pathSyntax name where
  nonempty := List.ne_nil_of_length_pos h.nonempty
  no_sep := h.no_slash
  not_here := h.not_dot
  not_parent := h.not_dotDot

theorem absolute_resolve {root : Bytes} (h : Normalised pathSyntax root) :
    absolute pathSyntax (resolve pathSyntax root) = root := by
  obtain ⟨cs, hcs, rfl⟩ := h
  rw [resolve_absolute hcs]

theorem joinPath_injective {root name name' : Bytes}
    (h : joinPath root name = joinPath root name') :
    name = name' := by
  have htail := List.append_cancel_left h
  exact (List.cons.inj htail).2

/-- `safe_resolve_path` accepts the short names without null byte and slash that are not
one of the two special ones and leave room in the buffer, and turns them into different
direct children of the storage root. -/
theorem safe_resolve_path_exact {root : Bytes} (hroot : Normalised pathSyntax root) :
    (∀ name outSize, (safeResolvePath root name outSize).isSome ↔
      1 ≤ name.length ∧ name.length ≤ 255 ∧ 0 ∉ name ∧ slash ∉ name ∧ name ≠ dotName ∧
        name ≠ dotDotName ∧ root.length + 1 + name.length < outSize) ∧
    (∀ name outSize path, safeResolvePath root name outSize = some path →
      path = root ++ slash :: name ∧
      resolve pathSyntax path = resolve pathSyntax root ++ [name] ∧
      absolute pathSyntax (resolve pathSyntax root) = root) ∧
    (∀ name name' outSize outSize' path, safeResolvePath root name outSize = some path →
      safeResolvePath root name' outSize' = some path → name = name') := by
  refine ⟨fun name outSize => ?_, fun name outSize path h => ?_, ?_⟩
  · rw [safeResolvePath_isSome]
    constructor
    · intro h
      exact ⟨h.nonempty, h.short, h.no_nul, h.no_slash, h.not_dot, h.not_dotDot, h.fits⟩
    · intro h
      obtain ⟨hpos, hshort, hnul, hslash, hdot, hdotDot, hfits⟩ := h
      exact ⟨hpos, hshort, hnul, hslash, hdot, hdotDot, hfits⟩
  · obtain ⟨hvalid, hpath⟩ := validName_of_safeResolvePath h
    refine ⟨hpath, ?_, absolute_resolve hroot⟩
    rw [hpath]
    exact resolve_child root (ValidName.plain hvalid)
  · intro name name' outSize outSize' path h h'
    have hpath := (validName_of_safeResolvePath h).2
    have hpath' := (validName_of_safeResolvePath h').2
    exact joinPath_injective (hpath.symm.trans hpath')

def sampleRoot : Bytes := absolute pathSyntax [[0x73, 0x72, 0x76], [0x66]]

theorem sampleRoot_normalised : Normalised pathSyntax sampleRoot := by
  refine ⟨_, ?_, rfl⟩
  intro c hc
  rcases List.mem_cons.mp hc with rfl | hc
  · exact ⟨by decide, by decide, by decide, by decide⟩
  · rw [List.mem_singleton.mp hc]
    exact ⟨by decide, by decide, by decide, by decide⟩

theorem safe_resolve_path_exact_sample :
    (safeResolvePath sampleRoot [0x61] pathMax).isSome ∧
      (safeResolvePath sampleRoot [0x61] 7).isNone ∧
      resolve pathSyntax (sampleRoot ++ [slash, 0x61]) =
        resolve pathSyntax sampleRoot ++ [[0x61]] := by
  obtain ⟨haccepts, hchild, -⟩ := safe_resolve_path_exact sampleRoot_normalised
  have hpath : safeResolvePath sampleRoot [0x61] pathMax = some (sampleRoot ++ [slash, 0x61]) := by
    decide
  refine ⟨(haccepts _ _).mpr (by decide), by decide, (hchild _ _ _ hpath).2.1⟩

end NervFS.Resolver
