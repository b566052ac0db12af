import MiniRunner.Clib.Paths
import MiniRunner.Ops.Services

/-!
# The folder of a service

`add`, `remove` and `rename` all make the path of a service's folder by putting its name
after `/var/lib/`. `isValidName` asks for no blank, no `^`, no `#` and at most 20
characters, so slashes and dots go through. `staysInside_iff` says which of the names it
accepts keep the path a direct child of `/var/lib`.
-/

namespace MiniRunner

open Clib

/-- `/var/lib/%s`: what `cloneRepo` clones into, `deleteFromPcFolder` deletes and
`renameServiceProjectFoler` renames. -/
def servicePath (name : CStr) : CStr := serviceRoot.append name

/-- `var`. -/
def varPart : Bytes := [118, 97, 114]
/-- `lib`. -/
def libPart : Bytes := [108, 105, 98]

/-- The path leads to a direct child of `/var/lib`. -/
def DirectChild (path : CStr) : Prop := ∃ x, resolve path.bytes = [x, libPart, varPart]

/-- A name that is accepted keeps its folder a direct child. -/
def StaysInside (name : CStr) : Prop := isValidName name = 0 → DirectChild (servicePath name)

/-- **Where a name leads by itself**: to one component, or out and back into `/var/lib`. -/
def LandsInside (r : Route Bytes) : Prop :=
  (r.ups = 0 ∧ ∃ x, r.downs = [x]) ∨ (r.ups = 1 ∧ ∃ x, r.downs = [x, libPart]) ∨
    (2 ≤ r.ups ∧ ∃ x, r.downs = [x, libPart, varPart])

theorem resolve_servicePath (name : CStr) :
    resolve (servicePath name).bytes =
      (Route.ofSteps (pathSteps name.bytes)).leads [libPart, varPart] :=
  resolve_append [47, 118, 97, 114, 47, 108, 105, 98] name.bytes

theorem landsInside_iff (r : Route Bytes) :
    LandsInside r ↔ ∃ x, r.leads [libPart, varPart] = [x, libPart, varPart] := by
  obtain ⟨ups, downs⟩ := r
  rcases ups with _ | _ | ups
  · have hleads : ∀ x, downs ++ [libPart, varPart] = [x, libPart, varPart] ↔ downs = [x] :=
      fun x => @List.append_left_inj Bytes downs [x] [libPart, varPart]
    simp [LandsInside, Route.leads, hleads]
  · have hleads : ∀ x, downs ++ [varPart] = [x, libPart, varPart] ↔ downs = [x, libPart] :=
      fun x => @List.append_left_inj Bytes downs [x, libPart] [varPart]
    simp [LandsInside, Route.leads, hleads]
  · simp [LandsInside, Route.leads]

/-- **Which names stay inside.** -/
theorem staysInside_iff (name : CStr) :
    StaysInside name ↔
      isValidName name ≠ 0 ∨ LandsInside (Route.ofSteps (pathSteps name.bytes)) := by
  rw [StaysInside, DirectChild, resolve_servicePath, landsInside_iff, Decidable.imp_iff_not_or]

theorem landsInside_of_plain {name : CStr} (hslash : slash ∉ name.bytes) (hempty : name.bytes ≠ [])
    (hdot : name.bytes ≠ [dot]) (hdots : name.bytes ≠ [dot, dot]) :
    LandsInside (Route.ofSteps (pathSteps name.bytes)) := by
  refine .inl ?_
  rw [pathSteps_of_notMem hslash, stepOf_name hempty hdot hdots]
  exact ⟨rfl, name.bytes, rfl⟩

/-- The name `..` is accepted and stands for `/var`. -/
theorem not_staysInside :
    isValidName (.ofBytes [46, 46]) = 0 ∧ ¬StaysInside (.ofBytes [46, 46]) := by
  have hresolve : resolve (servicePath (.ofBytes [46, 46])).bytes = [varPart] := by decide
  refine ⟨by decide, fun h => ?_⟩
  obtain ⟨x, hx⟩ := h (by decide)
  rw [hresolve] at hx
  cases hx

end MiniRunner
