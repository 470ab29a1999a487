import ArosTools.Fs.Symlinks
import ArosTools.Publication.Names

/-!
# Written link targets

A link target as it is written, component by component, as the steps of a resolution, and the
count that the checkers of a target make over its components.
-/

namespace ArosTools

/-- A component as a step; `.` is none. -/
def Component.step? : Component → Option (Links.Step Name)
  | .normal name => some (.down name)
  | .parentDir => some .up
  | .curDir => none

/-- A written path as the steps of a resolution. -/
def PathBuf.steps (path : PathBuf) : List (Links.Step Name) :=
  path.components.filterMap Component.step?

/-- The depth check of a link target, from the depth of the link's directory. -/
def linkStaysInside : ℕ → List Component → Bool
  | _, [] => true
  | depth, .normal _ :: rest => linkStaysInside (depth + 1) rest
  | depth, .curDir :: rest => linkStaysInside depth rest
  | depth + 1, .parentDir :: rest => linkStaysInside depth rest
  | 0, .parentDir :: _ => false

theorem linkStaysInside_eq (depth : ℕ) (path : PathBuf) :
    linkStaysInside depth path.components = Links.staysInside depth path.steps := by
  unfold PathBuf.steps
  induction path.components generalizing depth with
  | nil => simp [linkStaysInside, Links.staysInside]
  | cons component components ih =>
    cases component with
    | normal name =>
      simpa [linkStaysInside, Links.staysInside, Component.step?] using ih (depth + 1)
    | parentDir =>
      cases depth with
      | zero => simp [linkStaysInside, Links.staysInside, Component.step?]
      | succ depth => simpa [linkStaysInside, Links.staysInside, Component.step?] using ih depth
    | curDir =>
      rw [linkStaysInside, List.filterMap_cons_none rfl]
      exact ih depth

end ArosTools
