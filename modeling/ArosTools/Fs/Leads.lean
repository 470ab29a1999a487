import Mathlib.Data.List.Basic
import Mathlib.Logic.Relation
import Mathlib.Tactic.Common

/-!
# Where a path leads

Path resolution as a relation. A path is walked component by component from a directory; `.` and an
empty component stay, `..` goes to the parent, which the root does not have, and a link stands for
the place its target leads to from the directory the link is in.

* `Leads` : a path leads from a directory to a place, and enters allowed places only;
* `Leads.unique` : to one place at most;
* `Walk` : what can be reached by descending and by following links.
-/

namespace ArosTools

namespace Links

variable {ν : Type}

/-- A component of a path. -/
inductive Piece (ν : Type) where
  /-- `.`, or nothing between two slashes. -/
  | here
  /-- `..`. -/
  | up
  | down (name : ν)
  deriving DecidableEq, Repr

/-- What stands at a place. -/
inductive Entry (ν : Type) where
  | dir
  | file
  | link (target : List (Piece ν))
  deriving DecidableEq, Repr

variable (t : List ν → Option (Entry ν)) (enter : List ν → Prop)

/-- A path leads from the directory `cur` to a place. -/
inductive Leads : List ν → List (Piece ν) → List ν → Prop where
  | done (cur : List ν) : Leads cur [] cur
  | here {cur place : List ν} {rest : List (Piece ν)} (hdir : t cur = some .dir)
      (hrest : Leads cur rest place) : Leads cur (.here :: rest) place
  | up {cur place : List ν} {name : ν} {rest : List (Piece ν)}
      (hdir : t (cur ++ [name]) = some .dir) (hrest : Leads cur rest place) :
      Leads (cur ++ [name]) (.up :: rest) place
  | down {cur place : List ν} {name : ν} {entry : Entry ν} {rest : List (Piece ν)}
      (hdir : t cur = some .dir) (henter : enter (cur ++ [name]))
      (hentry : t (cur ++ [name]) = some entry) (hplain : ∀ target, entry ≠ .link target)
      (hrest : Leads (cur ++ [name]) rest place) : Leads cur (.down name :: rest) place
  | link {cur mid place : List ν} {name : ν} {target rest : List (Piece ν)}
      (hdir : t cur = some .dir) (henter : enter (cur ++ [name]))
      (hentry : t (cur ++ [name]) = some (.link target)) (htarget : Leads cur target mid)
      (hrest : Leads mid rest place) : Leads cur (.down name :: rest) place

variable {t enter}

theorem Leads.unique {cur a b : List ν} {path : List (Piece ν)} (ha : Leads t enter cur path a)
    (hb : Leads t enter cur path b) : a = b := by
  induction ha generalizing b with
  | done cur =>
    cases hb
    rfl
  | here _ _ ih =>
    cases hb with
    | here _ hrest => exact ih hrest
  | up _ _ ih =>
    generalize hcur : _ ++ [_] = cur at hb
    cases hb with
    | up _ hrest =>
      obtain ⟨rfl, -⟩ := List.append_inj' hcur rfl
      exact ih hrest
  | down _ _ hentry hplain _ ih =>
    cases hb with
    | down _ _ _ _ hrest => exact ih hrest
    | link _ _ hentry' => exact absurd (Option.some.inj (hentry.symm.trans hentry')) (hplain _)
  | link _ _ hentry _ _ ihtarget ihrest =>
    cases hb with
    | down _ _ hentry' hplain =>
      exact absurd (Option.some.inj (hentry'.symm.trans hentry)) (hplain _)
    | link _ _ hentry' htarget hrest =>
      cases Option.some.inj (hentry.symm.trans hentry')
      cases ihtarget htarget
      exact ihrest hrest

variable (t enter)

/-- One step of a walk: into a directory, or to where a link leads. -/
inductive Walk.Step : List ν → List ν → Prop where
  | descend {place : List ν} (hdir : t place = some .dir) (name : ν) :
      Walk.Step place (place ++ [name])
  | follow {cur place : List ν} {name : ν} {target : List (Piece ν)}
      (hlink : t (cur ++ [name]) = some (.link target)) (htarget : Leads t enter cur target place) :
      Walk.Step (cur ++ [name]) place

/-- A walk downwards and along links. -/
abbrev Walk : List ν → List ν → Prop := Relation.ReflTransGen (Walk.Step t enter)

end Links

end ArosTools
