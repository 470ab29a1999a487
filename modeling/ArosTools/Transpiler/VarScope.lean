import ArosTools.Program.BTree
import ArosTools.Program.Hash
import ArosTools.Transpiler.VarText
import Mathlib.Data.Char

/-!
# The variable scope of a makefile

A scope keeps, for every variable, each assignment with the line it stands on, and answers queries
for a line from the entries before it. Besides the values it keeps what is not known: assignments
in undecided branches, opaque definitions, and simply expanded values that froze one of these.

* `VarScope` — the histories;
* `rawAt`, `snapshot`, `isDefinedBefore`, `hasOpaqueAssignmentBefore` — the queries;
* `pathDependsOnConditionalAt` — whether a path leads to an unresolved variable;
* `evaluateConditional` — conditions, with `expandConditionOperand` for their operands.
-/

namespace ArosTools

namespace MakeVars

open Str

/-! ### Histories -/

/-- For every name the entries pushed for it, each with its line. -/
abbrev Histories (α : Type) := HashMap Text (List (ℕ × α))

namespace Histories

variable {α : Type}

/-- The entries of a name; a name without entries has the empty list. -/
def history (h : Histories α) (name : Text) : List (ℕ × α) := (h.get name).getD []

/-- `entry(name).or_default().push((line, value))`. -/
def push (h : Histories α) (name : Text) (line : ℕ) (value : α) : Histories α :=
  h.insert name (history h name ++ [(line, value)])

@[simp] theorem history_new (name : Text) : history (HashMap.new : Histories α) name = [] := rfl

@[simp] theorem history_push (h : Histories α) (name other : Text) (line : ℕ) (value : α) :
    history (push h name line value) other =
      history h other ++ if other = name then [(line, value)] else [] := by
  unfold history push
  rw [HashMap.get_insert]
  split_ifs with hname
  · subst hname
    rfl
  · simp

end Histories

/-- The last entry before a line. -/
def lastBefore {α : Type} (line : ℕ) (entries : List (ℕ × α)) : Option (ℕ × α) :=
  entries.reverse.find? fun e => e.1 < line

/-! ### The target -/

/-- The parameters of the target that conditions read. -/
structure TargetContext where
  makeVariables : BTreeMap Text Text := .new
  cpu : Option Text := none
  platform : Option Text := none
  family : Option Text := none
  variant : Option Text := none
  toolchain : Option Text := none
  cpu32 : Option Text := none
  useMmu : Option Text := none
  floatAbi : Option Text := none
  mesaVersion : Option Text := none
  targetLlvmVer : Option Text := none
  targetLlvmRuntimesStyle : Option Text := none
  targetRust : Option Text := none
  targetRustVer : Option Text := none

/-- `legacy_platform`. -/
def TargetContext.legacyPlatform (context : TargetContext) : Option Text := do
  let platform ← context.platform
  let cpu ← context.cpu
  let variant ← context.variant
  if variant = [] || platform = lit "pc" then some (platform ++ '-' :: cpu)
  else some (variant ++ '-' :: cpu)

/-- The parameters that have a name of their own in a makefile. -/
def TargetContext.selectors (context : TargetContext) : List (Text × Option Text) :=
  [(lit "AROS_TARGET_CPU", context.cpu), (lit "CPU", context.cpu),
    (lit "AROS_TARGET_ARCH", context.platform), (lit "ARCH", context.platform),
    (lit "AROS_TARGET_PLATFORM", context.legacyPlatform),
    (lit "AROS_TARGET_FAMILY", context.family), (lit "FAMILY", context.family),
    (lit "AROS_TARGET_VARIANT", context.variant), (lit "AROS_TOOLCHAIN", context.toolchain),
    (lit "AROS_TARGET_CPU32", context.cpu32), (lit "USE_MMU", context.useMmu),
    (lit "GCC_CONFIG_FLOAT_ABI", context.floatAbi), (lit "OPT_MESAGL", context.mesaVersion),
    (lit "TARGET_LLVM_VER", context.targetLlvmVer),
    (lit "TARGET_LLVM_RUNTIMES_STYLE", context.targetLlvmRuntimesStyle),
    (lit "TARGET_RUST", context.targetRust), (lit "TARGET_RUST_VER", context.targetRustVer)]

/-- `TargetContext::value`. -/
def TargetContext.value (context : TargetContext) (name : Text) : Option Text :=
  match context.selectors.lookup name with
  | some value => value
  | none => context.makeVariables.get name

/-- `initial_make_configuration`: the closed selectors come from the target alone. -/
def initialMakeConfiguration : Option TargetContext → BTreeMap Text Text
  | none => .new
  | some context =>
    context.selectors.foldl (fun configuration selector =>
      let configuration := configuration.retain (· ≠ selector.1)
      match context.value selector.1 with
      | some value => configuration.insert selector.1 value
      | none => configuration) context.makeVariables

/-! ### The scope -/

/-- The scope of a makefile. Histories that only keep lines have no value. -/
structure VarScope where
  configuration : BTreeMap Text Text
  assignments : Histories (List Text) := .new
  raw : Histories Text := .new
  undefinitions : Histories Unit := .new
  flavorUncertainties : Histories (Option Text) := .new
  pathRaw : Histories Text := .new
  conditionalAssignments : Histories AssignmentKind := .new
  opaqueAssignments : Histories Unit := .new
  opaqueAllAssignments : List (ℕ × Unit) := []
  pathReplacements : Histories Unit := .new
  uncertainPathValues : Histories Unit := .new
  localNames : HashSet Text := .new

/-- `usize::MAX`, the line from which a query sees every entry. -/
def usizeMax : ℕ := 2 ^ 64 - 1

namespace VarScope

variable (s : VarScope) (name : Text) (line : ℕ)

/-- The line of the last proven replacement before a line. -/
def resetBefore : Option ℕ := (lastBefore line (s.pathReplacements.history name)).map (·.1)

/-- `has_opaque_assignment_before`. -/
def hasOpaqueAssignmentBefore : Bool :=
  let latest := max ((lastBefore line (s.opaqueAssignments.history name)).map (·.1))
    ((lastBefore line s.opaqueAllAssignments).map (·.1))
  latest.any fun opened => (s.resetBefore name line).all (· < opened)

/-- `has_uncertain_path_value_before`. -/
def hasUncertainPathValueBefore : Bool :=
  (s.uncertainPathValues.history name).any fun e =>
    e.1 < line && (s.resetBefore name line).all (· ≤ e.1)

/-- The variable has an opaque definition or a frozen uncertain value before the line. -/
def unsettled : Bool :=
  s.hasOpaqueAssignmentBefore name line || s.hasUncertainPathValueBefore name line

/-- An assignment in an undecided branch that no replacement superseded. -/
def hasConditionalAssignmentBefore : Bool :=
  (s.conditionalAssignments.history name).any fun e =>
    e.1 < line && (s.resetBefore name line).all (· < e.1)

/-- `path_is_conditional_at`. -/
def pathIsConditionalAt : Bool :=
  s.hasOpaqueAssignmentBefore name line || s.hasConditionalAssignmentBefore name line ||
    s.hasUncertainPathValueBefore name line

/-- `raw_at`. -/
def rawAt : Option Text :=
  if s.unsettled name line then none
  else ((lastBefore line (s.raw.history name)).map (·.2)).or (s.configuration.get name)

/-- `path_raw_at`. -/
def pathRawAt : Option Text :=
  if s.unsettled name line then none
  else ((lastBefore line (s.pathRaw.history name)).map (·.2)).or (s.configuration.get name)

/-- `is_defined_before`. -/
def isDefinedBefore : Bool :=
  if s.hasOpaqueAssignmentBefore name line then true
  else
    match lastBefore line (s.raw.history name), lastBefore line (s.undefinitions.history name) with
    | some set, some undefined => undefined.1 < set.1
    | some _, none => true
    | none, some _ => false
    | none, none => (s.configuration.get name).isSome

/-- `snapshot`: the lists of the configuration, shadowed by the last lists before the line. -/
def snapshot : HashMap Text (List Text) :=
  let configured : HashMap Text (List Text) :=
    s.configuration.entries.foldl (fun m e => m.insert e.1 (splitWhitespace e.2)) .new
  let assigned := s.assignments.filterMapValues fun entries => (lastBefore line entries).map (·.2)
  (configured.extend assigned).retain fun name =>
    s.isDefinedBefore name line && !s.unsettled name line

/-- `path_depends_on_conditional_at`. -/
def pathDependsOnConditionalAt : ℕ → List Text → Text → Bool
  | 0, _, _ => true
  | depth + 1, guarded, name =>
    s.pathIsConditionalAt name line || guarded.contains name ||
      match s.pathRawAt name line with
      | none => false
      | some value =>
        (scalarReferences value).any fun dependency =>
          pathDependsOnConditionalAt depth (guarded ++ [name]) dependency

/-- `flavor_uncertainty_reason_inner`. -/
def flavorUncertaintyReasonInner : ℕ → List Text → Text → Option Text
  | depth, visiting, name =>
    match (lastBefore line (s.flavorUncertainties.history name)).bind (·.2) with
    | some reason => some reason
    | none =>
      match depth with
      | 0 => none
      | depth + 1 =>
        if visiting.contains name then none
        else (s.rawAt name line).bind fun value =>
          (BTreeSet.collect (collectReferences 16 value)).elems.findSome? fun dependency =>
            (flavorUncertaintyReasonInner depth (name :: visiting) dependency).map fun reason =>
              name ++ lit " depends on " ++ dependency ++
                lit ", whose value is uncertain: " ++ reason

/-- `latest_raw`. -/
def latestRaw : Option Text :=
  if s.unsettled name usizeMax then none
  else ((s.raw.history name).getLast?.map (·.2)).or (s.configuration.get name)

/-- `latest_raw_for_append`. -/
def latestRawForAppend : Option Text :=
  if s.hasOpaqueAssignmentBefore name usizeMax then none
  else ((s.raw.history name).getLast?.map (·.2)).or (s.configuration.get name)

/-- The last path text of a name, or its configured value. -/
def latestPathRaw : Option Text :=
  ((s.pathRaw.history name).getLast?.map (·.2)).or (s.configuration.get name)

end VarScope

/-- `flavor_uncertainty_reason_at`. -/
def VarScope.flavorUncertaintyReasonAt (s : VarScope) (name : Text) (line : ℕ) : Option Text :=
  s.flavorUncertaintyReasonInner line 16 [] name

end MakeVars

end ArosTools
