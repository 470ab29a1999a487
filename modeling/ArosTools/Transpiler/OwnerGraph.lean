import ArosTools.Bytes.Basic
import ArosTools.Bytes.Utf8
import ArosTools.Fs.Basic
import ArosTools.Program.BTree

/-!
# The MetaMake owner graph

`MetaMakeOwnerGraph` is read from the `#MM` lines of expanded makefiles: which targets are known,
what each depends on, which makefiles own it, and every declaration the lines make.
`MetaMakeOwnerGraph.select` then walks the dependencies of some roots.

Strings are their UTF-8 bytes, and a `usize` counter is a natural number that `checkedAdd` keeps
below its limit.
-/

namespace ArosTools

namespace Transpiler

namespace OwnerGraph

/-- `ParseResult`: errors are texts. -/
abbrev ParseResult (α : Type) := Checked Bytes α

/-! ### Limits and counters -/

/-- `Limits`. -/
structure Limits where
  preserveEmptyEndpoints : Bool
  maxFiles : ℕ
  maxTotalBytes : ℕ
  maxFileBytes : ℕ
  maxTotalLines : ℕ
  maxLineBytes : ℕ
  maxTokens : ℕ
  maxTargets : ℕ
  maxEdges : ℕ
  maxWork : ℕ
  maxGlobalBindings : ℕ
  maxGlobalBytes : ℕ
  maxGlobalValueBytes : ℕ
  maxIdentityBytes : ℕ
  maxTotalIdentityCopyBytes : ℕ
  deriving DecidableEq, Repr

/-- `REFERENCE_IDENTITY_BYTES`. -/
def referenceIdentityBytes : ℕ := 4095

/-- `REFERENCE_VARIABLE_BYTES`. -/
def referenceVariableBytes : ℕ := 255

/-- `Limits::default`. -/
def Limits.default : Limits where
  preserveEmptyEndpoints := false
  maxFiles := 20000
  maxTotalBytes := 64 * 1024 * 1024
  maxFileBytes := 8 * 1024 * 1024
  maxTotalLines := 2000000
  maxLineBytes := 64 * 1024
  maxTokens := 2000000
  maxTargets := 500000
  maxEdges := 1000000
  maxWork := 4000000
  maxGlobalBindings := 16384
  maxGlobalBytes := 16 * 1024 * 1024
  maxGlobalValueBytes := 1024 * 1024
  maxIdentityBytes := referenceIdentityBytes
  maxTotalIdentityCopyBytes := 64 * 1024 * 1024

/-- `checked_add`: the sum, below a limit. -/
def checkedAdd (current amount max : ℕ) (label : String) : ParseResult ℕ :=
  match ArosTools.checkedAdd current amount with
  | none => Checked.fail (ascii label ++ ascii " counter overflow")
  | some next => if max < next then Checked.fail (ascii label ++ ascii " limit exceeded") else .ok next

/-- The work done and the identity bytes copied so far. -/
structure Spent where
  work : ℕ
  identityCopyBytes : ℕ
  deriving DecidableEq, Repr

/-- More work. -/
def Spent.add (s : Spent) (amount : ℕ) (limits : Limits) (label : String) : ParseResult Spent := do
  let work ← checkedAdd s.work amount limits.maxWork label
  pure { s with work := work }

/-- `bump`: one more unit of work. -/
def Spent.bump (s : Spent) (limits : Limits) (label : String) : ParseResult Spent :=
  s.add 1 limits label

/-- `charge_identity_copy`: more identity bytes copied. -/
def Spent.charge (s : Spent) (amount : ℕ) (limits : Limits) (label : String) : ParseResult Spent := do
  let bytes ← checkedAdd s.identityCopyBytes amount limits.maxTotalIdentityCopyBytes label
  pure { s with identityCopyBytes := bytes }

/-! ### Data -/

/-- `DependencyProvenance`: a dependency token before and after substitution. -/
structure DependencyProvenance where
  rawExpression : Bytes
  concrete : Bytes
  deriving DecidableEq, Repr

/-- `TargetDeclarationProvenance`: one named target of one directive. -/
structure TargetDeclarationProvenance where
  expandedLine : ℕ
  file : Bytes
  rawTarget : Bytes
  target : Bytes
  virtualTarget : Bool
  bareMarker : Bool
  claimsMakeOwner : Bool
  dependencies : List DependencyProvenance
  deriving DecidableEq, Repr

end OwnerGraph

open OwnerGraph

/-- `MetaMakeOwnerGraph`. -/
structure MetaMakeOwnerGraph where
  knownTargets : BTreeSet Bytes
  dependencies : BTreeMap Bytes (BTreeSet Bytes)
  owners : BTreeMap Bytes (BTreeSet Bytes)
  declarations : List TargetDeclarationProvenance
  deriving DecidableEq

/-- `Selection`. -/
structure Selection where
  reachedTargets : BTreeSet Bytes
  missingEndpoints : BTreeSet Bytes
  selectedOwnerFiles : BTreeSet Bytes
  deriving DecidableEq

/-! ### Selection -/

namespace MetaMakeOwnerGraph

/-- The variables of `select`. -/
structure Search where
  selection : Selection
  queue : List Bytes
  spent : Spent

/-- The search before the first root. -/
def Search.start : Search := ⟨⟨.new, .new, .new⟩, [], ⟨0, 0⟩⟩

variable (g : MetaMakeOwnerGraph) (limits : Limits)

/-- A name that a declaration gives; an empty one never satisfies an endpoint. -/
def satisfies (name : Bytes) : Bool := name ≠ [] && name ∈ g.knownTargets

/-- The round of the first loop for one root. -/
def selectRoot (s : Search) (root : Bytes) : ParseResult Search := do
  let spent ← s.spent.bump limits "selection work"
  if limits.maxIdentityBytes < root.length then
    Checked.fail (ascii "selection root identity byte limit exceeded")
  else if g.satisfies root then
    let spent ← spent.charge root.length limits "selection root copy"
    pure { s with queue := s.queue ++ [root], spent := spent }
  else
    let spent ← spent.charge root.length limits "missing-root identity copy"
    pure { s with
      selection := { s.selection with missingEndpoints := s.selection.missingEndpoints.insert root }
      spent := spent }

/-- One owner of a target just reached. -/
def selectOwner (s : Search) (owner : Bytes) : ParseResult Search := do
  let spent ← s.spent.charge owner.length limits "selected-owner path copy"
  pure { s with
    selection :=
      { s.selection with selectedOwnerFiles := s.selection.selectedOwnerFiles.insert owner }
    spent := spent }

/-- One dependency of a target just reached. -/
def selectDependency (s : Search) (dependency : Bytes) : ParseResult Search := do
  let spent ← s.spent.bump limits "selection work"
  if g.satisfies dependency then
    let spent ← spent.charge dependency.length limits "dependency queue copy"
    pure { s with queue := s.queue ++ [dependency], spent := spent }
  else
    let spent ← spent.charge dependency.length limits "missing-dependency identity copy"
    pure { s with
      selection :=
        { s.selection with missingEndpoints := s.selection.missingEndpoints.insert dependency }
      spent := spent }

/-- The owners of a target, if it has any. -/
def ownersOf (target : Bytes) : List Bytes := (g.owners.get target).elim [] BTreeSet.elems

/-- The dependencies of a target, if it has any. -/
def dependenciesOf (target : Bytes) : List Bytes :=
  (g.dependencies.get target).elim [] BTreeSet.elems

/-- The second loop for a target taken from the queue. -/
def selectTarget (s : Search) (target : Bytes) : ParseResult Search := do
  let spent ← s.spent.bump limits "selection work"
  let spent ← spent.charge target.length limits "reached-target copy"
  let s := { s with spent := spent }
  if target ∈ s.selection.reachedTargets then pure s
  else
    let reached := s.selection.reachedTargets.insert target
    let s := { s with selection := { s.selection with reachedTargets := reached } }
    let s ← (g.ownersOf target).foldlM (selectOwner limits) s
    (g.dependenciesOf target).foldlM (g.selectDependency limits) s

/-- The second loop: until the queue is empty. -/
def drain : ℕ → Search → ParseResult Search
  | 0, _ => .error .diverges
  | fuel + 1, s =>
    match s.queue with
    | [] => .ok s
    | target :: queue => do
      let s ← g.selectTarget limits { s with queue := queue } target
      drain fuel s

/-- More than the rounds of the second loop: one for every root, one for every dependency, and the
last one, which finds the queue empty. -/
def rounds (roots : List Bytes) : ℕ :=
  roots.length + (g.dependencies.keys.map fun target => (g.dependenciesOf target).length).sum + 1

/-- `select`: what the roots reach. -/
def select (roots : List Bytes) : ParseResult Selection := do
  let s ← roots.foldlM (g.selectRoot limits) Search.start
  let s ← g.drain limits (g.rounds roots) s
  pure s.selection

end MetaMakeOwnerGraph

end Transpiler

end ArosTools
