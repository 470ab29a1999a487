import ArosTools.Graph.Kosaraju
import ArosTools.Program.Hash
import Mathlib.Data.String.Basic

/-!
# Flattening MetaMake cycles

The part of the dependency graph that `flatten_meta_cycles` reads and rewrites, and the function
itself: the two searches over `meta_targets`, the components they find, the lifting of recursive
copies out of a component, and the rewriting of the component's edges.

`private_meta_copy_action` appends a SHA-256 digest to a fixed text; nothing below depends on
which function of the owner it is, so it is a parameter `action`.
-/

namespace ArosTools

namespace Transpiler

/-! ### Data -/

/-- A recursive copy declaration (`CopyDirectoryDecl`). -/
structure CopyDirectoryDecl where
  name : String
  source : String
  destination : String
  file : String
  line : ℕ
  dependencies : List String
  deriving DecidableEq, Repr

/-- Of a target definition, the dependencies. -/
structure TargetDefinition where
  dependencies : List String
  deriving DecidableEq, Repr

/-- The fields of the dependency graph that flattening uses. The families of third-party builds
are given by their `mmake_name`s, the icon targets by their keys, and `endpointNames` is what
`concrete_endpoint_names` collects over all declarations of the graph. -/
structure DependencyGraph where
  metaTargets : HashMap String (HashSet String)
  explicitMetaEdges : HashSet (String × String)
  makeMetaProviders : HashSet String
  targets : HashMap String TargetDefinition
  iconTargets : HashSet String
  externalCmake : List String
  configureBuilds : List String
  grubBuilds : List String
  copyDirectories : List CopyDirectoryDecl
  liftedCopyAliases : HashMap String String
  endpointNames : HashSet String
  deriving DecidableEq

/-- `ArosError::Configuration`. -/
structure ConfigurationError where
  file : String
  message : String
  deriving DecidableEq, Repr

/-- The elements of a `BTreeSet` collected from a list. -/
def btreeSet (names : List String) : List String := names.dedup.insertionSort (· ≤ ·)

@[simp] theorem mem_btreeSet {names : List String} {a : String} : a ∈ btreeSet names ↔ a ∈ names := by
  rw [btreeSet, List.mem_insertionSort, List.mem_dedup]

namespace DependencyGraph

variable (g : DependencyGraph)

/-- The dependencies listed for a name; none if it has no entry. -/
def deps (node : String) : List String := (g.metaTargets.get node).elim [] HashSet.elems

/-! ### Components -/

/-- `nodes`: the names that have an entry. -/
def nodes : HashSet String := ⟨g.metaTargets.keys, g.metaTargets.nodup⟩

/-- `names`: the same, sorted. -/
def names : List String := g.nodes.elems.insertionSort (· ≤ ·)

/-- The dependencies a visit follows, in order. -/
def next (node : String) : List String :=
  ((g.deps node).filter fun dep => dep ∈ g.nodes).insertionSort (· ≤ ·)

/-- More than the depth of any search. -/
def fuel : ℕ := g.names.length + 1

/-- `visit`: the search that pushes a node after its dependencies. -/
def visit : Graph.Walk String → String → Option (Graph.Walk String) :=
  Graph.walk .onLeave g.next g.fuel

/-- `reverse`: for every name with an entry, the names that depend on it. -/
def reverse : HashMap String (List String) :=
  g.metaTargets.entries.foldl (fun reverse entry =>
    (entry.2.elems.filter fun dep => dep ∈ g.nodes).foldl (fun reverse dep =>
      reverse.insert dep ((reverse.get dep).getD [] ++ [entry.1])) reverse) HashMap.new

/-- What `reverse` holds for a name once it is sorted and deduplicated. -/
def incoming (node : String) : List String :=
  (((g.reverse.get node).getD []).insertionSort (· ≤ ·)).dedup

/-- A component is cyclic if it has several members or its only member depends on itself. -/
def cyclic (component : List String) : Bool :=
  1 < component.length || component.head?.any fun name => name ∈ g.deps name

/-- The cyclic components, each sorted, in order. `none` is running out of fuel. -/
def components : Option (List (List String)) := do
  let s ← g.names.foldlM g.visit ⟨[], []⟩
  let components ← Graph.sweep g.incoming g.fuel s.pushed.reverse []
  pure (((components.map fun component => component.insertionSort (· ≤ ·)).filter
    g.cyclic).insertionSort (· ≤ ·))

/-- `occupied`: every spelling a private action must not take. -/
def occupied : HashSet String :=
  ((((((g.endpointNames.extend g.metaTargets.keys).extend
    (g.metaTargets.values.flatMap HashSet.elems)).extend
    (g.explicitMetaEdges.elems.flatMap fun edge => [edge.1, edge.2])).extend
    g.makeMetaProviders.elems).extend
    (g.targets.values.flatMap TargetDefinition.dependencies)).extend
    (g.copyDirectories.flatMap CopyDirectoryDecl.dependencies))

end DependencyGraph

/-! ### One component -/

/-- An entry of `lifted`: the index of a declaration, its owner and its private action. -/
structure Lifted where
  index : ℕ
  owner : String
  action : String
  deriving DecidableEq, Repr

/-- The error for a prerequisite inside the component. -/
def insideCycle (d : CopyDirectoryDecl) (dependency : String) : ConfigurationError :=
  ⟨d.file, d.file ++ ":" ++ toString d.line ++ ": recursive copy " ++ d.name ++
    " has an action prerequisite " ++ dependency ++
    " inside its MetaMake cycle; cannot preserve ordering by alias normalization"⟩

/-- The error for a private action whose name is taken. -/
def occupiedEndpoint (d : CopyDirectoryDecl) (action : String) : ConfigurationError :=
  ⟨d.file, d.file ++ ":" ++ toString d.line ++ ": recursive copy " ++ d.name ++
    " cannot use occupied internal endpoint " ++ action⟩

section
variable (action : String → String)

/-- The loop over the declarations from `index` on: which of them the component lifts, and what is
occupied afterwards. -/
def lift (members : List String) : ℕ → List CopyDirectoryDecl → HashSet String →
    Except ConfigurationError (List Lifted × HashSet String)
  | _, [], occupied => .ok ([], occupied)
  | index, d :: rest, occupied =>
    if d.name ∉ members then lift members (index + 1) rest occupied
    else
      match d.dependencies.find? fun dependency => dependency ∈ members with
      | some dependency => .error (insideCycle d dependency)
      | none =>
        if action d.name ∈ occupied then .error (occupiedEndpoint d (action d.name))
        else do
          let (lifted, occupied) ←
            lift members (index + 1) rest (occupied.insert (action d.name))
          pure (⟨index, d.name, action d.name⟩ :: lifted, occupied)

/-- `external`: the dependencies of the members that are not members. -/
def external (g : DependencyGraph) (component : List String) : List String :=
  btreeSet (component.flatMap fun name => (g.deps name).filter fun dep => dep ∉ component)

/-- The private entry of one lifted declaration. -/
def preserve (external : List String) (g : DependencyGraph) (l : Lifted) : DependencyGraph :=
  { g with
    copyDirectories := g.copyDirectories.modify l.index fun d => { d with name := l.action }
    liftedCopyAliases := g.liftedCopyAliases.insert l.owner l.action
    metaTargets := g.metaTargets.insert l.action (HashSet.collect external) }

/-- The new dependencies of one member. -/
def rewire (component external : List String) (g : DependencyGraph) (name : String) :
    DependencyGraph :=
  { g with
    metaTargets := g.metaTargets.modify name fun deps =>
      (deps.retain fun dep => dep ∉ component).extend external }

/-- Whether a member is more than a phony target. -/
def builds (g : DependencyGraph) (name : String) : Bool :=
  name ∈ g.targets.keys || name ∈ g.iconTargets || name ∈ g.externalCmake ||
    name ∈ g.configureBuilds || name ∈ g.grubBuilds

/-- The report on a flattened component. -/
def flattenedReport (kind : String) (component external : List String) : String :=
  "flattened " ++ kind ++ " cycle [" ++ String.intercalate " -> " component ++
    "]; shared external dependencies [" ++ String.intercalate ", " external ++ "]"

/-- The report on a lifted copy. -/
def preservedReport (l : Lifted) : String :=
  "preserved recursive copy action " ++ l.owner ++ " as " ++ l.action ++
    "; public cycle aliases retain its prerequisites"

/-- The variables of the loop over the components. -/
structure Flattening where
  graph : DependencyGraph
  occupied : HashSet String
  reports : List String
  deriving DecidableEq

/-- The body of the loop over the components. -/
def flattenComponent (s : Flattening) (component : List String) :
    Except ConfigurationError Flattening := do
  let (lifted, occupied) ← lift action component 0 s.graph.copyDirectories s.occupied
  let shared := external s.graph component
  let g := lifted.foldl (preserve shared) s.graph
  let all := btreeSet (shared ++ lifted.map Lifted.action)
  let g := component.foldl (rewire component all) g
  let kind := if !lifted.isEmpty || component.any (builds g) then "build/meta" else "meta"
  pure ⟨g, occupied,
    s.reports ++ flattenedReport kind component all :: lifted.map preservedReport⟩

/-- The loop over the components. An error leaves the components before it flattened. -/
def flattenComponents : List (List String) → Flattening →
    DependencyGraph × Except ConfigurationError (List String)
  | [], s => (s.graph, .ok s.reports)
  | component :: rest, s =>
    match flattenComponent action s component with
    | .error e => (s.graph, .error e)
    | .ok s => flattenComponents rest s

/-- **`flatten_meta_cycles`**: the graph it leaves behind, and its result. `none` is running out
of fuel. -/
def flattenMetaCycles (g : DependencyGraph) :
    Option (DependencyGraph × Except ConfigurationError (List String)) := do
  let components ← g.components
  pure (flattenComponents action components ⟨g, g.occupied, []⟩)

end

end Transpiler

end ArosTools
