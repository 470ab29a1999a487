import ArosTools.Program.Hash
import ArosTools.Program.Text
import Mathlib.Data.Char
import Mathlib.Data.List.Lex
import Mathlib.Data.List.Sort
import Mathlib.Data.Prod.Lex
import Mathlib.Algebra.GroupWithZero.Nat

/-!
# Implicit edges that close a cycle

The generator leaves out implicit meta edges that close a dependency cycle with the edges that the
recipes declare. It computes the strongly connected components of the meta graph, and in each of
them puts the implicit edges back one by one, in the order of their names, unless an edge closes a
cycle with those already there.

* `stronglyConnectedComponents` : the components, by an iterative depth-first search.
* `reaches` : a search in the edges that are kept.
* `implicitCycleEdges` : the edges to leave out.

Arrays are functions of their index; `none` stands for the number that marks an entry as not set.
-/

namespace ArosTools

namespace Generator

open Str

/-! ### Strongly connected components -/

/-- The variables of `strongly_connected_components`. Both stacks have their top first. -/
structure Scc where
  order : ℕ → Option ℕ := fun _ => none
  low : ℕ → ℕ := fun _ => 0
  onStack : ℕ → Bool := fun _ => false
  component : ℕ → Option ℕ := fun _ => none
  stack : List ℕ := []
  nextOrder : ℕ := 0
  nextComponent : ℕ := 0
  work : List (ℕ × ℕ) := []

namespace Scc

/-- A node that the search comes to for the first time. -/
def visit (s : Scc) (node : ℕ) : Scc :=
  { s with
    order := Function.update s.order node (some s.nextOrder)
    low := Function.update s.low node s.nextOrder
    nextOrder := s.nextOrder + 1
    stack := node :: s.stack
    onStack := Function.update s.onStack node true }

/-- The loop that pops the members of a component, down to its root. -/
def popMembers (label root : ℕ) :
    List ℕ → (ℕ → Bool) → (ℕ → Option ℕ) → List ℕ × (ℕ → Bool) × (ℕ → Option ℕ)
  | [], onStack, component => ([], onStack, component)
  | member :: rest, onStack, component =>
    if member = root then
      (rest, Function.update onStack member false, Function.update component member (some label))
    else
      popMembers label root rest (Function.update onStack member false)
        (Function.update component member (some label))

/-- A component whose root is left. -/
def close (s : Scc) (root : ℕ) : Scc :=
  let (stack, onStack, component) :=
    popMembers s.nextComponent root s.stack s.onStack s.component
  { s with
    stack := stack
    onStack := onStack
    component := component
    nextComponent := s.nextComponent + 1 }

/-- The number of a node, in the order in which the search came to them. -/
def ord (s : Scc) (node : ℕ) : ℕ := (s.order node).getD 0

/-- An edge of a node that is being searched. -/
def follow (s : Scc) (node next : ℕ) : Scc :=
  if s.order next = none then { s with work := (next, 0) :: s.work }
  else if s.onStack next then
    { s with low := Function.update s.low node (min (s.low node) (s.ord next)) }
  else s

/-- A node all of whose edges have been followed. -/
def leave (s : Scc) (node : ℕ) : Scc :=
  let s := if s.low node = s.ord node then s.close node else s
  match s.work with
  | (parent, _) :: _ =>
    { s with low := Function.update s.low parent (min (s.low parent) (s.low node)) }
  | [] => s

/-- The rest of one round, at edge number `child` of a node that has been visited. -/
def explore (edges : ℕ → List ℕ) (s : Scc) (node child : ℕ) : Scc :=
  match (edges node)[child]? with
  | some next => { s with work := (node, child + 1) :: s.work }.follow node next
  | none => s.leave node

/-- One round of the inner loop. -/
def step (edges : ℕ → List ℕ) (s : Scc) : Scc :=
  match s.work with
  | [] => s
  | (node, child) :: rest =>
    let s := { s with work := rest }
    (if child = 0 then s.visit node else s).explore edges node child

/-- The inner loop, for at most `fuel` rounds. -/
def run (edges : ℕ → List ℕ) : ℕ → Scc → Scc
  | 0, s => s
  | fuel + 1, s => if s.work = [] then s else run edges fuel (s.step edges)

/-- One round of the outer loop. -/
def searchFrom (edges : ℕ → List ℕ) (fuel : ℕ) (s : Scc) (root : ℕ) : Scc :=
  if s.order root = none then run edges fuel { s with work := [(root, 0)] } else s

end Scc

/-- Enough rounds for every edge and every node. -/
def searchFuel (edges : ℕ → List ℕ) (count : ℕ) : ℕ :=
  ((List.range count).map fun node => 2 * (edges node).length + 3).sum + 1

/-- `strongly_connected_components`. -/
def stronglyConnectedComponents (edges : ℕ → List ℕ) (count : ℕ) : ℕ → Option ℕ :=
  ((List.range count).foldl (Scc.searchFrom edges (searchFuel edges count)) {}).component

/-! ### The search in the kept edges -/

/-- The loop of `reaches`; every node is pushed once, so as many rounds as there are nodes are
enough. -/
def reachesLoop (edges : ℕ → List ℕ) (goal : ℕ) : ℕ → List ℕ → List ℕ → Bool
  | 0, _, _ => false
  | _ + 1, _, [] => false
  | fuel + 1, seen, node :: stack =>
    if node = goal then true
    else
      let (seen, stack) := (edges node).foldl (fun (found : List ℕ × List ℕ) next =>
        if next ∈ found.1 then found else (next :: found.1, next :: found.2)) (seen, stack)
      reachesLoop edges goal fuel seen stack

/-- `reaches`, in a graph with `count` nodes. -/
def reaches (count : ℕ) (edges : ℕ → List ℕ) (start goal : ℕ) : Bool :=
  reachesLoop edges goal (count + 1) [start] [start]

/-! ### Edges to leave out -/

/-- A meta rule: its name, and its dependencies in the order in which the hash set yields them. -/
abbrev MetaRule := Text × HashSet Text

/-- The names of the rules in the order of their numbers: a name counts when it first occurs. -/
def indexNames (metaRules : List MetaRule) : List Text :=
  metaRules.foldl (fun names rule => if rule.1 ∈ names then names else names ++ [rule.1]) []

/-- The name of a node. -/
def nodeName (names : List Text) (node : ℕ) : Text := names.getD node []

/-- The numbers of the dependencies of a rule that are valid and are rules themselves. -/
def ruleEdges (allTargets allMetas : HashSet Text) (names : List Text) (rule : MetaRule) : List ℕ :=
  rule.2.elems.filterMap fun dep =>
    if dep ≠ rule.1 ∧ (dep ∈ allTargets ∨ dep ∈ allMetas) then names.idxOf? dep else none

/-- The edges of a node. -/
def nodeEdges (allTargets allMetas : HashSet Text) (metaRules : List MetaRule) (names : List Text)
    (node : ℕ) : List ℕ :=
  metaRules.flatMap fun rule =>
    if names.idxOf? rule.1 = some node then ruleEdges allTargets allMetas names rule else []

/-- The edges of one component that are tried one after the other: the kept edges and the dropped
ones. -/
def tryEdges (count : ℕ) (kept : ℕ → List ℕ) (implicit : List (ℕ × ℕ)) :
    (ℕ → List ℕ) × List (ℕ × ℕ) :=
  implicit.foldl (fun (tried : (ℕ → List ℕ) × List (ℕ × ℕ)) edge =>
    if reaches count tried.1 edge.2 edge.1 then (tried.1, tried.2 ++ [edge])
    else (Function.update tried.1 edge.1 (tried.1 edge.1 ++ [edge.2]), tried.2)) (kept, [])

/-- Both names of an edge, which compare one after the other. -/
def edgeNames (names : List Text) (edge : ℕ × ℕ) : Text ×ₗ Text :=
  toLex (nodeName names edge.1, nodeName names edge.2)

/-- The edges that one component leaves out. -/
def componentDropped (explicit : HashSet (Text × Text)) (names : List Text) (edges : ℕ → List ℕ)
    (nodes : List ℕ) : List (ℕ × ℕ) :=
  let declared (source target : ℕ) : Bool :=
    decide ((nodeName names source, nodeName names target) ∈ explicit)
  let kept (source : ℕ) : List ℕ :=
    if source ∈ nodes then (edges source).filter fun target => target ∈ nodes ∧ declared source target else []
  let implicit := nodes.flatMap fun source =>
    ((edges source).filter fun target => target ∈ nodes ∧ ¬ declared source target).map (source, ·)
  (tryEdges names.length kept
    (implicit.insertionSort fun a b => edgeNames names a ≤ edgeNames names b)).2

/-- `Vec::dedup`. -/
def dedupEdges : List (Text ×ₗ Text) → List (Text ×ₗ Text)
  | [] => []
  | [edge] => [edge]
  | edge :: next :: rest =>
    if edge = next then dedupEdges (next :: rest) else edge :: dedupEdges (next :: rest)

/-- `implicit_cycle_edges`. The hash map of the components yields its labels in the order that
`valuesOrder` gives them. -/
def implicitCycleEdges (valuesOrder : List ℕ → List ℕ) (allTargets allMetas : HashSet Text)
    (metaRules : List MetaRule) (explicit : HashSet (Text × Text)) : List (Text ×ₗ Text) :=
  let names := indexNames metaRules
  let edges := nodeEdges allTargets allMetas metaRules names
  let component := stronglyConnectedComponents edges names.length
  let labels := ((List.range names.length).filterMap component).dedup
  let members (label : ℕ) : List ℕ :=
    (List.range names.length).filter fun node => component node = some label
  let dropped := (valuesOrder labels).flatMap fun label =>
    if 1 < (members label).length then
      (componentDropped explicit names edges (members label)).map (edgeNames names)
    else []
  dedupEdges (dropped.insertionSort (· ≤ ·))

end Generator

end ArosTools
