import ArosTools.Graph.CycleSearch
import ArosTools.Transpiler.GraphMeta

/-!
# Cycles among targets

`validate_cycles` searches the targets for a dependency cycle. It fails exactly if there is one
(`validate_cycles_exact`), whatever the order in which the map of targets and the dependencies of a
target are listed.
-/

namespace ArosTools

namespace Transpiler

/-- `ArosError::DependencyCycle`. -/
structure DependencyCycle where
  target : String
  deriving DecidableEq, Repr

namespace DependencyGraph

variable (g : DependencyGraph)

/-- The dependencies of a target, if it is one. -/
def targetDependencies (name : String) : Option (List String) :=
  (g.targets.get name).map TargetDefinition.dependencies

/-- `validate_cycles`; its `check_cycle` is `Graph.checkCycle`, and nothing stands for fuel that does
not last. -/
def validateCycles : Option (Except DependencyCycle Unit) :=
  match Graph.findCycle g.targetDependencies (g.targets.keys.length + 1) g.targets.keys with
  | none => none
  | some (.error (node, dep)) => some (.error ⟨node ++ " -> " ++ dep⟩)
  | some (.ok _) => some (.ok ())

/-- One declared target depends on another. -/
def DependsOn (a b : String) : Prop :=
  (∃ target, g.targets.get a = some target ∧ b ∈ target.dependencies) ∧ b ∈ g.targets.keys

theorem isSome_targetDependencies {name : String} :
    (g.targetDependencies name).isSome ↔ name ∈ g.targets.keys := by
  rw [targetDependencies, Option.isSome_map, Option.isSome_iff_exists, HashMap.mem_keys]

theorem declared_iff {a b : String} :
    Graph.Declared g.targetDependencies a b ↔ g.DependsOn a b := by
  unfold Graph.Declared DependsOn
  rw [isSome_targetDependencies]
  refine and_congr_left fun _ => ?_
  constructor
  · rintro ⟨deps, hdeps, hb⟩
    obtain ⟨target, htarget, rfl⟩ := Option.map_eq_some_iff.mp hdeps
    exact ⟨target, htarget, hb⟩
  · rintro ⟨target, htarget, hb⟩
    exact ⟨target.dependencies, by rw [targetDependencies, htarget, Option.map_some], hb⟩

/-- **The detection of cycles is exact**: it returns, and an error exactly if the dependencies
among declared targets have a cycle. -/
theorem validate_cycles_exact : ∃ result, g.validateCycles = some result ∧
    ((∃ e, result = .error e) ↔ ∃ name, Relation.TransGen g.DependsOn name name) := by
  obtain ⟨result, hresult, hiff⟩ := Graph.findCycle_exact
    (fun _ => g.isSome_targetDependencies) (Nat.lt_succ_self _)
  have hrelation : Graph.Declared g.targetDependencies = g.DependsOn := by
    funext a b
    exact propext g.declared_iff
  rw [hrelation] at hiff
  rw [validateCycles, hresult]
  cases result with
  | error e => exact ⟨_, rfl, fun _ => hiff.mp ⟨e, rfl⟩, fun _ => ⟨_, rfl⟩⟩
  | ok s =>
    refine ⟨.ok (), rfl, ?_, fun h => ?_⟩
    · rintro ⟨e, he⟩
      cases he
    · obtain ⟨e, he⟩ := hiff.mpr h
      cases he

end DependencyGraph

end Transpiler

end ArosTools
