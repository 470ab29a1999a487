import ArosTools.Transpiler.FlattenRun

/-!
# The iteration order of the hash maps is not observable

`DependencyGraph.Same` relates two graphs whose hash maps and hash sets hold the same elements and
iterate over them in any order. `flattenMetaCycles_same`: flattening gives both the same result and
the same reports, and related graphs.
-/

namespace ArosTools

namespace Transpiler

open ArosTools.Graph

/-- The same graph, whatever the iteration order of its hash maps and sets. -/
structure DependencyGraph.Same (g h : DependencyGraph) : Prop where
  metaTargets : HashMap.Same HashSet.Same g.metaTargets h.metaTargets
  explicitMetaEdges : HashSet.Same g.explicitMetaEdges h.explicitMetaEdges
  makeMetaProviders : HashSet.Same g.makeMetaProviders h.makeMetaProviders
  targets : HashMap.Same Eq g.targets h.targets
  iconTargets : HashSet.Same g.iconTargets h.iconTargets
  externalCmake : g.externalCmake = h.externalCmake
  configureBuilds : g.configureBuilds = h.configureBuilds
  grubBuilds : g.grubBuilds = h.grubBuilds
  copyDirectories : g.copyDirectories = h.copyDirectories
  liftedCopyAliases : HashMap.Same Eq g.liftedCopyAliases h.liftedCopyAliases
  endpointNames : HashSet.Same g.endpointNames h.endpointNames

namespace DependencyGraph

variable {g h : DependencyGraph}

theorem nodup_deps (g : DependencyGraph) (a : String) : (g.deps a).Nodup := by
  rw [deps]
  cases g.metaTargets.get a with
  | none => exact List.nodup_nil
  | some s => exact s.nodup

namespace Same

theorem mem_deps (hgh : g.Same h) (a b : String) : b ∈ g.deps a ↔ b ∈ h.deps a := by
  have hrel := hgh.metaTargets a
  rw [deps, deps]
  generalize g.metaTargets.get a = v at hrel ⊢
  generalize h.metaTargets.get a = w at hrel ⊢
  cases hrel with
  | none => exact Iff.rfl
  | some hvw => exact hvw b

theorem mem_nodes (hgh : g.Same h) (a : String) : a ∈ g.nodes ↔ a ∈ h.nodes :=
  hgh.metaTargets.mem_keys

theorem names_eq (hgh : g.Same h) : g.names = h.names :=
  HashSet.Same.sorted_eq hgh.mem_nodes

theorem next_eq (hgh : g.Same h) : g.next = h.next := by
  funext a
  refine insertionSort_eq_of_mem_iff ((g.nodup_deps a).filter _) ((h.nodup_deps a).filter _) ?_
  intro b
  simp only [List.mem_filter, decide_eq_true_eq, hgh.mem_deps, hgh.mem_nodes]

theorem incoming_eq (hgh : g.Same h) : g.incoming = h.incoming := by
  funext a
  -- Both are the sorted list of the names that depend on `a`, without repetitions.
  have hperm : (g.incoming a).Perm (h.incoming a) := by
    refine (List.perm_ext_iff_of_nodup (List.nodup_dedup _) (List.nodup_dedup _)).mpr fun b => ?_
    exact mem_incoming.trans (hgh.next_eq ▸ mem_incoming.symm)
  refine hperm.eq_of_pairwise (fun _ _ _ _ => le_antisymm) ?_ ?_
  · exact (List.pairwise_insertionSort _ _).sublist (List.dedup_sublist _)
  · exact (List.pairwise_insertionSort _ _).sublist (List.dedup_sublist _)

theorem cyclic_eq (hgh : g.Same h) : g.cyclic = h.cyclic := by
  funext component
  rw [cyclic, cyclic]
  cases component.head? with
  | none => rfl
  | some name => simp only [Option.any_some, hgh.mem_deps]

theorem components_eq (hgh : g.Same h) : g.components = h.components := by
  rw [components, components, visit, visit, fuel, fuel, hgh.names_eq, hgh.next_eq, hgh.incoming_eq,
    hgh.cyclic_eq]

theorem occupied_same (hgh : g.Same h) : HashSet.Same g.occupied h.occupied := by
  have hvalues : ∀ a, a ∈ g.metaTargets.values.flatMap HashSet.elems ↔
      a ∈ h.metaTargets.values.flatMap HashSet.elems :=
    hgh.metaTargets.mem_flatMap HashSet.elems fun _ _ hvw => hvw
  have htargets : ∀ a, a ∈ g.targets.values.flatMap TargetDefinition.dependencies ↔
      a ∈ h.targets.values.flatMap TargetDefinition.dependencies :=
    hgh.targets.mem_flatMap TargetDefinition.dependencies fun _ _ hvw _ => hvw ▸ Iff.rfl
  rw [occupied, occupied, hgh.copyDirectories]
  refine (((((hgh.endpointNames.extend ?_).extend hvalues).extend ?_).extend
    hgh.makeMetaProviders).extend htargets).extend fun _ => Iff.rfl
  · exact fun a => hgh.metaTargets.mem_keys
  · intro a
    simp only [List.mem_flatMap]
    exact exists_congr fun e => and_congr_left' (hgh.explicitMetaEdges e)

end Same

end DependencyGraph

/-! ### The run -/

section
variable {action : String → String} {g h : DependencyGraph}

/-- Two results agree: the same error, or values related by `r`. -/
inductive Agree {α : Type} (r : α → α → Prop) :
    Except ConfigurationError α → Except ConfigurationError α → Prop
  | error (e : ConfigurationError) : Agree r (.error e) (.error e)
  | ok {x y : α} (hxy : r x y) : Agree r (.ok x) (.ok y)

theorem Agree.bind {α β : Type} {r : α → α → Prop} {q : β → β → Prop}
    {x y : Except ConfigurationError α} {f k : α → Except ConfigurationError β}
    (hxy : Agree r x y) (hfk : ∀ a b, r a b → Agree q (f a) (k b)) :
    Agree q (x >>= f) (y >>= k) := by
  cases hxy with
  | error e => exact Agree.error e
  | ok hab => exact hfk _ _ hab

theorem lift_agree {members : List String} {ds : List CopyDirectoryDecl} {index : ℕ}
    {occupied occupied' : HashSet String} (hocc : HashSet.Same occupied occupied') :
    Agree (fun x y => x.1 = y.1 ∧ HashSet.Same x.2 y.2)
      (lift action members index ds occupied) (lift action members index ds occupied') := by
  induction ds generalizing index occupied occupied' with
  | nil => exact Agree.ok ⟨rfl, hocc⟩
  | cons d ds ih =>
    rw [lift, lift]
    by_cases hd : d.name ∉ members
    · rw [if_pos hd, if_pos hd]
      exact ih hocc
    · rw [if_neg hd, if_neg hd]
      cases d.dependencies.find? fun dependency => dependency ∈ members with
      | some dependency => exact Agree.error _
      | none =>
        simp only [hocc (action d.name)]
        by_cases hact : action d.name ∈ occupied'
        · rw [if_pos hact, if_pos hact]
          exact Agree.error _
        · rw [if_neg hact, if_neg hact]
          have hins : HashSet.Same (occupied.insert (action d.name))
              (occupied'.insert (action d.name)) := fun a => by
            rw [HashSet.mem_insert, HashSet.mem_insert, hocc a]
          refine (ih hins).bind fun x y hxy => Agree.ok ⟨?_, hxy.2⟩
          rw [hxy.1]

namespace DependencyGraph.Same

theorem external_eq (hgh : g.Same h) (component : List String) :
    external g component = external h component := by
  refine insertionSort_eq_of_mem_iff (List.nodup_dedup _) (List.nodup_dedup _) fun a => ?_
  simp only [List.mem_dedup, List.mem_flatMap, List.mem_filter, hgh.mem_deps]

theorem preserve (hgh : g.Same h) (shared : List String) (l : Lifted) :
    (preserve shared g l).Same (preserve shared h l) :=
  { hgh with
    metaTargets := hgh.metaTargets.insert (HashSet.Same.refl _) l.action
    copyDirectories := by rw [Transpiler.preserve, Transpiler.preserve, hgh.copyDirectories]
    liftedCopyAliases := hgh.liftedCopyAliases.insert rfl l.owner }

theorem rewire (hgh : g.Same h) (component all : List String) (name : String) :
    (rewire component all g name).Same (rewire component all h name) :=
  { hgh with
    metaTargets := hgh.metaTargets.modify
      (fun _ _ hvw => (hvw.retain _).extend fun _ => Iff.rfl) name }

theorem foldl {α : Type} {f : DependencyGraph → α → DependencyGraph}
    (hf : ∀ {g h : DependencyGraph}, g.Same h → ∀ a, (f g a).Same (f h a)) :
    ∀ (xs : List α) {g h : DependencyGraph}, g.Same h → (xs.foldl f g).Same (xs.foldl f h)
  | [], _, _, hgh => hgh
  | x :: xs, _, _, hgh => by
    rw [List.foldl_cons, List.foldl_cons]
    exact foldl hf xs (hf hgh x)

theorem builds_eq (hgh : g.Same h) : builds g = builds h := by
  funext name
  have htargets := hgh.targets.mem_keys (k := name)
  have hicons := hgh.iconTargets name
  rw [builds, builds, hgh.externalCmake, hgh.configureBuilds, hgh.grubBuilds]
  simp only [htargets, hicons]

end DependencyGraph.Same

/-- The loop's variables, whatever the iteration order. -/
structure Flattening.Same (s t : Flattening) : Prop where
  graph : s.graph.Same t.graph
  occupied : HashSet.Same s.occupied t.occupied
  reports : s.reports = t.reports

theorem flattenComponent_agree {s t : Flattening} (hst : s.Same t) (component : List String) :
    Agree Flattening.Same (flattenComponent action s component)
      (flattenComponent action t component) := by
  rw [flattenComponent, flattenComponent, hst.graph.copyDirectories]
  refine (lift_agree hst.occupied).bind ?_
  rintro ⟨lifted, occupied⟩ ⟨lifted', occupied'⟩ ⟨hlifted, hocc⟩
  obtain rfl : lifted = lifted' := hlifted
  simp only [hst.graph.external_eq component, hst.reports]
  have hgraph := DependencyGraph.Same.foldl
    (fun hgh => hgh.rewire component
      (btreeSet (external t.graph component ++ lifted.map Lifted.action))) component
    (DependencyGraph.Same.foldl (fun hgh => hgh.preserve (external t.graph component)) lifted
      hst.graph)
  refine Agree.ok ⟨hgraph, hocc, ?_⟩
  simp only [hgraph.builds_eq]

theorem flattenComponents_same : ∀ {components : List (List String)} {s t : Flattening},
    s.Same t →
      (flattenComponents action components s).2 = (flattenComponents action components t).2 ∧
        (flattenComponents action components s).1.Same
          (flattenComponents action components t).1
  | [], s, t, hst => ⟨congrArg Except.ok hst.reports, hst.graph⟩
  | component :: rest, s, t, hst => by
    have hagree : Agree Flattening.Same (flattenComponent action s component)
        (flattenComponent action t component) := flattenComponent_agree hst component
    rw [flattenComponents, flattenComponents]
    generalize flattenComponent action s component = x at hagree ⊢
    generalize flattenComponent action t component = y at hagree ⊢
    cases hagree with
    | error e => exact ⟨rfl, hst.graph⟩
    | ok hst' => exact flattenComponents_same hst'

/-- **Flattening does not depend on the iteration order of the hash maps.** -/
theorem flattenMetaCycles_same (hgh : g.Same h) :
    ∃ x y, flattenMetaCycles action g = some x ∧ flattenMetaCycles action h = some y ∧
      x.2 = y.2 ∧ x.1.Same y.1 := by
  obtain ⟨components, hc⟩ := Option.isSome_iff_exists.mp g.components_isSome
  have hstart : Flattening.Same ⟨g, g.occupied, []⟩ ⟨h, h.occupied, []⟩ :=
    ⟨hgh, hgh.occupied_same, rfl⟩
  refine ⟨flattenComponents action components ⟨g, g.occupied, []⟩,
    flattenComponents action components ⟨h, h.occupied, []⟩, ?_, ?_, flattenComponents_same hstart⟩
  · rw [flattenMetaCycles, hc]
    rfl
  · rw [flattenMetaCycles, ← hgh.components_eq, hc]
    rfl

end

end Transpiler

end ArosTools
