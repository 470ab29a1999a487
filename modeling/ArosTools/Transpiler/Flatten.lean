import ArosTools.Transpiler.FlattenOrder

/-!
# Flattening is exact

The main results on `flatten_meta_cycles`:

* `flatten_exact`: it returns; a graph it accepts becomes acyclic, members of a cyclic component
  get the component's outside dependencies and lifted copies, everything else keeps its
  dependencies, and what a name reaches is kept up to components. The iteration order of the hash
  maps is not observable;
* `flatten_idempotent`: a flattened graph is left as it is by another flattening;
* `lifted_actions_acyclic_iff`: when the lifted copies, with their own prerequisites, are free of
  cycles. The check on the prerequisites is too weak for this to hold always.

Both are read off `Flattened`. The proofs send every private action back to the name that owns it
(`owner`), which turns paths of the new graph into paths of the old one.
-/

namespace ArosTools

namespace Transpiler

open Relation ArosTools.Graph

section
variable {action : String → String} {g g' : DependencyGraph} {a b : String}

/-- The names of the `meta_targets` relation: those with an entry and those depended on. -/
def DependencyGraph.Name (g : DependencyGraph) (a : String) : Prop :=
  a ∈ g.metaTargets.keys ∨ ∃ c, g.Edge c a

theorem DependencyGraph.Name.occupied (ha : g.Name a) : a ∈ g.occupied :=
  subset_occupied (ha.imp_right Or.inl)

theorem DependencyGraph.Cyclic.name (ha : g.Cyclic a) : g.Name a := Or.inl ha.mem_nodes

theorem DependencyGraph.Edge.name_left (h : g.Edge a b) : g.Name a := Or.inl h.mem_nodes

theorem DependencyGraph.Edge.name_right (h : g.Edge a b) : g.Name b := Or.inr ⟨a, h⟩

/-! ### Collapsing the private actions -/

variable (action g) in
/-- A private action of a lifted copy. -/
def IsAction (a : String) : Prop := ∃ d, g.Lifts d ∧ a = action d.name

open Classical in
variable (action g) in
/-- The owner of a private action; every other name stands for itself. -/
noncomputable def owner (a : String) : String :=
  if h : IsAction action g a then h.choose.name else a

section
variable (h : Flattened action g g')
include h

theorem Flattened.owner_action {d : CopyDirectoryDecl} (hd : g.Lifts d) :
    owner action g (action d.name) = d.name := by
  have hex : IsAction action g (action d.name) := ⟨d, hd, rfl⟩
  rw [owner, dif_pos hex]
  exact h.inj _ _ hex.choose_spec.1 hd hex.choose_spec.2.symm

theorem Flattened.not_isAction (ha : a ∈ g.occupied) : ¬ IsAction action g a := by
  rintro ⟨d, hd, rfl⟩
  exact h.fresh d hd ha

theorem Flattened.owner_name (ha : a ∈ g.occupied) : owner action g a = a :=
  dif_neg (h.not_isAction ha)

/-- Every edge of the flattened graph: out of a component, from a component to one of its actions,
out of an action, or an edge of the original graph between two components. -/
theorem Flattened.edge_cases (hab : g'.Edge a b) :
    (∃ m, Mutual g.Edge (owner action g a) m ∧ g.Edge m b ∧ ¬ Mutual g.Edge (owner action g a) b) ∨
      (g.Cyclic a ∧ ∃ d, g.Lifts d ∧ Mutual g.Edge a d.name ∧ b = action d.name) := by
  by_cases hact : IsAction action g a
  · obtain ⟨d, hd, rfl⟩ := hact
    rw [h.owner_action hd]
    exact Or.inl ((h.lifted d hd b).mp hab)
  · have hself : owner action g a = a := dif_neg hact
    rw [hself]
    by_cases hcyc : g.Cyclic a
    · rcases (h.member a hcyc b).mp hab with hout | hlift
      · exact Or.inl hout
      · exact Or.inr ⟨hcyc, hlift⟩
    · have hget := h.other a hcyc fun d hd heq => hact ⟨d, hd, heq⟩
      have hedge : g.Edge a b := by
        rw [DependencyGraph.Edge, DependencyGraph.deps, hget] at hab
        exact hab
      refine Or.inl ⟨a, Mutual.refl a, hedge, fun hmut => hcyc ?_⟩
      exact TransGen.head' hedge hmut.2

theorem Flattened.weak (hab : g'.Edge a b) :
    ReflTransGen g.Edge (owner action g a) (owner action g b) := by
  rcases h.edge_cases hab with ⟨m, hmut, hmb, -⟩ | ⟨hcyc, d, hd, hmut, rfl⟩
  · rw [h.owner_name hmb.name_right.occupied]
    exact hmut.1.tail hmb
  · rw [h.owner_action hd, h.owner_name hcyc.name.occupied]
    exact hmut.1

/-- An edge either leaves its component for good, or ends in a private action. -/
theorem Flattened.strict_or (hab : g'.Edge a b) :
    ¬ ReflTransGen g.Edge (owner action g b) (owner action g a) ∨ IsAction action g b := by
  rcases h.edge_cases hab with ⟨m, hmut, hmb, hout⟩ | ⟨-, d, hd, -, rfl⟩
  · rw [h.owner_name hmb.name_right.occupied]
    exact Or.inl fun hback => hout ⟨hmut.1.tail hmb, hback⟩
  · exact Or.inr ⟨d, hd, rfl⟩

theorem Flattened.strict (ha : IsAction action g a) (hab : g'.Edge a b) :
    ¬ ReflTransGen g.Edge (owner action g b) (owner action g a) := by
  rcases h.edge_cases hab with ⟨m, hmut, hmb, hout⟩ | ⟨hcyc, -⟩
  · rw [h.owner_name hmb.name_right.occupied]
    exact fun hback => hout ⟨hmut.1.tail hmb, hback⟩
  · exact absurd ha (h.not_isAction hcyc.name.occupied)

theorem Flattened.acyclic : Acyclic g'.Edge :=
  acyclic_of_collapse (fun _ _ => h.weak) (fun _ _ => h.strict_or) fun _ _ => h.strict

/-! ### What is reached -/

/-- An edge between two components is kept. -/
theorem Flattened.edge_of_edge (hab : g.Edge a b) (hne : ¬ Mutual g.Edge a b) : g'.Edge a b := by
  by_cases hcyc : g.Cyclic a
  · exact (h.member a hcyc b).mpr (Or.inl ⟨a, Mutual.refl a, hab, hne⟩)
  · have hget := h.other a hcyc fun d hd heq =>
      h.not_isAction hab.name_left.occupied ⟨d, hd, heq⟩
    rw [DependencyGraph.Edge, DependencyGraph.deps, hget]
    exact hab

/-- The members of a component have the same edges afterwards. -/
theorem Flattened.edge_congr (hab : Mutual g.Edge a b) {c : String} (hac : g'.Edge a c) :
    g'.Edge b c := by
  by_cases heq : a = b
  · exact heq ▸ hac
  · have ha : g.Cyclic a := hab.transGen_of_ne heq
    refine (h.member b (hab.transGen ha) c).mpr ?_
    rcases (h.member a ha c).mp hac with ⟨m, hm, hmc, hout⟩ | ⟨d, hd, hmut, rfl⟩
    · exact Or.inl ⟨m, hab.symm.trans hm, hmc, fun hbc => hout (hab.trans hbc)⟩
    · exact Or.inr ⟨d, hd, hab.symm.trans hmut, rfl⟩

theorem Flattened.reaches_component (hab : ReflTransGen g.Edge a b) :
    ∃ b', Mutual g.Edge b b' ∧ ReflTransGen g'.Edge a b' := by
  induction hab using ReflTransGen.head_induction_on with
  | refl => exact ⟨b, Mutual.refl b, ReflTransGen.refl⟩
  | @head x y hxy hyb ih =>
    obtain ⟨b', hbb', hyb'⟩ := ih
    by_cases hxy' : Mutual g.Edge x y
    · -- Inside a component: `x` has the edges of `y`.
      rcases ReflTransGen.cases_head hyb' with rfl | ⟨z, hyz, hzb'⟩
      · exact ⟨x, hbb'.trans hxy'.symm, ReflTransGen.refl⟩
      · exact ⟨b', hbb', ReflTransGen.head (h.edge_congr hxy'.symm hyz) hzb'⟩
    · exact ⟨b', hbb', ReflTransGen.head (h.edge_of_edge hxy hxy') hyb'⟩

theorem Flattened.reaches_iff (ha : g.Name a) (hb : g.Name b) :
    ReflTransGen g.Edge a b ↔ ∃ b', Mutual g.Edge b b' ∧ ReflTransGen g'.Edge a b' := by
  refine ⟨h.reaches_component, ?_⟩
  rintro ⟨b', hbb', hab'⟩
  have hb' : g.Name b' := by
    rcases ReflTransGen.cases_tail hbb'.1 with rfl | ⟨c, -, hcb'⟩
    · exact hb
    · exact hcb'.name_right
  have hpath : ReflTransGen g.Edge (owner action g a) (owner action g b') :=
    hab'.lift' (owner action g) fun _ _ => h.weak
  rw [h.owner_name ha.occupied, h.owner_name hb'.occupied] at hpath
  exact hpath.trans hbb'.2

end

/-- **Flattening is exact.** It returns on every graph. When it succeeds, the new relation is
acyclic; between names of different components it keeps what is reached, up to the members of a
component, which no longer reach each other; members of a cyclic component depend on exactly what
the component depends on outside, and on its lifted copies; other names keep their dependencies.
The result is the same for every iteration order of the hash maps. -/
theorem flatten_exact (action : String → String) (g : DependencyGraph) :
    (∃ result, flattenMetaCycles action g = some result) ∧
    (∀ g' reports, flattenMetaCycles action g = some (g', .ok reports) →
      Acyclic g'.Edge ∧
      (∀ a b, g.Name a → g.Name b → ¬ Mutual g.Edge a b →
        (ReflTransGen g.Edge a b ↔ ∃ b', Mutual g.Edge b b' ∧ ReflTransGen g'.Edge a b')) ∧
      (∀ a, g.Cyclic a → ∀ b, g'.Edge a b ↔
        (∃ m, Mutual g.Edge a m ∧ g.Edge m b ∧ ¬ Mutual g.Edge a b) ∨
          ∃ d, g.Lifts d ∧ Mutual g.Edge a d.name ∧ b = action d.name) ∧
      (∀ a, g.Name a → ¬ g.Cyclic a → g'.metaTargets.get a = g.metaTargets.get a)) ∧
    (∀ h, g.Same h → ∃ x y, flattenMetaCycles action g = some x ∧
      flattenMetaCycles action h = some y ∧ x.2 = y.2 ∧ x.1.Same y.1) := by
  refine ⟨?_, fun g' reports hok => ?_, fun h hgh => flattenMetaCycles_same hgh⟩
  · obtain ⟨components, hc⟩ := Option.isSome_iff_exists.mp g.components_isSome
    exact ⟨_, by rw [flattenMetaCycles, hc]; rfl⟩
  · have hf := flattened_of_ok hok
    refine ⟨hf.acyclic, fun a b ha hb _ => hf.reaches_iff ha hb, hf.member, fun a ha hcyc => ?_⟩
    exact hf.other a hcyc fun d hd heq => hf.not_isAction ha.occupied ⟨d, hd, heq⟩

/-- A graph with the given entries of `meta_targets` and copies, and nothing else. -/
def graphOf (entries : List (String × List String)) (copies : List CopyDirectoryDecl) :
    DependencyGraph where
  metaTargets := entries.foldl (fun m e => m.insert e.1 (HashSet.collect e.2)) HashMap.new
  explicitMetaEdges := HashSet.new
  makeMetaProviders := HashSet.new
  targets := HashMap.new
  iconTargets := HashSet.new
  externalCmake := []
  configureBuilds := []
  grubBuilds := []
  copyDirectories := copies
  liftedCopyAliases := HashMap.new
  endpointNames := HashSet.collect (copies.map CopyDirectoryDecl.name)

/-- The private action of the owner `public-copy`, with its digest; other owners stand for their
digests. -/
def actionOf (owner : String) : String :=
  "aros-meta-copy-action-" ++
    if owner = "public-copy" then
      "d7183b3b8a34dafda1a9a6858a547db8fd580ff75bb72c127fcb4753fd9a30e8"
    else owner

/-- `x` depends on one member of a cycle. -/
def entryGraph : DependencyGraph := graphOf [("x", ["m"]), ("m", ["b"]), ("b", ["m"])] []

/-- What flattening makes of it: the members have no dependencies left. -/
def entryGraph' : DependencyGraph := graphOf [("x", ["m"]), ("m", []), ("b", [])] []

theorem flatten_entryGraph : flattenMetaCycles actionOf entryGraph = some (entryGraph',
    .ok ["flattened meta cycle [b -> m]; shared external dependencies []"]) := by
  decide

theorem not_reaches_entryGraph' : ¬ ReflTransGen entryGraph'.Edge "x" "b" := by
  have hx : entryGraph'.deps "x" = ["m"] := by decide
  have hm : entryGraph'.deps "m" = [] := by decide
  have hclosed : ∀ y, ReflTransGen entryGraph'.Edge "x" y → y = "x" ∨ y = "m" := by
    intro y hy
    induction hy with
    | refl => exact Or.inl rfl
    | tail _ hyz ih =>
      rw [DependencyGraph.Edge] at hyz
      rcases ih with rfl | rfl
      · rw [hx] at hyz
        exact Or.inr (List.mem_singleton.mp hyz)
      · rw [hm] at hyz
        cases hyz
  intro h
  rcases hclosed "b" h with h | h
  · exact absurd h (by decide)
  · exact absurd h (by decide)

/-- Reaching a particular member of a cycle from outside is not kept. -/
theorem flatten_not_every_member : ∃ g' reports,
    flattenMetaCycles actionOf entryGraph = some (g', .ok reports) ∧
      entryGraph.Name "x" ∧ entryGraph.Name "b" ∧ ¬ Mutual entryGraph.Edge "x" "b" ∧
      ReflTransGen entryGraph.Edge "x" "b" ∧ ¬ ReflTransGen g'.Edge "x" "b" := by
  have hxm : entryGraph.Edge "x" "m" := by rw [DependencyGraph.Edge]; decide
  have hmb : entryGraph.Edge "m" "b" := by rw [DependencyGraph.Edge]; decide
  have hxb : ReflTransGen entryGraph.Edge "x" "b" := (ReflTransGen.single hxm).tail hmb
  refine ⟨_, _, flatten_entryGraph, hxm.name_left, hmb.name_right, ?_, hxb,
    not_reaches_entryGraph'⟩
  rintro ⟨-, hbx⟩
  -- Nothing depends on `x`.
  rcases ReflTransGen.cases_tail hbx with heq | ⟨c, -, hcx⟩
  · exact absurd heq (by decide)
  · have hc : c ∈ entryGraph.metaTargets.keys := hcx.mem_nodes
    have hnone : ∀ c ∈ entryGraph.metaTargets.keys, "x" ∉ entryGraph.deps c := by decide
    exact hnone c hc hcx

theorem flatten_exact_entryGraph : Acyclic entryGraph'.Edge ∧
    ∃ b', Mutual entryGraph.Edge "b" b' ∧ ReflTransGen entryGraph'.Edge "x" b' := by
  have hxm : entryGraph.Edge "x" "m" := by rw [DependencyGraph.Edge]; decide
  have hmb : entryGraph.Edge "m" "b" := by rw [DependencyGraph.Edge]; decide
  have hbm : entryGraph.Edge "b" "m" := by rw [DependencyGraph.Edge]; decide
  have h := (flatten_exact actionOf entryGraph).2.1 _ _ flatten_entryGraph
  by_cases hmut : Mutual entryGraph.Edge "x" "b"
  · exact ⟨h.1, "x", hmut.symm, ReflTransGen.refl⟩
  · exact ⟨h.1, (h.2.1 "x" "b" hxm.name_left hmb.name_right hmut).mp
      ((ReflTransGen.single hxm).tail hmb)⟩

/-! ### Flattening twice -/

theorem DependencyGraph.components_ne_nil {components : List (List String)} (h : g.components = some components) :
    ∀ C ∈ components, C ≠ [] := by
  rw [DependencyGraph.components, Option.bind_eq_bind, Option.bind_eq_some_iff] at h
  obtain ⟨s, -, h⟩ := h
  rw [Option.bind_eq_bind, Option.bind_eq_some_iff] at h
  obtain ⟨found, -, h⟩ := h
  obtain rfl := Option.some.inj h
  rintro _ hC rfl
  rw [List.mem_insertionSort] at hC
  exact absurd (List.mem_filter.mp hC).2 (by simp [DependencyGraph.cyclic])

/-- **Flattening happens once.**  A flattened graph is left as it is by another flattening. -/
theorem flatten_idempotent {action' : String → String} {reports : List String}
    (h : flattenMetaCycles action g = some (g', .ok reports)) :
    flattenMetaCycles action' g' = some (g', .ok []) := by
  have hacyclic := (flattened_of_ok h).acyclic
  obtain ⟨components, hcomponents⟩ := Option.isSome_iff_exists.mp g'.components_isSome
  have hnil : components = [] := by
    refine List.eq_nil_iff_forall_not_mem.mpr fun C hC => ?_
    obtain ⟨a, ha⟩ := List.exists_mem_of_ne_nil C (DependencyGraph.components_ne_nil hcomponents C hC)
    exact hacyclic a (DependencyGraph.components_spec hcomponents |>.cyclic C hC a ha)
  rw [flattenMetaCycles, hcomponents, hnil]
  rfl

theorem flatten_idempotent_entryGraph :
    flattenMetaCycles actionOf entryGraph' = some (entryGraph', .ok []) :=
  flatten_idempotent flatten_entryGraph

/-! ### Lifted copies and their prerequisites -/

variable (g) in
/-- What a lifted copy needs, seen from its owner: the original relation with an edge from the
owner of every lifted copy to each of the copy's own prerequisites. -/
def Needs (a b : String) : Prop :=
  g.Edge a b ∨ ∃ d, g.Lifts d ∧ a = d.name ∧ b ∈ d.dependencies

theorem needs_of_reaches (hab : ReflTransGen g.Edge a b) : ReflTransGen (Needs g) a b :=
  ReflTransGen.mono (fun _ _ hxy => Or.inl hxy) a b hab

variable (action g g') in
/-- The new relation with an edge from every private action to each prerequisite of its copy. -/
def Combined (a b : String) : Prop :=
  g'.Edge a b ∨ ∃ d, g.Lifts d ∧ a = action d.name ∧ b ∈ d.dependencies

section
variable (h : Flattened action g g')
include h

theorem Flattened.owner_dependency {d : CopyDirectoryDecl} (hd : g.Lifts d)
    (hb : b ∈ d.dependencies) : owner action g b = b :=
  h.owner_name (DependencyGraph.subset_occupied (Or.inr (Or.inr ⟨d, hd.1, hb⟩)))

theorem Flattened.combined_weak (hab : Combined action g g' a b) :
    ReflTransGen (Needs g) (owner action g a) (owner action g b) := by
  rcases hab with hab | ⟨d, hd, rfl, hb⟩
  · exact needs_of_reaches (h.weak hab)
  · rw [h.owner_action hd, h.owner_dependency hd hb]
    exact ReflTransGen.single (Or.inr ⟨d, hd, rfl, hb⟩)

/-- If no prerequisite reaches back to its owner, no action lies on a cycle. -/
theorem Flattened.combined_acyclic
    (hneeds : ∀ d, g.Lifts d → ∀ dep ∈ d.dependencies, ¬ ReflTransGen (Needs g) dep d.name)
    {d : CopyDirectoryDecl} (hd : g.Lifts d) :
    ¬ TransGen (Combined action g g') (action d.name) (action d.name) := by
  intro hcycle
  obtain ⟨e, hde, hed⟩ := TransGen.head'_iff.mp hcycle
  have hback : ReflTransGen (Needs g) (owner action g e) d.name := by
    have := hed.lift' (owner action g) fun _ _ => h.combined_weak
    change ReflTransGen (Needs g) (owner action g e) (owner action g (action d.name)) at this
    rwa [h.owner_action hd] at this
  rcases hde with hde | ⟨d', hd', heq, he⟩
  · obtain ⟨m, hmut, hme, hout⟩ := (h.lifted d hd e).mp hde
    have hde' : ReflTransGen g.Edge d.name e := hmut.1.tail hme
    rw [h.owner_name hme.name_right.occupied] at hback
    -- The way back from `e` is no path of the old relation, so it uses a prerequisite.
    rcases reflTransGen_or hback with hold | ⟨x, y, hex, ⟨d', hd', rfl, hy⟩, hyd⟩
    · exact hout ⟨hde', hold⟩
    · exact hneeds d' hd' y hy (hyd.trans ((needs_of_reaches hde').trans hex))
  · rw [h.owner_dependency hd' he] at hback
    exact hneeds d' hd' e he (h.inj d d' hd hd' heq ▸ hback)

/-- An edge of `Needs` between two components is a path of the combined relation. -/
theorem Flattened.combined_of_needs (hab : Needs g a b) (hne : ¬ Mutual g.Edge a b) :
    TransGen (Combined action g g') a b := by
  rcases hab with hab | ⟨d, hd, rfl, hb⟩
  · exact TransGen.single (Or.inl (h.edge_of_edge hab hne))
  · have hfirst : g'.Edge d.name (action d.name) :=
      (h.member d.name hd.2 _).mpr (Or.inr ⟨d, hd, Mutual.refl _, rfl⟩)
    have hsecond : Combined action g g' (action d.name) b := Or.inr ⟨d, hd, rfl, hb⟩
    exact TransGen.head (Or.inl hfirst) (TransGen.single hsecond)

/-- What needs the owner of a lifted copy from outside its component reaches the action. -/
theorem Flattened.reaches_action {d : CopyDirectoryDecl} (hd : g.Lifts d)
    (ha : ReflTransGen (Needs g) a d.name) :
    Mutual g.Edge a d.name ∨ TransGen (Combined action g g') a (action d.name) := by
  induction ha using ReflTransGen.head_induction_on with
  | refl => exact Or.inl (Mutual.refl _)
  | @head x y hxy hyd ih =>
    by_cases hmut : Mutual g.Edge x y
    · -- Inside a component `x` stands where `y` does.
      refine ih.imp hmut.trans fun hy => ?_
      obtain ⟨z, hyz, hzd⟩ := TransGen.head'_iff.mp hy
      rcases hyz with hyz | ⟨d', hd', rfl, -⟩
      · exact TransGen.head' (Or.inl (h.edge_congr hmut.symm hyz)) hzd
      · by_cases heq : x = action d'.name
        · exact heq ▸ hy
        · have hcyc : g.Cyclic (action d'.name) := hmut.symm.transGen_of_ne (Ne.symm heq)
          exact absurd ⟨d', hd', rfl⟩ (h.not_isAction hcyc.name.occupied)
    · have hstep := h.combined_of_needs hxy hmut
      rcases ih with hy | hy
      · have hyact : g'.Edge y (action d.name) :=
          (h.member y (hy.symm.transGen hd.2) _).mpr (Or.inr ⟨d, hd, hy, rfl⟩)
        exact Or.inr (hstep.tail (Or.inl hyact))
      · exact Or.inr (hstep.trans hy)

end

/-- **When lifted copies are free of cycles.** Exactly when no prerequisite of a lifted copy
reaches the copy's owner, through the dependencies of names and the prerequisites of the other
lifted copies. -/
theorem lifted_actions_acyclic_iff {reports : List String}
    (h : flattenMetaCycles action g = some (g', .ok reports)) :
    (∀ d, g.Lifts d → ¬ TransGen (Combined action g g') (action d.name) (action d.name)) ↔
      ∀ d, g.Lifts d → ∀ dep ∈ d.dependencies, ¬ ReflTransGen (Needs g) dep d.name := by
  have hf := flattened_of_ok h
  constructor
  · intro hacyclic d hd dep hdep hneeds
    rcases hf.reaches_action hd hneeds with hmut | hpath
    · exact hf.outer d hd dep hdep hmut.symm
    · exact hacyclic d hd (TransGen.head (Or.inr ⟨d, hd, rfl, hdep⟩) hpath)
  · intro hneeds d hd
    exact hf.combined_acyclic hneeds hd

/-- A copy owned by a member of a cycle, with a fetch as its prerequisite. -/
def copyDecl : CopyDirectoryDecl :=
  ⟨"public-copy", "include", "sdk", "public/mmakefile.src", 9, ["source-fetch"]⟩

/-- The cycle of `includes` and `public-copy`, and the copy. -/
def copyGraph : DependencyGraph :=
  graphOf [("includes", ["public-copy"]), ("public-copy", ["includes", "source-fetch"])] [copyDecl]

/-- The same, and the fetch depends on the cycle. -/
def reentryGraph : DependencyGraph :=
  graphOf [("includes", ["public-copy"]), ("public-copy", ["includes"]),
    ("source-fetch", ["includes"])] [copyDecl]

/-- A graph whose copy has been lifted. -/
def liftedGraph (entries : List (String × List String)) : DependencyGraph :=
  { graphOf entries [{ copyDecl with name := actionOf "public-copy" }] with
    liftedCopyAliases := HashMap.new.insert "public-copy" (actionOf "public-copy")
    endpointNames := HashSet.collect ["public-copy"] }

/-- What flattening makes of `copyGraph`. -/
def copyGraph' : DependencyGraph :=
  liftedGraph [("includes", [actionOf "public-copy", "source-fetch"]),
    ("public-copy", ["source-fetch", actionOf "public-copy"]),
    (actionOf "public-copy", ["source-fetch"])]

/-- What flattening makes of `reentryGraph`. -/
def reentryGraph' : DependencyGraph :=
  liftedGraph [("includes", [actionOf "public-copy"]), ("public-copy", [actionOf "public-copy"]),
    ("source-fetch", ["includes"]), (actionOf "public-copy", [])]

/-- The report on the copy of both graphs. -/
def copyReport : String := preservedReport ⟨0, "public-copy", actionOf "public-copy"⟩

theorem flatten_copyGraph : flattenMetaCycles actionOf copyGraph = some (copyGraph',
    .ok [flattenedReport "build/meta" ["includes", "public-copy"]
      [actionOf "public-copy", "source-fetch"], copyReport]) := by
  decide +kernel

theorem flatten_reentryGraph : flattenMetaCycles actionOf reentryGraph = some (reentryGraph',
    .ok [flattenedReport "build/meta" ["includes", "public-copy"] [actionOf "public-copy"],
      copyReport]) := by
  decide +kernel

/-- A prerequisite that leads back into the component through a name outside it is accepted. -/
theorem lifted_action_on_cycle : ∃ g' reports,
    flattenMetaCycles actionOf reentryGraph = some (g', .ok reports) ∧
      ∃ d, reentryGraph.Lifts d ∧
        TransGen (Combined actionOf reentryGraph g') (actionOf d.name) (actionOf d.name) := by
  have hout : reentryGraph.Edge "public-copy" "includes" := by
    rw [DependencyGraph.Edge]; decide
  have hback : reentryGraph.Edge "includes" "public-copy" := by
    rw [DependencyGraph.Edge]; decide
  have hlifts : reentryGraph.Lifts copyDecl :=
    ⟨List.mem_singleton_self copyDecl, (TransGen.single hout).tail hback⟩
  have hfetch : reentryGraph'.Edge "source-fetch" "includes" := by
    rw [DependencyGraph.Edge]; decide
  have haction : reentryGraph'.Edge "includes" (actionOf "public-copy") := by
    rw [DependencyGraph.Edge]; decide
  refine ⟨_, _, flatten_reentryGraph, copyDecl, hlifts, ?_⟩
  refine TransGen.head (Or.inr ⟨copyDecl, hlifts, rfl, List.mem_singleton_self "source-fetch"⟩) ?_
  exact TransGen.head (Or.inl hfetch) (TransGen.single (Or.inl haction))

theorem lifted_actions_acyclic_copyGraph :
    flattenMetaCycles actionOf copyGraph = some (copyGraph',
      .ok [flattenedReport "build/meta" ["includes", "public-copy"]
        [actionOf "public-copy", "source-fetch"], copyReport]) ∧
      ∀ d, copyGraph.Lifts d →
        ¬ TransGen (Combined actionOf copyGraph copyGraph') (actionOf d.name) (actionOf d.name) := by
  refine ⟨flatten_copyGraph, (lifted_actions_acyclic_iff flatten_copyGraph).mpr ?_⟩
  intro d hd dep hdep hneeds
  obtain rfl : d = copyDecl := List.mem_singleton.mp hd.1
  obtain rfl : dep = "source-fetch" := List.mem_singleton.mp hdep
  -- The fetch needs nothing.
  have hnone : copyGraph.deps "source-fetch" = [] := by decide
  rcases ReflTransGen.cases_head hneeds with heq | ⟨c, hc, -⟩
  · exact absurd heq (by decide)
  · rcases hc with hc | ⟨d', hd', heq, -⟩
    · rw [DependencyGraph.Edge, hnone] at hc
      cases hc
    · obtain rfl : d' = copyDecl := List.mem_singleton.mp hd'.1
      exact absurd heq (by decide)

end

end Transpiler

end ArosTools
