import ArosTools.Transpiler.GraphMeta
import ArosTools.Program.Except
import Mathlib.Data.List.Zip

/-!
# What a run of the flattening does

* `components_spec`, `components_isSome`: the searches return, and find exactly the cyclic
  strongly connected components of the `meta_targets` relation;
* `flattenComponent_progress`: what flattening one component does to the graph, with the
  components before it already flattened;
* `flattened_of_ok`: from it, by induction over the components, the graph a successful run leaves.
-/

namespace ArosTools

namespace Transpiler

open Relation ArosTools.Graph

namespace DependencyGraph

variable (g : DependencyGraph) {a b : String}

/-- The `meta_targets` relation. -/
def Edge (a b : String) : Prop := b ∈ g.deps a

/-- `a` lies in a cyclic component: one with several members, or a self-loop. -/
def Cyclic (a : String) : Prop := TransGen g.Edge a a

variable {g}

theorem mem_deps : b ∈ g.deps a ↔ ∃ s, g.metaTargets.get a = some s ∧ b ∈ s := by
  rw [deps]
  cases g.metaTargets.get a with
  | none => simp
  | some s => simp [HashSet.mem_def]

theorem mem_nodes : a ∈ g.nodes ↔ a ∈ g.metaTargets.keys := Iff.rfl

theorem mem_names : a ∈ g.names ↔ a ∈ g.nodes := List.mem_insertionSort _

theorem Edge.mem_nodes (h : g.Edge a b) : a ∈ g.nodes := by
  obtain ⟨s, hs, -⟩ := mem_deps.mp h
  exact HashMap.mem_keys.mpr ⟨s, hs⟩

theorem Cyclic.mem_nodes (h : g.Cyclic a) : a ∈ g.nodes := by
  obtain ⟨c, hac, -⟩ := TransGen.head'_iff.mp h
  exact hac.mem_nodes

/-! ### The two searches follow the relation -/

theorem succ_next : Succ g.next a b ↔ g.Edge a b ∧ b ∈ g.nodes := by
  rw [Succ, next, List.mem_insertionSort, List.mem_filter, Edge, decide_eq_true_eq]

/-- The loops that fill `reverse`, from any state of it. -/
theorem mem_reverse_entry (from' : String) (deps : List String) (m : HashMap String (List String))
    (a b : String) :
    b ∈ ((deps.foldl (fun reverse dep =>
        reverse.insert dep ((reverse.get dep).getD [] ++ [from'])) m).get a).getD [] ↔
      b ∈ (m.get a).getD [] ∨ (a ∈ deps ∧ b = from') := by
  induction deps generalizing m with
  | nil => simp
  | cons dep deps ih =>
    rw [List.foldl_cons, ih, HashMap.get_insert]
    by_cases ha : a = dep
    · simp only [ha, if_true, Option.getD_some, List.mem_append, List.mem_cons,
        true_or, true_and]
      tauto
    · simp only [ha, if_false, List.mem_cons, false_or]

theorem mem_reverse_entries (entries : List (String × HashSet String))
    (m : HashMap String (List String)) (a b : String) :
    b ∈ ((entries.foldl (fun reverse entry =>
        (entry.2.elems.filter fun dep => dep ∈ g.nodes).foldl (fun reverse dep =>
          reverse.insert dep ((reverse.get dep).getD [] ++ [entry.1])) reverse) m).get a).getD [] ↔
      b ∈ (m.get a).getD [] ∨ ∃ s, (b, s) ∈ entries ∧ a ∈ s ∧ a ∈ g.nodes := by
  induction entries generalizing m with
  | nil => simp
  | cons entry entries ih =>
    rw [List.foldl_cons, ih, mem_reverse_entry, List.mem_filter, decide_eq_true_eq, or_assoc]
    refine or_congr_right ⟨?_, ?_⟩
    · rintro (⟨⟨ha, hn⟩, rfl⟩ | ⟨s, hs, has⟩)
      · exact ⟨entry.2, List.mem_cons_self, ha, hn⟩
      · exact ⟨s, List.mem_cons_of_mem _ hs, has⟩
    · rintro ⟨s, hs, has, hn⟩
      rcases List.mem_cons.mp hs with rfl | hs
      · exact Or.inl ⟨⟨has, hn⟩, rfl⟩
      · exact Or.inr ⟨s, hs, has, hn⟩

theorem mem_incoming : b ∈ g.incoming a ↔ a ∈ g.next b := by
  have hnext : a ∈ g.next b ↔ g.Edge b a ∧ a ∈ g.nodes := succ_next
  rw [hnext, incoming, List.mem_dedup, List.mem_insertionSort, reverse, mem_reverse_entries, Edge,
    mem_deps]
  simp only [HashMap.get_new, Option.getD_none, List.not_mem_nil, false_or, HashMap.get_eq_some]
  tauto

/-- A path to a name with an entry goes through names with entries only. -/
theorem reflTransGen_next (h : ReflTransGen g.Edge a b) (hb : b ∈ g.nodes) :
    ReflTransGen (Succ g.next) a b := by
  induction h using ReflTransGen.head_induction_on with
  | refl => exact ReflTransGen.refl
  | @head x y hxy hyb ih =>
    refine ReflTransGen.head (succ_next.mpr ⟨hxy, ?_⟩) ih
    rcases ReflTransGen.cases_head hyb with rfl | ⟨z, hyz, -⟩
    · exact hb
    · exact hyz.mem_nodes

theorem mutual_next (ha : a ∈ g.nodes) : Mutual (Succ g.next) a b ↔ Mutual g.Edge a b := by
  constructor
  · exact Mutual.mono fun _ _ h => (succ_next.mp h).1
  · intro h
    have hb : b ∈ g.nodes := by
      rcases ReflTransGen.cases_head h.2 with rfl | ⟨z, hbz, -⟩
      · exact ha
      · exact hbz.mem_nodes
    exact ⟨reflTransGen_next h.1 hb, reflTransGen_next h.2 ha⟩

/-! ### The components found -/

/-- A list of components is right: each of them is one cyclic component, they are disjoint, and
every name on a cycle is in one. -/
structure CyclicComponents (g : DependencyGraph) (components : List (List String)) : Prop where
  same : ∀ C ∈ components, ∀ a ∈ C, ∀ b, b ∈ C ↔ Mutual g.Edge a b
  cyclic : ∀ C ∈ components, ∀ a ∈ C, g.Cyclic a
  covers : ∀ a, g.Cyclic a → ∃ C ∈ components, a ∈ C
  disjoint : components.Pairwise List.Disjoint

/-- The test of the code decides whether a component is cyclic. -/
theorem cyclic_iff {C : List String} (hnodup : C.Nodup) (ha : a ∈ C)
    (hC : ∀ b, b ∈ C ↔ Mutual g.Edge a b) : g.cyclic C = true ↔ g.Cyclic a := by
  rw [cyclic, Bool.or_eq_true, decide_eq_true_eq]
  obtain ⟨c, C, rfl⟩ := List.exists_cons_of_ne_nil (List.ne_nil_of_mem ha)
  simp only [List.head?_cons, Option.any_some, decide_eq_true_eq]
  have hac : Mutual g.Edge a c := (hC c).mp List.mem_cons_self
  constructor
  · rintro (hlen | hself)
    · -- A second member gives a way out of `a` and back.
      obtain ⟨d, D, rfl⟩ := List.exists_cons_of_length_pos (Nat.lt_of_succ_lt_succ hlen)
      have hcd : c ≠ d := by
        rintro rfl
        exact (List.nodup_cons.mp hnodup).1 List.mem_cons_self
      have had : Mutual g.Edge a d := (hC d).mp (by simp)
      exact hac.symm.transGen ((hac.symm.trans had).transGen_of_ne hcd)
    · exact hac.symm.transGen (TransGen.single hself)
  · intro hcyc
    cases C with
    | cons d D => exact Or.inl (by simp)
    | nil =>
      obtain ⟨e, hce, hec⟩ := TransGen.head'_iff.mp (hac.transGen hcyc)
      have hmut : Mutual g.Edge c e := ⟨ReflTransGen.single hce, hec⟩
      have he : e = c := by simpa using (hC e).mpr (hac.trans hmut)
      exact Or.inr (he ▸ hce)

theorem components_spec {components : List (List String)} (h : g.components = some components) :
    CyclicComponents g components := by
  rw [DependencyGraph.components, Option.bind_eq_bind, Option.bind_eq_some_iff] at h
  obtain ⟨s, hfirst, h⟩ := h
  rw [Option.bind_eq_bind, Option.bind_eq_some_iff] at h
  obtain ⟨found, hsecond, h⟩ := h
  obtain rfl := Option.some.inj h
  have hspec := sweep_components (fun _ _ => mem_incoming)
    (fun a b hab => mem_names.mpr (succ_next.mp hab).1.mem_nodes)
    (fun a b hab => mem_names.mpr (succ_next.mp hab).2) hfirst hsecond
  have hmutual : ∀ C ∈ found, ∀ a ∈ C, ∀ b, b ∈ C ↔ Mutual g.Edge a b := by
    intro C hC a ha b
    obtain ⟨x, hx, hxC⟩ := hspec.component C hC
    have hxn := mem_names.mp hx
    have hxa : Mutual g.Edge x a := (mutual_next hxn).mp ((hxC a).mp ha)
    rw [hxC, mutual_next hxn]
    exact ⟨hxa.symm.trans, hxa.trans⟩
  -- Sorting a component keeps its members.
  have hsorted : ∀ C ∈ found, ∀ a ∈ C,
      g.cyclic (C.insertionSort (· ≤ ·)) = true ↔ g.Cyclic a := fun C hC a ha =>
    cyclic_iff ((List.perm_insertionSort _ C).nodup_iff.mpr (hspec.nodup C hC))
      ((List.mem_insertionSort _).mpr ha)
      (fun b => (List.mem_insertionSort _).trans (hmutual C hC a ha b))
  have hmem : ∀ D, D ∈ ((found.map fun C => C.insertionSort (· ≤ ·)).filter
      g.cyclic).insertionSort (· ≤ ·) ↔
      ∃ C ∈ found, C.insertionSort (· ≤ ·) = D ∧ g.cyclic D = true := by
    intro D
    rw [List.mem_insertionSort, List.mem_filter, List.mem_map]
    tauto
  refine ⟨?_, ?_, ?_, ?_⟩
  · intro D hD a ha b
    obtain ⟨C, hC, rfl, -⟩ := (hmem D).mp hD
    rw [List.mem_insertionSort] at ha ⊢
    exact hmutual C hC a ha b
  · intro D hD a ha
    obtain ⟨C, hC, rfl, hcyc⟩ := (hmem D).mp hD
    exact (hsorted C hC a ((List.mem_insertionSort _).mp ha)).mp hcyc
  · intro a ha
    obtain ⟨C, hC, haC⟩ := (hspec.covers a (mem_names.mpr ha.mem_nodes)).resolve_left
      List.not_mem_nil
    exact ⟨C.insertionSort (· ≤ ·), (hmem _).mpr ⟨C, hC, rfl, (hsorted C hC a haC).mpr ha⟩,
      (List.mem_insertionSort _).mpr haC⟩
  · have hdisjoint : (((found.map fun C => C.insertionSort (· ≤ ·)).filter
        g.cyclic)).Pairwise List.Disjoint := by
      refine List.Pairwise.filter _ (List.pairwise_map.mpr (hspec.disjoint.imp ?_))
      intro C D hCD x hxC hxD
      exact hCD ((List.mem_insertionSort _).mp hxC) ((List.mem_insertionSort _).mp hxD)
    exact (List.Perm.pairwise_iff List.Disjoint.symm (List.perm_insertionSort _ _)).mpr hdisjoint

/-- The searches do not run out of fuel. -/
theorem components_isSome (g : DependencyGraph) : g.components.isSome := by
  have hcard : g.names.toFinset.card < g.fuel := Nat.lt_succ_of_le (List.toFinset_card_le _)
  have hin : ∀ {a : String}, a ∈ g.nodes → a ∈ g.names.toFinset :=
    fun ha => List.mem_toFinset.mpr (mem_names.mpr ha)
  obtain ⟨s, hs⟩ : ∃ s, g.names.foldlM g.visit ⟨[], []⟩ = some s := by
    refine Option.isSome_iff_exists.mp (walks_isSome
      (fun a _ b hb => hin (succ_next.mp hb).2) (fun r hr => List.mem_toFinset.mpr hr) ?_)
    exact lt_of_le_of_lt (Finset.card_filter_le _ _) hcard
  obtain ⟨-, hmem⟩ := first_search (fun a b hab => mem_names.mpr (succ_next.mp hab).2) hs
  obtain ⟨found, hfound⟩ : ∃ found, sweep g.incoming g.fuel s.pushed.reverse [] = some found := by
    refine Option.isSome_iff_exists.mp (sweep_isSome
      (fun a _ b hb => hin (succ_next.mp (mem_incoming.mp hb)).1.mem_nodes) hcard fun a ha => ?_)
    exact List.mem_toFinset.mpr ((hmem a).mp (List.mem_reverse.mp ha))
  rw [DependencyGraph.components, hs]
  simp [hfound]

theorem subset_occupied (ha : a ∈ g.metaTargets.keys ∨ (∃ c, a ∈ g.deps c) ∨
    ∃ d ∈ g.copyDirectories, a ∈ d.dependencies) : a ∈ g.occupied := by
  simp only [occupied, HashSet.mem_extend, List.mem_flatMap]
  rcases ha with ha | ⟨c, hc⟩ | ⟨d, hd, ha⟩
  · exact Or.inl (Or.inl (Or.inl (Or.inl (Or.inl (Or.inr ha)))))
  · obtain ⟨s, hs, has⟩ := mem_deps.mp hc
    have hval : s ∈ g.metaTargets.values :=
      List.mem_map.mpr ⟨(c, s), HashMap.get_eq_some.mp hs, rfl⟩
    exact Or.inl (Or.inl (Or.inl (Or.inl (Or.inr ⟨s, hval, has⟩))))
  · exact Or.inr ⟨d, hd, ha⟩

end DependencyGraph

/-! ### Lifting the copies of a component -/

section
variable (action : String → String)

/-- What the loop over the declarations `ds`, indexed from `index`, has established. -/
structure LiftOk (members : List String) (index : ℕ) (ds : List CopyDirectoryDecl)
    (occupied : HashSet String) (lifted : List Lifted) (occupied' : HashSet String) : Prop where
  eq : lifted = ((ds.zipIdx index).filter fun e => e.1.name ∈ members).map
    fun e => ⟨e.2, e.1.name, action e.1.name⟩
  taken : ∀ a, a ∈ occupied' ↔ a ∈ occupied ∨ ∃ d ∈ ds, d.name ∈ members ∧ a = action d.name
  outer : ∀ d ∈ ds, d.name ∈ members → ∀ dep ∈ d.dependencies, dep ∉ members
  fresh : ∀ d ∈ ds, d.name ∈ members → action d.name ∉ occupied
  distinct : ds.Pairwise fun d d' => d.name ∈ members → d'.name ∈ members →
    action d.name ≠ action d'.name

variable {action}

theorem lift_ok {members : List String} {ds : List CopyDirectoryDecl} {index : ℕ}
    {occupied occupied' : HashSet String} {lifted : List Lifted}
    (h : lift action members index ds occupied = .ok (lifted, occupied')) :
    LiftOk action members index ds occupied lifted occupied' := by
  induction ds generalizing index occupied lifted with
  | nil =>
    rw [lift] at h
    obtain ⟨rfl, rfl⟩ := Prod.mk.inj (Except.ok.inj h)
    exact ⟨rfl, by simp, by simp, by simp, List.Pairwise.nil⟩
  | cons d ds ih =>
    rw [lift] at h
    by_cases hd : d.name ∈ members
    · rw [if_neg (not_not_intro hd)] at h
      split at h
      · cases h
      · next hnone =>
        obtain ⟨hfresh, h⟩ := ite_error_ok h
        obtain ⟨⟨lifted', occupied₂⟩, hrest, h⟩ := Except.bind_ok h
        obtain ⟨rfl, rfl⟩ := Prod.mk.inj (Except.ok.inj h)
        have ih := ih hrest
        -- What the rest finds free is free now, and differs from this action.
        have hnew : ∀ d' ∈ ds, d'.name ∈ members →
            action d'.name ∉ occupied ∧ action d.name ≠ action d'.name := by
          intro d' hd' hm
          have := ih.fresh d' hd' hm
          rw [HashSet.mem_insert, not_or] at this
          exact ⟨this.1, fun h => this.2 h.symm⟩
        refine ⟨?_, fun a => ?_, ?_, ?_, ?_⟩
        · simp [ih.eq, List.zipIdx_cons, hd]
        · rw [ih.taken, HashSet.mem_insert, or_assoc]
          simp [hd]
        · refine List.forall_mem_cons.mpr ⟨fun _ dep hdep => ?_, ih.outer⟩
          simpa using List.find?_eq_none.mp hnone dep hdep
        · exact List.forall_mem_cons.mpr ⟨fun _ => hfresh, fun d' hd' hm => (hnew d' hd' hm).1⟩
        · exact List.pairwise_cons.mpr ⟨fun d' hd' _ hm => (hnew d' hd' hm).2, ih.distinct⟩
    · rw [if_pos hd] at h
      have ih := ih h
      refine ⟨?_, fun a => ?_, ?_, ?_, ?_⟩
      · simp [ih.eq, List.zipIdx_cons, hd]
      · rw [ih.taken]
        simp [hd]
      · exact List.forall_mem_cons.mpr ⟨fun hm => absurd hm hd, ih.outer⟩
      · exact List.forall_mem_cons.mpr ⟨fun hm => absurd hm hd, ih.fresh⟩
      · exact List.pairwise_cons.mpr ⟨fun d' _ hm => absurd hm hd, ih.distinct⟩

theorem LiftOk.mem_action {members : List String} {ds : List CopyDirectoryDecl} {index : ℕ}
    {occupied occupied' : HashSet String} {lifted : List Lifted}
    (h : LiftOk action members index ds occupied lifted occupied') {a : String} :
    a ∈ lifted.map Lifted.action ↔ ∃ d ∈ ds, d.name ∈ members ∧ a = action d.name := by
  rw [h.eq, List.map_map, List.mem_map]
  constructor
  · rintro ⟨⟨d, i⟩, he, rfl⟩
    obtain ⟨he, hm⟩ := List.mem_filter.mp he
    exact ⟨d, List.fst_mem_of_mem_zipIdx he, of_decide_eq_true hm, rfl⟩
  · rintro ⟨d, hd, hm, rfl⟩
    obtain ⟨i, hi, rfl⟩ := List.getElem_of_mem hd
    refine ⟨(ds[i], index + i), List.mem_filter.mpr ⟨?_, decide_eq_true hm⟩, rfl⟩
    exact List.mk_add_mem_zipIdx_iff_getElem?.mpr (List.getElem?_eq_getElem hi)

theorem LiftOk.inj {members : List String} {ds : List CopyDirectoryDecl} {index : ℕ}
    {occupied occupied' : HashSet String} {lifted : List Lifted}
    (h : LiftOk action members index ds occupied lifted occupied') :
    ∀ d ∈ ds, ∀ d' ∈ ds, d.name ∈ members → d'.name ∈ members →
      action d.name = action d'.name → d.name = d'.name := by
  have hpair : ds.Pairwise fun d d' => d.name ∈ members → d'.name ∈ members →
      action d.name = action d'.name → d.name = d'.name :=
    h.distinct.imp fun hne hd hd' heq => absurd heq (hne hd hd')
  have hflip : ds.Pairwise (flip fun d d' => d.name ∈ members → d'.name ∈ members →
      action d.name = action d'.name → d.name = d'.name) :=
    hpair.imp fun hdd hd hd' heq => (hdd hd' hd heq.symm).symm
  intro d hd d' hd'
  exact hpair.forall_of_forall_of_flip (fun _ _ _ _ _ => rfl) hflip hd hd'

/-! ### Rewriting the edges of a component -/

theorem get_preserve (shared : List String) (lifted : List Lifted) (g : DependencyGraph)
    (a : String) :
    (lifted.foldl (preserve shared) g).metaTargets.get a =
      if a ∈ lifted.map Lifted.action then some (HashSet.collect shared)
      else g.metaTargets.get a := by
  induction lifted generalizing g with
  | nil => simp
  | cons l lifted ih =>
    rw [List.foldl_cons, ih, List.map_cons, preserve, HashMap.get_insert]
    by_cases ha : a ∈ lifted.map Lifted.action
    · rw [if_pos ha, if_pos (List.mem_cons_of_mem _ ha)]
    · rw [if_neg ha]
      by_cases hal : a = l.action
      · rw [if_pos hal, if_pos (hal ▸ List.mem_cons_self)]
      · rw [if_neg hal, if_neg (by simp [hal, ha])]

/-- Modifying a list at the indices of its elements that satisfy `p`. -/
theorem foldl_modify_zipIdx {α : Type} (p : α → Bool) (f : α → α → α) (before ds : List α) :
    ((ds.zipIdx before.length).filter fun e => p e.1).foldl
        (fun l e => l.modify e.2 (f e.1)) (before ++ ds) =
      before ++ ds.map fun d => if p d then f d d else d := by
  induction ds generalizing before with
  | nil => simp
  | cons d ds ih =>
    have hshift : before ++ d :: ds = (before ++ [d]) ++ ds := by simp
    rw [List.zipIdx_cons, List.filter_cons]
    by_cases hp : p d = true
    · have hmodify : (before ++ d :: ds).modify before.length (f d) =
          (before ++ [f d d]) ++ ds := by
        rw [List.modify_eq_take_cons_drop (by simp)]
        simp
      have := ih (before ++ [f d d])
      rw [List.length_append, List.length_singleton] at this
      rw [if_pos hp, List.foldl_cons, hmodify, this]
      simp [hp]
    · have := ih (before ++ [d])
      rw [List.length_append, List.length_singleton] at this
      rw [if_neg hp, hshift, this]
      simp [hp]

theorem copyDirectories_preserve {members : List String} {g : DependencyGraph}
    {occupied occupied' : HashSet String} {lifted : List Lifted}
    (h : LiftOk action members 0 g.copyDirectories occupied lifted occupied')
    (shared : List String) :
    (lifted.foldl (preserve shared) g).copyDirectories = g.copyDirectories.map fun d =>
      if d.name ∈ members then { d with name := action d.name } else d := by
  have hproj : (lifted.foldl (preserve shared) g).copyDirectories = lifted.foldl
      (fun ds l => ds.modify l.index fun d => { d with name := l.action }) g.copyDirectories :=
    (List.foldl_hom DependencyGraph.copyDirectories fun _ _ => rfl).symm
  rw [hproj, h.eq, List.foldl_map]
  simpa using foldl_modify_zipIdx (fun d : CopyDirectoryDecl => decide (d.name ∈ members))
    (fun d d' => { d' with name := action d.name }) [] g.copyDirectories

theorem copyDirectories_rewire (component all names : List String) (g : DependencyGraph) :
    (names.foldl (rewire component all) g).copyDirectories = g.copyDirectories := by
  induction names generalizing g with
  | nil => rfl
  | cons name names ih => rw [List.foldl_cons, ih, rewire]

theorem get_rewire_of_notMem {component all names : List String} {g : DependencyGraph} {a : String}
    (ha : a ∉ names) :
    (names.foldl (rewire component all) g).metaTargets.get a = g.metaTargets.get a := by
  induction names generalizing g with
  | nil => rfl
  | cons name names ih =>
    rw [List.mem_cons, not_or] at ha
    rw [List.foldl_cons, ih ha.2, rewire, HashMap.get_modify, if_neg ha.1]

theorem mem_deps_rewire {component all names : List String} {g : DependencyGraph} {a : String}
    (hkey : a ∈ g.metaTargets.keys) (ha : a ∈ names) (b : String) :
    b ∈ (names.foldl (rewire component all) g).deps a ↔
      (b ∈ g.deps a ∧ b ∉ component) ∨ b ∈ all := by
  induction names generalizing g with
  | nil => cases ha
  | cons name names ih =>
    obtain ⟨s, hs⟩ := HashMap.mem_keys.mp hkey
    have hget : (rewire component all g name).metaTargets.get a = if a = name
        then some ((s.retain fun dep => dep ∉ component).extend all) else some s := by
      rw [rewire, HashMap.get_modify, hs]
      by_cases hname : a = name
      · rw [if_pos hname, if_pos hname, ← hname, hs, Option.map_some]
      · rw [if_neg hname, if_neg hname]
    -- One rewriting of `a` gives the result, and a second one changes nothing.
    have hone : b ∈ (rewire component all g name).deps a ↔ if a = name
        then (b ∈ g.deps a ∧ b ∉ component) ∨ b ∈ all else b ∈ g.deps a := by
      rw [DependencyGraph.mem_deps, DependencyGraph.mem_deps, hget, hs]
      by_cases hname : a = name <;> simp [hname]
    rw [List.foldl_cons]
    by_cases hin : a ∈ names
    · have hkey' : a ∈ (rewire component all g name).metaTargets.keys := by
        rw [HashMap.mem_keys, hget]
        by_cases hname : a = name <;> simp [hname]
      rw [ih hkey' hin, hone]
      by_cases hname : a = name
      · simp only [hname, if_true]
        tauto
      · rw [if_neg hname]
    · have hname : a = name := (List.mem_cons.mp ha).resolve_right hin
      rw [if_pos hname] at hone
      rw [← hone, DependencyGraph.mem_deps, get_rewire_of_notMem hin, DependencyGraph.mem_deps]

/-! ### One component after the other -/

/-- The names outside a component that its members depend on. -/
def Outside (g : DependencyGraph) (C : List String) (b : String) : Prop :=
  b ∉ C ∧ ∃ m ∈ C, g.Edge m b

variable (action) in
/-- The private actions of the copies a component lifts. -/
def Actions (g : DependencyGraph) (C : List String) (b : String) : Prop :=
  ∃ d ∈ g.copyDirectories, d.name ∈ C ∧ b = action d.name

variable (action) in
/-- A declaration once the components of `done` are flattened. -/
def renamed (done : List (List String)) (d : CopyDirectoryDecl) : CopyDirectoryDecl :=
  if d.name ∈ done.flatten then { d with name := action d.name } else d

variable (action) in
/-- Where the loop over the components stands: those of `done` are flattened, and everything else
is as it was in `g`. -/
structure Progress (g : DependencyGraph) (done : List (List String)) (s : Flattening) : Prop where
  nodes : ∀ C ∈ done, ∀ a ∈ C, a ∈ g.nodes
  member : ∀ C ∈ done, ∀ a ∈ C, ∀ b, b ∈ s.graph.deps a ↔ Outside g C b ∨ Actions action g C b
  lifted : ∀ C ∈ done, ∀ a, Actions action g C a → ∀ b, b ∈ s.graph.deps a ↔ Outside g C b
  other : ∀ a, (∀ C ∈ done, a ∉ C ∧ ¬ Actions action g C a) →
    s.graph.metaTargets.get a = g.metaTargets.get a
  copies : s.graph.copyDirectories = g.copyDirectories.map (renamed action done)
  occupied : ∀ a, a ∈ s.occupied ↔ a ∈ g.occupied ∨ ∃ C ∈ done, Actions action g C a
  fresh : ∀ C ∈ done, ∀ a, Actions action g C a → a ∉ g.occupied
  inj : ∀ d ∈ g.copyDirectories, ∀ d' ∈ g.copyDirectories, d.name ∈ done.flatten →
    d'.name ∈ done.flatten → action d.name = action d'.name → d.name = d'.name
  outer : ∀ C ∈ done, ∀ d ∈ g.copyDirectories, d.name ∈ C → ∀ dep ∈ d.dependencies, dep ∉ C

theorem progress_start (g : DependencyGraph) : Progress action g [] ⟨g, g.occupied, []⟩ where
  nodes := by simp
  member := by simp
  lifted := by simp
  other := fun _ _ => rfl
  copies := (List.map_id _).symm
  occupied := by simp
  fresh := by simp
  inj := by simp
  outer := by simp

section
variable {g : DependencyGraph} {done : List (List String)} {s s' : Flattening} {C : List String}
  (hs : Progress action g done s) (hkeys : ∀ a ∈ C, a ∈ g.nodes)
  (hdisjoint : ∀ D ∈ done, C.Disjoint D)
include hs hkeys hdisjoint

omit hs hkeys in
theorem notMem_flatten {a : String} (ha : a ∈ C) : a ∉ done.flatten := by
  intro h
  obtain ⟨D, hD, haD⟩ := List.mem_flatten.mp h
  exact hdisjoint D hD ha haD

omit hdisjoint in
theorem Progress.action_notMem {D : List String} (hD : D ∈ done) {a : String}
    (ha : Actions action g D a) : a ∉ C :=
  fun h => hs.fresh D hD a ha (DependencyGraph.subset_occupied (Or.inl (hkeys a h)))

/-- Whether a declaration is lifted out of `C` can be read in the original graph. -/
theorem Progress.renamed_name (d : CopyDirectoryDecl) (hd : d ∈ g.copyDirectories) :
    (renamed action done d).name ∈ C ↔ d.name ∈ C := by
  by_cases hdone : d.name ∈ done.flatten
  · obtain ⟨D, hD, hdD⟩ := List.mem_flatten.mp hdone
    rw [renamed, if_pos hdone]
    refine ⟨fun h => absurd h (hs.action_notMem hkeys hD ⟨d, hd, hdD, rfl⟩), fun h => ?_⟩
    exact absurd hdone (notMem_flatten hdisjoint h)
  · rw [renamed, if_neg hdone]

omit hs hkeys in
theorem renamed_eq (d : CopyDirectoryDecl) (hd : d.name ∈ C) :
    renamed action done d = d :=
  if_neg (notMem_flatten hdisjoint hd)

/-- A member of `C` still has its original dependencies. -/
theorem Progress.get_member {a : String} (ha : a ∈ C) :
    s.graph.metaTargets.get a = g.metaTargets.get a :=
  hs.other a fun D hD => ⟨hdisjoint D hD ha, fun h => hs.action_notMem hkeys hD h ha⟩

theorem Progress.mem_external (b : String) : b ∈ external s.graph C ↔ Outside g C b := by
  simp only [external, mem_btreeSet, List.mem_flatMap, List.mem_filter, decide_eq_true_eq]
  constructor
  · rintro ⟨m, hm, hb, hbC⟩
    rw [DependencyGraph.deps, hs.get_member hkeys hdisjoint hm] at hb
    exact ⟨hbC, m, hm, hb⟩
  · rintro ⟨hbC, m, hm, hb⟩
    refine ⟨m, hm, ?_, hbC⟩
    rw [DependencyGraph.deps, hs.get_member hkeys hdisjoint hm]
    exact hb

/-- The declarations named in `C` now are those named in `C` originally. -/
theorem Progress.exists_copy (P : CopyDirectoryDecl → Prop) :
    (∃ d ∈ s.graph.copyDirectories, d.name ∈ C ∧ P d) ↔
      ∃ d ∈ g.copyDirectories, d.name ∈ C ∧ P d := by
  rw [hs.copies]
  constructor
  · rintro ⟨d, hd, hdC, hP⟩
    obtain ⟨d₀, hd₀, rfl⟩ := List.mem_map.mp hd
    rw [hs.renamed_name hkeys hdisjoint d₀ hd₀] at hdC
    rw [renamed_eq hdisjoint d₀ hdC] at hP
    exact ⟨d₀, hd₀, hdC, hP⟩
  · rintro ⟨d, hd, hdC, hP⟩
    have hsame : renamed action done d = d := renamed_eq hdisjoint d hdC
    exact ⟨d, hsame ▸ List.mem_map_of_mem hd, hdC, hP⟩

theorem Progress.mem_copies {d : CopyDirectoryDecl} (hd : d ∈ g.copyDirectories)
    (hdC : d.name ∈ C) : d ∈ s.graph.copyDirectories := by
  obtain ⟨d', hd', -, rfl⟩ := (hs.exists_copy hkeys hdisjoint (· = d)).mpr ⟨d, hd, hdC, rfl⟩
  exact hd'

/-- **Flattening one component**, with others flattened before it. -/
theorem flattenComponent_progress (h : flattenComponent action s C = .ok s') :
    Progress action g (C :: done) s' := by
  obtain ⟨⟨lifted, occupied'⟩, hlift, h⟩ := Except.bind_ok h
  obtain rfl := Except.ok.inj h
  have hl := lift_ok hlift
  have hact : ∀ a, a ∈ lifted.map Lifted.action ↔ Actions action g C a := fun a =>
    hl.mem_action.trans (hs.exists_copy hkeys hdisjoint fun d => a = action d.name)
  -- The actions of this component were not taken when the component was reached.
  have hnew : ∀ a, Actions action g C a → a ∉ s.occupied := by
    rintro a ⟨d, hd, hdC, rfl⟩
    exact hl.fresh d (hs.mem_copies hkeys hdisjoint hd hdC) hdC
  have hold : ∀ a, a ∈ g.nodes → ¬ Actions action g C a := fun a ha hA =>
    hnew a hA ((hs.occupied a).mpr (Or.inl (DependencyGraph.subset_occupied (Or.inl ha))))
  have hdone : ∀ D ∈ done, ∀ a, Actions action g D a → ¬ Actions action g C a :=
    fun D hD a hA hC => hnew a hC ((hs.occupied a).mpr (Or.inr ⟨D, hD, hA⟩))
  have hall : ∀ b, b ∈ btreeSet (external s.graph C ++ lifted.map Lifted.action) ↔
      Outside g C b ∨ Actions action g C b := by
    intro b
    rw [mem_btreeSet, List.mem_append, hs.mem_external hkeys hdisjoint, hact]
  -- What is neither a member nor an action of this component keeps its entry.
  have hkeep : ∀ a, a ∉ C → ¬ Actions action g C a →
      ((C.foldl (rewire C (btreeSet (external s.graph C ++ lifted.map Lifted.action)))
        (lifted.foldl (preserve (external s.graph C)) s.graph)).metaTargets.get a) =
        s.graph.metaTargets.get a := by
    intro a haC haA
    rw [get_rewire_of_notMem haC, get_preserve, if_neg (mt (hact a).mp haA)]
  refine ⟨?_, ?_, ?_, ?_, ?_, ?_, ?_, ?_, ?_⟩
  · exact List.forall_mem_cons.mpr ⟨hkeys, hs.nodes⟩
  · refine List.forall_mem_cons.mpr ⟨fun a ha b => ?_, fun D hD a ha b => ?_⟩
    · have hget : (lifted.foldl (preserve (external s.graph C)) s.graph).metaTargets.get a =
          g.metaTargets.get a := by
        rw [get_preserve, if_neg (mt (hact a).mp (hold a (hkeys a ha))),
          hs.get_member hkeys hdisjoint ha]
      have hkey : a ∈ (lifted.foldl (preserve (external s.graph C)) s.graph).metaTargets.keys := by
        rw [HashMap.mem_keys, hget]
        exact HashMap.mem_keys.mp (hkeys a ha)
      rw [mem_deps_rewire hkey ha, hall, DependencyGraph.deps, hget]
      refine or_iff_right_of_imp ?_
      rintro ⟨hb, hbC⟩
      exact Or.inl ⟨hbC, a, ha, hb⟩
    · rw [DependencyGraph.deps, hkeep a (fun hC => hdisjoint D hD hC ha)
        (hold a (hs.nodes D hD a ha))]
      exact hs.member D hD a ha b
  · refine List.forall_mem_cons.mpr ⟨fun a ha b => ?_, fun D hD a ha b => ?_⟩
    · have haC : a ∉ C := fun h => hold a (hkeys a h) ha
      rw [DependencyGraph.mem_deps, get_rewire_of_notMem haC, get_preserve,
        if_pos ((hact a).mpr ha), ← hs.mem_external hkeys hdisjoint]
      simp
    · rw [DependencyGraph.deps, hkeep a (hs.action_notMem hkeys hD ha) (hdone D hD a ha)]
      exact hs.lifted D hD a ha b
  · intro a ha
    obtain ⟨haC, hrest⟩ := List.forall_mem_cons.mp ha
    rw [hkeep a haC.1 haC.2, hs.other a hrest]
  · rw [copyDirectories_rewire, copyDirectories_preserve hl, hs.copies, List.map_map]
    refine List.map_congr_left fun d hd => ?_
    simp only [Function.comp_apply]
    by_cases hdC : d.name ∈ C
    · rw [if_pos ((hs.renamed_name hkeys hdisjoint d hd).mpr hdC), renamed_eq hdisjoint d hdC,
        renamed, if_pos (by simp [hdC])]
    · rw [if_neg (mt (hs.renamed_name hkeys hdisjoint d hd).mp hdC), renamed, renamed]
      simp [hdC]
  · intro a
    rw [hl.taken, hs.occupied, hs.exists_copy hkeys hdisjoint fun d => a = action d.name]
    simp only [List.mem_cons, exists_eq_or_imp, or_assoc]
    exact or_congr_right or_comm
  · refine List.forall_mem_cons.mpr ⟨fun a ha hocc => ?_, hs.fresh⟩
    exact hnew a ha ((hs.occupied a).mpr (Or.inl hocc))
  · intro d hd d' hd' hin hin' heq
    rw [List.flatten_cons, List.mem_append] at hin hin'
    have hmem : ∀ e ∈ g.copyDirectories, e.name ∈ done.flatten → action e.name ∈ s.occupied := by
      intro e he hein
      obtain ⟨D, hD, heD⟩ := List.mem_flatten.mp hein
      exact (hs.occupied _).mpr (Or.inr ⟨D, hD, e, he, heD, rfl⟩)
    rcases hin with hin | hin <;> rcases hin' with hin' | hin'
    · exact hl.inj d (hs.mem_copies hkeys hdisjoint hd hin) d'
        (hs.mem_copies hkeys hdisjoint hd' hin') hin hin' heq
    · exact absurd (heq ▸ hmem d' hd' hin') (hnew _ ⟨d, hd, hin, rfl⟩)
    · exact absurd (heq ▸ hmem d hd hin) (hnew _ ⟨d', hd', hin', rfl⟩)
    · exact hs.inj d hd d' hd' hin hin' heq
  · refine List.forall_mem_cons.mpr ⟨fun d hd hdC => ?_, hs.outer⟩
    exact hl.outer d (hs.mem_copies hkeys hdisjoint hd hdC) hdC

end

/-- **Flattening the components one after the other.** -/
theorem flattenComponents_progress {g g' : DependencyGraph} {reports : List String} :
    ∀ {todo done : List (List String)} {s : Flattening}, Progress action g done s →
      (∀ C ∈ todo, ∀ a ∈ C, a ∈ g.nodes) → (∀ C ∈ todo, ∀ D ∈ done, C.Disjoint D) →
      todo.Pairwise List.Disjoint → flattenComponents action todo s = (g', .ok reports) →
      ∃ s' : Flattening, s'.graph = g' ∧ Progress action g (todo.reverse ++ done) s'
  | [], done, s, hs, _, _, _, h => by
    obtain ⟨rfl, -⟩ := Prod.mk.inj h
    exact ⟨s, rfl, hs⟩
  | C :: todo, done, s, hs, hkeys, hdisjoint, hpair, h => by
    rw [flattenComponents] at h
    split at h
    · cases (Prod.mk.inj h).2
    · next s' hstep =>
      obtain ⟨hfirst, hpair⟩ := List.pairwise_cons.mp hpair
      have hs' := flattenComponent_progress hs (hkeys C List.mem_cons_self)
        (hdisjoint C List.mem_cons_self) hstep
      have hdisjoint' : ∀ D ∈ todo, ∀ E ∈ C :: done, D.Disjoint E := fun D hD =>
        List.forall_mem_cons.mpr ⟨(hfirst D hD).symm, hdisjoint D (List.mem_cons_of_mem _ hD)⟩
      have hrest := flattenComponents_progress hs'
        (fun D hD => hkeys D (List.mem_cons_of_mem _ hD)) hdisjoint' hpair h
      rwa [List.reverse_cons, List.append_assoc, List.singleton_append]

/-! ### A successful run -/

/-- The flattening lifts a declaration when its owner lies in a cyclic component. -/
def DependencyGraph.Lifts (g : DependencyGraph) (d : CopyDirectoryDecl) : Prop :=
  d ∈ g.copyDirectories ∧ g.Cyclic d.name

variable (action) in
/-- The graph `g'` is `g` with its cycles flattened. -/
structure Flattened (g g' : DependencyGraph) : Prop where
  member : ∀ a, g.Cyclic a → ∀ b, g'.Edge a b ↔
    (∃ m, Mutual g.Edge a m ∧ g.Edge m b ∧ ¬ Mutual g.Edge a b) ∨
      ∃ d, g.Lifts d ∧ Mutual g.Edge a d.name ∧ b = action d.name
  lifted : ∀ d, g.Lifts d → ∀ b, g'.Edge (action d.name) b ↔
    ∃ m, Mutual g.Edge d.name m ∧ g.Edge m b ∧ ¬ Mutual g.Edge d.name b
  other : ∀ a, ¬ g.Cyclic a → (∀ d, g.Lifts d → a ≠ action d.name) →
    g'.metaTargets.get a = g.metaTargets.get a
  copies : List.Forall₂ (fun d d' => (g.Cyclic d.name → d' = { d with name := action d.name }) ∧
    (¬ g.Cyclic d.name → d' = d)) g.copyDirectories g'.copyDirectories
  fresh : ∀ d, g.Lifts d → action d.name ∉ g.occupied
  inj : ∀ d d', g.Lifts d → g.Lifts d' → action d.name = action d'.name → d.name = d'.name
  outer : ∀ d, g.Lifts d → ∀ dep ∈ d.dependencies, ¬ Mutual g.Edge d.name dep

/-- **What a successful flattening leaves.** -/
theorem flattened_of_ok {g g' : DependencyGraph} {reports : List String}
    (h : flattenMetaCycles action g = some (g', .ok reports)) : Flattened action g g' := by
  rw [flattenMetaCycles, Option.bind_eq_bind, Option.bind_eq_some_iff] at h
  obtain ⟨components, hcomponents, h⟩ := h
  have hc := DependencyGraph.components_spec hcomponents
  obtain ⟨s, rfl, hs⟩ := flattenComponents_progress (progress_start g)
    (fun C hC a ha => (hc.cyclic C hC a ha).mem_nodes) (by simp) hc.disjoint (Option.some.inj h)
  rw [List.append_nil] at hs
  -- The components are given by their members.
  have hin : ∀ {C}, C ∈ components.reverse ↔ C ∈ components := List.mem_reverse
  have hcover : ∀ a, g.Cyclic a → ∃ C ∈ components.reverse, a ∈ C ∧
      ∀ b, b ∈ C ↔ Mutual g.Edge a b := by
    intro a ha
    obtain ⟨C, hC, haC⟩ := hc.covers a ha
    exact ⟨C, hin.mpr hC, haC, hc.same C hC a haC⟩
  have hflat : ∀ a, a ∈ components.reverse.flatten ↔ g.Cyclic a := by
    intro a
    rw [List.mem_flatten]
    constructor
    · rintro ⟨C, hC, haC⟩
      exact hc.cyclic C (hin.mp hC) a haC
    · intro ha
      obtain ⟨C, hC, haC, -⟩ := hcover a ha
      exact ⟨C, hC, haC⟩
  have hactions : ∀ {a b C}, g.Cyclic a → (∀ b, b ∈ C ↔ Mutual g.Edge a b) →
      (Actions action g C b ↔ ∃ d, g.Lifts d ∧ Mutual g.Edge a d.name ∧ b = action d.name) := by
    intro a b C ha hC
    constructor
    · rintro ⟨d, hd, hdC, rfl⟩
      have had := (hC d.name).mp hdC
      exact ⟨d, ⟨hd, had.transGen ha⟩, had, rfl⟩
    · rintro ⟨d, hd, had, rfl⟩
      exact ⟨d, hd.1, (hC d.name).mpr had, rfl⟩
  have houtside : ∀ {a b C}, (∀ b, b ∈ C ↔ Mutual g.Edge a b) →
      (Outside g C b ↔ ∃ m, Mutual g.Edge a m ∧ g.Edge m b ∧ ¬ Mutual g.Edge a b) := by
    intro a b C hC
    simp only [Outside, hC]
    tauto
  refine ⟨?_, ?_, ?_, ?_, ?_, ?_, ?_⟩
  · intro a ha b
    obtain ⟨C, hC, haC, hmut⟩ := hcover a ha
    rw [DependencyGraph.Edge, hs.member C hC a haC, houtside hmut, hactions ha hmut]
  · intro d hd b
    obtain ⟨C, hC, hdC, hmut⟩ := hcover d.name hd.2
    rw [DependencyGraph.Edge, hs.lifted C hC _ ⟨d, hd.1, hdC, rfl⟩, houtside hmut]
  · intro a ha hlift
    refine hs.other a fun C hC => ⟨fun haC => ha (hc.cyclic C (hin.mp hC) a haC), ?_⟩
    rintro ⟨d, hd, hdC, rfl⟩
    exact hlift d ⟨hd, hc.cyclic C (hin.mp hC) _ hdC⟩ rfl
  · rw [hs.copies, List.forall₂_map_right_iff, List.forall₂_same]
    intro d hd
    exact ⟨fun hcyc => if_pos ((hflat _).mpr hcyc), fun hcyc => if_neg (mt (hflat _).mp hcyc)⟩
  · intro d hd
    obtain ⟨C, hC, hdC, -⟩ := hcover d.name hd.2
    exact hs.fresh C hC _ ⟨d, hd.1, hdC, rfl⟩
  · intro d d' hd hd'
    exact hs.inj d hd.1 d' hd'.1 ((hflat _).mpr hd.2) ((hflat _).mpr hd'.2)
  · intro d hd dep hdep
    obtain ⟨C, hC, hdC, hmut⟩ := hcover d.name hd.2
    rw [← hmut]
    exact hs.outer C hC d hd.1 hdC dep hdep

end

end Transpiler

end ArosTools
