import ArosTools.Graph.Worklist
import ArosTools.Program.Except
import ArosTools.Transpiler.OwnerGraph

/-!
# Owner selection is exact

What one root, one owner, one dependency and one target of the queue do to the search
(`selectTarget_ok`), that every round keeps `Walking`, and that the rounds run out. From these:

* `select_returns` — selection ends on every graph, cyclic ones included;
* `select_exact` — its three sets are what they are named, whatever the roots' order.
-/

namespace ArosTools

namespace Transpiler

namespace OwnerGraph

variable {limits : Limits} {s s' : Spent} {n : ℕ} {label : String}

theorem checkedAdd_returns (current amount max : ℕ) (label : String) :
    (checkedAdd current amount max label).Returns := by
  unfold checkedAdd
  split
  · exact Checked.returns_fail _
  · split_ifs
    · exact Checked.returns_fail _
    · exact Checked.returns_ok _

theorem Spent.add_returns : (s.add n limits label).Returns :=
  (checkedAdd_returns _ _ _ _).bind fun _ _ => Checked.returns_pure _

theorem Spent.bump_returns : (s.bump limits label).Returns := Spent.add_returns

theorem Spent.charge_returns : (s.charge n limits label).Returns :=
  (checkedAdd_returns _ _ _ _).bind fun _ _ => Checked.returns_pure _

end OwnerGraph

open OwnerGraph

namespace MetaMakeOwnerGraph

variable {g : MetaMakeOwnerGraph} {limits : Limits} {s s' : Search} {a : Bytes}

/-! ### One step each -/

/-- What listing some endpoints, roots or dependencies alike, has done to the search. -/
structure Listed (g : MetaMakeOwnerGraph) (s : Search) (endpoints : List Bytes) (s' : Search) :
    Prop where
  reached : s'.selection.reachedTargets = s.selection.reachedTargets
  owners : s'.selection.selectedOwnerFiles = s.selection.selectedOwnerFiles
  queue : s'.queue = s.queue ++ endpoints.filter g.satisfies
  missing : s'.selection.missingEndpoints =
    s.selection.missingEndpoints.extend (endpoints.filter fun b => !g.satisfies b)

theorem listed_satisfied (spent : Spent) (ha : g.satisfies a) :
    Listed g s [a] { s with queue := s.queue ++ [a], spent := spent } := by
  refine ⟨rfl, rfl, ?_, ?_⟩
  · simp [ha]
  · simp [ha, BTreeSet.extend]

theorem listed_missing (spent : Spent) (ha : ¬ g.satisfies a) :
    Listed g s [a] { s with
      selection := { s.selection with missingEndpoints := s.selection.missingEndpoints.insert a }
      spent := spent } := by
  refine ⟨rfl, rfl, ?_, ?_⟩
  · simp [ha]
  · simp [ha, BTreeSet.extend]

theorem selectRoot_ok (h : g.selectRoot limits s a = .ok s') : Listed g s [a] s' := by
  obtain ⟨_, -, h⟩ := Except.bind_ok h
  obtain ⟨-, h⟩ := ite_error_ok h
  by_cases ha : g.satisfies a
  · rw [if_pos ha] at h
    obtain ⟨spent, -, ⟨⟩⟩ := Except.bind_ok h
    exact listed_satisfied spent ha
  · rw [if_neg ha] at h
    obtain ⟨spent, -, ⟨⟩⟩ := Except.bind_ok h
    exact listed_missing spent ha

theorem selectDependency_ok (h : g.selectDependency limits s a = .ok s') : Listed g s [a] s' := by
  obtain ⟨_, -, h⟩ := Except.bind_ok h
  by_cases ha : g.satisfies a
  · rw [if_pos ha] at h
    obtain ⟨spent, -, ⟨⟩⟩ := Except.bind_ok h
    exact listed_satisfied spent ha
  · rw [if_neg ha] at h
    obtain ⟨spent, -, ⟨⟩⟩ := Except.bind_ok h
    exact listed_missing spent ha

theorem selectOwner_ok (h : selectOwner limits s a = .ok s') :
    s'.queue = s.queue ∧ s'.selection = { s.selection with
      selectedOwnerFiles := s.selection.selectedOwnerFiles.insert a } := by
  obtain ⟨spent, -, ⟨⟩⟩ := Except.bind_ok h
  exact ⟨rfl, rfl⟩

theorem Listed.nil : Listed g s [] s :=
  ⟨rfl, rfl, by rw [List.filter_nil, List.append_nil], rfl⟩

theorem Listed.snoc {t : Search} {endpoints : List Bytes} (h : Listed g s endpoints t)
    (h' : Listed g t [a] s') : Listed g s (endpoints ++ [a]) s' where
  reached := h'.reached.trans h.reached
  owners := h'.owners.trans h.owners
  queue := by rw [h'.queue, h.queue, List.filter_append, List.append_assoc]
  missing := by
    rw [h'.missing, h.missing, List.filter_append]
    exact (List.foldl_append ..).symm

theorem listed_of_steps {f : Search → Bytes → ParseResult Search} {endpoints : List Bytes}
    (hstep : ∀ {a s s'}, f s a = .ok s' → Listed g s [a] s') (h : endpoints.foldlM f s = .ok s') :
    Listed g s endpoints s' :=
  Except.foldlM_ok (motive := fun done t => Listed g s done t) h Listed.nil
    fun _ _ _ _ ht ha => ht.snoc (hstep ha)

theorem owners_ok {owners : List Bytes} (h : owners.foldlM (selectOwner limits) s = .ok s') :
    s'.queue = s.queue ∧ s'.selection = { s.selection with
      selectedOwnerFiles := s.selection.selectedOwnerFiles.extend owners } := by
  refine Except.foldlM_ok (motive := fun done t => t.queue = s.queue ∧ t.selection =
    { s.selection with selectedOwnerFiles := s.selection.selectedOwnerFiles.extend done }) h
    ⟨rfl, rfl⟩ fun done a t t' ht ha => ?_
  obtain ⟨hqueue, hselection⟩ := selectOwner_ok ha
  refine ⟨hqueue.trans ht.1, ?_⟩
  rw [hselection, ht.2, BTreeSet.extend, BTreeSet.extend, List.foldl_append]
  rfl

/-- **A target of the queue is dropped, or reached with its owners and dependencies.** -/
theorem selectTarget_ok (h : g.selectTarget limits s a = .ok s') :
    (a ∈ s.selection.reachedTargets ∧ s'.queue = s.queue ∧ s'.selection = s.selection) ∨
    (a ∉ s.selection.reachedTargets ∧
      s'.queue = s.queue ++ (g.dependenciesOf a).filter g.satisfies ∧
      s'.selection.reachedTargets = s.selection.reachedTargets.insert a ∧
      s'.selection.missingEndpoints = s.selection.missingEndpoints.extend
        ((g.dependenciesOf a).filter fun b => !g.satisfies b) ∧
      s'.selection.selectedOwnerFiles = s.selection.selectedOwnerFiles.extend (g.ownersOf a)) := by
  obtain ⟨spent, -, h⟩ := Except.bind_ok h
  obtain ⟨spent', -, h⟩ := Except.bind_ok h
  by_cases ha : a ∈ s.selection.reachedTargets
  · rw [if_pos ha] at h
    cases h
    exact .inl ⟨ha, rfl, rfl⟩
  · rw [if_neg ha] at h
    obtain ⟨t, howners, h⟩ := Except.bind_ok h
    obtain ⟨hqueue, hselection⟩ := owners_ok howners
    have hlisted := listed_of_steps selectDependency_ok h
    refine .inr ⟨ha, ?_, ?_, ?_, ?_⟩
    · rw [hlisted.queue, hqueue]
    · rw [hlisted.reached, hselection]
    · rw [hlisted.missing, hselection]
    · rw [hlisted.owners, hselection]

/-! ### Every round -/

/-- The dependencies of a target that are followed. -/
def next (g : MetaMakeOwnerGraph) (target : Bytes) : Set Bytes :=
  {d | d ∈ g.dependenciesOf target ∧ g.satisfies d}

/-- The roots that are followed. -/
def knownRoots (g : MetaMakeOwnerGraph) (roots : List Bytes) : Set Bytes :=
  {r | r ∈ roots ∧ g.satisfies r}

/-- Between two rounds of the second loop: the reached targets and the queue stand as in a search,
and what is missing and what is owned is known for the targets reached so far. -/
structure Walking (g : MetaMakeOwnerGraph) (roots : List Bytes) (s : Search) : Prop where
  searched : Graph.Searched g.next (g.knownRoots roots) {a | a ∈ s.selection.reachedTargets}
    {a | a ∈ s.queue}
  missing : ∀ e, e ∈ s.selection.missingEndpoints ↔ ¬ g.satisfies e ∧
    (e ∈ roots ∨ ∃ t ∈ s.selection.reachedTargets, e ∈ g.dependenciesOf t)
  owners : ∀ f, f ∈ s.selection.selectedOwnerFiles ↔
    ∃ t ∈ s.selection.reachedTargets, f ∈ g.ownersOf t

theorem Walking.start {roots : List Bytes} (h : Listed g Search.start roots s) :
    Walking g roots s := by
  have hreached : s.selection.reachedTargets = .new := h.reached
  have hqueue : {a | a ∈ s.queue} = g.knownRoots roots := by
    ext a
    rw [h.queue]
    exact List.mem_filter
  refine ⟨?_, fun e => ?_, fun f => ?_⟩
  · rw [hqueue, hreached]
    have hnone : {a : Bytes | a ∈ (BTreeSet.new : BTreeSet Bytes)} = ∅ :=
      Set.eq_empty_of_forall_notMem fun _ => BTreeSet.notMem_new
    rw [hnone]
    exact Graph.Searched.start
  · rw [h.missing, hreached]
    simp [Search.start, and_comm]
  · rw [h.owners, hreached]
    simp [Search.start]

theorem Walking.step {roots queue : List Bytes} (h : Walking g roots s) (hqueue : s.queue = a :: queue)
    (hs : g.selectTarget limits { s with queue := queue } a = .ok s') : Walking g roots s' := by
  have hsearched := h.searched
  have hpending : {b | b ∈ s.queue} = insert a {b | b ∈ queue} := by
    ext b
    rw [hqueue]
    exact List.mem_cons
  rw [hpending] at hsearched
  rcases selectTarget_ok hs with ⟨ha, hqueue', hselection⟩ | ⟨-, hqueue', hreached, hmissing, howners⟩
  · refine ⟨?_, ?_, ?_⟩
    · rw [hqueue', hselection]
      exact hsearched.skip ha
    · rw [hselection]
      exact h.missing
    · rw [hselection]
      exact h.owners
  · refine ⟨?_, fun e => ?_, fun f => ?_⟩
    · have hvisited : {b | b ∈ s'.selection.reachedTargets} =
          insert a {b | b ∈ s.selection.reachedTargets} := by
        ext b
        rw [hreached]
        exact BTreeSet.mem_insert.trans or_comm
      have hgrown : {b | b ∈ s'.queue} = {b | b ∈ queue} ∪ g.next a := by
        ext b
        rw [hqueue']
        exact List.mem_append.trans (or_congr_right List.mem_filter)
      rw [hvisited, hgrown]
      exact hsearched.expand
    · rw [hmissing, hreached, BTreeSet.mem_extend, h.missing, List.mem_filter, Bool.not_eq_true']
      simp only [BTreeSet.mem_insert, or_and_right, exists_or, exists_eq_left, Bool.not_eq_true]
      rw [and_comm (a := e ∈ _), ← and_or_left, or_assoc]
    · rw [howners, hreached, BTreeSet.mem_extend, h.owners]
      simp only [BTreeSet.mem_insert, or_and_right, exists_or, exists_eq_left]

theorem Walking.drain {roots : List Bytes} {fuel : ℕ} (h : Walking g roots s)
    (hs : g.drain limits fuel s = .ok s') : Walking g roots s' ∧ s'.queue = [] := by
  induction fuel generalizing s with
  | zero => cases hs
  | succ fuel ih =>
    rw [MetaMakeOwnerGraph.drain] at hs
    split at hs
    · next hqueue =>
      cases hs
      exact ⟨h, hqueue⟩
    · next target queue hqueue =>
      obtain ⟨t, ht, hs⟩ := Except.bind_ok hs
      exact ih (h.step hqueue ht) hs

/-! ### The rounds run out -/

theorem selectRoot_returns : (g.selectRoot limits s a).Returns := by
  refine Spent.bump_returns.bind fun _ _ => ?_
  dsimp only
  split_ifs
  · exact Checked.returns_fail _
  · exact Spent.charge_returns.bind fun _ _ => Checked.returns_pure _
  · exact Spent.charge_returns.bind fun _ _ => Checked.returns_pure _

theorem selectOwner_returns : (selectOwner limits s a).Returns :=
  Spent.charge_returns.bind fun _ _ => Checked.returns_pure _

theorem selectDependency_returns : (g.selectDependency limits s a).Returns := by
  refine Spent.bump_returns.bind fun _ _ => ?_
  dsimp only
  split_ifs
  · exact Spent.charge_returns.bind fun _ _ => Checked.returns_pure _
  · exact Spent.charge_returns.bind fun _ _ => Checked.returns_pure _

theorem selectTarget_returns : (g.selectTarget limits s a).Returns := by
  refine Spent.bump_returns.bind fun _ _ => Spent.charge_returns.bind fun _ _ => ?_
  dsimp only
  split_ifs
  · exact Checked.returns_pure _
  · exact (Checked.Returns.foldlM (fun _ _ => selectOwner_returns) _ _).bind fun _ _ =>
      Checked.Returns.foldlM (fun _ _ => selectDependency_returns) _ _

/-- The dependencies of the targets not reached yet. -/
def ahead (g : MetaMakeOwnerGraph) (s : Search) : ℕ :=
  ∑ t ∈ g.dependencies.keys.toFinset \ s.selection.reachedTargets.elems.toFinset,
    (g.dependenciesOf t).length

theorem ahead_insert (hnew : a ∉ s.selection.reachedTargets)
    (hreached : s'.selection.reachedTargets = s.selection.reachedTargets.insert a) :
    g.ahead s' + (g.dependenciesOf a).length ≤ g.ahead s := by
  have hinsert : s'.selection.reachedTargets.elems.toFinset =
      insert a s.selection.reachedTargets.elems.toFinset := by
    ext b
    rw [hreached, List.mem_toFinset, Finset.mem_insert, List.mem_toFinset]
    exact BTreeSet.mem_insert.trans or_comm
  rw [ahead, ahead, hinsert]
  refine Graph.sum_sdiff_insert (fun h => hnew (List.mem_toFinset.mp h)) ?_
  -- a target without an entry has no dependencies
  by_cases hkey : a ∈ g.dependencies.keys
  · exact .inl (List.mem_toFinset.mpr hkey)
  · refine .inr ?_
    rw [dependenciesOf, BTreeMap.get_eq_none.mpr hkey]
    rfl

/-- **Every round takes a target from the queue and pays for those it adds.** -/
theorem selectTarget_measure (h : g.selectTarget limits s a = .ok s') :
    s'.queue.length + g.ahead s' ≤ s.queue.length + g.ahead s := by
  rcases selectTarget_ok h with ⟨-, hqueue, hselection⟩ | ⟨hnew, hqueue, hreached, -, -⟩
  · rw [hqueue, ahead, ahead, hselection]
  · have hpaid := ahead_insert (g := g) hnew hreached
    have hadded := List.length_filter_le g.satisfies (g.dependenciesOf a)
    rw [hqueue, List.length_append]
    omega

theorem drain_returns {fuel : ℕ} (h : s.queue.length + g.ahead s < fuel) :
    (g.drain limits fuel s).Returns := by
  induction fuel generalizing s with
  | zero => omega
  | succ fuel ih =>
    rw [MetaMakeOwnerGraph.drain]
    split
    · exact Checked.returns_ok _
    · next target queue hqueue =>
      refine selectTarget_returns.bind fun t ht => ih ?_
      have hround := selectTarget_measure ht
      have hsame : g.ahead { s with queue := queue } = g.ahead s := rfl
      rw [hqueue, List.length_cons] at h
      rw [hsame] at hround
      dsimp only at hround
      omega

theorem ahead_start (h : s.selection.reachedTargets = .new) :
    g.ahead s = (g.dependencies.keys.map fun t => (g.dependenciesOf t).length).sum := by
  rw [ahead, h]
  have hnone : (BTreeSet.new : BTreeSet Bytes).elems.toFinset = ∅ := rfl
  rw [hnone, Finset.sdiff_empty, List.sum_toFinset _ g.dependencies.nodup_keys]

/-- **Selection ends on every graph.** -/
theorem select_returns (g : MetaMakeOwnerGraph) (limits : Limits) (roots : List Bytes) :
    (g.select limits roots).Returns := by
  refine (Checked.Returns.foldlM (fun _ _ => selectRoot_returns) _ _).bind fun s hs => ?_
  have hlisted := listed_of_steps selectRoot_ok hs
  refine (drain_returns ?_).bind fun t _ => Checked.returns_pure _
  have hlength := List.length_filter_le g.satisfies roots
  rw [hlisted.queue, ahead_start hlisted.reached, rounds]
  simp only [Search.start, List.nil_append]
  omega

/-! ### What is selected -/

theorem select_ok {roots : List Bytes} {selection : Selection}
    (h : g.select limits roots = .ok selection) :
    ∃ s, Walking g roots s ∧ s.queue = [] ∧ s.selection = selection := by
  obtain ⟨s, hroots, h⟩ := Except.bind_ok h
  obtain ⟨t, hdrain, ⟨⟩⟩ := Except.bind_ok h
  obtain ⟨hwalking, hqueue⟩ := (Walking.start (listed_of_steps selectRoot_ok hroots)).drain hdrain
  exact ⟨t, hwalking, hqueue, rfl⟩

/-- The three sets of a selection are what they are named. -/
structure Exact (g : MetaMakeOwnerGraph) (roots : List Bytes) (selection : Selection) : Prop where
  /-- The least set with the non-empty known roots that non-empty known dependencies do not
  leave. -/
  reached : IsLeast {S : Set Bytes |
      (∀ r ∈ roots, r ≠ [] → r ∈ g.knownTargets → r ∈ S) ∧
      ∀ t ∈ S, ∀ d ∈ g.dependenciesOf t, d ≠ [] → d ∈ g.knownTargets → d ∈ S}
    {t | t ∈ selection.reachedTargets}
  /-- The roots and the dependencies of reached targets that are empty or not known. -/
  missing : ∀ e, e ∈ selection.missingEndpoints ↔ (e = [] ∨ e ∉ g.knownTargets) ∧
    (e ∈ roots ∨ ∃ t ∈ selection.reachedTargets, e ∈ g.dependenciesOf t)
  /-- The owners of reached targets. -/
  owners : ∀ f, f ∈ selection.selectedOwnerFiles ↔
    ∃ t ∈ selection.reachedTargets, f ∈ g.ownersOf t

theorem satisfies_iff : g.satisfies a ↔ a ≠ [] ∧ a ∈ g.knownTargets := by simp [satisfies]

theorem Walking.exact {roots : List Bytes} (h : Walking g roots s) (hqueue : s.queue = []) :
    Exact g roots s.selection := by
  refine ⟨?_, fun e => ?_, h.owners⟩
  · have hpending : {a | a ∈ s.queue} = ∅ := by
      rw [hqueue]
      exact Set.eq_empty_of_forall_notMem fun _ => List.not_mem_nil
    have hleast := (hpending ▸ h.searched).isLeast
    convert hleast using 1
    ext S
    simp only [Graph.ClosedOver, knownRoots, next, Set.subset_def, Set.mem_ofPred_eq, satisfies_iff,
      and_imp]
  · rw [h.missing, satisfies_iff, not_and_or, not_not]

theorem Exact.unique {roots roots' : List Bytes} {selection selection' : Selection}
    (hroots : ∀ r, r ∈ roots ↔ r ∈ roots') (h : Exact g roots selection)
    (h' : Exact g roots' selection') : selection = selection' := by
  have hreached : selection.reachedTargets = selection'.reachedTargets := by
    have hleast := h.reached
    simp only [hroots] at hleast
    exact BTreeSet.ext fun a => Set.ext_iff.mp (hleast.unique h'.reached) a
  have hmissing : selection.missingEndpoints = selection'.missingEndpoints :=
    BTreeSet.ext fun e => by rw [h.missing, h'.missing, hroots, hreached]
  have howners : selection.selectedOwnerFiles = selection'.selectedOwnerFiles :=
    BTreeSet.ext fun f => by rw [h.owners, h'.owners, hreached]
  obtain ⟨_, _, _⟩ := selection
  obtain ⟨_, _, _⟩ := selection'
  cases hreached
  cases hmissing
  cases howners
  rfl

/-- **Owner selection is exact.** It ends on every graph, a result it returns consists of the three
sets it is named for, and roots in another order or repeated give the same result. -/
theorem select_exact (g : MetaMakeOwnerGraph) (limits : Limits) (roots : List Bytes) :
    (g.select limits roots).Returns ∧
    ∀ selection, g.select limits roots = .ok selection →
      Exact g roots selection ∧
      ∀ limits' roots' selection', (∀ r, r ∈ roots ↔ r ∈ roots') →
        g.select limits' roots' = .ok selection' → selection' = selection := by
  refine ⟨select_returns g limits roots, fun selection h => ?_⟩
  obtain ⟨s, hwalking, hqueue, rfl⟩ := select_ok h
  refine ⟨hwalking.exact hqueue, fun limits' roots' selection' hroots h' => ?_⟩
  obtain ⟨s', hwalking', hqueue', rfl⟩ := select_ok h'
  exact ((hwalking.exact hqueue).unique hroots (hwalking'.exact hqueue')).symm

/-- Two targets that depend on each other, on an empty name and on an unknown one. -/
def twoCycle : MetaMakeOwnerGraph where
  knownTargets := .collect [ascii "a", ascii "b", []]
  dependencies := (BTreeMap.new.insert (ascii "a") (.collect [ascii "b", []])).insert (ascii "b")
    (.collect [ascii "a", ascii "c"])
  owners := BTreeMap.new.insert (ascii "b") (.collect [ascii "b/Makefile"])
  declarations := []

/-- What the roots `b`, `d` and `b` select in it. -/
def twoCycleSelection : Selection where
  reachedTargets := .collect [ascii "a", ascii "b"]
  missingEndpoints := .collect [[], ascii "c", ascii "d"]
  selectedOwnerFiles := .collect [ascii "b/Makefile"]

theorem select_exact_twoCycle :
    twoCycle.select .default [ascii "b", ascii "d", ascii "b"] = .ok twoCycleSelection ∧
    Exact twoCycle [ascii "b", ascii "d", ascii "b"] twoCycleSelection ∧
    ∀ selection', twoCycle.select .default [ascii "d", ascii "b"] = .ok selection' →
      selection' = twoCycleSelection := by
  have hselect :
      twoCycle.select .default [ascii "b", ascii "d", ascii "b"] = .ok twoCycleSelection := by
    decide
  obtain ⟨hexact, hunique⟩ := (select_exact twoCycle .default _).2 twoCycleSelection hselect
  exact ⟨hselect, hexact, fun selection' h => hunique .default _ selection' (by simp) h⟩

end MetaMakeOwnerGraph

end Transpiler

end ArosTools
