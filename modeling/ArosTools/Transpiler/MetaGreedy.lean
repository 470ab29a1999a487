import ArosTools.Graph.Greedy
import ArosTools.Transpiler.MetaScc

/-!
# The edges that are left out

* `reaches_iff` : the search in the kept edges.
* `mem_tryEdges` : which edges of a component the loop drops.
* `implicitCycleEdges_greedy` : the result is the greedy choice among the valid edges, by name.
* `implicit_cycle_edges_exact` : **cycle breaking is exact and minimal**.
-/

namespace ArosTools

namespace Generator

open Relation ArosTools.Graph Str

/-! ### The search in the kept edges -/

section

variable {edges : ℕ → List ℕ} {count : ℕ}

/-- What the inner loop of `reaches` adds: the nodes that have not been seen. -/
theorem foldl_unseen (nexts : List ℕ) : ∀ (seen stack : List ℕ), ∃ new : List ℕ,
    nexts.foldl (fun (found : List ℕ × List ℕ) next =>
      if next ∈ found.1 then found else (next :: found.1, next :: found.2)) (seen, stack) =
        (new ++ seen, new ++ stack) ∧
      (∀ v ∈ new, v ∈ nexts) ∧ (seen.Nodup → (new ++ seen).Nodup) ∧
      ∀ v ∈ nexts, v ∈ new ++ seen := by
  induction nexts with
  | nil => exact fun seen stack => ⟨[], rfl, by simp, id, by simp⟩
  | cons next nexts ih =>
    intro seen stack
    rw [List.foldl_cons]
    by_cases hnext : next ∈ seen
    · obtain ⟨new, heq, hmem, hnodup, hall⟩ := ih seen stack
      refine ⟨new, by rw [if_pos hnext, heq], fun v hv => by simp [hmem v hv], hnodup, ?_⟩
      intro v hv
      rcases List.mem_cons.mp hv with rfl | hv
      · simp [hnext]
      · exact hall v hv
    · obtain ⟨new, heq, hmem, hnodup, hall⟩ := ih (next :: seen) (next :: stack)
      refine ⟨new ++ [next], by rw [if_neg hnext, heq]; simp, fun v hv => ?_, fun hseen => ?_,
        fun v hv => ?_⟩
      · rcases List.mem_append.mp hv with hv | hv
        · simp [hmem v hv]
        · simp [List.mem_singleton.mp hv]
      · simpa using hnodup (List.nodup_cons.mpr ⟨hnext, hseen⟩)
      · rcases List.mem_cons.mp hv with rfl | hv
        · simp
        · simpa using hall v hv

/-- A seen node that reaches the goal, when the nodes that are not on the stack are done. -/
theorem exists_stack_reach {goal : ℕ} {seen stack : List ℕ}
    (hdone : ∀ v ∈ seen, v ∉ stack → v ≠ goal ∧ ∀ w ∈ edges v, w ∈ seen) {v : ℕ}
    (hreach : ReflTransGen (Succ edges) v goal) : v ∈ seen → ∃ w, w ∈ stack := by
  induction hreach using ReflTransGen.head_induction_on with
  | refl =>
    intro hv
    by_contra hnone
    exact (hdone goal hv fun hmem => hnone ⟨goal, hmem⟩).1 rfl
  | @head u w hedge _ ih =>
    intro hv
    by_cases hmem : u ∈ stack
    · exact ⟨u, hmem⟩
    · exact ih ((hdone u hv hmem).2 w hedge)

/-- The loop of `reaches` finds the goal exactly if a node seen reaches it. -/
theorem reachesLoop_iff (hedges : ∀ u < count, ∀ w ∈ edges u, w < count) (goal : ℕ) :
    ∀ (fuel : ℕ) (seen stack : List ℕ), (∀ v ∈ seen, v < count) → seen.Nodup →
      (∀ v ∈ stack, v ∈ seen) →
      (∀ v ∈ seen, v ∉ stack → v ≠ goal ∧ ∀ w ∈ edges v, w ∈ seen) →
      count - seen.length + stack.length < fuel →
      (reachesLoop edges goal fuel seen stack = true ↔
        ∃ v ∈ seen, ReflTransGen (Succ edges) v goal)
  | 0, _, _, _, _, _, _, hfuel => by omega
  | fuel + 1, seen, [], hbound, _, _, hdone, _ => by
    simp only [reachesLoop, Bool.false_eq_true, false_iff, not_exists, not_and]
    intro v hv hreach
    obtain ⟨w, hw⟩ := exists_stack_reach hdone hreach hv
    cases hw
  | fuel + 1, seen, node :: stack, hbound, hnodup, hstack, hdone, hfuel => by
    have hnode : node ∈ seen := hstack node (by simp)
    rw [reachesLoop]
    by_cases hgoal : node = goal
    · simp only [if_pos hgoal, true_iff]
      exact ⟨node, hnode, hgoal ▸ .refl⟩
    · rw [if_neg hgoal]
      obtain ⟨new, heq, hnew, hnodup', hall⟩ := foldl_unseen (edges node) seen stack
      have hbound' : ∀ v ∈ new ++ seen, v < count := by
        intro v hv
        rcases List.mem_append.mp hv with hv | hv
        · exact hedges node (hbound node hnode) v (hnew v hv)
        · exact hbound v hv
      have hlength : (new ++ seen).length ≤ count := by
        have hsub : (new ++ seen).toFinset ⊆ Finset.range count := fun v hv =>
          Finset.mem_range.mpr (hbound' v (List.mem_toFinset.mp hv))
        have hcard := Finset.card_le_card hsub
        rwa [List.toFinset_card_of_nodup (hnodup' hnodup), Finset.card_range] at hcard
      rw [heq]
      have ih := reachesLoop_iff hedges goal fuel (new ++ seen) (new ++ stack) hbound'
        (hnodup' hnodup) ?_ ?_ ?_
      · dsimp only
        rw [ih]
        constructor
        · rintro ⟨v, hv, hreach⟩
          rcases List.mem_append.mp hv with hv | hv
          · exact ⟨node, hnode, .head (hnew v hv) hreach⟩
          · exact ⟨v, hv, hreach⟩
        · rintro ⟨v, hv, hreach⟩
          exact ⟨v, by simp [hv], hreach⟩
      · intro v hv
        rcases List.mem_append.mp hv with hv | hv
        · simp [hv]
        · simp [hstack v (by simp [hv])]
      · intro v hv hout
        obtain ⟨hout₁, hout₂⟩ := not_or.mp (mt List.mem_append.mpr hout)
        have hv := (List.mem_append.mp hv).resolve_left hout₁
        by_cases hvn : v = node
        · subst hvn
          exact ⟨hgoal, hall⟩
        · obtain ⟨hne, hnexts⟩ := hdone v hv (by simp [hvn, hout₂])
          exact ⟨hne, fun w hw => by simp [hnexts w hw]⟩
      · simp only [List.length_append, List.length_cons] at hfuel hlength ⊢
        omega

/-- **The search in the kept edges is right.** -/
theorem reaches_iff (hedges : ∀ u < count, ∀ w ∈ edges u, w < count) {start : ℕ} (goal : ℕ)
    (hstart : start < count) :
    reaches count edges start goal = true ↔ ReflTransGen (Succ edges) start goal := by
  rw [reaches, reachesLoop_iff hedges goal (count + 1) [start] [start] (by simpa using hstart)
    (by simp) (by simp) (by simp) (by simp only [List.length_singleton]; omega)]
  simp

end

/-! ### Trying the edges of a component -/

theorem tryEdges_append (count : ℕ) (edges : List (ℕ × ℕ)) : ∀ (kept : ℕ → List ℕ)
    (dropped : List (ℕ × ℕ)),
    edges.foldl (fun (tried : (ℕ → List ℕ) × List (ℕ × ℕ)) edge =>
      if reaches count tried.1 edge.2 edge.1 then (tried.1, tried.2 ++ [edge])
      else (Function.update tried.1 edge.1 (tried.1 edge.1 ++ [edge.2]), tried.2)) (kept, dropped) =
        ((tryEdges count kept edges).1, dropped ++ (tryEdges count kept edges).2) := by
  induction edges with
  | nil => simp [tryEdges]
  | cons edge edges ih =>
    intro kept dropped
    rw [tryEdges, List.foldl_cons, List.foldl_cons]
    by_cases hreach : reaches count kept edge.2 edge.1 = true
    · rw [if_pos hreach, if_pos hreach, ih, ih]
      simp
    · rw [if_neg hreach, if_neg hreach, ih, ih]
      simp

theorem tryEdges_cons_of_reaches {count : ℕ} {kept : ℕ → List ℕ} {edge : ℕ × ℕ}
    (edges : List (ℕ × ℕ)) (h : reaches count kept edge.2 edge.1 = true) :
    (tryEdges count kept (edge :: edges)).2 = edge :: (tryEdges count kept edges).2 := by
  rw [tryEdges, List.foldl_cons, if_pos h, tryEdges_append]
  rfl

theorem tryEdges_cons_of_not_reaches {count : ℕ} {kept : ℕ → List ℕ} {edge : ℕ × ℕ}
    (edges : List (ℕ × ℕ)) (h : ¬ reaches count kept edge.2 edge.1 = true) :
    (tryEdges count kept (edge :: edges)).2 =
      (tryEdges count (Function.update kept edge.1 (kept edge.1 ++ [edge.2])) edges).2 := by
  rw [tryEdges, List.foldl_cons, if_neg h, tryEdges]

theorem mem_of_mem_tryEdges {count : ℕ} {edge : ℕ × ℕ} (edges : List (ℕ × ℕ)) :
    ∀ {kept : ℕ → List ℕ}, edge ∈ (tryEdges count kept edges).2 → edge ∈ edges := by
  induction edges with
  | nil => intro kept h; exact h
  | cons first edges ih =>
    intro kept h
    by_cases hreach : reaches count kept first.2 first.1 = true
    · rw [tryEdges_cons_of_reaches edges hreach] at h
      rcases List.mem_cons.mp h with rfl | h
      · simp
      · simp [ih h]
    · rw [tryEdges_cons_of_not_reaches edges hreach] at h
      simp [ih h]

/-- Which edges the loop drops, if it tries them in the order of their keys. -/
theorem mem_tryEdges {κ : Type*} [LinearOrder κ] (key : ℕ × ℕ → κ) {count : ℕ}
    {edges : List (ℕ × ℕ)} : ∀ {kept : ℕ → List ℕ}, (∀ u < count, ∀ w ∈ kept u, w < count) →
      (∀ e ∈ edges, e.1 < count ∧ e.2 < count) → edges.Pairwise (fun a b => key a < key b) →
      ∀ edge, edge ∈ (tryEdges count kept edges).2 ↔ edge ∈ edges ∧
        ReflTransGen (fun x y => y ∈ kept x ∨ ((x, y) ∈ edges ∧ key (x, y) < key edge ∧
          (x, y) ∉ (tryEdges count kept edges).2)) edge.2 edge.1 := by
  induction edges with
  | nil => simp [tryEdges]
  | cons first edges ih =>
    intro kept hkept hbound hsorted edge
    obtain ⟨hfirst, hsorted⟩ := List.pairwise_cons.mp hsorted
    have hbound' : ∀ e ∈ edges, e.1 < count ∧ e.2 < count := fun e he => hbound e (by simp [he])
    obtain ⟨hsource, htarget⟩ := hbound first (by simp)
    have hnotMem : first ∉ edges := fun hmem => lt_irrefl _ (hfirst first hmem)
    have hiff := reaches_iff hkept first.1 htarget
    -- No edge is tried before the first one.
    have hleast : ∀ x y, (x, y) ∈ first :: edges → ¬ key (x, y) < key first := by
      intro x y hmem hlt
      rcases List.mem_cons.mp hmem with heq | hmem
      · rw [heq] at hlt
        exact lt_irrefl _ hlt
      · exact lt_asymm hlt (hfirst _ hmem)
    by_cases hreach : reaches count kept first.2 first.1 = true
    · rw [tryEdges_cons_of_reaches edges hreach, List.mem_cons, List.mem_cons]
      by_cases hedge : edge = first
      · subst hedge
        simp only [true_or, true_and, true_iff]
        exact (hiff.mp hreach).lift id fun x y hxy => .inl hxy
      · simp only [hedge, false_or]
        rw [ih hkept hbound' hsorted edge]
        refine and_congr_right fun hmem => ?_
        have hrel : ∀ x y, (y ∈ kept x ∨ ((x, y) ∈ edges ∧ key (x, y) < key edge ∧
            (x, y) ∉ (tryEdges count kept edges).2)) ↔
            (y ∈ kept x ∨ ((x, y) ∈ first :: edges ∧ key (x, y) < key edge ∧
              (x, y) ∉ first :: (tryEdges count kept edges).2)) := by
          intro x y
          refine or_congr_right ⟨fun ⟨hin, hlt, hout⟩ => ⟨by simp [hin], hlt, ?_⟩,
            fun ⟨hin, hlt, hout⟩ => ?_⟩
          · intro hmem
            rcases List.mem_cons.mp hmem with heq | hmem
            · exact hnotMem (heq ▸ hin)
            · exact hout hmem
          · obtain ⟨hne, hout⟩ := not_or.mp (mt List.mem_cons.mpr hout)
            exact ⟨(List.mem_cons.mp hin).resolve_left hne, hlt, hout⟩
        simp only [hrel]
    · have hbounded : ∀ u < count,
          ∀ w ∈ Function.update kept first.1 (kept first.1 ++ [first.2]) u, w < count := by
        intro u hu w hw
        by_cases hufirst : u = first.1
        · subst hufirst
          rw [Function.update_self] at hw
          rcases List.mem_append.mp hw with hw | hw
          · exact hkept _ hu w hw
          · rw [List.mem_singleton.mp hw]
            exact htarget
        · rw [Function.update_of_ne hufirst] at hw
          exact hkept u hu w hw
      rw [tryEdges_cons_of_not_reaches edges hreach]
      have hstays : first ∉ (tryEdges count
          (Function.update kept first.1 (kept first.1 ++ [first.2])) edges).2 :=
        fun hmem => hnotMem (mem_of_mem_tryEdges edges hmem)
      by_cases hedge : edge = first
      · subst hedge
        simp only [hstays, false_iff, not_and]
        intro _ hpath
        refine hreach (hiff.mpr (hpath.lift id fun x y hxy => ?_))
        rcases hxy with hxy | ⟨hin, hlt, -⟩
        · exact hxy
        · exact absurd hlt (hleast x y hin)
      · rw [ih hbounded hbound' hsorted edge, List.mem_cons]
        simp only [hedge, false_or]
        refine and_congr_right fun hmem => ?_
        have hrel : ∀ x y, (y ∈ Function.update kept first.1 (kept first.1 ++ [first.2]) x ∨
            ((x, y) ∈ edges ∧ key (x, y) < key edge ∧ (x, y) ∉ (tryEdges count
              (Function.update kept first.1 (kept first.1 ++ [first.2])) edges).2)) ↔
            (y ∈ kept x ∨ ((x, y) ∈ first :: edges ∧ key (x, y) < key edge ∧
              (x, y) ∉ (tryEdges count
                (Function.update kept first.1 (kept first.1 ++ [first.2])) edges).2)) := by
          intro x y
          have hupdate : y ∈ Function.update kept first.1 (kept first.1 ++ [first.2]) x ↔
              y ∈ kept x ∨ (x, y) = first := by
            by_cases hx : x = first.1
            · subst hx
              rw [Function.update_self, List.mem_append, List.mem_singleton, Prod.ext_iff]
              simp
            · rw [Function.update_of_ne hx]
              exact ⟨.inl, fun h => h.resolve_right fun heq => hx (congrArg Prod.fst heq)⟩
          rw [hupdate, or_assoc, List.mem_cons]
          refine or_congr_right ⟨?_, ?_⟩
          · rintro (heq | ⟨hin, hlt, hout⟩)
            · rw [heq]
              exact ⟨.inl rfl, hfirst edge hmem, hstays⟩
            · exact ⟨.inr hin, hlt, hout⟩
          · rintro ⟨heq | hin, hlt, hout⟩
            · exact .inl heq
            · exact .inr ⟨hin, hlt, hout⟩
        simp only [hrel]

/-! ### Names and numbers -/

/-- A valid edge between two rules, by name. -/
def ValidEdge (allTargets allMetas : HashSet Text) (metaRules : List MetaRule) (u v : Text) : Prop :=
  (∃ rule ∈ metaRules, rule.1 = u ∧ v ∈ rule.2) ∧ v ≠ u ∧ (v ∈ allTargets ∨ v ∈ allMetas) ∧
    v ∈ metaRules.map Prod.fst

theorem indexNames_eq {metaRules : List MetaRule} (hnames : (metaRules.map Prod.fst).Nodup) :
    indexNames metaRules = metaRules.map Prod.fst := by
  have hfold : ∀ (rules : List MetaRule) (names : List Text),
      (names ++ rules.map Prod.fst).Nodup →
      rules.foldl (fun names rule => if rule.1 ∈ names then names else names ++ [rule.1]) names =
        names ++ rules.map Prod.fst := by
    intro rules
    induction rules with
    | nil => simp
    | cons rule rules ih =>
      intro names hnodup
      rw [List.map_cons, List.append_cons] at hnodup
      have hnew : rule.1 ∉ names := fun hmem =>
        (List.nodup_append.mp (List.nodup_append.mp hnodup).1).2.2 _ hmem _ (by simp) rfl
      rw [List.foldl_cons, if_neg hnew, ih _ hnodup, List.map_cons, ← List.append_cons]
  simpa [indexNames] using hfold metaRules [] (by simpa using hnames)

section

variable {names : List Text}

theorem nodeName_eq {node : ℕ} (h : node < names.length) : nodeName names node = names[node] := by
  rw [nodeName, List.getD_eq_getElem?_getD, List.getElem?_eq_getElem h]
  rfl

theorem nodeName_mem {node : ℕ} (h : node < names.length) : nodeName names node ∈ names := by
  rw [nodeName_eq h]
  exact List.getElem_mem h

theorem exists_nodeName {name : Text} (h : name ∈ names) :
    ∃ node < names.length, nodeName names node = name := by
  obtain ⟨node, hnode, rfl⟩ := List.getElem_of_mem h
  exact ⟨node, hnode, nodeName_eq hnode⟩

theorem nodeName_inj (hnames : names.Nodup) {i j : ℕ} (hi : i < names.length)
    (hj : j < names.length) (h : nodeName names i = nodeName names j) : i = j := by
  rw [nodeName_eq hi, nodeName_eq hj] at h
  exact (hnames.getElem_inj_iff).mp h

theorem idxOf?_iff (hnames : names.Nodup) {name : Text} {node : ℕ} :
    names.idxOf? name = some node ↔ node < names.length ∧ nodeName names node = name := by
  rw [List.idxOf?_eq_some_iff]
  constructor
  · rintro ⟨h, heq, -⟩
    exact ⟨h, (nodeName_eq h).trans heq⟩
  · rintro ⟨h, heq⟩
    rw [nodeName_eq h] at heq
    refine ⟨h, heq, fun j hj hjeq => ?_⟩
    have := (hnames.getElem_inj_iff).mp (hjeq.trans heq.symm)
    omega

theorem edgeNames_inj (hnames : names.Nodup) {d e : ℕ × ℕ}
    (hd : d.1 < names.length ∧ d.2 < names.length) (he : e.1 < names.length ∧ e.2 < names.length)
    (h : edgeNames names d = edgeNames names e) : d = e := by
  obtain ⟨h₁, h₂⟩ := Prod.mk.inj h
  exact Prod.ext (nodeName_inj hnames hd.1 he.1 h₁) (nodeName_inj hnames hd.2 he.2 h₂)

/-- A path between names is a path between their numbers. -/
theorem reach_nodes {R : Text → Text → Prop}
    (hR : ∀ u v, R u v → v ∈ names) {j : ℕ} {y : Text} (hj : j < names.length)
    (hpath : ReflTransGen R (nodeName names j) y) :
    ∃ k < names.length, nodeName names k = y ∧ ReflTransGen (fun x y => x < names.length ∧
      y < names.length ∧ R (nodeName names x) (nodeName names y)) j k := by
  induction hpath with
  | refl => exact ⟨j, hj, rfl, .refl⟩
  | tail _ hstep ih =>
    obtain ⟨k, hk, rfl, hreach⟩ := ih
    obtain ⟨m, hm, rfl⟩ := exists_nodeName (hR _ _ hstep)
    exact ⟨m, hm, rfl, hreach.tail ⟨hk, hm, hstep⟩⟩

end

section

variable {allTargets allMetas : HashSet Text} {metaRules : List MetaRule}

/-- The edges by number are the valid edges by name. -/
theorem mem_nodeEdges (hnames : (metaRules.map Prod.fst).Nodup) {i j : ℕ} :
    j ∈ nodeEdges allTargets allMetas metaRules (metaRules.map Prod.fst) i ↔
      i < (metaRules.map Prod.fst).length ∧ j < (metaRules.map Prod.fst).length ∧
        ValidEdge allTargets allMetas metaRules (nodeName (metaRules.map Prod.fst) i)
          (nodeName (metaRules.map Prod.fst) j) := by
  simp only [nodeEdges, ruleEdges, List.mem_flatMap]
  constructor
  · rintro ⟨rule, hrule, hmem⟩
    split_ifs at hmem with hname
    · obtain ⟨hi, hname⟩ := (idxOf?_iff hnames).mp hname
      obtain ⟨dep, hdep, hindex⟩ := List.mem_filterMap.mp hmem
      split_ifs at hindex with hvalid
      obtain ⟨hj, rfl⟩ := (idxOf?_iff hnames).mp hindex
      refine ⟨hi, hj, ⟨rule, hrule, hname.symm, hdep⟩, ?_, hvalid.2, nodeName_mem hj⟩
      rw [hname]
      exact hvalid.1
    · cases hmem
  · rintro ⟨hi, hj, ⟨rule, hrule, hname, hdep⟩, hne, hvalid, -⟩
    refine ⟨rule, hrule, ?_⟩
    rw [if_pos ((idxOf?_iff hnames).mpr ⟨hi, hname.symm⟩)]
    refine List.mem_filterMap.mpr ⟨_, hdep, ?_⟩
    rw [if_pos ⟨by rw [hname]; exact hne, hvalid⟩]
    exact (idxOf?_iff hnames).mpr ⟨hj, rfl⟩

theorem nodup_ruleEdges (hnames : (metaRules.map Prod.fst).Nodup) (rule : MetaRule) :
    (ruleEdges allTargets allMetas (metaRules.map Prod.fst) rule).Nodup := by
  refine rule.2.nodup.filterMap fun dep dep' j hdep hdep' => ?_
  simp only [Option.mem_def] at hdep hdep'
  split_ifs at hdep hdep'
  rw [← ((idxOf?_iff hnames).mp hdep).2, ((idxOf?_iff hnames).mp hdep').2]

theorem nodup_nodeEdges (hnames : (metaRules.map Prod.fst).Nodup) (i : ℕ) :
    (nodeEdges allTargets allMetas metaRules (metaRules.map Prod.fst) i).Nodup := by
  refine List.nodup_flatMap.mpr ⟨fun rule _ => ?_, ?_⟩
  · split_ifs
    · exact nodup_ruleEdges hnames rule
    · exact List.nodup_nil
  · -- Two rules of one number have one name.
    have hpairwise : metaRules.Pairwise fun a b => a.1 ≠ b.1 := List.pairwise_map.mp hnames
    refine hpairwise.imp fun {a b} hne => ?_
    dsimp only [Function.onFun]
    split_ifs with ha hb
    · have := ((idxOf?_iff hnames).mp ha).2.symm.trans ((idxOf?_iff hnames).mp hb).2
      exact absurd this hne
    all_goals simp

end

/-! ### The edges of one component -/

section

variable {explicit : HashSet (Text × Text)} {names : List Text} {edges : ℕ → List ℕ}
  {nodes : List ℕ}

/-- The implicit edges of a component are dropped when the edges that are kept lead back. -/
theorem mem_componentDropped (hnames : names.Nodup) (hnodes : nodes.Nodup)
    (hbound : ∀ v ∈ nodes, v < names.length) (hedges : ∀ v, (edges v).Nodup) {d : ℕ × ℕ} :
    d ∈ componentDropped explicit names edges nodes ↔
      (d.1 ∈ nodes ∧ d.2 ∈ nodes ∧ d.2 ∈ edges d.1 ∧
        (nodeName names d.1, nodeName names d.2) ∉ explicit) ∧
      ReflTransGen (fun x y => (x ∈ nodes ∧ y ∈ nodes ∧ y ∈ edges x) ∧
        ((nodeName names x, nodeName names y) ∈ explicit ∨
          (edgeNames names (x, y) < edgeNames names d ∧
            (x, y) ∉ componentDropped explicit names edges nodes))) d.2 d.1 := by
  set implicit := nodes.flatMap fun source => ((edges source).filter fun target => target ∈ nodes ∧
    ¬ decide ((nodeName names source, nodeName names target) ∈ explicit)).map (source, ·)
    with himplicit
  set kept : ℕ → List ℕ := fun source => if source ∈ nodes then (edges source).filter fun target =>
    target ∈ nodes ∧ decide ((nodeName names source, nodeName names target) ∈ explicit) else []
    with hkept
  have hdropped : componentDropped explicit names edges nodes = (tryEdges names.length kept
      (implicit.insertionSort fun a b => edgeNames names a ≤ edgeNames names b)).2 := rfl
  have hmem : ∀ e, e ∈ implicit ↔ e.1 ∈ nodes ∧ e.2 ∈ nodes ∧ e.2 ∈ edges e.1 ∧
      (nodeName names e.1, nodeName names e.2) ∉ explicit := by
    rintro ⟨i, j⟩
    simp only [himplicit, List.mem_flatMap, List.mem_map, List.mem_filter, Prod.mk.injEq,
      decide_eq_true_eq]
    constructor
    · rintro ⟨source, hsource, target, ⟨hedge, hin, hout⟩, rfl, rfl⟩
      exact ⟨hsource, hin, hedge, hout⟩
    · rintro ⟨hsource, hin, hedge, hout⟩
      exact ⟨i, hsource, j, ⟨hedge, hin, hout⟩, rfl, rfl⟩
  have hin : ∀ e ∈ implicit, e.1 < names.length ∧ e.2 < names.length := fun e he =>
    ⟨hbound _ ((hmem e).mp he).1, hbound _ ((hmem e).mp he).2.1⟩
  have hnodup : implicit.Nodup := by
    refine List.nodup_flatMap.mpr ⟨fun source _ => ?_, hnodes.imp fun {a b} hne => ?_⟩
    · exact ((hedges source).filter _).map fun _ _ h => (Prod.mk.inj h).2
    · intro e ha hb
      obtain ⟨_, -, rfl⟩ := List.mem_map.mp ha
      obtain ⟨_, -, heq⟩ := List.mem_map.mp hb
      exact hne (Prod.mk.inj heq).1.symm
  -- The names tell the implicit edges apart, so that they are sorted strictly.
  have hsorted : (implicit.insertionSort fun a b => edgeNames names a ≤ edgeNames names b).Pairwise
      fun a b => edgeNames names a < edgeNames names b := by
    have hle := List.pairwise_insertionSort (fun a b => edgeNames names a ≤ edgeNames names b)
      implicit
    have hne : (implicit.insertionSort fun a b => edgeNames names a ≤ edgeNames names b).Nodup :=
      (List.perm_insertionSort _ _).nodup_iff.mpr hnodup
    refine (hle.and hne).imp_of_mem fun {a b} ha hb hab => lt_of_le_of_ne hab.1 fun heq => ?_
    exact hab.2 (edgeNames_inj hnames (hin a ((List.mem_insertionSort _).mp ha))
      (hin b ((List.mem_insertionSort _).mp hb)) heq)
  have hkeptBound : ∀ u < names.length, ∀ w ∈ kept u, w < names.length := by
    intro u _ w hw
    simp only [hkept] at hw
    split_ifs at hw
    · have hin := (List.mem_filter.mp hw).2
      rw [decide_eq_true_eq] at hin
      exact hbound w hin.1
    · cases hw
  rw [hdropped, mem_tryEdges (edgeNames names) hkeptBound
    (fun e he => hin e ((List.mem_insertionSort _).mp he)) hsorted d, List.mem_insertionSort,
    hmem d]
  refine and_congr_right fun _ => ?_
  have hrel : ∀ x y, (y ∈ kept x ∨
      ((x, y) ∈ implicit.insertionSort (fun a b => edgeNames names a ≤ edgeNames names b) ∧
        edgeNames names (x, y) < edgeNames names d ∧ (x, y) ∉ (tryEdges names.length kept
          (implicit.insertionSort fun a b => edgeNames names a ≤ edgeNames names b)).2)) ↔
      (x ∈ nodes ∧ y ∈ nodes ∧ y ∈ edges x) ∧
        ((nodeName names x, nodeName names y) ∈ explicit ∨
          (edgeNames names (x, y) < edgeNames names d ∧ (x, y) ∉ (tryEdges names.length kept
            (implicit.insertionSort fun a b => edgeNames names a ≤ edgeNames names b)).2)) := by
    intro x y
    rw [List.mem_insertionSort, hmem (x, y)]
    have hkeptMem : y ∈ kept x ↔ (x ∈ nodes ∧ y ∈ nodes ∧ y ∈ edges x) ∧
        (nodeName names x, nodeName names y) ∈ explicit := by
      simp only [hkept]
      split_ifs with hx
      · simp only [List.mem_filter, decide_eq_true_eq]
        tauto
      · simp [hx]
    rw [hkeptMem]
    by_cases hexplicit : (nodeName names x, nodeName names y) ∈ explicit
    · simp [hexplicit]
    · simp only [hexplicit, and_false, false_or, not_false_eq_true, and_true]
  simp only [hrel]

end

/-! ### Sorting the result -/

theorem mem_dedupEdges {e : Text ×ₗ Text} (l : List (Text ×ₗ Text)) : e ∈ dedupEdges l ↔ e ∈ l := by
  induction l using dedupEdges.induct with
  | case1 => simp [dedupEdges]
  | case2 edge => simp [dedupEdges]
  | case3 edge rest ih =>
    rw [dedupEdges, if_pos rfl, ih]
    simp
  | case4 edge next rest hne ih => simp [dedupEdges, hne, ih]

theorem dedupEdges_sorted {l : List (Text ×ₗ Text)} (h : l.Pairwise (· ≤ ·)) :
    (dedupEdges l).Pairwise (· < ·) := by
  induction l using dedupEdges.induct with
  | case1 => simp [dedupEdges]
  | case2 edge => simp [dedupEdges]
  | case3 edge rest ih =>
    rw [dedupEdges, if_pos rfl]
    exact ih (List.pairwise_cons.mp h).2
  | case4 edge next rest hne ih =>
    obtain ⟨hfirst, hrest⟩ := List.pairwise_cons.mp h
    rw [dedupEdges, if_neg hne]
    refine List.pairwise_cons.mpr ⟨fun e he => ?_, ih hrest⟩
    -- The next edge is larger than this one, and no later one is smaller than it.
    have hnext : edge < next := lt_of_le_of_ne (hfirst next (by simp)) hne
    rcases List.mem_cons.mp ((mem_dedupEdges _).mp he) with rfl | he
    · exact hnext
    · exact hnext.trans_le ((List.pairwise_cons.mp hrest).1 e he)

/-! ### The result -/

section

variable {valuesOrder : List ℕ → List ℕ} {allTargets allMetas : HashSet Text}
  {metaRules : List MetaRule} {explicit : HashSet (Text × Text)}

/-- The edges between the numbers of the rules. -/
abbrev metaEdges (allTargets allMetas : HashSet Text) (metaRules : List MetaRule) : ℕ → List ℕ :=
  nodeEdges allTargets allMetas metaRules (metaRules.map Prod.fst)

/-- The numbers of the rules that have a label. -/
def labelled (allTargets allMetas : HashSet Text) (metaRules : List MetaRule) (label : ℕ) : List ℕ :=
  (List.range (metaRules.map Prod.fst).length).filter fun node =>
    stronglyConnectedComponents (metaEdges allTargets allMetas metaRules)
      (metaRules.map Prod.fst).length node = some label

theorem metaEdges_bound (hnames : (metaRules.map Prod.fst).Nodup) :
    ∀ u < (metaRules.map Prod.fst).length, ∀ w ∈ metaEdges allTargets allMetas metaRules u,
      w < (metaRules.map Prod.fst).length :=
  fun _ _ _ hw => ((mem_nodeEdges hnames).mp hw).2.1

theorem mem_labelled {label node : ℕ} : node ∈ labelled allTargets allMetas metaRules label ↔
    node < (metaRules.map Prod.fst).length ∧
      stronglyConnectedComponents (metaEdges allTargets allMetas metaRules)
        (metaRules.map Prod.fst).length node = some label := by
  simp [labelled]

/-- What the edges of the component of `label` are dropped for. -/
theorem mem_labelledDropped (hnames : (metaRules.map Prod.fst).Nodup) {label : ℕ} {d : ℕ × ℕ} :
    d ∈ componentDropped explicit (metaRules.map Prod.fst)
        (metaEdges allTargets allMetas metaRules) (labelled allTargets allMetas metaRules label) ↔
      (d.1 ∈ labelled allTargets allMetas metaRules label ∧
        d.2 ∈ labelled allTargets allMetas metaRules label ∧
        d.2 ∈ metaEdges allTargets allMetas metaRules d.1 ∧
        (nodeName (metaRules.map Prod.fst) d.1, nodeName (metaRules.map Prod.fst) d.2) ∉ explicit) ∧
      ReflTransGen (fun x y => (x ∈ labelled allTargets allMetas metaRules label ∧
          y ∈ labelled allTargets allMetas metaRules label ∧
          y ∈ metaEdges allTargets allMetas metaRules x) ∧
        ((nodeName (metaRules.map Prod.fst) x, nodeName (metaRules.map Prod.fst) y) ∈ explicit ∨
          (edgeNames (metaRules.map Prod.fst) (x, y) < edgeNames (metaRules.map Prod.fst) d ∧
            (x, y) ∉ componentDropped explicit (metaRules.map Prod.fst)
              (metaEdges allTargets allMetas metaRules)
              (labelled allTargets allMetas metaRules label)))) d.2 d.1 :=
  mem_componentDropped hnames (List.nodup_range.filter _) (fun _ hv => (mem_labelled.mp hv).1)
    (nodup_nodeEdges hnames)

/-- The edges of the result are the dropped edges of the components. -/
theorem mem_implicitCycleEdges (hnames : (metaRules.map Prod.fst).Nodup)
    (horder : ∀ labels, (valuesOrder labels).Perm labels) {e : Text ×ₗ Text} :
    e ∈ implicitCycleEdges valuesOrder allTargets allMetas metaRules explicit ↔
      ∃ label, ∃ d ∈ componentDropped explicit (metaRules.map Prod.fst)
        (metaEdges allTargets allMetas metaRules) (labelled allTargets allMetas metaRules label),
        edgeNames (metaRules.map Prod.fst) d = e := by
  rw [implicitCycleEdges, indexNames_eq hnames]
  simp only [mem_dedupEdges, List.mem_insertionSort, List.mem_flatMap]
  constructor
  · rintro ⟨label, -, he⟩
    split_ifs at he
    · obtain ⟨d, hd, heq⟩ := List.mem_map.mp he
      exact ⟨label, d, hd, heq⟩
    · cases he
  · rintro ⟨label, d, hd, heq⟩
    obtain ⟨⟨hsource, htarget, hedge, -⟩, -⟩ := (mem_labelledDropped hnames).mp hd
    -- The two ends of an edge differ, so that the component has more than one node.
    have hne : d.2 ≠ d.1 := fun hsame =>
      ((mem_nodeEdges hnames).mp hedge).2.2.2.1 (by rw [hsame])
    have hlength : 1 < (labelled allTargets allMetas metaRules label).length := by
      by_contra hle
      obtain ⟨v, hv⟩ := List.length_eq_one_iff.mp (Nat.le_antisymm (Nat.not_lt.mp hle)
        (List.length_pos_of_mem hsource))
      rw [hv, List.mem_singleton] at hsource htarget
      exact hne (htarget.trans hsource.symm)
    refine ⟨label, ?_, ?_⟩
    · rw [(horder _).mem_iff, List.mem_dedup, List.mem_filterMap]
      exact ⟨d.1, by simpa using (mem_labelled.mp hsource).1, (mem_labelled.mp hsource).2⟩
    · split_ifs with hmany
      · exact List.mem_map.mpr ⟨d, hd, heq⟩
      · exact absurd hlength hmany

/-- **The result is the greedy choice among the valid edges.** -/
theorem implicitCycleEdges_greedy (hnames : (metaRules.map Prod.fst).Nodup)
    (horder : ∀ labels, (valuesOrder labels).Perm labels) :
    Greedy (ValidEdge allTargets allMetas metaRules) (fun u v => (u, v) ∈ explicit)
      {e | e ∈ implicitCycleEdges valuesOrder allTargets allMetas metaRules explicit} := by
  have hbound := @metaEdges_bound allTargets allMetas metaRules hnames
  intro a b
  rw [Set.mem_ofPred_eq, mem_implicitCycleEdges hnames horder]
  constructor
  · rintro ⟨label, d, hd, heq⟩
    obtain ⟨⟨hsource, htarget, hedge, hout⟩, hpath⟩ := (mem_labelledDropped hnames).mp hd
    obtain ⟨rfl, rfl⟩ := Prod.mk.inj heq
    refine ⟨((mem_nodeEdges hnames).mp hedge).2.2, hout, hpath.lift _ fun x y hxy => ?_⟩
    obtain ⟨⟨hx, hy, hxy⟩, hcase⟩ := hxy
    refine ⟨((mem_nodeEdges hnames).mp hxy).2.2, hcase.imp id fun hkept => ⟨hkept.1, ?_⟩⟩
    rw [Set.mem_ofPred_eq, mem_implicitCycleEdges hnames horder]
    rintro ⟨label', d', hd', heq'⟩
    -- An edge of that name lies in the same component.
    obtain ⟨⟨hsource', htarget', -, -⟩, -⟩ := (mem_labelledDropped hnames).mp hd'
    obtain rfl : d' = (x, y) := edgeNames_inj hnames
      ⟨(mem_labelled.mp hsource').1, (mem_labelled.mp htarget').1⟩
      ⟨(mem_labelled.mp hx).1, (mem_labelled.mp hy).1⟩ heq'
    obtain rfl : label = label' :=
      Option.some.inj ((mem_labelled.mp hx).2.symm.trans (mem_labelled.mp hsource').2)
    exact hkept.2 hd'
  · rintro ⟨hvalid, hout, hpath⟩
    obtain ⟨rule, hrule, hrulename, -⟩ := hvalid.1
    obtain ⟨i, hi, rfl⟩ := exists_nodeName (List.mem_map.mpr ⟨rule, hrule, hrulename⟩)
    obtain ⟨j, hj, rfl⟩ := exists_nodeName hvalid.2.2.2
    obtain ⟨k, hk, hname, hback⟩ := reach_nodes (fun _ _ h => h.1.2.2.2) hj hpath
    obtain rfl : k = i := nodeName_inj hnames hk hi hname
    have hedge : Succ (metaEdges allTargets allMetas metaRules) k j :=
      (mem_nodeEdges hnames).mpr ⟨hk, hj, hvalid⟩
    obtain ⟨label, hlabel⟩ := Option.ne_none_iff_exists'.mp (component_ne_none hbound hk)
    -- Every node on the way back lies in the component of the edge.
    have hreach : ∀ {x y : ℕ}, ReflTransGen (fun x y => x < (metaRules.map Prod.fst).length ∧
        y < (metaRules.map Prod.fst).length ∧ KeptBefore (ValidEdge allTargets allMetas metaRules)
          (fun u v => (u, v) ∈ explicit)
          {e | e ∈ implicitCycleEdges valuesOrder allTargets allMetas metaRules explicit}
          (toLex (nodeName (metaRules.map Prod.fst) k, nodeName (metaRules.map Prod.fst) j))
          (nodeName (metaRules.map Prod.fst) x) (nodeName (metaRules.map Prod.fst) y)) x y →
        ReflTransGen (Succ (metaEdges allTargets allMetas metaRules)) x y := fun h =>
      h.lift id fun x y hxy => (mem_nodeEdges hnames).mpr ⟨hxy.1, hxy.2.1, hxy.2.2.1⟩
    have hinside : ∀ {x : ℕ}, x < (metaRules.map Prod.fst).length →
        ReflTransGen (Succ (metaEdges allTargets allMetas metaRules)) j x →
        ReflTransGen (Succ (metaEdges allTargets allMetas metaRules)) x k →
        x ∈ labelled allTargets allMetas metaRules label := fun {x} hx hjx hxk =>
      mem_labelled.mpr ⟨hx, ((component_eq_iff hbound hk).mpr
        ⟨.head hedge hjx, hxk⟩).symm.trans hlabel⟩
    refine ⟨label, (k, j), (mem_labelledDropped hnames).mpr ⟨⟨hinside hk (hreach hback) .refl,
      hinside hj .refl (hreach hback), hedge, hout⟩, ?_⟩, rfl⟩
    refine (reflTransGen_between hback).lift id fun x y hxy => ?_
    obtain ⟨⟨hx, hy, hkept⟩, hjx, hyk⟩ := hxy
    have hxy : Succ (metaEdges allTargets allMetas metaRules) x y :=
      (mem_nodeEdges hnames).mpr ⟨hx, hy, hkept.1⟩
    refine ⟨⟨hinside hx (hreach hjx) (.head hxy (hreach hyk)),
      hinside hy ((hreach hjx).tail hxy) (hreach hyk), hxy⟩, hkept.2.imp id fun hlt =>
        ⟨hlt.1, fun hdropped => hlt.2 ?_⟩⟩
    exact (mem_implicitCycleEdges hnames horder).mpr ⟨label, (x, y), hdropped, rfl⟩

theorem validEdge_finite : {e : Text ×ₗ Text |
    ValidEdge allTargets allMetas metaRules (ofLex e).1 (ofLex e).2}.Finite := by
  have hsub : {e : Text ×ₗ Text | ValidEdge allTargets allMetas metaRules (ofLex e).1 (ofLex e).2} ⊆
      {e : Text × Text | e ∈ (metaRules.map Prod.fst) ×ˢ (metaRules.map Prod.fst)} := by
    rintro ⟨u, v⟩ ⟨⟨rule, hrule, hname, -⟩, -, -, hv⟩
    exact List.mem_product.mpr ⟨List.mem_map.mpr ⟨rule, hrule, hname⟩, hv⟩
  exact (List.finite_toSet _).subset hsub

theorem implicitCycleEdges_sorted :
    (implicitCycleEdges valuesOrder allTargets allMetas metaRules explicit).Pairwise (· < ·) :=
  dedupEdges_sorted (List.pairwise_insertionSort _ _)

/-- The same rules, in any order, each with the same dependencies in any order. -/
def SameRules (rules rules' : List MetaRule) : Prop :=
  ∃ other, List.Forall₂ (fun a b => a.1 = b.1 ∧ a.2.Same b.2) rules other ∧ other.Perm rules'

theorem SameRules.names_perm {rules rules' : List MetaRule} (h : SameRules rules rules') :
    (rules.map Prod.fst).Perm (rules'.map Prod.fst) := by
  obtain ⟨other, hsame, hperm⟩ := h
  have hmap : rules.map Prod.fst = other.map Prod.fst := by
    clear hperm
    induction hsame with
    | nil => rfl
    | cons hhead _ ih => rw [List.map_cons, List.map_cons, hhead.1, ih]
  rw [hmap]
  exact hperm.map _

theorem SameRules.depends_iff {rules rules' : List MetaRule} (h : SameRules rules rules')
    (u v : Text) :
    (∃ rule ∈ rules, rule.1 = u ∧ v ∈ rule.2) ↔ ∃ rule ∈ rules', rule.1 = u ∧ v ∈ rule.2 := by
  obtain ⟨other, hsame, hperm⟩ := h
  simp only [← hperm.mem_iff]
  clear hperm
  induction hsame with
  | nil => simp
  | cons hhead _ ih => simp only [List.exists_mem_cons_iff, ih, hhead.1, hhead.2 v]

/-- The result does not depend on the order in which the hash containers yield their elements. -/
theorem implicitCycleEdges_congr {valuesOrder' : List ℕ → List ℕ}
    {allTargets' allMetas' : HashSet Text} {metaRules' : List MetaRule}
    {explicit' : HashSet (Text × Text)} (hnames : (metaRules.map Prod.fst).Nodup)
    (horder : ∀ labels, (valuesOrder labels).Perm labels)
    (horder' : ∀ labels, (valuesOrder' labels).Perm labels)
    (htargets : allTargets.Same allTargets') (hmetas : allMetas.Same allMetas')
    (hrules : SameRules metaRules metaRules') (hexplicit : explicit.Same explicit') :
    implicitCycleEdges valuesOrder' allTargets' allMetas' metaRules' explicit' =
      implicitCycleEdges valuesOrder allTargets allMetas metaRules explicit := by
  have hnames' : (metaRules'.map Prod.fst).Nodup := hrules.names_perm.nodup_iff.mp hnames
  have hvalid : ValidEdge allTargets' allMetas' metaRules' =
      ValidEdge allTargets allMetas metaRules := by
    funext u v
    simp only [ValidEdge, ← hrules.depends_iff u v, ← htargets v, ← hmetas v,
      ← hrules.names_perm.mem_iff]
  have hfixed : (fun u v => (u, v) ∈ explicit') = fun u v => (u, v) ∈ explicit := by
    funext u v
    exact propext (hexplicit (u, v)).symm
  have hgreedy : Greedy (ValidEdge allTargets' allMetas' metaRules')
      (fun u v => (u, v) ∈ explicit') _ := implicitCycleEdges_greedy hnames' horder'
  rw [hvalid, hfixed] at hgreedy
  have hset := hgreedy.unique validEdge_finite (implicitCycleEdges_greedy hnames horder)
  refine List.Perm.eq_of_pairwise (fun _ _ _ _ hab hba => absurd hba (lt_asymm hab))
    implicitCycleEdges_sorted implicitCycleEdges_sorted ?_
  refine (List.perm_ext_iff_of_nodup (implicitCycleEdges_sorted.imp ne_of_lt)
    (implicitCycleEdges_sorted.imp ne_of_lt)).mpr fun e => ?_
  exact Set.ext_iff.mp hset e

/-- A path of the numbered graph is a path between the names. -/
theorem reach_metaEdges (hnames : (metaRules.map Prod.fst).Nodup) {i j : ℕ}
    (hi : i < (metaRules.map Prod.fst).length) (hj : j < (metaRules.map Prod.fst).length) :
    ReflTransGen (Succ (metaEdges allTargets allMetas metaRules)) i j ↔
      ReflTransGen (ValidEdge allTargets allMetas metaRules)
        (nodeName (metaRules.map Prod.fst) i) (nodeName (metaRules.map Prod.fst) j) := by
  constructor
  · intro h
    exact h.lift (nodeName (metaRules.map Prod.fst)) fun x y hxy =>
      ((mem_nodeEdges hnames).mp hxy).2.2
  · intro h
    obtain ⟨k, hk, hname, hreach⟩ := reach_nodes (fun _ _ h => h.2.2.2) hi h
    obtain rfl : k = j := nodeName_inj hnames hk hj hname
    exact hreach.lift id fun x y hxy => (mem_nodeEdges hnames).mpr hxy

/-- **Cycle breaking is exact and minimal.** For rules with distinct names, the components are the
classes of names that reach each other; the edges left out are valid and not declared; what stays
has a cycle exactly if the declared edges have one; each edge left out closes a cycle with what
stays; and the order of the hash containers does not matter. -/
theorem implicit_cycle_edges_exact (valuesOrder : List ℕ → List ℕ)
    (allTargets allMetas : HashSet Text) (metaRules : List MetaRule)
    (explicit : HashSet (Text × Text)) (hnames : (metaRules.map Prod.fst).Nodup)
    (horder : ∀ labels, (valuesOrder labels).Perm labels) :
    (∀ i < (indexNames metaRules).length, ∀ j < (indexNames metaRules).length,
      (stronglyConnectedComponents
          (nodeEdges allTargets allMetas metaRules (indexNames metaRules))
          (indexNames metaRules).length i =
        stronglyConnectedComponents
          (nodeEdges allTargets allMetas metaRules (indexNames metaRules))
          (indexNames metaRules).length j ↔
        Mutual (ValidEdge allTargets allMetas metaRules)
          (nodeName (indexNames metaRules) i) (nodeName (indexNames metaRules) j))) ∧
    (∀ u v, toLex (u, v) ∈ implicitCycleEdges valuesOrder allTargets allMetas metaRules explicit →
      ValidEdge allTargets allMetas metaRules u v ∧ (u, v) ∉ explicit ∧
      ReflTransGen (fun x y => ValidEdge allTargets allMetas metaRules x y ∧
        toLex (x, y) ∉ implicitCycleEdges valuesOrder allTargets allMetas metaRules explicit)
        v u) ∧
    (Cyclic (fun x y => ValidEdge allTargets allMetas metaRules x y ∧
        toLex (x, y) ∉ implicitCycleEdges valuesOrder allTargets allMetas metaRules explicit) ↔
      Cyclic (fun x y => ValidEdge allTargets allMetas metaRules x y ∧ (x, y) ∈ explicit)) ∧
    (∀ (valuesOrder' : List ℕ → List ℕ) (allTargets' allMetas' : HashSet Text)
      (metaRules' : List MetaRule) (explicit' : HashSet (Text × Text)),
      (∀ labels, (valuesOrder' labels).Perm labels) → allTargets.Same allTargets' →
      allMetas.Same allMetas' → SameRules metaRules metaRules' → explicit.Same explicit' →
      implicitCycleEdges valuesOrder' allTargets' allMetas' metaRules' explicit' =
        implicitCycleEdges valuesOrder allTargets allMetas metaRules explicit) := by
  have hgreedy : Greedy (ValidEdge allTargets allMetas metaRules)
      (fun u v => (u, v) ∈ explicit) _ := implicitCycleEdges_greedy hnames horder
  refine ⟨?_, fun u v huv => ?_, hgreedy.cyclic_iff validEdge_finite, ?_⟩
  · rw [indexNames_eq hnames]
    intro i hi j hj
    rw [component_eq_iff (metaEdges_bound hnames) hi]
    exact and_congr (reach_metaEdges hnames hi hj) (reach_metaEdges hnames hj hi)
  · obtain ⟨hvalid, hout, -⟩ := (hgreedy u v).mp huv
    exact ⟨hvalid, hout, hgreedy.reaches huv⟩
  · intro valuesOrder' allTargets' allMetas' metaRules' explicit' horder' htargets hmetas hrules
      hexplicit
    exact implicitCycleEdges_congr hnames horder horder' htargets hmetas hrules hexplicit

/-- Two rules that need each other, one edge of them declared: the other one is left out. -/
theorem implicit_cycle_edges_exact_pair :
    let names : HashSet Text := ⟨["a".toList, "b".toList], by decide⟩
    let rules : List MetaRule := [("a".toList, ⟨["b".toList], by decide⟩),
      ("b".toList, ⟨["a".toList], by decide⟩)]
    let explicit : HashSet (Text × Text) := ⟨[("a".toList, "b".toList)], by decide⟩
    implicitCycleEdges id names names rules explicit = [toLex ("b".toList, "a".toList)] ∧
      (Cyclic (fun x y => ValidEdge names names rules x y ∧
          toLex (x, y) ∉ implicitCycleEdges id names names rules explicit) ↔
        Cyclic (fun x y => ValidEdge names names rules x y ∧ (x, y) ∈ explicit)) :=
  ⟨by decide, (implicit_cycle_edges_exact id _ _ _ _ (by decide) List.Perm.refl).2.2.1⟩

end

end Generator

end ArosTools
