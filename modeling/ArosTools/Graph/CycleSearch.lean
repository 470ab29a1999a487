import ArosTools.Graph.Reach
import Mathlib.Data.Finset.Card

/-!
# The search for a cycle

The recursive search that keeps, next to the visited nodes, the nodes on the path to the current
one, and fails at an edge back into that path. `next` lists the successors of a declared node;
nodes that are not declared are never entered.

* `checkCycle_spec`: a search that returns has entered only nodes from which every path ends, and a
  search that fails has found a cycle.
* `findCycle_isSome`: the fuel that is enough.
* `findCycle_exact`: the search of a whole graph fails exactly if there is a cycle.
-/

namespace ArosTools

namespace Graph

open Relation

variable {α : Type} {next : α → Option (List α)}

/-- An edge from a declared node to a declared node. -/
def Declared (next : α → Option (List α)) (a b : α) : Prop :=
  (∃ deps, next a = some deps ∧ b ∈ deps) ∧ (next b).isSome

/-- The variables of the search: the nodes visited and the nodes on the path to the current one. -/
structure Coloured (α : Type) where
  visited : List α
  active : List α
  deriving DecidableEq, Repr

/-- What a search comes to: the variables after it, or the edge that closes a cycle; nothing if it
runs out of fuel. -/
abbrev Coloured.Outcome (α : Type) := Option (Except (α × α) (Coloured α))

/-- A loop that stops at the first failure. -/
def Coloured.each (step : α → Coloured α → Outcome α) : List α → Coloured α → Outcome α
  | [], s => some (.ok s)
  | a :: rest, s =>
    match step a s with
    | some (.ok s) => each step rest s
    | r => r

section

variable [DecidableEq α]

/-- What happens at one successor of a node. -/
def Coloured.look (next : α → Option (List α)) (search : α → Coloured α → Outcome α) (node : α)
    (dep : α) (s : Coloured α) : Outcome α :=
  if dep ∈ s.visited then
    if dep ∈ s.active then some (.error (node, dep)) else some (.ok s)
  else if (next dep).isSome then search dep s
  else some (.ok s)

/-- The node leaves the path. -/
def Coloured.leave (s : Coloured α) (node : α) : Coloured α :=
  ⟨s.visited, s.active.filter (· ≠ node)⟩

/-- The search from one node. -/
def checkCycle (next : α → Option (List α)) : ℕ → α → Coloured α → Coloured.Outcome α
  | 0, _, _ => none
  | fuel + 1, node, s =>
    match Coloured.each (Coloured.look next (checkCycle next fuel) node) ((next node).getD [])
      ⟨node :: s.visited, node :: s.active⟩ with
    | some (.ok s) => some (.ok (s.leave node))
    | r => r

/-- The search from one node, unless it was visited. -/
def checkUnvisited (next : α → Option (List α)) (fuel : ℕ) (node : α) (s : Coloured α) :
    Coloured.Outcome α :=
  if node ∈ s.visited then some (.ok s) else checkCycle next fuel node s

/-- The search from every node of a list. -/
def findCycle (next : α → Option (List α)) (fuel : ℕ) (nodes : List α) : Coloured.Outcome α :=
  Coloured.each (checkUnvisited next fuel) nodes ⟨[], []⟩

end

/-! ### Paths that end -/

/-- Every path from the node ends. -/
def Ends (next : α → Option (List α)) (a : α) : Prop := Acc (fun b a => Declared next a b) a

theorem Ends.not_cycle {a : α} (h : Ends next a) : ¬ TransGen (Declared next) a a := by
  induction h with
  | intro a _ ih =>
    intro hcycle
    obtain ⟨b, hab, hba⟩ := TransGen.head'_iff.mp hcycle
    exact ih b hab (TransGen.tail' hba hab)

/-! ### What holds during the search -/

/-- Every path from a declared node that was visited and left ends; the nodes on the path are
declared and visited. -/
structure Coloured.Settled (next : α → Option (List α)) (s : Coloured α) : Prop where
  left : ∀ a ∈ s.visited, a ∉ s.active → (next a).isSome → Ends next a
  visited : ∀ a ∈ s.active, a ∈ s.visited
  declared : ∀ a ∈ s.active, (next a).isSome

/-- What a search does to the variables: it only visits more, and leaves the path as it was. -/
structure Coloured.Extends (s s' : Coloured α) : Prop where
  visited : ∀ a ∈ s.visited, a ∈ s'.visited
  active : s'.active = s.active

theorem Coloured.settled_empty : Coloured.Settled next ⟨[], []⟩ where
  left a ha := by cases ha
  visited a ha := by cases ha
  declared a ha := by cases ha

theorem Coloured.Extends.refl (s : Coloured α) : s.Extends s := ⟨fun _ h => h, rfl⟩

theorem Coloured.Extends.trans {s t u : Coloured α} (h : s.Extends t) (h' : t.Extends u) :
    s.Extends u :=
  ⟨fun a ha => h'.visited a (h.visited a ha), h'.active.trans h.active⟩

/-- What is known of the outcome of a search: if it returned, the variables are settled and `P`
holds; if it failed, there is a cycle. -/
def Coloured.Outcome.Holds (next : α → Option (List α)) (s : Coloured α) (P : Prop) :
    Coloured.Outcome α → Prop
  | none => True
  | some (.ok s') => s'.Settled next ∧ s.Extends s' ∧ P
  | some (.error _) => ∃ a, TransGen (Declared next) a a

theorem Coloured.Outcome.Holds.mono {s : Coloured α} {P Q : Prop} {r : Coloured.Outcome α}
    (h : r.Holds next s P) (hPQ : P → Q) : r.Holds next s Q := by
  rcases r with _ | _ | s'
  · trivial
  · exact h
  · exact ⟨h.1, h.2.1, hPQ h.2.2⟩

/-- A loop over some nodes, given what one turn does. -/
theorem Coloured.each_spec (step : α → Coloured α → Outcome α) (P : α → Prop) (nodes : List α)
    {s : Coloured α} (hs : s.Settled next)
    (one : ∀ a ∈ nodes, ∀ t : Coloured α, t.Settled next → t.active = s.active →
      (step a t).Holds next t (P a)) :
    (each step nodes s).Holds next s (∀ a ∈ nodes, P a) := by
  induction nodes generalizing s with
  | nil => exact ⟨hs, .refl s, fun a ha => by cases ha⟩
  | cons a rest ih =>
    have hstep := one a List.mem_cons_self s hs rfl
    rw [each]
    cases hr : step a s with
    | none => trivial
    | some result =>
      rw [hr] at hstep
      cases result with
      | error e => exact hstep
      | ok t =>
        obtain ⟨ht, hext, ha⟩ := hstep
        have hrest := ih ht fun b hb u hu hactive =>
          one b (List.mem_cons_of_mem _ hb) u hu (hactive.trans hext.active)
        refine .mono (P := ∀ b ∈ rest, P b) ?_ fun h => ?_
        · simp only
          generalize each step rest t = r at hrest
          rcases r with _ | _ | u
          · trivial
          · exact hrest
          · exact ⟨hrest.1, hext.trans hrest.2.1, hrest.2.2⟩
        · intro b hb
          rcases List.mem_cons.mp hb with rfl | hb
          · exact ha
          · exact h b hb

/-- The search does not run out of fuel, and forgets no visited node. -/
def Coloured.Outcome.Returns (visited : List α) (r : Coloured.Outcome α) : Prop :=
  ∃ result, r = some result ∧ ∀ t, result = .ok t → ∀ a ∈ visited, a ∈ t.visited

theorem Coloured.each_returns (step : α → Coloured α → Outcome α) (nodes : List α)
    {visited : List α} {s : Coloured α} (hs : ∀ a ∈ visited, a ∈ s.visited)
    (one : ∀ a ∈ nodes, ∀ t : Coloured α, (∀ b ∈ visited, b ∈ t.visited) →
      (step a t).Returns t.visited) :
    (each step nodes s).Returns visited := by
  induction nodes generalizing s with
  | nil => exact ⟨.ok s, rfl, fun t ht => Except.ok.inj ht ▸ hs⟩
  | cons a rest ih =>
    obtain ⟨result, hresult, hmono⟩ := one a List.mem_cons_self s hs
    rw [each, hresult]
    cases result with
    | error e => exact ⟨.error e, rfl, fun t ht => by cases ht⟩
    | ok t =>
      exact ih (fun b hb => hmono t rfl b (hs b hb))
        fun b hb => one b (List.mem_cons_of_mem _ hb)

section

variable [DecidableEq α]

/-- **The search from one node.** -/
theorem checkCycle_spec {fuel : ℕ} {node : α} {s : Coloured α} (hs : s.Settled next)
    (hnode : node ∉ s.visited) (hdeclared : (next node).isSome)
    (hpath : ∀ a ∈ s.active, TransGen (Declared next) a node) :
    (checkCycle next fuel node s).Holds next s (Ends next node) := by
  induction fuel generalizing node s with
  | zero => trivial
  | succ fuel ih =>
    rw [checkCycle]
    have hfresh : node ∉ s.active := fun h => hnode (hs.visited node h)
    -- entering the node keeps what is known
    have henter : Coloured.Settled next ⟨node :: s.visited, node :: s.active⟩ := by
      refine ⟨fun a ha hleft hd => ?_, fun a ha => ?_, fun a ha => ?_⟩
      · rw [List.mem_cons, not_or] at hleft
        exact hs.left a ((List.mem_cons.mp ha).resolve_left hleft.1) hleft.2 hd
      · rcases List.mem_cons.mp ha with rfl | ha
        · exact List.mem_cons_self
        · exact List.mem_cons_of_mem _ (hs.visited a ha)
      · rcases List.mem_cons.mp ha with rfl | ha
        · exact hdeclared
        · exact hs.declared a ha
    obtain ⟨deps, hdeps⟩ := Option.isSome_iff_exists.mp hdeclared
    have hloop := Coloured.each_spec (Coloured.look next (checkCycle next fuel) node)
      (fun dep => (next dep).isSome → Ends next dep) deps henter ?_
    · rw [hdeps, Option.getD_some]
      generalize Coloured.each _ deps _ = r at hloop
      rcases r with _ | _ | t
      · trivial
      · exact hloop
      · obtain ⟨ht, hext, hends⟩ := hloop
        have hnodeEnds : Ends next node := by
          refine ⟨_, fun b hb => ?_⟩
          obtain ⟨⟨deps', hdeps', hb⟩, hbd⟩ := hb
          rw [hdeps] at hdeps'
          exact hends b (Option.some.inj hdeps' ▸ hb) hbd
        have hleave : (t.leave node).active = s.active := by
          rw [Coloured.leave, hext.active, List.filter_cons_of_neg (by simp)]
          refine List.filter_eq_self.mpr fun a ha => decide_eq_true ?_
          rintro rfl
          exact hfresh ha
        refine ⟨⟨fun a ha hleft hd => ?_, fun a ha => ?_, fun a ha => ?_⟩, ⟨fun a ha => ?_, hleave⟩,
          hnodeEnds⟩
        · by_cases heq : a = node
          · exact heq ▸ hnodeEnds
          · refine ht.left a ha ?_ hd
            rw [hext.active, List.mem_cons, not_or]
            exact ⟨heq, hleave ▸ hleft⟩
        · refine ht.visited a ?_
          rw [hext.active]
          exact List.mem_cons_of_mem _ (hleave ▸ ha)
        · exact hs.declared a (hleave ▸ ha)
        · exact hext.visited a (List.mem_cons_of_mem _ ha)
    · -- one successor
      intro dep hdep t ht hactive
      unfold Coloured.look
      split_ifs with hvisited hback hd
      · -- the edge leads back into the path
        rw [hactive, List.mem_cons] at hback
        have hd : (next dep).isSome := by
          rcases hback with rfl | h
          · exact hdeclared
          · exact hs.declared dep h
        have hedge : Declared next node dep := ⟨⟨deps, hdeps, hdep⟩, hd⟩
        rcases hback with rfl | h
        · exact ⟨dep, .single hedge⟩
        · exact ⟨dep, (hpath dep h).tail hedge⟩
      · exact ⟨ht, .refl t, ht.left dep hvisited hback⟩
      · refine (ih ht hvisited hd fun a ha => ?_).mono fun h _ => h
        have hedge : Declared next node dep := ⟨⟨deps, hdeps, hdep⟩, hd⟩
        rw [hactive, List.mem_cons] at ha
        rcases ha with rfl | ha
        · exact .single hedge
        · exact (hpath a ha).tail hedge
      · exact ⟨ht, .refl t, fun h => absurd h hd⟩

/-! ### Fuel -/

/-- The nodes of `U` that were not visited. -/
def Coloured.unvisited (U : Finset α) (s : Coloured α) : Finset α := U.filter (· ∉ s.visited)

theorem Coloured.unvisited_le {U : Finset α} {s t : Coloured α}
    (h : ∀ a ∈ s.visited, a ∈ t.visited) : (t.unvisited U).card ≤ (s.unvisited U).card := by
  refine Finset.card_le_card fun a ha => ?_
  rw [unvisited, Finset.mem_filter] at ha ⊢
  exact ⟨ha.1, fun hs => ha.2 (h a hs)⟩

theorem Coloured.unvisited_lt {U : Finset α} {s t : Coloured α} {a : α} (ha : a ∈ U)
    (hs : a ∉ s.visited) (h : ∀ b ∈ a :: s.visited, b ∈ t.visited) :
    (t.unvisited U).card < (s.unvisited U).card := by
  refine Finset.card_lt_card ((Finset.ssubset_iff_of_subset fun b hb => ?_).mpr ⟨a, ?_, ?_⟩)
  · rw [unvisited, Finset.mem_filter] at hb ⊢
    exact ⟨hb.1, fun hs => hb.2 (h b (List.mem_cons_of_mem _ hs))⟩
  · exact Finset.mem_filter.mpr ⟨ha, hs⟩
  · rw [unvisited, Finset.mem_filter]
    exact fun hb => hb.2 (h a List.mem_cons_self)

/-- **Enough fuel** for the search from a node that was not visited. -/
theorem checkCycle_returns {U : Finset α} (hU : ∀ a, (next a).isSome → a ∈ U) {fuel : ℕ} {node : α}
    {s : Coloured α} (hdeclared : (next node).isSome) (hnode : node ∉ s.visited)
    (hfuel : (s.unvisited U).card < fuel) : (checkCycle next fuel node s).Returns s.visited := by
  induction fuel generalizing node s with
  | zero => exact absurd hfuel (Nat.not_lt_zero _)
  | succ fuel ih =>
    have hloop := Coloured.each_returns (Coloured.look next (checkCycle next fuel) node)
      ((next node).getD []) (s := ⟨node :: s.visited, node :: s.active⟩)
      (fun a (ha : a ∈ node :: s.visited) => ha) ?_
    · obtain ⟨result, hresult, hmono⟩ := hloop
      rw [checkCycle, hresult]
      cases result with
      | error e => exact ⟨.error e, rfl, fun t ht => by cases ht⟩
      | ok t =>
        refine ⟨.ok (t.leave node), rfl, fun u hu a ha => ?_⟩
        obtain rfl := Except.ok.inj hu
        exact hmono t rfl a (List.mem_cons_of_mem _ ha)
    · intro dep _ t ht
      unfold Coloured.look
      have hkeep : Coloured.Outcome.Returns t.visited (some (.ok t)) :=
        ⟨.ok t, rfl, fun u hu => Except.ok.inj hu ▸ fun _ h => h⟩
      split_ifs with hvisited hback hd
      · exact ⟨_, rfl, fun u hu => by cases hu⟩
      · exact hkeep
      · -- entering the node took it out of the unvisited ones
        have hlt := Coloured.unvisited_lt (hU node hdeclared) hnode ht
        exact ih hd hvisited (by omega)
      · exact hkeep

/-! ### The whole graph -/

/-- **The search of a whole graph fails exactly if there is a cycle**, in whatever order it takes
the nodes and the successors of each. -/
theorem findCycle_exact {nodes : List α} (hnodes : ∀ a, (next a).isSome ↔ a ∈ nodes) {fuel : ℕ}
    (hfuel : nodes.length < fuel) :
    ∃ result, findCycle next fuel nodes = some result ∧
      ((∃ e, result = .error e) ↔ ∃ a, TransGen (Declared next) a a) := by
  have hcard : nodes.toFinset.card ≤ nodes.length := List.toFinset_card_le nodes
  have hreturns : (findCycle next fuel nodes).Returns [] := by
    refine Coloured.each_returns _ _ (fun a ha => (by cases ha)) fun a ha t _ => ?_
    rw [checkUnvisited]
    split_ifs with hvisited
    · exact ⟨.ok t, rfl, fun u hu => Except.ok.inj hu ▸ fun _ h => h⟩
    · have hle := Coloured.unvisited_le (U := nodes.toFinset) (s := ⟨[], []⟩) (t := t)
        fun b hb => by cases hb
      have hall : (Coloured.unvisited nodes.toFinset ⟨[], []⟩).card = nodes.toFinset.card := by
        rw [Coloured.unvisited, Finset.filter_true_of_mem fun b _ => List.not_mem_nil]
      refine checkCycle_returns (U := nodes.toFinset) (fun b hb => ?_) ((hnodes a).mpr ha) hvisited
        (by omega)
      exact List.mem_toFinset.mpr ((hnodes b).mp hb)
  have hspec : (findCycle next fuel nodes).Holds next ⟨[], []⟩ (∀ a ∈ nodes, Ends next a) := by
    refine Coloured.each_spec _ _ _ Coloured.settled_empty fun a ha t ht hactive => ?_
    have hd := (hnodes a).mpr ha
    rw [checkUnvisited]
    split_ifs with hvisited
    · refine ⟨ht, .refl t, ht.left a hvisited ?_ hd⟩
      rw [hactive]
      exact List.not_mem_nil
    · refine checkCycle_spec ht hvisited hd fun b hb => ?_
      rw [hactive] at hb
      cases hb
  obtain ⟨result, hresult, -⟩ := hreturns
  rw [hresult] at hspec
  refine ⟨result, hresult, ?_⟩
  cases result with
  | error e => exact ⟨fun _ => hspec, fun _ => ⟨e, rfl⟩⟩
  | ok t =>
    refine ⟨fun ⟨e, he⟩ => (by cases he), fun ⟨a, hcycle⟩ => ?_⟩
    obtain ⟨b, -, hba⟩ := TransGen.tail'_iff.mp hcycle
    exact absurd hcycle (hspec.2.2 a ((hnodes a).mp hba.2)).not_cycle

end

end Graph

end ArosTools
