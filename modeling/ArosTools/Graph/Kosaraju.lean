import ArosTools.Graph.Dfs
import Mathlib.Data.List.Basic

/-!
# Strongly connected components in two searches

The first search lists the nodes in the order they are left; `sweep` goes through that list from
its end and searches backwards from every node not seen yet.

* `sweep_components`: the sweep over the list of a first search collects every strongly connected
  component, each of them once;
* `sweep_isSome`: it returns, given more fuel than there are nodes.
-/

namespace ArosTools

namespace Graph

open Relation

variable {α : Type*} {next prev : α → List α}

/-- A set that holds the whole component of each of its points. -/
def Saturated (R : α → α → Prop) (T : Set α) : Prop := ∀ a b, Mutual R a b → a ∈ T → b ∈ T

/-- A path between points of one component stays in it, so it keeps out of a saturated set that
the component does not meet. -/
theorem avoiding_of_mutual {R : α → α → Prop} {T : Set α} (hT : Saturated R T) {a b : α}
    (ha : a ∉ T) (hab : Mutual R a b) : ReflTransGen (Avoiding R T) a b := by
  obtain ⟨hab, hba⟩ := hab
  induction hab with
  | refl => exact ReflTransGen.refl
  | @tail x y hax hxy ih =>
    have hay : Mutual R a y := ⟨hax.tail hxy, hba⟩
    refine (ih (ReflTransGen.head hxy hba)).tail ⟨hxy, fun hy => ha ?_⟩
    exact hT y a hay.symm hy

/-- Searching backwards over `prev` is reaching over `next`. -/
theorem reflTransGen_prev (hprev : ∀ a b, b ∈ prev a ↔ a ∈ next b) {a b : α} :
    ReflTransGen (Succ prev) a b ↔ ReflTransGen (Succ next) b a := by
  have hswap : Succ prev = Function.swap (Succ next) := by
    funext a b
    exact propext (hprev a b)
  rw [hswap]
  exact reflTransGen_swap

theorem mutual_prev (hprev : ∀ a b, b ∈ prev a ↔ a ∈ next b) {a b : α} :
    Mutual (Succ prev) a b ↔ Mutual (Succ next) a b := by
  rw [Mutual, Mutual, reflTransGen_prev hprev, reflTransGen_prev hprev]
  exact and_comm

/-! ### What the first search leaves -/

/-- What the second search needs of the first one's list: whoever reaches `u` has a node of its
component at or after `u`. -/
structure Finished (next prev : α → List α) (order : List α) : Prop where
  backward : ∀ a b, b ∈ prev a ↔ a ∈ next b
  finish : ∀ u ∈ order, ∀ v ∈ order, ReflTransGen (Succ next) v u →
    ∃ v', Mutual (Succ next) v v' ∧ Dfs.AtOrBefore order u v'
  nodup : order.Nodup
  closed : ∀ a b, a ∈ order → a ∈ next b → b ∈ order

theorem finished_of_dfs {nodes order : List α} (hprev : ∀ a b, b ∈ prev a ↔ a ∈ next b)
    (hfrom : ∀ a b, b ∈ next a → a ∈ nodes) (h : Dfs next nodes ∅ order) :
    Finished next prev order := by
  refine ⟨hprev, fun u hu v hv hvu => ?_, h.nodup, fun a b _ hab => ?_⟩
  · obtain ⟨v', hmut, hbefore⟩ := h.finish_order u hu v hv (avoiding_empty hvu)
    exact ⟨v', hmut.mono fun _ _ hab => hab.1, hbefore⟩
  · exact (h.mem_roots b (hfrom b a hab)).resolve_right id

/-! ### One search of the sweep -/

/-- What the sweep has reached at a point of the finishing order: what it has seen is saturated,
and everything finished later has been seen. -/
structure SweepState (next : α → List α) (order todo seen : List α) : Prop where
  saturated : Saturated (Succ next) {y | y ∈ seen}
  later : ∃ done, order = todo.reverse ++ done ∧ ∀ y ∈ done, y ∈ seen

variable {order rest seen L : List α} {x : α}

theorem SweepState.mem (hs : SweepState next order (x :: rest) seen) : x ∈ order := by
  obtain ⟨done, rfl, -⟩ := hs.later
  simp

/-- The backward search from the last unseen node collects its component. -/
theorem search_component (h : Finished next prev order)
    (hs : SweepState next order (x :: rest) seen) (hx : x ∉ seen)
    (hdfs : Dfs prev [x] {y | y ∈ seen} L) (y : α) : y ∈ L ↔ Mutual (Succ next) x y := by
  rw [hdfs.mem_iff]
  constructor
  · rintro ⟨r, hr, -, hry⟩
    obtain rfl := List.mem_singleton.mp hr
    have hyr : ReflTransGen (Succ next) y r :=
      (reflTransGen_prev h.backward).mp (reflTransGen_of_avoiding hry)
    have hyseen : y ∉ seen := by
      rcases ReflTransGen.cases_tail hry with rfl | ⟨z, -, hzy⟩
      · exact hx
      · exact hzy.2
    have hyo : y ∈ order :=
      mem_of_avoiding (B := {z | z ∈ order})
        (fun a ha b hb => Or.inl (h.closed a b ha ((h.backward a b).mp hb))) hs.mem hry
    -- A node of the component of `y` at or after `r` is `r` itself: the others are seen.
    obtain ⟨v', hmut, hbefore⟩ := h.finish r hs.mem y hyo hyr
    obtain ⟨done, hdone, hlater⟩ := hs.later
    have hnodup := h.nodup
    rw [List.reverse_cons, List.append_assoc, List.singleton_append] at hdone
    rw [hdone] at hbefore hnodup
    rcases hbefore.eq_or_mem hnodup with rfl | hv'
    · exact hmut.symm
    · exact absurd (hs.saturated v' y hmut.symm (hlater v' hv')) hyseen
  · intro hxy
    refine ⟨x, List.mem_singleton_self x, hx, ?_⟩
    have hsat : Saturated (Succ prev) {y | y ∈ seen} :=
      fun a b hab => hs.saturated a b ((mutual_prev h.backward).mp hab)
    exact avoiding_of_mutual hsat hx ((mutual_prev h.backward).mpr hxy)

theorem SweepState.skip (hs : SweepState next order (x :: rest) seen) (hx : x ∈ seen) :
    SweepState next order rest seen := by
  obtain ⟨done, hdone, hlater⟩ := hs.later
  refine ⟨hs.saturated, x :: done, by simp [hdone], ?_⟩
  intro y hy
  rcases List.mem_cons.mp hy with rfl | hy
  · exact hx
  · exact hlater y hy

/-- Seeing one more component keeps the sweep's state. -/
theorem SweepState.visit {seen' : List α} (hs : SweepState next order (x :: rest) seen)
    (hL : ∀ y, y ∈ L ↔ Mutual (Succ next) x y) (hseen : ∀ y, y ∈ seen' ↔ y ∈ seen ∨ y ∈ L) :
    SweepState next order rest seen' := by
  have hsub : ∀ y ∈ seen, y ∈ seen' := fun y hy => (hseen y).mpr (Or.inl hy)
  obtain ⟨done, hdone, hlater⟩ := hs.later
  refine ⟨fun a b hab ha => ?_, x :: done, by simp [hdone], fun y hy => ?_⟩
  · rcases (hseen a).mp ha with ha | ha
    · exact hsub b (hs.saturated a b hab ha)
    · exact (hseen b).mpr (Or.inr ((hL b).mpr (((hL a).mp ha).trans hab)))
  · rcases List.mem_cons.mp hy with rfl | hy
    · exact (hseen y).mpr (Or.inr ((hL y).mpr (Mutual.refl y)))
    · exact hsub y (hlater y hy)

/-! ### The sweep -/

variable [DecidableEq α]

/-- The second pass over the nodes in the order given; `none` is running out of fuel. -/
def sweep (prev : α → List α) (fuel : ℕ) : List α → List α → Option (List (List α))
  | [], _ => some []
  | node :: rest, seen =>
    if node ∈ seen then sweep prev fuel rest seen
    else do
      let s ← walk .onEnter prev fuel ⟨seen, []⟩ node
      let components ← sweep prev fuel rest s.seen
      pure (s.pushed :: components)

/-- The strongly connected components of the points of `nodes` outside `seen`, each once. -/
structure Components (next : α → List α) (nodes seen : List α) (components : List (List α)) :
    Prop where
  nodup : ∀ C ∈ components, C.Nodup
  component : ∀ C ∈ components, ∃ x ∈ nodes, ∀ y, y ∈ C ↔ Mutual (Succ next) x y
  unseen : ∀ C ∈ components, ∀ y ∈ C, y ∉ seen
  covers : ∀ x ∈ nodes, x ∈ seen ∨ ∃ C ∈ components, x ∈ C
  disjoint : components.Pairwise List.Disjoint

/-- What one search of the sweep gives: a component, and the state for the rest. -/
theorem sweep_search {fuel : ℕ} {s : Walk α} (h : Finished next prev order)
    (hs : SweepState next order (x :: rest) seen) (hx : x ∉ seen)
    (hwalk : walk .onEnter prev fuel ⟨seen, []⟩ x = some s) :
    s.pushed.Nodup ∧ (∀ y, y ∈ s.pushed ↔ Mutual (Succ next) x y) ∧
      (∀ y, y ∈ s.seen ↔ y ∈ seen ∨ y ∈ s.pushed) ∧ (∀ y ∈ s.pushed, y ∉ seen) := by
  obtain ⟨L, hdfs, hfin⟩ := walk_dfs hwalk
  obtain ⟨P, hP, hperm, -⟩ := hfin.pushed
  rw [List.nil_append] at hP
  have hmem : ∀ y, y ∈ s.pushed ↔ y ∈ L := fun y => by rw [hP]; exact hperm.mem_iff
  refine ⟨by rw [hP]; exact hperm.nodup_iff.mpr hdfs.nodup, fun y => ?_, fun y => ?_, ?_⟩
  · rw [hmem, search_component h hs hx hdfs]
  · rw [hmem, hfin.seen]
  · intro y hy
    exact hdfs.notMem_seen y ((hmem y).mp hy)

theorem sweep_spec {fuel : ℕ} (h : Finished next prev order) :
    ∀ {todo seen : List α} {components : List (List α)}, SweepState next order todo seen →
      sweep prev fuel todo seen = some components → Components next todo seen components
  | [], seen, components, _, hsweep => by
    obtain rfl : [] = components := by simpa [sweep] using hsweep
    exact ⟨by simp, by simp, by simp, by simp, List.Pairwise.nil⟩
  | x :: rest, seen, components, hs, hsweep => by
    rw [sweep] at hsweep
    by_cases hx : x ∈ seen
    · rw [if_pos hx] at hsweep
      have ih := sweep_spec h (hs.skip hx) hsweep
      refine ⟨ih.nodup, fun C hC => ?_, ih.unseen, fun y hy => ?_, ih.disjoint⟩
      · obtain ⟨y, hy, hyC⟩ := ih.component C hC
        exact ⟨y, List.mem_cons_of_mem _ hy, hyC⟩
      rcases List.mem_cons.mp hy with rfl | hy
      · exact Or.inl hx
      · exact ih.covers y hy
    · simp only [if_neg hx, Option.bind_eq_bind, Option.bind_eq_some_iff] at hsweep
      obtain ⟨s, hwalk, components', hrest, heq⟩ := hsweep
      obtain rfl := Option.some.inj heq
      obtain ⟨hnodup, hcomp, hseen, hunseen⟩ := sweep_search h hs hx hwalk
      have ih := sweep_spec h (hs.visit hcomp hseen) hrest
      have hxs : x ∈ s.pushed := (hcomp x).mpr (Mutual.refl x)
      refine ⟨?_, ?_, ?_, fun y hy => ?_, List.pairwise_cons.mpr ⟨fun C hC => ?_, ih.disjoint⟩⟩
      · exact List.forall_mem_cons.mpr ⟨hnodup, ih.nodup⟩
      · refine List.forall_mem_cons.mpr ⟨⟨x, List.mem_cons_self, hcomp⟩, fun C hC => ?_⟩
        obtain ⟨y, hy, hyC⟩ := ih.component C hC
        exact ⟨y, List.mem_cons_of_mem _ hy, hyC⟩
      · refine List.forall_mem_cons.mpr ⟨hunseen, fun C hC y hy hmem => ?_⟩
        exact ih.unseen C hC y hy ((hseen y).mpr (Or.inl hmem))
      · rcases List.mem_cons.mp hy with rfl | hy
        · exact Or.inr ⟨s.pushed, List.mem_cons_self, hxs⟩
        · rcases ih.covers y hy with hy | ⟨C, hC, hyC⟩
          · rcases (hseen y).mp hy with hy | hy
            · exact Or.inl hy
            · exact Or.inr ⟨s.pushed, List.mem_cons_self, hy⟩
          · exact Or.inr ⟨C, List.mem_cons_of_mem _ hC, hyC⟩
      · intro y hy hyC
        exact ih.unseen C hC y hyC ((hseen y).mpr (Or.inr hy))

/-- The first search lists the nodes, in the order they are left. -/
theorem first_search {nodes : List α} {fuel : ℕ} {s : Walk α}
    (hto : ∀ a b, b ∈ next a → b ∈ nodes)
    (hfirst : nodes.foldlM (walk .onLeave next fuel) ⟨[], []⟩ = some s) :
    Dfs next nodes ∅ s.pushed ∧ ∀ x, x ∈ s.pushed ↔ x ∈ nodes := by
  obtain ⟨L, hdfs, hfin⟩ := walks_dfs hfirst
  obtain ⟨P, hP, -, hPL⟩ := hfin.pushed
  have hpushed : s.pushed = L := by rw [hP, hPL rfl, List.nil_append]
  have hdfs' : Dfs next nodes ∅ s.pushed := hpushed ▸ hdfs.congr (by simp)
  refine ⟨hdfs', fun x => ⟨fun hx => ?_, fun hx => (hdfs'.mem_roots x hx).resolve_right id⟩⟩
  obtain ⟨r, hr, -, hrx⟩ := hdfs'.reached x hx
  rcases ReflTransGen.cases_tail hrx with rfl | ⟨z, -, hzx⟩
  · exact hr
  · exact hto z x hzx.1

/-- **Two searches compute the strongly connected components.** -/
theorem sweep_components {nodes : List α} {fuel : ℕ} {s : Walk α} {components : List (List α)}
    (hprev : ∀ a b, b ∈ prev a ↔ a ∈ next b) (hfrom : ∀ a b, b ∈ next a → a ∈ nodes)
    (hto : ∀ a b, b ∈ next a → b ∈ nodes)
    (hfirst : nodes.foldlM (walk .onLeave next fuel) ⟨[], []⟩ = some s)
    (hsecond : sweep prev fuel s.pushed.reverse [] = some components) :
    Components next nodes [] components := by
  obtain ⟨hdfs, hmem⟩ := first_search hto hfirst
  have hstart : SweepState next s.pushed s.pushed.reverse [] :=
    ⟨fun _ _ _ ha => by simp at ha, [], by simp, by simp⟩
  have hspec := sweep_spec (finished_of_dfs hprev hfrom hdfs) hstart hsecond
  refine ⟨hspec.nodup, fun C hC => ?_, hspec.unseen, fun x hx => ?_, hspec.disjoint⟩
  · obtain ⟨x, hx, hxC⟩ := hspec.component C hC
    exact ⟨x, (hmem x).mp (List.mem_reverse.mp hx), hxC⟩
  · exact hspec.covers x (List.mem_reverse.mpr ((hmem x).mpr hx))

/-! ### Fuel -/

variable {U : Finset α} {fuel : ℕ}

theorem sweep_isSome (hU : ∀ a ∈ U, ∀ b ∈ prev a, b ∈ U) (hfuel : U.card < fuel) :
    ∀ {todo seen : List α}, (∀ a ∈ todo, a ∈ U) → (sweep prev fuel todo seen).isSome
  | [], _, _ => rfl
  | x :: rest, seen, htodo => by
    have hrest : ∀ a ∈ rest, a ∈ U := fun a ha => htodo a (List.mem_cons_of_mem _ ha)
    rw [sweep]
    by_cases hx : x ∈ seen
    · rw [if_pos hx]
      exact sweep_isSome hU hfuel hrest
    · have hcard : (Walk.unseen U ⟨seen, []⟩).card < fuel :=
        lt_of_le_of_lt (Finset.card_filter_le _ _) hfuel
      obtain ⟨s, hwalk⟩ : ∃ s, walk .onEnter prev fuel ⟨seen, []⟩ x = some s :=
        Option.isSome_iff_exists.mp (walk_isSome hU (htodo x List.mem_cons_self) hcard)
      obtain ⟨components, hsweep⟩ : ∃ components, sweep prev fuel rest s.seen = some components :=
        Option.isSome_iff_exists.mp (sweep_isSome hU hfuel hrest)
      simp [if_neg hx, hwalk, hsweep]

end Graph

end ArosTools
