import ArosTools.Graph.Reach
import Mathlib.Data.Finset.Max
import Mathlib.Data.Prod.Lex
import Mathlib.Order.WellFoundedSet

/-!
# Edges that close a cycle, chosen greedily

A finite graph has edges that are fixed and edges that may be dropped. The edges that may be
dropped are put back one by one, in the order of the pairs, except for those that close a cycle
with what is there already. `Greedy valid fixed dropped` says that `dropped` are the edges left
out.

* `Greedy.unique` : it determines the edges left out.
* `Greedy.reaches` : every edge left out closes a cycle with edges that stay.
* `Greedy.cyclic_iff` : the edges that stay have a cycle only if the fixed ones have.
-/

namespace ArosTools

namespace Graph

open Relation

variable {α : Type*} {R : α → α → Prop} {a b c : α}

/-! ### One more edge -/

/-- A relation with one more edge. -/
def AddEdge (R : α → α → Prop) (a b x y : α) : Prop := R x y ∨ (x = a ∧ y = b)

/-- A path that may use the new edge: it does not, or it comes to its start. -/
theorem transGen_addEdge (h : TransGen (AddEdge R a b) c c) :
    TransGen R c c ∨ ReflTransGen R b a := by
  -- The paths without the new edge, and those that end after it.
  have hpath : ∀ {x y : α}, TransGen (AddEdge R a b) x y →
      TransGen R x y ∨ (ReflTransGen R x a ∧ ReflTransGen R b y) := by
    intro x y hxy
    induction hxy with
    | single hstep =>
      rcases hstep with hstep | ⟨rfl, rfl⟩
      · exact .inl (.single hstep)
      · exact .inr ⟨.refl, .refl⟩
    | tail _ hstep ih =>
      rcases hstep with hstep | ⟨rfl, rfl⟩
      · rcases ih with ih | ⟨hx, hb⟩
        · exact .inl (ih.tail hstep)
        · exact .inr ⟨hx, hb.tail hstep⟩
      · rcases ih with ih | ⟨hx, -⟩
        · exact .inr ⟨ih.to_reflTransGen, .refl⟩
        · exact .inr ⟨hx, .refl⟩
  rcases hpath h with hplain | ⟨hca, hbc⟩
  · exact .inl hplain
  · exact .inr (hbc.trans hca)

/-- The points of a path lie between its ends. -/
theorem reflTransGen_between (h : ReflTransGen R a b) :
    ReflTransGen (fun x y => R x y ∧ ReflTransGen R a x ∧ ReflTransGen R y b) a b := by
  induction h with
  | refl => exact .refl
  | @tail x y hax hxy ih =>
    refine (ih.lift id fun u w hstep => ?_).tail ⟨hxy, hax, .refl⟩
    exact ⟨hstep.1, hstep.2.1, hstep.2.2.tail hxy⟩

/-! ### The greedy choice -/

/-- Some point lies on a cycle. -/
def Cyclic (R : α → α → Prop) : Prop := ∃ a, TransGen R a a

variable [LinearOrder α]

/-- The edges that are there when `edge` is tried. -/
def KeptBefore (valid fixed : α → α → Prop) (dropped : Set (α ×ₗ α)) (edge : α ×ₗ α) (x y : α) :
    Prop :=
  valid x y ∧ (fixed x y ∨ (toLex (x, y) < edge ∧ toLex (x, y) ∉ dropped))

/-- The edges that stay. -/
def Remaining (valid : α → α → Prop) (dropped : Set (α ×ₗ α)) (x y : α) : Prop :=
  valid x y ∧ toLex (x, y) ∉ dropped

/-- The greedy choice of the edges left out. -/
def Greedy (valid fixed : α → α → Prop) (dropped : Set (α ×ₗ α)) : Prop :=
  ∀ a b, toLex (a, b) ∈ dropped ↔ valid a b ∧ ¬ fixed a b ∧
    ReflTransGen (KeptBefore valid fixed dropped (toLex (a, b))) b a

namespace Greedy

variable {valid fixed : α → α → Prop} {dropped dropped' : Set (α ×ₗ α)}

/-- Every edge left out closes a cycle with edges that stay. -/
theorem reaches (h : Greedy valid fixed dropped) (hab : toLex (a, b) ∈ dropped) :
    ReflTransGen (Remaining valid dropped) b a := by
  refine ((h a b).mp hab).2.2.lift id fun x y hxy => ⟨hxy.1, ?_⟩
  rcases hxy.2 with hfixed | ⟨-, hkept⟩
  · exact fun hmem => ((h x y).mp hmem).2.1 hfixed
  · exact hkept

/-- **The choice is unique.** -/
theorem unique (hfinite : {e : α ×ₗ α | valid (ofLex e).1 (ofLex e).2}.Finite)
    (h : Greedy valid fixed dropped) (h' : Greedy valid fixed dropped') : dropped = dropped' := by
  have hvalid : ∀ {D : Set (α ×ₗ α)}, Greedy valid fixed D → ∀ e ∈ D,
      valid (ofLex e).1 (ofLex e).2 := fun hD e he => ((hD (ofLex e).1 (ofLex e).2).mp he).1
  -- Well-founded induction over the edges: the choice for one depends on those before it.
  have hagree : ∀ e, valid (ofLex e).1 (ofLex e).2 → (e ∈ dropped ↔ e ∈ dropped') := by
    intro e he
    have hwf : Set.WellFoundedOn {e : α ×ₗ α | valid (ofLex e).1 (ofLex e).2} (· < ·) :=
      hfinite.wellFoundedOn
    refine @Set.WellFoundedOn.induction _ _ _ _ hwf he (fun e => e ∈ dropped ↔ e ∈ dropped')
      fun e he ih => ?_
    have hkept : KeptBefore valid fixed dropped e = KeptBefore valid fixed dropped' e := by
      funext x y
      refine propext (and_congr_right fun hxy => or_congr_right (and_congr_right fun hlt => ?_))
      exact not_congr (ih (toLex (x, y)) hxy hlt)
    have hmem := h (ofLex e).1 (ofLex e).2
    have hmem' := h' (ofLex e).1 (ofLex e).2
    change e ∈ dropped ↔ _ at hmem
    change e ∈ dropped' ↔ _ at hmem'
    rw [hmem, hmem']
    change _ ∧ _ ∧ ReflTransGen (KeptBefore valid fixed dropped e) _ _ ↔
      _ ∧ _ ∧ ReflTransGen (KeptBefore valid fixed dropped' e) _ _
    rw [hkept]
  ext e
  exact ⟨fun he => (hagree e (hvalid h e he)).mp he, fun he => (hagree e (hvalid h' e he)).mpr he⟩

/-- Edges that stay, added to the fixed ones in their order, close no cycle. -/
theorem cyclic_of_finset (h : Greedy valid fixed dropped) (edges : Finset (α ×ₗ α)) :
    (∀ e ∈ edges, valid (ofLex e).1 (ofLex e).2 ∧ e ∉ dropped) →
      Cyclic (fun x y => (valid x y ∧ fixed x y) ∨ toLex (x, y) ∈ edges) →
      Cyclic fun x y => valid x y ∧ fixed x y := by
  induction edges using Finset.induction_on_max with
  | empty =>
    rintro - ⟨x, hx⟩
    exact ⟨x, hx.lift id fun u w hstep => hstep.resolve_right (by simp)⟩
  | insert e edges hmax ih =>
    rintro hstay ⟨x, hx⟩
    obtain ⟨a, b⟩ := e
    have hadd : TransGen (AddEdge (fun x y => (valid x y ∧ fixed x y) ∨ toLex (x, y) ∈ edges) a b)
        x x := hx.lift id fun u w hstep => by
      rcases hstep with hstep | hmem
      · exact .inl (.inl hstep)
      · rcases Finset.mem_insert.mp hmem with heq | hmem
        · exact .inr (Prod.mk.inj heq)
        · exact .inl (.inr hmem)
    have hedges : ∀ e ∈ edges, valid (ofLex e).1 (ofLex e).2 ∧ e ∉ dropped := fun e he =>
      hstay e (Finset.mem_insert_of_mem he)
    rcases transGen_addEdge hadd with hplain | hback
    · exact ih hedges ⟨x, hplain⟩
    · -- The edge would have been dropped when it was tried.
      obtain ⟨hvalid, hkept⟩ := hstay (a, b) (Finset.mem_insert_self _ _)
      by_cases hfixed : fixed a b
      · refine ih hedges ⟨a, ?_⟩
        exact TransGen.trans_left (.single (.inl ⟨hvalid, hfixed⟩)) hback
      · refine absurd ((h a b).mpr ⟨hvalid, hfixed, hback.lift id fun u w hstep => ?_⟩) hkept
        rcases hstep with hstep | hmem
        · exact ⟨hstep.1, .inl hstep.2⟩
        · exact ⟨(hedges _ hmem).1, .inr ⟨hmax _ hmem, (hedges _ hmem).2⟩⟩

/-- **The edges that stay have a cycle exactly if the fixed ones have.** -/
theorem cyclic_iff (hfinite : {e : α ×ₗ α | valid (ofLex e).1 (ofLex e).2}.Finite)
    (h : Greedy valid fixed dropped) :
    Cyclic (Remaining valid dropped) ↔ Cyclic fun x y => valid x y ∧ fixed x y := by
  constructor
  · rintro ⟨x, hx⟩
    have hstay : {e | valid (ofLex e).1 (ofLex e).2 ∧ e ∉ dropped}.Finite :=
      hfinite.subset fun e he => he.1
    refine h.cyclic_of_finset hstay.toFinset (fun e he => by simpa using he) ⟨x, ?_⟩
    exact hx.lift id fun u w hstep => .inr ((Set.Finite.mem_toFinset hstay).mpr hstep)
  · rintro ⟨x, hx⟩
    refine ⟨x, hx.lift id fun u w hstep => ⟨hstep.1, fun hmem => ?_⟩⟩
    exact ((h u w).mp hmem).2.1 hstep.2

end Greedy

end Graph

end ArosTools
