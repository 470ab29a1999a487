import Mathlib.Order.Bounds.Basic
import Mathlib.Algebra.BigOperators.Group.Finset.Basic
import Mathlib.Algebra.Order.BigOperators.Group.Finset

/-!
# Worklist searches

A worklist search keeps the nodes it has expanded and the nodes that are still waiting. It drops a
waiting node that is expanded already, and expands one that is not by adding its successors to the
waiting ones, in whatever order and however often.

* `Searched` — what holds between two rounds;
* `Searched.isLeast` — with nothing left waiting, the expanded nodes are the least set that
  contains the roots and is closed under successors;
* `sum_sdiff_insert` — the successors still to be added, which every expansion lowers.
-/

namespace ArosTools

namespace Graph

variable {α : Type} {next : α → Set α} {roots visited pending : Set α} {a : α}

/-- A set with the roots in it that no successor leaves. -/
def ClosedOver (next : α → Set α) (roots S : Set α) : Prop :=
  roots ⊆ S ∧ ∀ a ∈ S, next a ⊆ S

/-- Where a search from `roots` stands: nothing is visited or pending that a closed set could do
without, and every root and every successor of a visited node is visited or pending. -/
structure Searched (next : α → Set α) (roots visited pending : Set α) : Prop where
  needed : ∀ S, ClosedOver next roots S → visited ∪ pending ⊆ S
  rooted : roots ⊆ visited ∪ pending
  followed : ∀ a ∈ visited, next a ⊆ visited ∪ pending

namespace Searched

theorem start : Searched next roots ∅ roots where
  needed S hS := by rw [Set.empty_union]; exact hS.1
  rooted := Set.subset_union_right
  followed a ha := absurd ha (Set.notMem_empty a)

/-- A node that is visited already is dropped. -/
theorem skip (h : Searched next roots visited (insert a pending)) (ha : a ∈ visited) :
    Searched next roots visited pending := by
  have hsame : visited ∪ insert a pending = visited ∪ pending := by
    rw [Set.union_insert, Set.insert_eq_of_mem (Set.mem_union_left pending ha)]
  exact ⟨hsame ▸ h.needed, hsame ▸ h.rooted, hsame ▸ h.followed⟩

/-- A node that is not visited yet is expanded. -/
theorem expand (h : Searched next roots visited (insert a pending)) :
    Searched next roots (insert a visited) (pending ∪ next a) := by
  have hgrow : visited ∪ insert a pending ⊆ insert a visited ∪ (pending ∪ next a) := by
    rintro b (hb | rfl | hb)
    · exact .inl (.inr hb)
    · exact .inl (.inl rfl)
    · exact .inr (.inl hb)
  refine ⟨fun S hS => ?_, h.rooted.trans hgrow, fun b hb => ?_⟩
  · have hold := h.needed S hS
    have ha : a ∈ S := hold (.inr (.inl rfl))
    rintro b ((rfl | hb) | hb | hb)
    · exact ha
    · exact hold (.inl hb)
    · exact hold (.inr (.inr hb))
    · exact hS.2 a ha hb
  · rcases hb with rfl | hb
    · exact fun c hc => .inr (.inr hc)
    · exact (h.followed b hb).trans hgrow

/-- **A finished search has found the least closed set.** -/
theorem isLeast (h : Searched next roots visited ∅) :
    IsLeast {S | ClosedOver next roots S} visited := by
  have hrooted := h.rooted
  have hfollowed := h.followed
  rw [Set.union_empty] at hrooted hfollowed
  refine ⟨⟨hrooted, hfollowed⟩, fun S hS => ?_⟩
  have hneeded := h.needed S hS
  rwa [Set.union_empty] at hneeded

end Searched

/-! ### Termination -/

/-- Expanding a node uses up its weight, unless it has none. -/
theorem sum_sdiff_insert [DecidableEq α] {nodes visited : Finset α} {weight : α → ℕ}
    (hnew : a ∉ visited) (hknown : a ∈ nodes ∨ weight a = 0) :
    ∑ b ∈ nodes \ insert a visited, weight b + weight a ≤ ∑ b ∈ nodes \ visited, weight b := by
  by_cases ha : a ∈ nodes
  · have hmem : a ∈ nodes \ visited := Finset.mem_sdiff.mpr ⟨ha, hnew⟩
    rw [Finset.sdiff_insert, Finset.sum_erase_add _ _ hmem]
  · rw [hknown.resolve_left ha, Nat.add_zero]
    exact Finset.sum_le_sum_of_subset
      (Finset.sdiff_subset_sdiff (Finset.Subset.refl _) (Finset.subset_insert _ _))

end Graph

end ArosTools
