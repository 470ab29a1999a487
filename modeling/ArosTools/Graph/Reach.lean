import Mathlib.Logic.Relation
import Mathlib.Data.Set.Insert

/-!
# Reachability and strongly connected components

Facts about the paths of a relation `R`, over any type:

* `Mutual R`, the strongly connected components, and `Acyclic R`;
* `acyclic_of_collapse`: a relation is acyclic when a map into another one sends every edge
  to a path, and only edges into a class of intermediate points may stay in a component;
* `reflTransGen_or`: a path over two kinds of edges uses only the first kind, or shows an
  edge of the second one;
* `Avoiding`, the paths that keep out of a set, and how they are cut at a second set.
-/

namespace ArosTools

namespace Graph

open Relation

variable {α β : Type*} {R E F : α → α → Prop} {a b c : α}

/-! ### Components -/

/-- `a` and `b` lie in one strongly connected component. -/
def Mutual (R : α → α → Prop) (a b : α) : Prop :=
  ReflTransGen R a b ∧ ReflTransGen R b a

theorem Mutual.refl (a : α) : Mutual R a a :=
  ⟨ReflTransGen.refl, ReflTransGen.refl⟩

theorem Mutual.symm (h : Mutual R a b) : Mutual R b a :=
  ⟨h.2, h.1⟩

theorem Mutual.trans (hab : Mutual R a b) (hbc : Mutual R b c) : Mutual R a c :=
  ⟨hab.1.trans hbc.1, hbc.2.trans hab.2⟩

theorem Mutual.mono (h : ∀ a b, E a b → R a b) (hab : Mutual E a b) : Mutual R a b :=
  ⟨hab.1.lift id h, hab.2.lift id h⟩

/-- Two different points of one component lie on a cycle. -/
theorem Mutual.transGen_of_ne (h : Mutual R a b) (hne : a ≠ b) : TransGen R a a := by
  rcases reflTransGen_iff_eq_or_transGen.mp h.1 with heq | hab
  · exact absurd heq.symm hne
  · exact hab.trans_left h.2

/-- A cycle through one point of a component can be led through every other point. -/
theorem Mutual.transGen (h : Mutual R a b) (ha : TransGen R a a) : TransGen R b b :=
  (TransGen.trans_right h.2 ha).trans_left h.1

/-- No point lies on a cycle. -/
def Acyclic (R : α → α → Prop) : Prop := ∀ a, ¬ TransGen R a a

/-- **Acyclicity by collapse.** Every edge is sent to a path; an edge that stays in a component
of the image ends in an intermediate point, and edges out of intermediate points do not. -/
theorem acyclic_of_collapse {Q : β → β → Prop} {f : α → β} {mid : α → Prop}
    (weak : ∀ a b, R a b → ReflTransGen Q (f a) (f b))
    (edge : ∀ a b, R a b → ¬ ReflTransGen Q (f b) (f a) ∨ mid b)
    (strict : ∀ a b, mid a → R a b → ¬ ReflTransGen Q (f b) (f a)) : Acyclic R := by
  intro a hcycle
  obtain ⟨c, hac, hca⟩ := TransGen.head'_iff.mp hcycle
  have hback := hca.lift' f weak
  -- The first edge stays in its component, so it ends in an intermediate point.
  rcases edge a c hac with hstrict | hmid
  · exact hstrict hback
  · rcases ReflTransGen.cases_head hca with rfl | ⟨e, hce, hea⟩
    · exact strict c c hmid hac hback
    · have hec : ReflTransGen R e c := hea.tail hac
      exact strict c e hmid hce (hec.lift' f weak)

/-- A path over two kinds of edges stays in the first kind, or has an edge of the second. -/
theorem reflTransGen_or (h : ReflTransGen (fun a b => E a b ∨ F a b) a b) :
    ReflTransGen E a b ∨ ∃ x y, ReflTransGen (fun a b => E a b ∨ F a b) a x ∧ F x y ∧
      ReflTransGen (fun a b => E a b ∨ F a b) y b := by
  induction h with
  | refl => exact Or.inl ReflTransGen.refl
  | tail hab hbc ih =>
    rcases ih with hE | ⟨x, y, hax, hxy, hyb⟩
    · rcases hbc with hbc | hbc
      · exact Or.inl (hE.tail hbc)
      · exact Or.inr ⟨_, _, hab, hbc, ReflTransGen.refl⟩
    · exact Or.inr ⟨x, y, hax, hxy, hyb.tail hbc⟩

/-! ### Paths that keep out of a set -/

/-- The edges of `R` that do not end in `S`. -/
def Avoiding (R : α → α → Prop) (S : Set α) (a b : α) : Prop := R a b ∧ b ∉ S

theorem Avoiding.mono {S T : Set α} (h : S ⊆ T) (a b : α) (hab : Avoiding R T a b) :
    Avoiding R S a b :=
  ⟨hab.1, fun hb => hab.2 (h hb)⟩

theorem reflTransGen_of_avoiding {S : Set α} (h : ReflTransGen (Avoiding R S) a b) :
    ReflTransGen R a b :=
  h.lift id fun _ _ hab => hab.1

theorem avoiding_empty (h : ReflTransGen R a b) : ReflTransGen (Avoiding R ∅) a b :=
  h.lift id fun _ _ hab => ⟨hab, id⟩

/-- A path either keeps out of a second set too, or is cut at a point of it. -/
theorem avoiding_union {S T : Set α} (h : ReflTransGen (Avoiding R S) a b) :
    ReflTransGen (Avoiding R (S ∪ T)) a b ∨
      ∃ w ∈ T, ReflTransGen (Avoiding R S) a w ∧ ReflTransGen (Avoiding R S) w b := by
  induction h with
  | refl => exact Or.inl ReflTransGen.refl
  | @tail x y hax hxy ih =>
    rcases ih with hkeep | ⟨w, hw, haw, hwx⟩
    · by_cases hy : y ∈ T
      · exact Or.inr ⟨y, hy, hax.tail hxy, ReflTransGen.refl⟩
      · exact Or.inl (hkeep.tail ⟨hxy.1, fun h => h.elim hxy.2 hy⟩)
    · exact Or.inr ⟨w, hw, haw, hwx.tail hxy⟩

/-- A set that edges leave only into `S` is not left by a path avoiding `S`. -/
theorem mem_of_avoiding {S B : Set α} (closed : ∀ x ∈ B, ∀ y, R x y → y ∈ B ∨ y ∈ S)
    (ha : a ∈ B) (h : ReflTransGen (Avoiding R S) a b) : b ∈ B := by
  induction h with
  | refl => exact ha
  | tail _ hxy ih => exact (closed _ ih _ hxy.1).resolve_right hxy.2

end Graph

end ArosTools
