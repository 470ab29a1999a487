import Mathlib.Data.List.Basic

/-!
# Texts put together with separators

A separator begins with a mark that occurs nowhere else in it, so two occurrences of separators in a
text are the same or lie apart.  The pieces around a separator may contain it again: then the text
has been put together in more than one way, and what lies between the two places has changed sides.

* `Separator.cut_cases` : a text cut in two ways.
* `Separator.cut_unique` : pieces without the mark are found again.
* `fields_unique` : the fields of a list, each behind its mark, are found again.
-/

namespace ArosTools

variable {α : Type} {mark : α}

/-- A list that begins with the mark and does not contain it again. -/
structure Separator (mark : α) (s : List α) : Prop where
  eq_cons : ∃ tail, s = mark :: tail ∧ mark ∉ tail

namespace Separator

variable {s s' a a' b b' : List α}

/-- A separator that begins within another one, or at its end, begins at its end. -/
theorem eq_nil_or (hs : Separator mark s) (hs' : Separator mark s') {c : List α} (hc : c ≠ [])
    (h : s ++ b = c ++ (s' ++ b')) : ∃ w, c = s ++ w ∧ b = w ++ (s' ++ b') := by
  rcases List.append_eq_append_iff.mp h with ⟨w, rfl, rfl⟩ | ⟨d, rfl, hd⟩
  · exact ⟨w, rfl, rfl⟩
  · obtain ⟨tail, htail, hmark⟩ := hs.eq_cons
    obtain ⟨tail', rfl, -⟩ := hs'.eq_cons
    obtain ⟨x, c, rfl⟩ := List.exists_cons_of_ne_nil hc
    obtain ⟨-, rfl⟩ := List.cons.inj htail
    cases d with
    | nil => exact ⟨[], by simp, by simpa using hd.symm⟩
    | cons y d =>
      obtain ⟨rfl, -⟩ := List.cons.inj hd
      exact absurd (List.mem_append_right c List.mem_cons_self) hmark

/-- A text that is cut in two ways is cut at one place, or the one cut lies behind the other. -/
theorem cut_cases (hs : Separator mark s) (hs' : Separator mark s')
    (h : a ++ (s ++ b) = a' ++ (s' ++ b')) :
    (a = a' ∧ s ++ b = s' ++ b') ∨ (∃ w, a' = a ++ (s ++ w) ∧ b = w ++ (s' ++ b')) ∨
      ∃ w, a = a' ++ (s' ++ w) ∧ b' = w ++ (s ++ b) := by
  rcases List.append_eq_append_iff.mp h with ⟨c, rfl, hc⟩ | ⟨c, rfl, hc⟩
  · by_cases hnil : c = []
    · subst hnil
      exact .inl ⟨by simp, hc⟩
    · obtain ⟨w, rfl, hw⟩ := eq_nil_or hs hs' hnil hc
      exact .inr (.inl ⟨w, rfl, hw⟩)
  · by_cases hnil : c = []
    · subst hnil
      exact .inl ⟨by simp, hc.symm⟩
    · obtain ⟨w, rfl, hw⟩ := eq_nil_or hs' hs hnil hc
      exact .inr (.inr ⟨w, rfl, hw⟩)

theorem mem (hs : Separator mark s) : mark ∈ s := by
  obtain ⟨tail, rfl, -⟩ := hs.eq_cons
  exact List.mem_cons_self

/-- A piece without the mark ends at the first separator. -/
theorem cut_first (hs : Separator mark s) (hs' : Separator mark s') (ha : mark ∉ a)
    (h : a ++ (s ++ b) = a' ++ (s' ++ b')) :
    (a = a' ∧ s ++ b = s' ++ b') ∨ ∃ w, a' = a ++ (s ++ w) ∧ b = w ++ (s' ++ b') := by
  rcases cut_cases hs hs' h with heq | hbehind | ⟨w, rfl, -⟩
  · exact .inl heq
  · exact .inr hbehind
  · exact absurd (List.mem_append_right _ (List.mem_append_left _ hs'.mem)) ha

/-- Pieces without the mark are found again. -/
theorem cut_unique (hs : Separator mark s) (ha : mark ∉ a) (ha' : mark ∉ a')
    (h : a ++ (s ++ b) = a' ++ (s ++ b')) : a = a' ∧ b = b' := by
  rcases cut_first hs hs ha h with ⟨rfl, heq⟩ | ⟨w, rfl, -⟩
  · exact ⟨rfl, List.append_cancel_left heq⟩
  · exact absurd (List.mem_append_right _ (List.mem_append_left _ hs.mem)) ha'

end Separator

/-! ### Fields behind marks -/

/-- A list that is empty or begins with a mark. -/
def BeginsWith (mark : α → Prop) (rest : List α) : Prop := ∀ x ∈ rest.head?, mark x

theorem BeginsWith.marked {mark : α → Prop} {m : α} {rest : List α}
    (h : BeginsWith (fun x => mark x ∧ x ≠ m) rest) : BeginsWith mark rest := fun x hx => (h x hx).1

theorem BeginsWith.fields {mark : α → Prop} {m : α} (hm : mark m) {fields : List (List α)}
    {rest : List α} (h : BeginsWith mark rest) :
    BeginsWith mark (fields.flatMap (m :: ·) ++ rest) := by
  intro x hx
  cases fields with
  | nil => exact h x hx
  | cons f fields =>
    obtain rfl : m = x := by simpa using hx
    exact hm

/-- A piece without a mark ends where the next mark stands. -/
theorem piece_unique {mark : α → Prop} {a a' rest rest' : List α} (ha : ∀ x ∈ a, ¬ mark x)
    (ha' : ∀ x ∈ a', ¬ mark x) (hrest : BeginsWith mark rest) (hrest' : BeginsWith mark rest')
    (h : a ++ rest = a' ++ rest') : a = a' ∧ rest = rest' := by
  induction a generalizing a' with
  | nil =>
    cases a' with
    | nil => exact ⟨rfl, h⟩
    | cons x a' =>
      rw [List.nil_append] at h
      exact absurd (hrest x (by simp [h])) (ha' x List.mem_cons_self)
  | cons x a ih =>
    cases a' with
    | nil =>
      rw [List.nil_append] at h
      exact absurd (hrest' x (by simp [← h])) (ha x List.mem_cons_self)
    | cons y a' =>
      obtain ⟨rfl, htail⟩ := List.cons.inj h
      obtain ⟨rfl, hrest⟩ := ih (fun z hz => ha z (List.mem_cons_of_mem _ hz))
        (fun z hz => ha' z (List.mem_cons_of_mem _ hz)) htail
      exact ⟨rfl, hrest⟩

/-- Fields behind one mark, with another mark behind the last. -/
theorem fields_unique {mark : α → Prop} {m : α} (hm : mark m) {fields fields' : List (List α)}
    {rest rest' : List α} (hfields : ∀ f ∈ fields, ∀ x ∈ f, ¬ mark x)
    (hfields' : ∀ f ∈ fields', ∀ x ∈ f, ¬ mark x)
    (hrest : BeginsWith (fun x => mark x ∧ x ≠ m) rest)
    (hrest' : BeginsWith (fun x => mark x ∧ x ≠ m) rest')
    (h : fields.flatMap (m :: ·) ++ rest = fields'.flatMap (m :: ·) ++ rest') :
    fields = fields' ∧ rest = rest' := by
  induction fields generalizing fields' with
  | nil =>
    cases fields' with
    | nil => exact ⟨rfl, h⟩
    | cons f fields' =>
      rw [List.flatMap_nil, List.nil_append] at h
      exact absurd rfl (hrest m (by simp [h])).2
  | cons f fields ih =>
    cases fields' with
    | nil =>
      rw [List.flatMap_nil, List.nil_append] at h
      exact absurd rfl (hrest' m (by simp [← h])).2
    | cons f' fields' =>
      rw [List.flatMap_cons, List.flatMap_cons, List.cons_append, List.cons_append,
        List.cons_append, List.cons_append, List.cons.injEq, List.append_assoc,
        List.append_assoc] at h
      obtain ⟨rfl, htail⟩ := piece_unique (hfields f List.mem_cons_self)
        (hfields' f' List.mem_cons_self) (.fields hm hrest.marked)
        (.fields hm hrest'.marked) h.2
      obtain ⟨rfl, hrest⟩ := ih (fun g hg => hfields g (List.mem_cons_of_mem _ hg))
        (fun g hg => hfields' g (List.mem_cons_of_mem _ hg)) htail
      exact ⟨rfl, hrest⟩

end ArosTools
