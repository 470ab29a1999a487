import Mathlib.Data.List.Infix
import Mathlib.Data.List.Basic
import Mathlib.Tactic.Common

/-!
# Paths as texts

A path as one text, its names joined by a separator.

* `rsplitOnce`, `ancestors` — the loop that cuts a text at its last separator until none is left;
* `Above` — the text of a proper ancestor: what stands before some separator;
* `mem_ancestors` — the loop yields the proper ancestors and nothing else;
* `above_join`, `above_intercalate` — the ancestors of two texts joined by a separator, and of
  names joined by separators.
-/

namespace ArosTools

namespace SlashPath

variable {α : Type}

/-- The text of a proper ancestor: what stands before one of the separators. -/
def Above (sep : α) (above text : List α) : Prop := ∃ rest, text = above ++ sep :: rest

section Above

variable {sep : α} {a b c : List α}

theorem Above.trans (hab : Above sep a b) (hbc : Above sep b c) : Above sep a c := by
  obtain ⟨r, rfl⟩ := hab
  obtain ⟨r', rfl⟩ := hbc
  exact ⟨r ++ sep :: r', by simp⟩

theorem above_append (a rest : List α) : Above sep a (a ++ sep :: rest) := ⟨rest, rfl⟩

/-- What is above a joined text is above its first part, is the first part, or reaches into the
second. -/
theorem above_join {p r : List α} : Above sep a (p ++ sep :: r) ↔
    Above sep a p ∨ a = p ∨ ∃ b, Above sep b r ∧ a = p ++ sep :: b := by
  constructor
  · rintro ⟨rest, h⟩
    rcases List.append_eq_append_iff.mp h with ⟨d, rfl, hd⟩ | ⟨d, rfl, hd⟩
    · cases d with
      | nil => exact .inr (.inl (List.append_nil p))
      | cons x d =>
        rw [List.cons_append] at hd
        obtain ⟨rfl, rfl⟩ := List.cons.inj hd
        exact .inr (.inr ⟨d, ⟨rest, rfl⟩, rfl⟩)
    · cases d with
      | nil => exact .inr (.inl (List.append_nil a).symm)
      | cons x d =>
        obtain ⟨rfl, hd⟩ := List.cons.inj hd
        exact .inl ⟨d, rfl⟩
  · rintro (h | rfl | ⟨b, ⟨rest, rfl⟩, rfl⟩)
    · exact h.trans (above_append p r)
    · exact above_append a r
    · exact ⟨rest, by simp⟩

theorem not_above_of_notMem (h : sep ∉ b) : ¬ Above sep a b := by
  rintro ⟨rest, rfl⟩
  exact h (by simp)

end Above

section Names

variable {sep : α} {a : List α}

theorem intercalate_concat {names : List (List α)} (h : names ≠ []) (name : List α) :
    [sep].intercalate (names ++ [name]) = [sep].intercalate names ++ sep :: name := by
  induction names with
  | nil => exact absurd rfl h
  | cons n rest ih =>
    cases rest with
    | nil => simp [List.intercalate]
    | cons m rest =>
      have hrest := ih (List.cons_ne_nil m rest)
      simp only [List.intercalate, List.cons_append, List.intersperse_cons_cons,
        List.flatten_cons, List.append_assoc] at hrest ⊢
      rw [hrest]

/-- The ancestors of names joined by separators are the joined names of the paths on the way. -/
theorem above_intercalate {names : List (List α)} (hsep : ∀ name ∈ names, sep ∉ name) :
    Above sep a ([sep].intercalate names) ↔
      ∃ dir, dir ≠ [] ∧ dir <+: names ∧ dir ≠ names ∧ a = [sep].intercalate dir := by
  induction names using List.reverseRecOn with
  | nil =>
    constructor
    · exact fun h => absurd h (not_above_of_notMem (by simp [List.intercalate]))
    · rintro ⟨dir, hne, hdir, -, -⟩
      exact absurd (List.prefix_nil.mp hdir) hne
  | append_singleton names name ih =>
    have hname : sep ∉ name := hsep name (by simp)
    have ih := ih fun n hn => hsep n (by simp [hn])
    by_cases hnil : names = []
    · subst hnil
      constructor
      · exact fun h => absurd h (not_above_of_notMem (by simpa [List.intercalate] using hname))
      · rintro ⟨dir, hne, hdir, hneq, -⟩
        rcases List.prefix_concat_iff.mp hdir with h | h
        · exact absurd h hneq
        · exact absurd (List.prefix_nil.mp h) hne
    · rw [intercalate_concat hnil, above_join, ih]
      constructor
      · rintro (⟨dir, hne, hdir, hneq, rfl⟩ | rfl | ⟨b, hb, -⟩)
        · refine ⟨dir, hne, hdir.trans (List.prefix_append _ _), ?_, rfl⟩
          rintro rfl
          have hlen := hdir.length_le
          rw [List.length_append, List.length_singleton] at hlen
          omega
        · exact ⟨names, hnil, List.prefix_append _ _, by simp, rfl⟩
        · exact absurd hb (not_above_of_notMem hname)
      · rintro ⟨dir, hne, hdir, hneq, rfl⟩
        rcases List.prefix_concat_iff.mp hdir with h | h
        · exact absurd h hneq
        · by_cases heq : dir = names
          · exact .inr (.inl (by rw [heq]))
          · exact .inl ⟨dir, hne, h, heq, rfl⟩

end Names

section Ancestors

variable [DecidableEq α] {sep : α} {a b text : List α}

/-- `str::rsplit_once`: what stands before and after the last separator. -/
def rsplitOnce (sep : α) : List α → Option (List α × List α)
  | [] => none
  | c :: rest =>
    match rsplitOnce sep rest with
    | some (init, last) => some (c :: init, last)
    | none => if c = sep then some ([], rest) else none

/-- The texts before the last separator, again and again, until there is none. -/
def ancestorsFrom (sep : α) : ℕ → List α → List (List α)
  | 0, _ => []
  | fuel + 1, text =>
    match rsplitOnce sep text with
    | some (init, _) => init :: ancestorsFrom sep fuel init
    | none => []

/-- The loop `while let Some((prefix, _)) = parent.rsplit_once(sep)`. -/
def ancestors (sep : α) (text : List α) : List (List α) := ancestorsFrom sep text.length text

theorem rsplitOnce_eq_none : rsplitOnce sep text = none ↔ sep ∉ text := by
  induction text with
  | nil => simp [rsplitOnce]
  | cons c rest ih =>
    rw [rsplitOnce]
    cases hrest : rsplitOnce sep rest with
    | none =>
      rw [hrest] at ih
      have := ih.mp rfl
      by_cases hc : c = sep
      · simp [hc]
      · simp [hc, this, Ne.symm hc]
    | some r =>
      rw [hrest] at ih
      have : sep ∈ rest := by
        by_contra h
        exact nomatch ih.mpr h
      simp [this]

theorem rsplitOnce_eq_some : rsplitOnce sep text = some (a, b) ↔
    text = a ++ sep :: b ∧ sep ∉ b := by
  induction text generalizing a b with
  | nil => simp [rsplitOnce]
  | cons c rest ih =>
    rw [rsplitOnce]
    cases hrest : rsplitOnce sep rest with
    | none =>
      have hnot := rsplitOnce_eq_none.mp hrest
      by_cases hc : c = sep
      · simp only [hc, if_true, Option.some.injEq, Prod.mk.injEq]
        constructor
        · rintro ⟨rfl, rfl⟩
          exact ⟨rfl, hnot⟩
        · rintro ⟨h, -⟩
          cases a with
          | nil => exact ⟨rfl, (List.cons.inj h).2⟩
          | cons x a => exact absurd (by rw [(List.cons.inj h).2]; simp) hnot
      · simp only [hc, if_false, reduceCtorEq, false_iff, not_and]
        intro h
        cases a with
        | nil => exact absurd (List.cons.inj h).1 hc
        | cons x a => exact absurd (by rw [(List.cons.inj h).2]; simp) hnot
    | some r =>
      obtain ⟨init, last⟩ := r
      obtain ⟨heq, hlast⟩ := ih.mp hrest
      simp only [Option.some.injEq, Prod.mk.injEq]
      constructor
      · rintro ⟨rfl, rfl⟩
        exact ⟨by rw [heq]; rfl, hlast⟩
      · rintro ⟨h, hb⟩
        cases a with
        | nil =>
          rw [(List.cons.inj h).2] at heq
          exact absurd (by rw [heq]; simp) hb
        | cons x a =>
          rw [List.cons_append, List.cons.injEq] at h
          obtain ⟨rfl, h⟩ := h
          have hsplit := ih.mpr ⟨h, hb⟩
          rw [hrest] at hsplit
          obtain ⟨rfl, rfl⟩ := Prod.mk.inj (Option.some.inj hsplit)
          exact ⟨rfl, rfl⟩

theorem mem_ancestorsFrom {fuel : ℕ} (h : text.length ≤ fuel) :
    a ∈ ancestorsFrom sep fuel text ↔ Above sep a text := by
  induction fuel generalizing text with
  | zero =>
    rw [List.length_eq_zero_iff.mp (Nat.le_zero.mp h)]
    exact ⟨nofun, fun h => absurd h (not_above_of_notMem List.not_mem_nil)⟩
  | succ fuel ih =>
    rw [ancestorsFrom]
    cases hsplit : rsplitOnce sep text with
    | none =>
      exact ⟨nofun, fun h => absurd h (not_above_of_notMem (rsplitOnce_eq_none.mp hsplit))⟩
    | some r =>
      obtain ⟨init, last⟩ := r
      obtain ⟨rfl, hlast⟩ := rsplitOnce_eq_some.mp hsplit
      have hfuel : init.length ≤ fuel := by
        rw [List.length_append, List.length_cons] at h
        omega
      simp only [List.mem_cons, ih hfuel, above_join]
      constructor
      · rintro (h | h)
        · exact .inr (.inl h)
        · exact .inl h
      · rintro (h | h | ⟨b, hb, -⟩)
        · exact .inr h
        · exact .inl h
        · exact absurd hb (not_above_of_notMem hlast)

/-- **The loop yields the proper ancestors of a text.** -/
@[simp] theorem mem_ancestors : a ∈ ancestors sep text ↔ Above sep a text :=
  mem_ancestorsFrom le_rfl

end Ancestors

end SlashPath

end ArosTools
