import Mathlib.Data.List.DropRight
import Mathlib.Data.List.Infix
import Mathlib.Tactic.Common

/-!
# Windows over data that arrives in pieces

A word is looked for in data of which only a piece is at hand at a time. It is enough to carry the
last `n` elements of what came before over to the next piece, if no word is longer than `n + 1`.

* `mem_windows` : the windows of a list are its runs of that length.
* `infix_append_carry` : a word that did not occur before occurs in the data so far exactly if it
  occurs in what is carried over and the new piece.
* `rtake_append_rtake` : what is carried over next can be cut from what is at hand.
-/

namespace ArosTools

variable {α : Type} {n : ℕ} {w a b : List α}

/-- `slice::windows`: the runs of `n` elements, from left to right. -/
def windows (n : ℕ) (l : List α) : List (List α) :=
  (List.range (l.length + 1 - n)).map fun i => (l.drop i).take n

theorem mem_windows {l : List α} : w ∈ windows n l ↔ w.length = n ∧ w <:+: l := by
  rw [windows, List.mem_map]
  constructor
  · rintro ⟨i, hi, rfl⟩
    rw [List.mem_range] at hi
    refine ⟨?_, (List.take_prefix _ _).isInfix.trans (List.drop_suffix _ _).isInfix⟩
    rw [List.length_take, List.length_drop]
    omega
  · rintro ⟨rfl, s, t, rfl⟩
    refine ⟨s.length, ?_, ?_⟩
    · rw [List.mem_range, List.length_append, List.length_append]
      omega
    · rw [List.append_assoc, List.drop_left, List.take_left]

theorem rtake_suffix (n : ℕ) (a : List α) : a.rtake n <:+ a := List.drop_suffix _ _

theorem suffix_rtake (h : w <:+ a) (hw : w.length ≤ n) : w <:+ a.rtake n := by
  have hle := h.length_le
  refine List.suffix_of_suffix_length_le h (rtake_suffix n a) ?_
  rw [List.rtake, List.length_drop]
  omega

/-- **What has to be carried over.** -/
theorem infix_append_carry (hw : w.length ≤ n + 1) (ha : ¬ w <:+: a) :
    w <:+: a ++ b ↔ w <:+: a.rtake n ++ b := by
  constructor
  · intro h
    rcases List.infix_append_iff.mp h with h | h | ⟨l₁, l₂, rfl, h₁, h₂⟩
    · exact absurd h ha
    · exact List.infix_append_of_infix_right h
    · -- a word that ends in the new piece starts among the last `n` elements before it
      have hl₂ : l₂ ≠ [] := by
        rintro rfl
        rw [List.append_nil] at ha
        exact ha h₁.isInfix
      have hpos := List.length_pos_iff.mpr hl₂
      rw [List.length_append] at hw
      exact List.infix_append_iff.mpr
        (.inr (.inr ⟨l₁, l₂, rfl, suffix_rtake h₁ (by omega), h₂⟩))
  · intro h
    obtain ⟨s, hs⟩ := rtake_suffix n a
    refine h.trans ⟨s, [], ?_⟩
    rw [List.append_nil, ← List.append_assoc, hs]

theorem rtake_append_rtake (n : ℕ) (a b : List α) :
    (a.rtake n ++ b).rtake n = (a ++ b).rtake n := by
  rcases Nat.le_total a.length n with h | h
  · rw [show a.rtake n = a by rw [List.rtake, Nat.sub_eq_zero_of_le h, List.drop_zero]]
  · have hlen : (a.rtake n).length = n := by
      rw [List.rtake, List.length_drop]
      omega
    refine List.IsSuffix.eq_of_length (suffix_rtake ?_ ?_) ?_
    · obtain ⟨s, hs⟩ := rtake_suffix n a
      refine (rtake_suffix n _).trans ⟨s, ?_⟩
      rw [← List.append_assoc, hs]
    · rw [List.rtake, List.length_drop]
      omega
    · simp only [List.rtake, List.length_drop, List.length_append] at hlen ⊢
      omega

/-- Words that did not occur before, looked for in what is at hand. -/
theorem exists_infix_carry {words : List (List α)} (hwords : ∀ w ∈ words, w.length ≤ n + 1)
    (ha : ∀ w ∈ words, ¬ w <:+: a) :
    (∃ w ∈ words, w <:+: a.rtake n ++ b) ↔ ∃ w ∈ words, w <:+: a ++ b := by
  constructor
  · rintro ⟨w, hw, h⟩
    exact ⟨w, hw, (infix_append_carry (hwords w hw) (ha w hw)).mpr h⟩
  · rintro ⟨w, hw, h⟩
    exact ⟨w, hw, (infix_append_carry (hwords w hw) (ha w hw)).mp h⟩

end ArosTools
