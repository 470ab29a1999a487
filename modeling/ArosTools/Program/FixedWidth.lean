import Mathlib.Algebra.Group.Nat.Defs
import Mathlib.Data.List.Lex
import Mathlib.Data.Char
import Mathlib.Tactic.Common

/-!
# Numbers of a fixed width

Decimal numbers with zeros in front are ordered as texts like the numbers that they stand for,
whatever stands behind them.
-/

namespace ArosTools

/-- The last digits of a number, so many of them. -/
def fixedDigits : ℕ → ℕ → List Char
  | 0, _ => []
  | width + 1, n => fixedDigits width (n / 10) ++ [Nat.digitChar (n % 10)]

theorem fixedDigits_zero (width : ℕ) : fixedDigits width 0 = List.replicate width '0' := by
  induction width with
  | zero => rfl
  | succ width ih =>
    rw [fixedDigits, Nat.zero_div, ih, List.replicate_succ']
    rfl

/-- A number with zeros in front. -/
theorem replicate_toDigits {width n : ℕ} (h : n < 10 ^ (width + 1)) :
    List.replicate (width + 1 - (Nat.toDigits 10 n).length) '0' ++ Nat.toDigits 10 n =
      fixedDigits (width + 1) n := by
  induction width generalizing n with
  | zero =>
    have hn : n < 10 := by simpa using h
    rw [Nat.toDigits_of_lt_base hn, fixedDigits, fixedDigits, Nat.mod_eq_of_lt hn]
    rfl
  | succ width ih =>
    rw [fixedDigits]
    rcases Nat.lt_or_ge n 10 with hn | hn
    · rw [Nat.toDigits_of_lt_base hn, Nat.div_eq_of_lt hn, fixedDigits_zero, Nat.mod_eq_of_lt hn]
      rfl
    · have hdiv : n / 10 < 10 ^ (width + 1) := by
        rw [Nat.div_lt_iff_lt_mul (by decide)]
        rwa [← Nat.pow_succ]
      rw [Nat.toDigits_of_base_le (by decide) hn, List.length_append, List.length_singleton,
        Nat.add_sub_add_right, ← List.append_assoc, ih hdiv]

theorem digitChar_lt : ∀ b < 10, ∀ a < b, Nat.digitChar a < Nat.digitChar b := by decide

/-- **The order of numbers is the order of their texts.** -/
theorem fixedDigits_append_lt {width m n : ℕ} (hlt : m < n) (hn : n < 10 ^ width)
    (rest rest' : List Char) : fixedDigits width m ++ rest < fixedDigits width n ++ rest' := by
  induction width generalizing m n rest rest' with
  | zero => omega
  | succ width ih =>
    have hdiv : n / 10 < 10 ^ width := by
      rw [Nat.div_lt_iff_lt_mul (by decide)]
      rwa [← Nat.pow_succ]
    rw [fixedDigits, fixedDigits, List.append_assoc, List.append_assoc]
    rcases Nat.lt_or_ge (m / 10) (n / 10) with h | h
    · exact ih h hdiv _ _
    · have hsame : m / 10 = n / 10 := by omega
      rw [hsame]
      refine List.append_left_lt (List.cons_lt_cons_iff.mpr (.inl ?_))
      exact digitChar_lt (n % 10) (Nat.mod_lt _ (by decide)) (m % 10) (by omega)

/-- A text is not larger than another one. -/
def TextLe (text text' : List Char) : Prop := text = text' ∨ text < text'

theorem TextLe.not_lt {text text' : List Char} (h : TextLe text text') : ¬ text' < text := by
  rcases h with rfl | h
  · exact lt_irrefl text
  · exact lt_asymm h

/-- Texts that begin with a number are ordered by it, and then by what stands behind it. -/
theorem TextLe.field {width m n : ℕ} {rest rest' : List Char} (hn : n < 10 ^ width)
    (h : m < n ∨ m = n ∧ TextLe rest rest') (c : Char) :
    TextLe (fixedDigits width m ++ c :: rest) (fixedDigits width n ++ c :: rest') := by
  rcases h with h | ⟨rfl, rfl | h⟩
  · exact .inr (fixedDigits_append_lt h hn _ _)
  · exact .inl rfl
  · exact .inr (List.append_left_lt (List.cons_lt_cons_iff.mpr (.inr ⟨rfl, h⟩)))

end ArosTools
