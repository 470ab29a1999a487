import Mathlib.Tactic.Common

/-!
# Lossy UTF-8

`toStringLossy` reads bytes as UTF-8 and puts the bytes of U+FFFD in the place of every maximal
part that does not begin a character.
-/

namespace ArosTools

namespace Utf8

/-- A character whose first bytes have been read: how many more follow, and where the next of
them lies. -/
structure Begun where
  read : List UInt8
  missing : ℕ
  low : UInt8
  high : UInt8

/-- What a first byte starts. -/
inductive Lead where
  | whole
  | more (missing : ℕ) (low high : UInt8)
  | bad

/-- The role of a first byte. -/
def lead (b : UInt8) : Lead :=
  if b < 0x80 then .whole
  else if 0xc2 ≤ b && b ≤ 0xdf then .more 0 0x80 0xbf
  else if b = 0xe0 then .more 1 0xa0 0xbf
  else if b = 0xed then .more 1 0x80 0x9f
  else if 0xe1 ≤ b && b ≤ 0xef then .more 1 0x80 0xbf
  else if b = 0xf0 then .more 2 0x90 0xbf
  else if b = 0xf4 then .more 2 0x80 0x8f
  else if 0xf1 ≤ b && b ≤ 0xf3 then .more 2 0x80 0xbf
  else .bad

/-- The bytes of U+FFFD. -/
def replacement : List UInt8 := [0xef, 0xbf, 0xbd]

/-- Start a character with `b`, then go on with `next`. -/
def begin (b : UInt8) (next : Option Begun → List UInt8) : List UInt8 :=
  match lead b with
  | .whole => b :: next none
  | .more missing low high => next (some ⟨[b], missing, low, high⟩)
  | .bad => replacement ++ next none

/-- Read the bytes that follow those of a begun character. -/
def lossyFrom : Option Begun → List UInt8 → List UInt8
  | none, [] => []
  | some _, [] => replacement
  | none, b :: rest => begin b fun state => lossyFrom state rest
  | some c, b :: rest =>
    if c.low ≤ b && b ≤ c.high then
      match c.missing with
      | 0 => c.read ++ [b] ++ lossyFrom none rest
      | missing + 1 => lossyFrom (some ⟨c.read ++ [b], missing, 0x80, 0xbf⟩) rest
    else replacement ++ begin b fun state => lossyFrom state rest

end Utf8

/-- The text of a byte string. -/
def toStringLossy (bytes : List UInt8) : List UInt8 := Utf8.lossyFrom none bytes

/-- The bytes are the UTF-8 encoding of a text: reading them loses nothing. -/
def isUtf8 (bytes : List UInt8) : Bool := toStringLossy bytes = bytes

theorem toStringLossy_cons {b : UInt8} (h : b < 0x80) (bytes : List UInt8) :
    toStringLossy (b :: bytes) = b :: toStringLossy bytes := by
  rw [toStringLossy, Utf8.lossyFrom, Utf8.begin, Utf8.lead, if_pos h]
  rfl

/-- ASCII is read as it is. -/
theorem toStringLossy_append {a : List UInt8} (h : ∀ b ∈ a, b < 0x80) (bytes : List UInt8) :
    toStringLossy (a ++ bytes) = a ++ toStringLossy bytes := by
  induction a with
  | nil => rfl
  | cons b a ih =>
    rw [List.cons_append, toStringLossy_cons (h b (by simp)), ih fun c hc => h c (by simp [hc])]
    rfl

theorem toStringLossy_of_ascii {a : List UInt8} (h : ∀ b ∈ a, b < 0x80) : toStringLossy a = a := by
  have happend := toStringLossy_append h []
  rwa [List.append_nil, show toStringLossy [] = [] from rfl, List.append_nil] at happend

theorem Utf8.lead_low {b : UInt8} {missing : ℕ} {low high : UInt8}
    (h : Utf8.lead b = .more missing low high) : 0x80 ≤ low := by
  unfold Utf8.lead at h
  split_ifs at h <;> cases h <;> decide

/-- An ASCII byte ends whatever character was begun before it. -/
theorem Utf8.lossyFrom_append {state : Option Utf8.Begun} {b : UInt8} (hb : b < 0x80)
    (hstate : ∀ c ∈ state, 0x80 ≤ c.low) (a rest : List UInt8) :
    Utf8.lossyFrom state (a ++ b :: rest) =
      Utf8.lossyFrom state a ++ b :: Utf8.lossyFrom none rest := by
  have hbegin : ∀ next, Utf8.begin b next = b :: next none := by
    intro next
    rw [Utf8.begin, Utf8.lead, if_pos hb]
  induction a generalizing state with
  | nil =>
    cases state with
    | none => exact hbegin _
    | some c =>
      have hlow : ¬ c.low ≤ b := UInt8.not_le.mpr (UInt8.lt_of_lt_of_le hb (hstate c rfl))
      have hrange : ¬ (decide (c.low ≤ b) && decide (b ≤ c.high)) = true := by simp [hlow]
      have hempty : Utf8.lossyFrom (some c) [] = Utf8.replacement := rfl
      rw [List.nil_append, hempty]
      conv_lhs => rw [Utf8.lossyFrom]
      rw [if_neg hrange, hbegin]
  | cons x a ih =>
    -- A first byte leaves a state that expects continuation bytes.
    have hfirst : (Utf8.begin x fun state => Utf8.lossyFrom state (a ++ b :: rest)) =
        (Utf8.begin x fun state => Utf8.lossyFrom state a) ++ b :: Utf8.lossyFrom none rest := by
      unfold Utf8.begin
      cases hlead : Utf8.lead x with
      | whole => exact congrArg (x :: ·) (@ih none nofun)
      | more missing low high =>
        refine @ih (some _) ?_
        rintro c ⟨rfl⟩
        exact Utf8.lead_low hlead
      | bad =>
        simp only
        rw [@ih none nofun, List.append_assoc]
    cases state with
    | none => exact hfirst
    | some c =>
      rw [List.cons_append, Utf8.lossyFrom, Utf8.lossyFrom]
      by_cases hx : (decide (c.low ≤ x) && decide (x ≤ c.high)) = true
      · rw [if_pos hx, if_pos hx]
        cases c.missing with
        | zero =>
          simp only
          rw [@ih none nofun, ← List.append_assoc]
        | succ missing =>
          refine @ih (some _) ?_
          rintro c ⟨rfl⟩
          exact UInt8.le_refl _
      · rw [if_neg hx, if_neg hx, hfirst, List.append_assoc]

/-- Texts joined by ASCII bytes are read one by one. -/
theorem toStringLossy_join {b : UInt8} (hb : b < 0x80) (a rest : List UInt8) :
    toStringLossy (a ++ b :: rest) = toStringLossy a ++ b :: toStringLossy rest :=
  Utf8.lossyFrom_append hb (fun _ hc => by cases hc) a rest

end ArosTools
