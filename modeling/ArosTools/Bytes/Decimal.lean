import Mathlib.Data.Nat.Digits.Lemmas

/-!
# Numbers as text

Reading a number in a radix, with or without a sign, and writing one in decimal.  A reader accepts
leading zeros and a sign that a writer never produces; `parseInt64_intText` is the direction that
holds for every number; `parseInt64_bounds` says what a reader can return.
-/

namespace ArosTools

/-- The value of a digit, if `b` is one in this radix. -/
def digitOf (radix : ℕ) (b : UInt8) : Option ℕ :=
  let value :=
    if 0x30 ≤ b ∧ b ≤ 0x39 then some (b.toNat - 0x30)
    else if 0x61 ≤ b ∧ b ≤ 0x7a then some (b.toNat - 0x61 + 10)
    else if 0x41 ≤ b ∧ b ≤ 0x5a then some (b.toNat - 0x41 + 10)
    else none
  value.filter (· < radix)

/-- The value of a run of digits read after `n`. -/
def readDigits (radix : ℕ) : ℕ → List UInt8 → Option ℕ
  | n, [] => some n
  | n, b :: rest => do
    let d ← digitOf radix b
    readDigits radix (n * radix + d) rest

/-- The text after a leading `+`, if there is one. -/
def stripPlus : List UInt8 → List UInt8
  | [] => []
  | b :: rest => if b = 0x2b then rest else b :: rest

/-- An unsigned number below `limit`: an optional `+` and at least one digit. -/
def parseUnsigned (radix limit : ℕ) (text : List UInt8) : Option ℕ :=
  if stripPlus text = [] then none
  else (readDigits radix 0 (stripPlus text)).filter (· < limit)

/-- A signed 64-bit decimal number: an optional sign and at least one digit. -/
def parseInt64 (text : List UInt8) : Option ℤ :=
  if text.head? = some 0x2d then
    if text.tail = [] then none
    else ((readDigits 10 0 text.tail).filter (· ≤ 2 ^ 63)).map fun n : ℕ => -(n : ℤ)
  else (parseUnsigned 10 (2 ^ 63) text).map fun n : ℕ => (n : ℤ)

/-- A decimal digit. -/
def digitByte (d : ℕ) : UInt8 := UInt8.ofNat (0x30 + d)

/-- A natural number in decimal. -/
def natText (n : ℕ) : List UInt8 :=
  if n = 0 then [0x30] else (Nat.digits 10 n).reverse.map digitByte

/-- An integer in decimal. -/
def intText (n : ℤ) : List UInt8 :=
  if n < 0 then 0x2d :: natText n.natAbs else natText n.natAbs

theorem toNat_digitByte {d : ℕ} (h : d < 10) : (digitByte d).toNat = 0x30 + d := by
  rw [digitByte, UInt8.toNat_ofNat']
  omega

theorem digitOf_digitByte {d : ℕ} (h : d < 10) : digitOf 10 (digitByte d) = some d := by
  have hn := toNat_digitByte h
  have hle : 0x30 ≤ digitByte d ∧ digitByte d ≤ 0x39 := by
    simp only [UInt8.le_iff_toNat_le, hn]
    exact ⟨Nat.le_add_right _ _, Nat.add_le_add_left (Nat.le_of_lt_succ h) _⟩
  simp [digitOf, hle, hn, h]

theorem readDigits_digits (n : ℕ) (ds : List ℕ) (h : ∀ d ∈ ds, d < 10) :
    readDigits 10 n (ds.map digitByte) = some (ds.foldl (fun n d => n * 10 + d) n) := by
  induction ds generalizing n with
  | nil => rfl
  | cons d ds ih =>
    rw [List.map_cons, readDigits, digitOf_digitByte (h d (by simp))]
    exact ih _ fun d hd => h d (by simp [hd])

theorem foldl_reverse_digits (n : ℕ) :
    (Nat.digits 10 n).reverse.foldl (fun n d => n * 10 + d) 0 = n := by
  have hfold := @List.foldl_reverse ℕ ℕ (Nat.digits 10 n) (fun n d => n * 10 + d) 0
  rw [hfold]
  conv_rhs => rw [← Nat.ofDigits_digits 10 n]
  rw [Nat.ofDigits_eq_foldr]
  congr 1
  funext d acc
  simp
  ring

theorem readDigits_natText (n : ℕ) : readDigits 10 0 (natText n) = some n := by
  unfold natText
  split_ifs with h
  · subst h
    decide
  · rw [readDigits_digits, foldl_reverse_digits]
    intro d hd
    exact Nat.digits_lt_base (by decide) (List.mem_reverse.mp hd)

theorem natText_ne_nil (n : ℕ) : natText n ≠ [] := by
  unfold natText
  split_ifs with h
  · simp
  · rw [Ne, List.map_eq_nil_iff, List.reverse_eq_nil_iff]
    exact Nat.digits_ne_nil_iff_ne_zero.mpr h

/-- Decimal text is made of digits. -/
theorem digit_of_mem_natText {n : ℕ} {b : UInt8} (h : b ∈ natText n) : 0x30 ≤ b ∧ b ≤ 0x39 := by
  unfold natText at h
  split_ifs at h with h0
  · rw [List.mem_singleton.mp h]
    decide
  · obtain ⟨d, hd, rfl⟩ := List.mem_map.mp h
    have hlt : d < 10 := Nat.digits_lt_base (by decide) (List.mem_reverse.mp hd)
    simp only [UInt8.le_iff_toNat_le, toNat_digitByte hlt]
    exact ⟨Nat.le_add_right _ _, Nat.add_le_add_left (Nat.le_of_lt_succ hlt) _⟩

theorem natText_cons {n : ℕ} : ∃ b rest, natText n = b :: rest ∧ b ≠ 0x2b ∧ b ≠ 0x2d := by
  cases h : natText n with
  | nil => exact absurd h (natText_ne_nil n)
  | cons b rest =>
    have hb := digit_of_mem_natText (h ▸ List.mem_cons_self : b ∈ natText n)
    refine ⟨b, rest, rfl, ?_, ?_⟩
    · rintro rfl
      exact absurd hb.1 (by decide)
    · rintro rfl
      exact absurd hb.1 (by decide)

theorem parseUnsigned_natText {n limit : ℕ} (h : n < limit) :
    parseUnsigned 10 limit (natText n) = some n := by
  obtain ⟨b, rest, htext, hplus, -⟩ := @natText_cons n
  have hstrip : stripPlus (natText n) = natText n := by rw [htext, stripPlus, if_neg hplus]
  rw [parseUnsigned, hstrip, if_neg (natText_ne_nil n), readDigits_natText]
  simp [h]

/-- Reading what was written gives the number back. -/
theorem parseInt64_intText {n : ℤ} (hlo : -2 ^ 63 ≤ n) (hhi : n < 2 ^ 63) :
    parseInt64 (intText n) = some n := by
  unfold intText
  split_ifs with hneg
  · have hle : n.natAbs ≤ 2 ^ 63 := by omega
    have hval : -(n.natAbs : ℤ) = n := by omega
    rw [parseInt64, List.head?_cons, if_pos rfl, List.tail_cons, if_neg (natText_ne_nil _),
      readDigits_natText, Option.filter_some, if_pos (decide_eq_true hle), Option.map_some, hval]
  · obtain ⟨b, rest, htext, -, hminus⟩ := @natText_cons n.natAbs
    have hval : (n.natAbs : ℤ) = n := by omega
    have hhead : (natText n.natAbs).head? ≠ some 0x2d := by
      rw [htext]
      simpa using hminus
    rw [parseInt64, if_neg hhead, parseUnsigned_natText (by omega), Option.map_some, hval]

theorem parseInt64_bounds {text : List UInt8} {n : ℤ} (h : parseInt64 text = some n) :
    -2 ^ 63 ≤ n ∧ n < 2 ^ 63 := by
  unfold parseInt64 at h
  split_ifs at h with h₁ h₂
  · obtain ⟨m, hm, rfl⟩ := Option.map_eq_some_iff.mp h
    have hle := (Option.filter_eq_some_iff.mp hm).2
    rw [decide_eq_true_eq] at hle
    omega
  · obtain ⟨m, hm, rfl⟩ := Option.map_eq_some_iff.mp h
    unfold parseUnsigned at hm
    split_ifs at hm
    have hlt := (Option.filter_eq_some_iff.mp hm).2
    rw [decide_eq_true_eq] at hlt
    omega

end ArosTools
