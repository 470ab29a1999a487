import ArosTools.Bytes.Basic

/-!
# Little-endian base 128

A number as groups of seven bits, the lowest group first.  Every byte but the last has its top bit
set.

* `encode` : the shortest encoding.
-/

namespace ArosTools

namespace Leb128

/-- The shortest encoding of a number. -/
def encode (n : ℕ) : List UInt8 :=
  if n < 128 then [UInt8.ofNat n] else UInt8.ofNat (n % 128 + 128) :: encode (n / 128)

theorem encode_of_lt {n : ℕ} (h : n < 128) : encode n = [UInt8.ofNat n] := by
  rw [encode, if_pos h]

theorem encode_of_le {n : ℕ} (h : 128 ≤ n) :
    encode n = UInt8.ofNat (n % 128 + 128) :: encode (n / 128) := by
  rw [encode, if_neg (by omega)]

theorem encode_ne_nil (n : ℕ) : encode n ≠ [] := by
  rw [encode]
  split_ifs <;> exact List.cons_ne_nil _ _

theorem length_encode_pos (n : ℕ) : 0 < (encode n).length :=
  List.length_pos_iff.mpr (encode_ne_nil n)

/-- The encoding of a number that ends here. -/
theorem encode_append_last {b : UInt8} {n : ℕ} {bytes rest : List UInt8} (hb : b.toNat < 128) :
    b :: bytes = encode n ++ rest ↔ n = b.toNat ∧ bytes = rest := by
  constructor
  · intro h
    rcases Nat.lt_or_ge n 128 with hn | hn
    · rw [encode_of_lt hn, List.singleton_append, List.cons.injEq] at h
      obtain ⟨rfl, rfl⟩ := h
      refine ⟨?_, rfl⟩
      rw [UInt8.toNat_ofNat']
      omega
    · rw [encode_of_le hn, List.cons_append, List.cons.injEq] at h
      obtain ⟨rfl, -⟩ := h
      rw [UInt8.toNat_ofNat'] at hb
      omega
  · rintro ⟨rfl, rfl⟩
    rw [encode_of_lt hb, UInt8.ofNat_toNat, List.singleton_append]

/-- The encoding of a number that goes on. -/
theorem encode_append_more {b : UInt8} {n : ℕ} {bytes rest : List UInt8} (hb : 128 ≤ b.toNat) :
    b :: bytes = encode n ++ rest ↔
      n % 128 = b.toNat - 128 ∧ n / 128 ≠ 0 ∧ bytes = encode (n / 128) ++ rest := by
  have hlt := b.toNat_lt
  constructor
  · intro h
    rcases Nat.lt_or_ge n 128 with hn | hn
    · rw [encode_of_lt hn, List.singleton_append, List.cons.injEq] at h
      obtain ⟨rfl, -⟩ := h
      rw [UInt8.toNat_ofNat'] at hb
      omega
    · rw [encode_of_le hn, List.cons_append, List.cons.injEq] at h
      obtain ⟨rfl, rfl⟩ := h
      refine ⟨?_, by omega, rfl⟩
      rw [UInt8.toNat_ofNat']
      omega
  · rintro ⟨hlow, hhigh, rfl⟩
    have hn : 128 ≤ n := by omega
    rw [encode_of_le hn, List.cons_append, hlow, Nat.sub_add_cancel hb, UInt8.ofNat_toNat]

end Leb128

end ArosTools
