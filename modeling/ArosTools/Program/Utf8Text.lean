import ArosTools.Program.Text

/-!
# Byte positions in texts

A string slice takes byte positions, and a position inside a character is no position at all.
`bytes` is the UTF-8 encoding of a text, `len` the number of its bytes, and `slice` the part
between two byte positions, if these lie on character boundaries.

A scanner that goes through the bytes and stops at an ASCII byte stops at a boundary:

* `Str.exists_of_bytes_ascii` : an ASCII byte of the encoding is a character of the text.
* `Str.splitAtByte_append`, `Str.slice_append` : the parts of a text put together are its slices.
-/

namespace ArosTools

namespace Str

/-- `str::len`: the number of bytes. -/
def len : Text → ℕ
  | [] => 0
  | c :: text => c.utf8Size + len text

/-- `str::as_bytes`: the UTF-8 encoding. -/
def bytes : Text → List UInt8
  | [] => []
  | c :: text => String.utf8EncodeChar c ++ bytes text

/-- The byte of an ASCII character. -/
def byte (c : Char) : UInt8 := UInt8.ofNat c.toNat

/-- `str::split_at_checked`: nothing if the position is no character boundary. -/
def splitAtByte : Text → ℕ → Option (Text × Text)
  | text, 0 => some ([], text)
  | [], _ + 1 => none
  | c :: text, n + 1 =>
    if c.utf8Size ≤ n + 1 then
      (splitAtByte text (n + 1 - c.utf8Size)).map fun parts => (c :: parts.1, parts.2)
    else none

/-- The slice from a byte position on. -/
def sliceFrom (text : Text) (start : ℕ) : Option Text := (splitAtByte text start).map (·.2)

/-- The slice up to a byte position. -/
def sliceTo (text : Text) (stop : ℕ) : Option Text := (splitAtByte text stop).map (·.1)

/-- The slice between two byte positions. -/
def slice (text : Text) (start stop : ℕ) : Option Text :=
  if start ≤ stop then (sliceFrom text start).bind fun rest => sliceTo rest (stop - start)
  else none

/-- `str::find` of a character: the byte position of its first occurrence. -/
def find (c : Char) (text : Text) : Option ℕ :=
  if c ∈ text then some (len (text.takeWhile (· ≠ c))) else none

/-! ### Lengths -/

@[simp] theorem len_nil : len [] = 0 := rfl

@[simp] theorem len_cons (c : Char) (text : Text) : len (c :: text) = c.utf8Size + len text := rfl

@[simp] theorem len_append (a b : Text) : len (a ++ b) = len a + len b := by
  induction a with
  | nil => simp
  | cons c a ih => rw [List.cons_append, len_cons, ih, len_cons, Nat.add_assoc]

theorem len_pos {text : Text} (h : text ≠ []) : 0 < len text := by
  obtain ⟨c, rest, rfl⟩ := List.exists_cons_of_ne_nil h
  exact Nat.add_pos_left c.utf8Size_pos _

@[simp] theorem len_eq_zero {text : Text} : len text = 0 ↔ text = [] :=
  ⟨fun h => by_contra fun hne => Nat.ne_of_gt (len_pos hne) h, fun h => h ▸ rfl⟩

@[simp] theorem bytes_nil : bytes [] = [] := rfl

@[simp] theorem bytes_append (a b : Text) : bytes (a ++ b) = bytes a ++ bytes b := by
  induction a with
  | nil => rfl
  | cons c a ih => rw [List.cons_append, bytes, ih, bytes, List.append_assoc]

@[simp] theorem length_bytes (text : Text) : (bytes text).length = len text := by
  induction text with
  | nil => rfl
  | cons c text ih => rw [bytes, List.length_append, String.length_utf8EncodeChar, ih, len_cons]

/-! ### ASCII -/

theorem bytes_eq_flatMap (text : Text) : bytes text = text.flatMap String.utf8EncodeChar := by
  induction text with
  | nil => rfl
  | cons c text ih => rw [bytes, ih, List.flatMap_cons]

theorem bytes_injective : Function.Injective bytes := by
  intro a b h
  rw [bytes_eq_flatMap, bytes_eq_flatMap] at h
  have hencode : a.utf8Encode = b.utf8Encode := congrArg List.toByteArray h
  have hdecode := congrArg ByteArray.utf8Decode? hencode
  rw [List.utf8Decode?_utf8Encode, List.utf8Decode?_utf8Encode, Option.some.injEq] at hdecode
  exact List.toArray_inj hdecode

theorem utf8Size_ascii {c : Char} (h : c.toNat < 0x80) : c.utf8Size = 1 :=
  Char.utf8Size_eq_one_iff.mpr (UInt32.le_iff_toNat_le.mpr (Nat.le_of_lt_succ h))

theorem utf8Size_wide {c : Char} (h : 0x80 ≤ c.toNat) : 1 < c.utf8Size := by
  have hne : c.utf8Size ≠ 1 := fun hone => by
    have := UInt32.le_iff_toNat_le.mp (Char.utf8Size_eq_one_iff.mp hone)
    exact absurd (Nat.lt_succ_of_le this) (Nat.not_lt.mpr h)
  have := c.utf8Size_pos
  omega

theorem utf8EncodeChar_ascii {c : Char} (h : c.toNat < 0x80) :
    String.utf8EncodeChar c = [byte c] := by
  have hle : c.val.toNat ≤ 0x7f := Nat.le_of_lt_succ h
  rw [String.utf8EncodeChar, if_pos hle]
  rfl

theorem bytes_cons_ascii {c : Char} (h : c.toNat < 0x80) (text : Text) :
    bytes (c :: text) = byte c :: bytes text := by
  rw [bytes, utf8EncodeChar_ascii h]
  rfl

theorem utf8EncodeChar_wide {c : Char} (h : 0x80 ≤ c.toNat) {b : UInt8}
    (hb : b ∈ String.utf8EncodeChar c) : 0x80 ≤ b := by
  have hgt : ¬c.val.toNat ≤ 0x7f := Nat.not_le.mpr h
  rw [String.utf8EncodeChar, if_neg hgt] at hb
  split_ifs at hb
  all_goals
    simp only [List.mem_cons, List.not_mem_nil, or_false] at hb
    rw [UInt8.le_iff_toNat_le]
    rcases hb with rfl | rfl | rfl | rfl <;>
      simp only [UInt8.toNat_ofNat', UInt8.reduceToNat] <;> omega

/-- An ASCII byte of the encoding is a character of the text, at a boundary. -/
theorem exists_of_bytes_ascii {text : Text} {i : ℕ} {b : UInt8} (h : (bytes text)[i]? = some b)
    (hb : b < 0x80) :
    ∃ pre c post, text = pre ++ c :: post ∧ len pre = i ∧ c.toNat < 0x80 ∧ byte c = b := by
  induction text generalizing i with
  | nil => simp at h
  | cons c text ih =>
    rcases Nat.lt_or_ge c.toNat 0x80 with hc | hc
    · rw [bytes_cons_ascii hc] at h
      cases i with
      | zero =>
        simp only [List.length_cons, Nat.zero_lt_succ, getElem?_pos, List.getElem_cons_zero,
          Option.some.injEq] at h
        exact ⟨[], c, text, rfl, rfl, hc, h⟩
      | succ i =>
        obtain ⟨pre, d, post, rfl, rfl, hd⟩ := ih (by simpa using h)
        exact ⟨c :: pre, d, post, rfl, by rw [len_cons, utf8Size_ascii hc, Nat.add_comm], hd⟩
    · -- None of the bytes of a wider character is an ASCII byte.
      rw [bytes] at h
      rcases Nat.lt_or_ge i (String.utf8EncodeChar c).length with hi | hi
      · rw [List.getElem?_append_left hi] at h
        have := utf8EncodeChar_wide hc (List.mem_of_getElem? h)
        exact absurd hb (UInt8.not_lt.mpr this)
      · rw [List.getElem?_append_right hi] at h
        obtain ⟨pre, d, post, rfl, hlen, hd⟩ := ih h
        refine ⟨c :: pre, d, post, rfl, ?_, hd⟩
        rw [String.length_utf8EncodeChar] at hi hlen
        rw [len_cons]
        omega

/-! ### Slices -/

@[simp] theorem splitAtByte_zero (text : Text) : splitAtByte text 0 = some ([], text) := by
  cases text <;> rfl

theorem splitAtByte_cons (c : Char) (text : Text) {n : ℕ} (h : 0 < n) :
    splitAtByte (c :: text) n = if c.utf8Size ≤ n then
      (splitAtByte text (n - c.utf8Size)).map fun parts => (c :: parts.1, parts.2) else none := by
  obtain ⟨m, rfl⟩ := Nat.exists_eq_succ_of_ne_zero (Nat.ne_of_gt h)
  rfl

@[simp] theorem splitAtByte_append (a b : Text) :
    splitAtByte (a ++ b) (len a) = some (a, b) := by
  induction a with
  | nil => simp
  | cons c a ih =>
    rw [List.cons_append, splitAtByte_cons c (a ++ b) (len_pos (List.cons_ne_nil c a)), len_cons,
      if_pos (Nat.le_add_right _ _), Nat.add_sub_cancel_left, ih]
    rfl

@[simp] theorem sliceFrom_append (a b : Text) : sliceFrom (a ++ b) (len a) = some b := by
  rw [sliceFrom, splitAtByte_append]
  rfl

@[simp] theorem sliceTo_append (a b : Text) : sliceTo (a ++ b) (len a) = some a := by
  rw [sliceTo, splitAtByte_append]
  rfl

theorem slice_append (a b c : Text) : slice (a ++ (b ++ c)) (len a) (len a + len b) = some b := by
  rw [slice, if_pos (Nat.le_add_right _ _), sliceFrom_append, Option.bind_some,
    Nat.add_sub_cancel_left, sliceTo_append]

/-- The end of a slice inside a character. -/
theorem sliceTo_wide {c : Char} (h : 0x80 ≤ c.toNat) (text : Text) : sliceTo (c :: text) 1 = none := by
  rw [sliceTo, splitAtByte_cons c text Nat.one_pos, if_neg (Nat.not_le.mpr (utf8Size_wide h))]
  rfl

/-! ### Finding a character -/

theorem find_append {c : Char} {a : Text} (h : c ∉ a) (b : Text) :
    find c (a ++ c :: b) = some (len a) := by
  have hne : ∀ d ∈ a, decide (d ≠ c) = true := fun d hd => by
    simpa using fun heq : d = c => h (heq ▸ hd)
  rw [find, if_pos (by simp), List.takeWhile_append_of_pos hne,
    List.takeWhile_cons_of_neg (by simp), List.append_nil]

theorem find_eq_none {c : Char} {text : Text} : find c text = none ↔ c ∉ text := by
  simp [find]

/-- A character that is found splits the text. -/
theorem exists_of_find {c : Char} {text : Text} {i : ℕ} (h : find c text = some i) :
    ∃ a b, text = a ++ c :: b ∧ c ∉ a ∧ len a = i := by
  have hmem : c ∈ text := by_contra fun hn => by simp [find_eq_none.mpr hn] at h
  obtain ⟨a, b, rfl, hc⟩ := List.eq_append_cons_of_mem hmem
  rw [find_append hc] at h
  exact ⟨a, b, rfl, hc, Option.some.inj h⟩

end Str

end ArosTools
