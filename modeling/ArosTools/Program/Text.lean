import Mathlib.Data.List.DropRight
import Mathlib.Data.Char
import Mathlib.Order.Basic
import Mathlib.Algebra.Group.Nat.Defs

/-!
# Texts

The standard functions on strings that line-oriented readers use, over lists of characters:
trimming, prefixes, lines, words and decimal numbers, with the lemmas that say what they do to a
text put together from blanks and words.

A `Blank` is a list of whitespace characters, and a `Word` a text that neither starts nor ends in
whitespace: trimming removes the blanks around a word and nothing else.
-/

namespace ArosTools

namespace Str

/-- A text. -/
abbrev Text := List Char

instance Text.instLawfulBEq : LawfulBEq Text := inferInstance

/-- The text of a literal. -/
def lit (s : String) : Text := s.toList

/-! ### Characters -/

/-- `char::is_whitespace`: the Unicode `White_Space` characters. -/
def isWhitespace (c : Char) : Bool :=
  let n := c.toNat
  (0x09 ≤ n && n ≤ 0x0d) || n = 0x20 || n = 0x85 || n = 0xa0 || n = 0x1680 ||
    (0x2000 ≤ n && n ≤ 0x200a) || n = 0x2028 || n = 0x2029 || n = 0x202f || n = 0x205f || n = 0x3000

/-- `u8::is_ascii_whitespace`. -/
def isAsciiWhitespace (c : Char) : Bool :=
  c = ' ' || c = '\t' || c = '\n' || c = '\x0c' || c = '\r'

/-! ### Trimming and prefixes -/

/-- `str::trim_start`. -/
def trimStart (text : Text) : Text := text.dropWhile isWhitespace

/-- `str::trim_end`. -/
def trimEnd (text : Text) : Text := text.rdropWhile isWhitespace

/-- `str::trim`. -/
def trim (text : Text) : Text := trimEnd (trimStart text)

/-- `str::starts_with`. -/
def startsWith (start text : Text) : Bool := start.isPrefixOf text

/-- `str::strip_prefix`. -/
def stripPrefix (start text : Text) : Option Text :=
  if startsWith start text then some (text.drop start.length) else none

/-- `str::strip_suffix`. -/
def stripSuffix (stop text : Text) : Option Text :=
  if stop.isSuffixOf text then some (text.take (text.length - stop.length)) else none

/-- `str::split_once` at a character. -/
def splitOnce (c : Char) (text : Text) : Option (Text × Text) :=
  if c ∈ text then some (text.takeWhile (· ≠ c), (text.dropWhile (· ≠ c)).drop 1) else none

/-! ### Words and lines -/

/-- The pieces between the characters that satisfy `p`; the first argument is the piece so far. -/
def splitAt (p : Char → Bool) (piece : Text) : Text → List Text
  | [] => [piece]
  | c :: rest => if p c then piece :: splitAt p [] rest else splitAt p (piece ++ [c]) rest

/-- `str::split` at the characters that satisfy a predicate. -/
def split (p : Char → Bool) (text : Text) : List Text := splitAt p [] text

/-- `str::split_whitespace`. -/
def splitWhitespace (text : Text) : List Text := (split isWhitespace text).filter (· ≠ [])

/-- A line without the carriage return of its line ending. -/
def stripCr (line : Text) : Text := if line.getLast? = some '\r' then line.dropLast else line

/-- `str::lines`: a final newline starts no further line, and only a line that ends in a newline
loses its carriage return. -/
def lines (text : Text) : List Text :=
  let pieces := text.splitOn '\n'
  pieces.dropLast.map stripCr ++ (pieces.getLast?.filter (· ≠ [])).toList

/-! ### Numbers -/

/-- The value of decimal digits, after a value read before them. -/
def digitsFrom (value : ℕ) : Text → Option ℕ
  | [] => some value
  | c :: rest =>
    if '0' ≤ c ∧ c ≤ '9' then digitsFrom (value * 10 + (c.toNat - '0'.toNat)) rest else none

/-- A text without a leading plus sign. -/
def stripPlus : Text → Text
  | '+' :: rest => rest
  | text => text

/-- `str::parse` to an unsigned type whose values lie below `limit`. -/
def parseUnsigned (limit : ℕ) (text : Text) : Option ℕ :=
  if stripPlus text = [] then none else (digitsFrom 0 (stripPlus text)).filter (· < limit)

/-- `str::parse::<u32>`. -/
def parseU32 (text : Text) : Option ℕ := parseUnsigned (2 ^ 32) text

/-- `str::parse::<i32>`. -/
def parseI32 : Text → Option ℤ
  | '-' :: rest =>
    if rest = [] then none
    else ((digitsFrom 0 rest).filter (· ≤ 2 ^ 31)).map fun n => -(n : ℤ)
  | text => (parseUnsigned (2 ^ 31) text).map fun n => (n : ℤ)

/-- The decimal digits of a number. -/
def decimal (n : ℕ) : Text := Nat.toDigits 10 n

/-- `u32::saturating_add`. -/
def saturatingAdd (a b : ℕ) : ℕ := min (a + b) (2 ^ 32 - 1)

theorem decimal_injective : Function.Injective decimal := fun m n h => by
  rw [← @Nat.ofDigitChars_ten_toDigits m, ← @Nat.ofDigitChars_ten_toDigits n]
  exact congrArg (Nat.ofDigitChars 10 · 0) h

/-! ### Blanks and words -/

/-- Only whitespace. -/
def Blank (text : Text) : Prop := ∀ c ∈ text, isWhitespace c = true

/-- A text that is not empty and that trimming leaves alone. -/
structure Word (text : Text) : Prop where
  head : ∃ c rest, text = c :: rest ∧ isWhitespace c = false
  last : ∃ front c, text = front ++ [c] ∧ isWhitespace c = false

theorem trimStart_blank {blank : Text} (h : Blank blank) (text : Text) :
    trimStart (blank ++ text) = trimStart text := by
  induction blank with
  | nil => rfl
  | cons c blank ih =>
    rw [List.cons_append, trimStart, List.dropWhile_cons_of_pos (h c (.head _))]
    exact ih fun d hd => h d (.tail _ hd)

theorem trimEnd_blank {blank : Text} (h : Blank blank) (text : Text) :
    trimEnd (text ++ blank) = trimEnd text := by
  induction blank using List.reverseRecOn with
  | nil => rw [List.append_nil]
  | append_singleton blank c ih =>
    have hc : isWhitespace c = true := h c (by simp)
    rw [← List.append_assoc, trimEnd, List.rdropWhile_concat_pos _ _ _ hc]
    exact ih fun d hd => h d (by simp [hd])

namespace Word

variable {text : Text}

theorem ne_nil (h : Word text) : text ≠ [] := by
  obtain ⟨c, rest, rfl, -⟩ := h.head
  simp

theorem trimStart_append (h : Word text) (rest : Text) :
    trimStart (text ++ rest) = text ++ rest := by
  obtain ⟨c, tail, rfl, hc⟩ := h.head
  rw [List.cons_append, trimStart, List.dropWhile_cons_of_neg (by simp [hc])]

theorem trimEnd_append (h : Word text) (front : Text) :
    trimEnd (front ++ text) = front ++ text := by
  obtain ⟨init, c, rfl, hc⟩ := h.last
  rw [← List.append_assoc, trimEnd, List.rdropWhile_concat_neg _ _ _ (by simp [hc])]

@[simp] theorem trim_eq (h : Word text) : trim text = text := by
  have hstart := h.trimStart_append []
  have hend := h.trimEnd_append []
  rw [List.append_nil] at hstart
  rw [List.nil_append] at hend
  rw [trim, hstart, hend]

/-- Blanks around a word are trimmed. -/
theorem trim_blank (h : Word text) {lead trail : Text} (hlead : Blank lead)
    (htrail : Blank trail) : trim (lead ++ text ++ trail) = text := by
  rw [trim, List.append_assoc, trimStart_blank hlead, h.trimStart_append, trimEnd_blank htrail]
  simpa using h.trimEnd_append []

/-- Two words with anything between them. -/
theorem append (h : Word text) {stop : Text} (hstop : Word stop) (middle : Text) :
    Word (text ++ middle ++ stop) := by
  obtain ⟨c, rest, rfl, hc⟩ := h.head
  obtain ⟨init, d, rfl, hd⟩ := hstop.last
  exact ⟨⟨c, rest ++ middle ++ (init ++ [d]), by simp, hc⟩,
    ⟨c :: rest ++ middle ++ init, d, by simp, hd⟩⟩

end Word

/-- Trimming leaves nothing or a word. -/
theorem trim_cases (text : Text) : trim text = [] ∨ Word (trim text) := by
  by_cases hempty : trim text = []
  · exact .inl hempty
  refine .inr ⟨?_, ?_⟩
  · -- The end is cut off a text whose first character is no whitespace.
    have hstart : trimStart text ≠ [] := fun h => hempty (by rw [trim, h]; rfl)
    have hhead : isWhitespace ((trimStart text).head hstart) = false :=
      List.head_dropWhile_not isWhitespace hstart
    obtain ⟨c, rest, hcons⟩ := List.exists_cons_of_ne_nil hempty
    refine ⟨c, rest, hcons, ?_⟩
    obtain ⟨tail, htail⟩ : trim text <+: trimStart text := List.rdropWhile_prefix _ _
    rw [hcons, List.cons_append] at htail
    have hc : (trimStart text).head hstart = c := by simp [← htail]
    rwa [hc] at hhead
  · refine ⟨(trim text).dropLast, (trim text).getLast hempty,
      (List.dropLast_append_getLast hempty).symm, ?_⟩
    exact Bool.eq_false_iff.mpr (List.rdropWhile_last_not isWhitespace (trimStart text) hempty)

@[simp] theorem trim_trim (text : Text) : trim (trim text) = trim text := by
  rcases trim_cases text with h | h
  · rw [h]
    rfl
  · exact h.trim_eq

theorem splitAt_head {p : Char → Bool} {piece : Text} (hpiece : piece ≠ []) (text : Text) :
    ∃ tail rest, splitAt p piece text = (piece ++ tail) :: rest := by
  induction text generalizing piece with
  | nil => exact ⟨[], [], by rw [List.append_nil]; rfl⟩
  | cons c text ih =>
    rw [splitAt]
    by_cases hc : p c = true
    · rw [if_pos hc]
      exact ⟨[], splitAt p [] text, by rw [List.append_nil]⟩
    · rw [if_neg hc]
      obtain ⟨tail, rest, h⟩ := ih (List.append_ne_nil_of_right_ne_nil piece (List.cons_ne_nil c []))
      exact ⟨c :: tail, rest, by rw [h, List.append_assoc]; rfl⟩

/-- The first word of a text that does not start with whitespace starts like the text. -/
theorem splitWhitespace_cons {c : Char} (hc : isWhitespace c = false) (text : Text) :
    ∃ tail rest, splitWhitespace (c :: text) = (c :: tail) :: rest := by
  obtain ⟨tail, rest, h⟩ := @splitAt_head isWhitespace [c] (List.cons_ne_nil c []) text
  refine ⟨tail, rest.filter (· ≠ []), ?_⟩
  rw [splitWhitespace, split, splitAt, if_neg (by simp [hc]), List.nil_append, h]
  simp

theorem stripPrefix_append (start text : Text) : stripPrefix start (start ++ text) = some text := by
  rw [stripPrefix, startsWith, if_pos (List.isPrefixOf_iff_prefix.mpr (List.prefix_append _ _)),
    List.drop_left]

theorem stripPrefix_some {start text rest : Text} (h : stripPrefix start text = some rest) :
    text = start ++ rest := by
  unfold stripPrefix startsWith at h
  split_ifs at h with hstart
  obtain ⟨tail, rfl⟩ := List.isPrefixOf_iff_prefix.mp hstart
  rw [List.drop_left, Option.some.injEq] at h
  rw [h]

end Str

end ArosTools
