import Mathlib.Data.List.Perm.Basic
import Mathlib.Data.List.TakeWhile

/-!
# TOML documents

A reader of TOML over the bytes of a document: comments, table headers, keys, basic and literal
strings and plain decimal integers. The other values (multi-line strings, other numbers, booleans,
dates, arrays, inline tables) are read by a parameter. Of the rules for tables and keys defined
twice the reader has the plain ones, that no key and no table header is repeated; it refuses no
document that TOML accepts for them.

* `basicString_plain` : bytes that need no escape are read as they stand.
* `length_basicString` : a string is as long as its notation only if every byte stands for itself.
* `prefix_expressions` : the expressions that follow keep the tables and keys before them.
-/

namespace ArosTools

namespace Toml

/-! ### Documents -/

/-- A part of the path of a key. -/
inductive Part where
  | name (key : List UInt8)
  /-- An element of an array of tables. -/
  | item (index : ℕ)
  deriving DecidableEq, Repr

abbrev Path := List Part

inductive Value where
  | string (bytes : List UInt8)
  | integer (n : ℕ)
  /-- Any other value, by its notation. -/
  | other (text : List UInt8)
  deriving DecidableEq, Repr

/-- What a document defines: the headers, the table that the next key belongs to, and the values of
the keys. -/
structure Document where
  tables : List Path := []
  current : Path := []
  bindings : List (Path × Value) := []
  deriving DecidableEq, Repr

namespace Document

variable (doc : Document)

/-- The header `[key]`. -/
def openTable (key : List (List UInt8)) : Document :=
  { doc with tables := doc.tables ++ [key.map .name], current := key.map .name }

/-- The header `[[key]]`: one more element of the array. -/
def openItem (key : List (List UInt8)) : Document :=
  let items := (List.range doc.tables.length).filter fun i =>
    key.map Part.name ++ [.item i] ∈ doc.tables
  let path := key.map .name ++ [.item items.length]
  { doc with tables := doc.tables ++ [path], current := path }

/-- A key with its value. -/
def bind (key : List (List UInt8)) (value : Value) : Document :=
  { doc with bindings := doc.bindings ++ [(doc.current ++ key.map .name, value)] }

/-- No key and no table is defined twice. -/
def distinct : Bool := decide (doc.bindings.map Prod.fst).Nodup && decide doc.tables.Nodup

end Document

/-! ### Strings -/

/-- The control characters, which stand in no comment and no string: all but the tab. -/
def isControl (b : UInt8) : Bool := b ≤ 0x08 || (0x0a ≤ b && b ≤ 0x1f) || b = 0x7f

/-- The value of a hexadecimal digit. -/
def hexValue (b : UInt8) : Option ℕ :=
  if 0x30 ≤ b && b ≤ 0x39 then some (b.toNat - 0x30)
  else if 0x41 ≤ b && b ≤ 0x46 then some (b.toNat - 0x37)
  else if 0x61 ≤ b && b ≤ 0x66 then some (b.toNat - 0x57)
  else none

/-- The value of so many hexadecimal digits, after the value read before them. -/
def hexDigits : ℕ → ℕ → List UInt8 → Option (ℕ × List UInt8)
  | 0, value, rest => some (value, rest)
  | _ + 1, _, [] => none
  | n + 1, value, b :: rest =>
    (hexValue b).bind fun digit => hexDigits n (16 * value + digit) rest

/-- A Unicode escape with so many digits. -/
def unicode (n : ℕ) (text : List UInt8) : Option (List UInt8 × List UInt8) :=
  (hexDigits n 0 text).bind fun parts =>
    if parts.1.isValidChar then some (String.utf8EncodeChar (Char.ofNat parts.1), parts.2) else none

/-- The escapes of one byte. -/
def simpleEscape (b : UInt8) : Option UInt8 :=
  [(0x62, 0x08), (0x74, 0x09), (0x6e, 0x0a), (0x66, 0x0c), (0x72, 0x0d), (0x22, 0x22),
    (0x5c, 0x5c)].lookup b

/-- What follows a backslash. -/
def escaped : List UInt8 → Option (List UInt8 × List UInt8)
  | [] => none
  | b :: rest =>
    match simpleEscape b with
    | some c => some ([c], rest)
    | none => if b = 0x75 then unicode 4 rest else if b = 0x55 then unicode 8 rest else none

/-- A basic string after its quotation mark. Every step takes at least one byte. -/
def basicString : ℕ → List UInt8 → Option (List UInt8 × List UInt8)
  | 0, _ => none
  | _ + 1, [] => none
  | fuel + 1, b :: rest =>
    if b = 0x22 then some ([], rest)
    else if b = 0x5c then (escaped rest).bind fun parts =>
      (basicString fuel parts.2).map fun read => (parts.1 ++ read.1, read.2)
    else if isControl b then none
    else (basicString fuel rest).map fun read => (b :: read.1, read.2)

/-- A literal string after its apostrophe. -/
def literalString (text : List UInt8) : Option (List UInt8 × List UInt8) :=
  let body := text.takeWhile fun b => b ≠ 0x27 && !isControl b
  if (text.drop body.length).head? = some 0x27 then some (body, text.drop (body.length + 1)) else none

/-! ### Keys and values -/

/-- A space or a tab. -/
def isBlank (b : UInt8) : Bool := b = 0x20 || b = 0x09

def skipBlanks (text : List UInt8) : List UInt8 := text.dropWhile isBlank

def isDigit (b : UInt8) : Bool := 0x30 ≤ b && b ≤ 0x39

/-- The characters of a bare key. -/
def isBare (b : UInt8) : Bool :=
  isDigit b || (0x41 ≤ b && b ≤ 0x5a) || (0x61 ≤ b && b ≤ 0x7a) || b = 0x2d || b = 0x5f

/-- A key without dots. -/
def simpleKey (text : List UInt8) : Option (List UInt8 × List UInt8) :=
  if text.head? = some 0x22 then basicString text.length text.tail
  else if text.head? = some 0x27 then literalString text.tail
  else if text.takeWhile isBare = [] then none
  else some (text.takeWhile isBare, text.dropWhile isBare)

/-- A key with its dotted parts and the blanks after it. -/
def key : ℕ → List UInt8 → Option (List (List UInt8) × List UInt8)
  | 0, _ => none
  | fuel + 1, text => (simpleKey text).bind fun parts =>
    let rest := skipBlanks parts.2
    if rest.head? = some 0x2e then
      (key fuel (skipBlanks rest.tail)).map fun read => (parts.1 :: read.1, read.2)
    else some ([parts.1], rest)

/-- The value of decimal digits. -/
def decimal (digits : List UInt8) : ℕ := digits.foldl (fun n b => 10 * n + (b.toNat - 0x30)) 0

/-- A number ends here. -/
def endsToken (text : List UInt8) : Bool :=
  text.head?.all fun b => isBlank b || b = 0x0a || b = 0x0d || b = 0x23

section Reader

variable (other : List UInt8 → Option (Value × List UInt8))

/-- A value. -/
def value (text : List UInt8) : Option (Value × List UInt8) :=
  let digits := text.takeWhile isDigit
  if text.head? = some 0x22 && !([0x22, 0x22, 0x22].isPrefixOf text) then
    (basicString text.length text.tail).map fun read => (.string read.1, read.2)
  else if text.head? = some 0x27 && !([0x27, 0x27, 0x27].isPrefixOf text) then
    (literalString text.tail).map fun read => (.string read.1, read.2)
  else if digits ≠ [] && (digits.head? ≠ some 0x30 || digits.length = 1) &&
      endsToken (text.dropWhile isDigit) then
    some (.integer (decimal digits), text.dropWhile isDigit)
  else other text

/-- The end of a line, with the comment before it. -/
def lineEnd (text : List UInt8) : Option (List UInt8) :=
  let text := skipBlanks text
  let text := if text.head? = some 0x23 then text.dropWhile fun b => !isControl b else text
  if text = [] then some []
  else if text.head? = some 0x0a then some text.tail
  else if [0x0d, 0x0a].isPrefixOf text then some (text.drop 2)
  else none

/-- A header, a key with its value, or an empty line. -/
def expression (doc : Document) (line : List UInt8) : Option (Document × List UInt8) :=
  let text := skipBlanks line
  if [0x5b, 0x5b].isPrefixOf text then
    (key text.length (skipBlanks (text.drop 2))).bind fun read =>
      if [0x5d, 0x5d].isPrefixOf read.2 then
        (lineEnd (read.2.drop 2)).map fun rest => (doc.openItem read.1, rest)
      else none
  else if text.head? = some 0x5b then
    (key text.length (skipBlanks text.tail)).bind fun read =>
      if read.2.head? = some 0x5d then
        (lineEnd read.2.tail).map fun rest => (doc.openTable read.1, rest)
      else none
  else if text = [] || text.head? = some 0x23 || text.head? = some 0x0a || text.head? = some 0x0d then
    (lineEnd text).map fun rest => (doc, rest)
  else (key text.length text).bind fun read =>
    if read.2.head? = some 0x3d then
      (value other (skipBlanks read.2.tail)).bind fun found =>
        (lineEnd found.2).map fun rest => (doc.bind read.1 found.1, rest)
    else none

/-- The expressions of a document. Every one but an empty rest takes at least one byte. -/
def expressions : ℕ → Document → List UInt8 → Option Document
  | _, doc, [] => some doc
  | 0, _, _ :: _ => none
  | fuel + 1, doc, b :: rest =>
    (expression other doc (b :: rest)).bind fun read => expressions fuel read.1 read.2

/-- The document that a text denotes, if it is well formed. -/
def document (text : List UInt8) : Option Document :=
  (expressions other text.length {} text).filter Document.distinct

end Reader

/-! ### Reading a string -/

/-- A byte that stands for itself in a basic string. -/
def Plain (b : UInt8) : Prop := b ≠ 0x22 ∧ b ≠ 0x5c ∧ isControl b = false

instance (b : UInt8) : Decidable (Plain b) := inferInstanceAs (Decidable (_ ∧ _))

/-- Bytes that need no escape are read as they stand. -/
theorem basicString_plain {body rest : List UInt8} (h : ∀ b ∈ body, Plain b) {fuel : ℕ}
    (hfuel : body.length < fuel) : basicString fuel (body ++ 0x22 :: rest) = some (body, rest) := by
  induction body generalizing fuel with
  | nil =>
    obtain ⟨n, rfl⟩ := Nat.exists_eq_succ_of_ne_zero (Nat.ne_of_gt hfuel)
    rfl
  | cons b body ih =>
    obtain ⟨n, rfl⟩ := Nat.exists_eq_succ_of_ne_zero (Nat.ne_of_gt (Nat.zero_lt_of_lt hfuel))
    obtain ⟨hquote, hslash, hcontrol⟩ := h b List.mem_cons_self
    rw [List.cons_append, basicString, if_neg hquote, if_neg hslash,
      if_neg (Bool.eq_false_iff.mp hcontrol),
      ih (fun c hc => h c (List.mem_cons_of_mem b hc)) (Nat.lt_of_succ_lt_succ hfuel)]
    rfl

theorem hexDigits_eq_some {n value : ℕ} {text rest : List UInt8} {result : ℕ}
    (h : hexDigits n value text = some (result, rest)) :
    ∃ digits, text = digits ++ rest ∧ digits.length = n ∧ 0x22 ∉ digits := by
  induction n generalizing value text with
  | zero =>
    obtain ⟨rfl, rfl⟩ := Prod.mk.inj (Option.some.inj h)
    exact ⟨[], rfl, rfl, by simp⟩
  | succ n ih =>
    cases text with
    | nil => cases h
    | cons b text =>
      obtain ⟨digit, hdigit, h⟩ := Option.bind_eq_some_iff.mp h
      obtain ⟨digits, rfl, rfl, hquote⟩ := ih h
      refine ⟨b :: digits, rfl, rfl, ?_⟩
      rw [List.mem_cons, not_or]
      refine ⟨?_, hquote⟩
      rintro rfl
      exact absurd (hdigit : hexValue 0x22 = some digit) (by simp [hexValue])

/-- What an escape stands for is shorter than the escape, and only the escape of the quotation mark
holds one. -/
theorem escaped_eq_some {text read rest : List UInt8} (h : escaped text = some (read, rest)) :
    ∃ taken, text = taken ++ rest ∧ read.length ≤ taken.length ∧
      (taken = [0x22] ∨ 0x22 ∉ taken) := by
  have hunicode : ∀ {b n text}, 4 ≤ n → b ≠ 0x22 → unicode n text = some (read, rest) →
      ∃ taken, b :: text = taken ++ rest ∧ read.length ≤ taken.length ∧
        (taken = [0x22] ∨ 0x22 ∉ taken) := by
    intro b n text hn hb hread
    obtain ⟨⟨value, after⟩, hdigits, hvalue⟩ := Option.bind_eq_some_iff.mp hread
    obtain ⟨digits, rfl, hlength, hquote⟩ := hexDigits_eq_some hdigits
    split_ifs at hvalue with hvalid
    obtain ⟨rfl, rfl⟩ := Prod.mk.inj (Option.some.inj hvalue)
    refine ⟨b :: digits, rfl, ?_, .inr ?_⟩
    · rw [String.length_utf8EncodeChar, List.length_cons, hlength]
      exact (Char.utf8Size_le_four _).trans (by omega)
    · rw [List.mem_cons, not_or]
      exact ⟨fun heq => hb heq.symm, hquote⟩
  unfold escaped at h
  split at h
  · cases h
  · rename_i b tail
    split at h
    · rename_i c hc
      obtain ⟨rfl, rfl⟩ := Prod.mk.inj (Option.some.inj h)
      refine ⟨[b], rfl, le_rfl, ?_⟩
      by_cases hb : b = 0x22
      · exact .inl (by rw [hb])
      · exact .inr (by simpa using fun heq : 0x22 = b => hb heq.symm)
    · split_ifs at h with hfour height
      · exact hunicode le_rfl (by rw [hfour]; decide) h
      · exact hunicode (by omega) (by rw [height]; decide) h

/-- A string before the end of its line is no longer than its notation, and as long only if every
byte of that stands for itself. -/
theorem length_basicString {fuel : ℕ} {body rest read after : List UInt8}
    (h : basicString fuel (body ++ 0x22 :: 0x0a :: rest) = some (read, after)) :
    read.length ≤ body.length ∧ (read.length = body.length → ∀ b ∈ body, Plain b) := by
  induction fuel generalizing body read with
  | zero => cases h
  | succ fuel ih =>
    cases body with
    | nil =>
      obtain ⟨rfl, -⟩ := Prod.mk.inj (Option.some.inj h)
      exact ⟨le_rfl, by simp⟩
    | cons b body =>
      rw [List.cons_append, basicString] at h
      split_ifs at h with hquote hslash hcontrol
      · obtain ⟨rfl, -⟩ := Prod.mk.inj (Option.some.inj h)
        exact ⟨Nat.zero_le _, fun heq => absurd heq (Nat.succ_ne_zero _).symm⟩
      · obtain ⟨⟨escape, left⟩, hescaped, hrest⟩ := Option.bind_eq_some_iff.mp h
        obtain ⟨⟨tail, last⟩, htail, hread⟩ := Option.map_eq_some_iff.mp hrest
        obtain ⟨rfl, rfl⟩ := Prod.mk.inj hread
        obtain ⟨taken, htaken, hlength, hquotes⟩ := escaped_eq_some hescaped
        have hinner : ∃ inner, body = taken ++ inner ∧ left = inner ++ 0x22 :: 0x0a :: rest := by
          rcases List.append_eq_append_iff.mp htaken with ⟨extra, hbody, hextra⟩ | ⟨inner, hbody, hleft⟩
          · cases extra with
            | nil => exact ⟨[], by rw [hbody, List.append_nil, List.append_nil], hextra.symm⟩
            | cons c extra =>
              -- The escape takes the quotation mark after the body, and the line ends in the string.
              obtain ⟨rfl, hafter⟩ := List.cons.inj hextra
              rcases hquotes with htaken | hnone
              · obtain ⟨rfl, hsingle⟩ : body = [] ∧ (0x22 : UInt8) :: extra = [0x22] := by
                  have hlen := congrArg List.length (hbody.symm.trans htaken)
                  rw [List.length_append, List.length_cons, List.length_singleton] at hlen
                  have hnil : body = [] := List.length_eq_zero_iff.mp (by omega)
                  exact ⟨hnil, by rw [← htaken, hbody, hnil, List.nil_append]⟩
                obtain rfl := (List.cons.inj hsingle).2
                obtain rfl : left = 0x0a :: rest := hafter.symm
                cases fuel with
                | zero => cases htail
                | succ n => exact absurd htail (by simp [basicString, isControl])
              · exact absurd (hbody ▸ by simp) hnone
          · exact ⟨inner, hbody, hleft⟩
        obtain ⟨inner, rfl, rfl⟩ := hinner
        have hshort := (ih htail).1
        refine ⟨?_, fun heq => ?_⟩
        · simp only [List.length_append, List.length_cons]
          omega
        · simp only [List.length_append, List.length_cons] at heq
          omega
      · obtain ⟨⟨tail, last⟩, htail, hread⟩ := Option.map_eq_some_iff.mp h
        obtain ⟨rfl, rfl⟩ := Prod.mk.inj hread
        obtain ⟨hle, hplain⟩ := ih htail
        refine ⟨Nat.succ_le_succ hle, fun heq c hc => ?_⟩
        rcases List.mem_cons.mp hc with rfl | hc
        · exact ⟨hquote, hslash, Bool.eq_false_iff.mpr hcontrol⟩
        · exact hplain (Nat.succ_inj.mp heq) c hc

/-! ### Reading a document -/

section Reader

variable {other : List UInt8 → Option (Value × List UInt8)} {doc doc' : Document}

/-- An expression keeps the tables and keys before it. -/
theorem prefix_expression {line rest : List UInt8}
    (h : expression other doc line = some (doc', rest)) :
    doc.tables <+: doc'.tables ∧ doc.bindings <+: doc'.bindings := by
  have hkeep : ∀ {next : Document} {left : Option (List UInt8)},
      (left.map fun rest => (next, rest)) = some (doc', rest) →
      doc.tables <+: next.tables ∧ doc.bindings <+: next.bindings →
      doc.tables <+: doc'.tables ∧ doc.bindings <+: doc'.bindings := by
    intro next left hleft hnext
    obtain ⟨_, -, heq⟩ := Option.map_eq_some_iff.mp hleft
    obtain ⟨rfl, -⟩ := Prod.mk.inj heq
    exact hnext
  unfold expression at h
  simp only at h
  split_ifs at h
  · obtain ⟨read, -, hread⟩ := Option.bind_eq_some_iff.mp h
    split_ifs at hread
    exact hkeep hread ⟨List.prefix_append _ _, List.prefix_rfl⟩
  · obtain ⟨read, -, hread⟩ := Option.bind_eq_some_iff.mp h
    split_ifs at hread
    exact hkeep hread ⟨List.prefix_append _ _, List.prefix_rfl⟩
  · exact hkeep h ⟨List.prefix_rfl, List.prefix_rfl⟩
  · obtain ⟨read, -, hread⟩ := Option.bind_eq_some_iff.mp h
    split_ifs at hread
    obtain ⟨found, -, hfound⟩ := Option.bind_eq_some_iff.mp hread
    exact hkeep hfound ⟨List.prefix_rfl, List.prefix_append _ _⟩

/-- The expressions that follow keep the tables and keys before them. -/
theorem prefix_expressions {fuel : ℕ} {text : List UInt8}
    (h : expressions other fuel doc text = some doc') :
    doc.tables <+: doc'.tables ∧ doc.bindings <+: doc'.bindings := by
  induction fuel generalizing doc text with
  | zero =>
    cases text with
    | nil =>
      obtain rfl := Option.some.inj h
      exact ⟨List.prefix_rfl, List.prefix_rfl⟩
    | cons b text => cases h
  | succ fuel ih =>
    cases text with
    | nil =>
      obtain rfl := Option.some.inj h
      exact ⟨List.prefix_rfl, List.prefix_rfl⟩
    | cons b text =>
      obtain ⟨⟨next, rest⟩, hfirst, hrest⟩ := Option.bind_eq_some_iff.mp h
      have hstep := prefix_expression hfirst
      have hrun := ih hrest
      exact ⟨hstep.1.trans hrun.1, hstep.2.trans hrun.2⟩

end Reader

end Toml

end ArosTools
