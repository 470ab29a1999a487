import ArosTools.Transpiler.MacroArgs

/-!
# Where the readers of macro arguments agree

A text is `Readable` for a key if it is a sequence of declared arguments with white space between
them, no quoted value and no text for the main argument mentions `key=` after white space, and no
plain value leaves a quote or a reference open. On such a text the three readers agree if and only
if the first value of a key that is repeated is the last one (`macro_arg_agrees`). A mention in a
quoted value is taken for the argument (`macro_arg_in_quotes`).

The three parts of the proof follow the three scans over the text, argument by argument:
`parseInvocation` (`parseInvocationLoop_items`), `macroArg` (`macroArgFrom_items`) and
`macroArgumentNames` (`argumentNames_items`).
-/

namespace ArosTools

namespace Genmf

/-! ### Texts of arguments -/

/-- A value as it is written. -/
inductive ArgumentValue where
  | absent
  | plain (value : Text)
  | quoted (value : Text)
  deriving DecidableEq, Repr

namespace ArgumentValue

/-- The text of a value. -/
def text : ArgumentValue → Text
  | absent => []
  | plain value => value
  | quoted value => '"' :: value ++ ['"']

/-- The value that is bound. -/
def bound : ArgumentValue → Text
  | absent => []
  | plain value => value
  | quoted value => value

end ArgumentValue

/-- An argument and the white space before it. -/
structure Item where
  blanks : Text
  name : Text
  value : ArgumentValue
  deriving DecidableEq, Repr

/-- The text of an argument. -/
def Item.text (item : Item) : Text := item.blanks ++ item.name ++ '=' :: item.value.text

/-- The text of some arguments. -/
def argsText (items : List Item) (trailing : Text) : Text := items.flatMap Item.text ++ trailing

/-- `key=` stands in the text after white space. -/
def mentions (key : Text) : Text → Bool
  | [] => false
  | c :: rest => (isWhitespace c && (key ++ ['=']).isPrefixOf rest) || mentions key rest

/-- The state of the scan for names after a text in which no word begins. -/
def NameScan.run (s : NameScan) : Text → NameScan
  | [] => s
  | c :: rest => (s.step c rest.head?).run rest

/-- The scan for names between two characters of a value. -/
def NameScan.inside : NameScan := ⟨none, 0, false, none⟩

/-- The text leaves no quote and no reference open. -/
def closes (text : Text) : Bool := NameScan.inside.run text = .inside

/-- The value can be read without mistaking a part of it for the key. -/
def ArgumentValue.readable (key : Text) : ArgumentValue → Bool
  | absent => true
  | plain value => value ≠ [] && value.all isValueCharacter && closes value
  | quoted value => !value.contains '"' && !mentions key value

/-- The value `macro_arg` takes for an argument. -/
def ArgumentValue.given : ArgumentValue → Option Text
  | absent => none
  | plain value => some value
  | quoted value => some value

/-- The first value that is given for the key. -/
def givenFor (key : Text) (items : List Item) : Option Text :=
  (items.filter fun item => item.name = key).findSome? fun item => item.value.given

/-- The first value that is given for the key is the last one, unless that is empty. -/
def SameValue (key : Text) (items : List Item) : Prop :=
  ∀ item ∈ (items.filter fun item => item.name = key).getLast?, item.value.bound ≠ [] →
    givenFor key items = some item.value.bound

instance (key : Text) (items : List Item) : Decidable (SameValue key items) :=
  inferInstanceAs (Decidable (∀ item ∈ (items.filter fun item => item.name = key).getLast?,
    item.value.bound ≠ [] → givenFor key items = some item.value.bound))

/-- The text goes to the main argument: it does not begin with a declared argument. -/
def GoesToMain (declared : BTreeMap Text Argument) (multi : Option Text) (key text : Text) : Prop :=
  (∃ main, multi = some main ∧ main ≠ key) ∧ trimStart text ≠ [] ∧
    ∀ argument, parseInvocationArgument (trimStart text) = some argument →
      (declared.get argument.1).isSome = false

/-- The text of the arguments can be read argument by argument. -/
structure Readable (declared : BTreeMap Text Argument) (multi : Option Text) (key : Text)
    (items : List Item) (trailing : Text) : Prop where
  keyName : validReferenceName key = true
  /-- The key does not begin with a digit. -/
  keyStart : key.head?.any isNameStart = true
  names : ∀ item ∈ items, validReferenceName item.name = true ∧
    (declared.get item.name).isSome = true
  values : ∀ item ∈ items, item.value.readable key = true
  blanks : ∀ item ∈ items, item.blanks.all isPythonWhitespace = true ∧
    item.blanks.getLast?.all isAsciiWhitespace = true
  /-- Arguments are separated. -/
  separated : ∀ item ∈ items.tail, item.blanks ≠ [] ∧ item.blanks.head?.all isWhitespace = true
  apart : items ≠ [] → trailing.head?.all isWhitespace = true
  /-- What follows the arguments does not mention the key. -/
  quiet : ¬ key ++ ['='] <+: trailing ∧ mentions key trailing = false
  left : trailing.all isPythonWhitespace = true ∨ GoesToMain declared multi key trailing

/-- What `parse_invocation` binds to the key is what `macro_arg` returns, and `macro_argument_names`
lists the key if it returns something. -/
def ReadersAgree (declared : BTreeMap Text Argument) (multi : Option Text) (key text : Text) :
    Prop :=
  ∃ values, parseInvocation declared multi text = .ok values ∧
    (∀ value, values.get key = some (some value) → value ≠ [] → macroArg text key = some value) ∧
    (values.get key = some none → macroArg text key = none) ∧
    (macroArg text key ≠ none → key ∈ macroArgumentNames text)

/-! ### Characters -/

theorem isPythonWhitespace_of_isWhitespace {c : Char} (h : isWhitespace c = true) :
    isPythonWhitespace c = true := by
  simp [isPythonWhitespace, h]

theorem isWhitespace_of_isAsciiWhitespace {c : Char} (h : isAsciiWhitespace c = true) :
    isWhitespace c = true := by
  simp only [isAsciiWhitespace, Bool.or_eq_true, decide_eq_true_eq] at h
  rcases h with (((rfl | rfl) | rfl) | h) | rfl
  · rfl
  · rfl
  · rfl
  · simp [isWhitespace, h]
  · rfl

theorem not_isPythonWhitespace_of_isWordCharacter {c : Char} (h : isWordCharacter c = true) :
    isPythonWhitespace c = false := by
  have hbounds : 0x30 ≤ c.toNat ∧ c.toNat ≤ 0x7a := by
    simp only [isWordCharacter, isAlphanumeric, Bool.or_eq_true, Bool.and_eq_true,
      decide_eq_true_eq, Char.le_def, UInt32.le_iff_toNat_le] at h
    have hval : c.toNat = c.val.toNat := rfl
    rcases h with ((h | h) | h) | rfl
    · have h₁ : 0x30 ≤ c.val.toNat := h.1
      have h₂ : c.val.toNat ≤ 0x39 := h.2
      omega
    · have h₁ : 0x41 ≤ c.val.toNat := h.1
      have h₂ : c.val.toNat ≤ 0x5a := h.2
      omega
    · have h₁ : 0x61 ≤ c.val.toNat := h.1
      have h₂ : c.val.toNat ≤ 0x7a := h.2
      omega
    · decide
  simp only [isPythonWhitespace, isWhitespace, Bool.or_eq_false_iff, Bool.and_eq_false_iff,
    decide_eq_false_iff_not]
  omega

theorem isWordCharacter_of_validReferenceName {name : Text} (h : validReferenceName name = true) :
    ∃ c rest, name = c :: rest ∧ isAlphanumeric c = true ∧ rest.all isWordCharacter = true := by
  cases name with
  | nil => cases h
  | cons c rest =>
    rw [validReferenceName, Bool.and_eq_true] at h
    exact ⟨c, rest, rfl, h.1, h.2⟩

theorem isWordCharacter_of_isAlphanumeric {c : Char} (h : isAlphanumeric c = true) :
    isWordCharacter c = true := by
  simp [isWordCharacter, h]

/-! ### Prefixes -/

theorem takeWhile_append_stop {p : Char → Bool} {a b : Text} (ha : a.all p = true)
    (hb : b.head?.all (fun c => !p c) = true) : (a ++ b).takeWhile p = a := by
  rw [List.takeWhile_append_of_pos (List.all_eq_true.mp ha)]
  cases b with
  | nil => rw [List.takeWhile_nil, List.append_nil]
  | cons c b =>
    have hc : p c = false := by simpa using hb
    rw [List.takeWhile_cons, hc]
    simp

theorem dropWhile_append_stop {p : Char → Bool} {a b : Text} (ha : a.all p = true)
    (hb : b.head?.all (fun c => !p c) = true) : (a ++ b).dropWhile p = b := by
  rw [List.dropWhile_append_of_pos (List.all_eq_true.mp ha)]
  cases b with
  | nil => rfl
  | cons c b =>
    have hc : p c = false := by simpa using hb
    rw [List.dropWhile_cons, hc]
    simp

theorem trimStart_append {a b : Text} (ha : a.all isPythonWhitespace = true) :
    trimStart (a ++ b) = trimStart b := List.dropWhile_append_of_pos (List.all_eq_true.mp ha)

theorem trimStart_idem (text : Text) : trimStart (trimStart text) = trimStart text := by
  unfold trimStart
  induction text with
  | nil => rfl
  | cons c rest ih =>
    rw [List.dropWhile_cons]
    by_cases hc : isPythonWhitespace c = true
    · rw [if_pos hc]
      exact ih
    · rw [if_neg hc, List.dropWhile_cons, if_neg hc]

theorem trimStart_of_word {name rest : Text} (h : validReferenceName name = true) :
    trimStart (name ++ rest) = name ++ rest := by
  obtain ⟨c, word, rfl, hc, -⟩ := isWordCharacter_of_validReferenceName h
  have hblank := not_isPythonWhitespace_of_isWordCharacter (isWordCharacter_of_isAlphanumeric hc)
  rw [trimStart, List.cons_append, List.dropWhile_cons, hblank]
  simp

/-! ### `parse_invocation` -/

variable {declared : BTreeMap Text Argument} {key : Text} {multi : Option Text}

theorem parseWord_name {name rest : Text} (h : validReferenceName name = true) :
    parseWord (name ++ '=' :: rest) = some (name, '=' :: rest) := by
  obtain ⟨c, word, rfl, hc, hword⟩ := isWordCharacter_of_validReferenceName h
  have hstop : ('=' :: rest).head?.all (fun c => !isWordCharacter c) = true := rfl
  rw [List.cons_append, parseWord, if_pos hc, takeWhile_append_stop hword hstop,
    dropWhile_append_stop hword hstop]

theorem parseOptionalValue_value {value : ArgumentValue} {rest : Text}
    (h : value.readable key = true) (hrest : rest.head?.all isPythonWhitespace = true) :
    ∃ written, parseOptionalValue (value.text ++ rest) = .ok (written, rest) ∧
      unquoteValue (written.getD []) = value.bound := by
  cases value with
  | absent =>
    refine ⟨none, ?_, rfl⟩
    cases rest with
    | nil => rfl
    | cons c rest =>
      have hc : isPythonWhitespace c = true := by simpa using hrest
      rw [ArgumentValue.text, List.nil_append, parseOptionalValue, if_pos hc]
  | plain text =>
    simp only [ArgumentValue.readable, Bool.and_eq_true, decide_eq_true_eq] at h
    obtain ⟨⟨hne, hall⟩, -⟩ := h
    obtain ⟨c, text, rfl⟩ := List.exists_cons_of_ne_nil hne
    rw [List.all_cons, Bool.and_eq_true] at hall
    obtain ⟨hc, htext⟩ := hall
    have hc' : isPythonWhitespace c = false ∧ c ≠ '"' := by simpa [isValueCharacter] using hc
    have hstop : rest.head?.all (fun c => !isValueCharacter c) = true := by
      cases rest with
      | nil => rfl
      | cons d rest =>
        have hd : isPythonWhitespace d = true := by simpa using hrest
        simp [isValueCharacter, hd]
    refine ⟨some (c :: text), ?_, ?_⟩
    · rw [ArgumentValue.text, List.cons_append, parseOptionalValue, if_neg (by simp [hc'.1]),
        if_neg hc'.2, takeWhile_append_stop htext hstop, dropWhile_append_stop htext hstop]
    · rw [Option.getD_some, unquoteValue, if_neg (by simp [hc'.2])]
      rfl
  | quoted text =>
    have hquote : '"' ∉ text := by
      have := (Bool.and_eq_true _ _).mp h
      simpa using this.1
    have hall : text.all (fun c => decide (c ≠ '"')) = true := by
      rw [List.all_eq_true]
      intro c hc
      exact decide_eq_true fun heq => hquote (heq ▸ hc)
    refine ⟨some ('"' :: text ++ ['"']), ?_, ?_⟩
    · have htake : (text ++ ('"' :: rest)).takeWhile (fun c => decide (c ≠ '"')) = text :=
        takeWhile_append_stop hall rfl
      have htext : ArgumentValue.text (.quoted text) ++ rest = '"' :: (text ++ '"' :: rest) := by
        simp [ArgumentValue.text]
      rw [htext, parseOptionalValue, if_neg (by decide), if_pos rfl, if_pos (by simp), htake]
      simp
    · simp [unquoteValue, ArgumentValue.bound]

/-- The text after an argument begins with white space, if it goes on. -/
theorem argsText_head (items : List Item) {trailing : Text}
    (hseparated : ∀ item ∈ items, item.blanks ≠ [] ∧ item.blanks.head?.all isWhitespace = true)
    (htrailing : trailing.head?.all isWhitespace = true) :
    (argsText items trailing).head?.all isWhitespace = true := by
  cases items with
  | nil => exact htrailing
  | cons item items =>
    obtain ⟨hne, hhead⟩ := hseparated item (.head _)
    obtain ⟨c, blanks, hblanks⟩ := List.exists_cons_of_ne_nil hne
    rw [hblanks] at hhead
    simpa [argsText, Item.text, hblanks] using hhead

theorem parseInvocationLoop_trimStart (fuel : ℕ) (values : BTreeMap Text (Option Text))
    (text : Text) : parseInvocationLoop declared multi fuel values (trimStart text) =
      parseInvocationLoop declared multi fuel values text := by
  cases fuel with
  | zero => rfl
  | succ fuel => simp only [parseInvocationLoop, trimStart_idem]

theorem parseInvocationLoop_nil {fuel : ℕ} {values : BTreeMap Text (Option Text)} {text : Text}
    (h : trimStart text = []) : parseInvocationLoop declared multi fuel values text = .ok values := by
  cases fuel with
  | zero => rfl
  | succ fuel => simp only [parseInvocationLoop, h, if_true]

theorem parseInvocationLoop_argument {fuel : ℕ} {values : BTreeMap Text (Option Text)}
    {text name after : Text} {written : Option Text} (hne : trimStart text ≠ [])
    (hargument : parseInvocationArgument (trimStart text) = some (name, written, after))
    (hdeclared : (declared.get name).isSome = true) :
    parseInvocationLoop declared multi (fuel + 1) values text =
      parseInvocationLoop declared multi fuel
        (values.insert name (some (unquoteValue (written.getD [])))) after := by
  rw [← parseInvocationLoop_trimStart fuel]
  simp only [parseInvocationLoop, if_neg hne, hargument, if_pos hdeclared]

theorem Readable.tail {item : Item} {items : List Item} {trailing : Text}
    (h : Readable declared multi key (item :: items) trailing) :
    Readable declared multi key items trailing := by
  exact ⟨h.keyName, h.keyStart, fun i hi => h.names i (.tail _ hi),
    fun i hi => h.values i (.tail _ hi), fun i hi => h.blanks i (.tail _ hi),
    fun i hi => h.separated i (List.mem_of_mem_tail hi), fun _ => h.apart (List.cons_ne_nil _ _),
    h.quiet, h.left⟩

/-- After an argument, the text goes on with white space. -/
theorem Readable.head {item : Item} {items : List Item} {trailing : Text}
    (h : Readable declared multi key (item :: items) trailing) :
    (argsText items trailing).head?.all isWhitespace = true :=
  argsText_head items h.separated (h.apart (List.cons_ne_nil _ _))

/-- What the arguments bind. -/
def bindItems (values : BTreeMap Text (Option Text)) (items : List Item) :
    BTreeMap Text (Option Text) :=
  items.foldl (fun values item => values.insert item.name (some item.value.bound)) values

theorem argsText_cons (item : Item) (items : List Item) (trailing : Text) :
    argsText (item :: items) trailing = item.blanks ++ (item.name ++
      '=' :: (item.value.text ++ argsText items trailing)) := by
  simp [argsText, Item.text]

/-- What follows the arguments binds nothing to the key. -/
theorem parseInvocationLoop_left {trailing : Text} {fuel : ℕ}
    {values : BTreeMap Text (Option Text)}
    (h : trailing.all isPythonWhitespace = true ∨ GoesToMain declared multi key trailing) :
    ∃ values', parseInvocationLoop declared multi fuel values trailing = .ok values' ∧
      values'.get key = values.get key := by
  rcases h with hblank | ⟨⟨main, rfl, hmain⟩, hne, hnot⟩
  · refine ⟨values, parseInvocationLoop_nil ?_, rfl⟩
    rw [← List.append_nil trailing, trimStart_append hblank]
    rfl
  · cases fuel with
    | zero => exact ⟨values, rfl, rfl⟩
    | succ fuel =>
      refine ⟨values.insert main (some (dropFinalCharacter (trimStart trailing))), ?_, ?_⟩
      · simp only [parseInvocationLoop, if_neg hne]
        cases hargument : parseInvocationArgument (trimStart trailing) with
        | none => rfl
        | some argument =>
          have := hnot argument hargument
          simp [this]
      · rw [BTreeMap.get_insert, if_neg hmain.symm]

theorem parseInvocationLoop_items {items : List Item} {trailing : Text} {fuel : ℕ}
    {values : BTreeMap Text (Option Text)} (h : Readable declared multi key items trailing)
    (hfuel : items.length ≤ fuel) :
    ∃ values', parseInvocationLoop declared multi fuel values (argsText items trailing) =
      .ok values' ∧ values'.get key = (bindItems values items).get key := by
  induction items generalizing fuel values with
  | nil => exact parseInvocationLoop_left h.left
  | cons item items ih =>
    obtain ⟨fuel, rfl⟩ : ∃ n, fuel = n + 1 := ⟨fuel - 1, by simp at hfuel; omega⟩
    obtain ⟨hname, hdeclared⟩ := h.names item (.head _)
    have hhead : (argsText items trailing).head?.all isPythonWhitespace = true := by
      cases hargs : argsText items trailing with
      | nil => rfl
      | cons c rest =>
        have hhead := h.head
        rw [hargs] at hhead
        exact isPythonWhitespace_of_isWhitespace (by simpa using hhead)
    obtain ⟨written, hvalue, hbound⟩ := parseOptionalValue_value (h.values item (.head _)) hhead
    have hargument : parseInvocationArgument (item.name ++
        '=' :: (item.value.text ++ argsText items trailing)) =
        some (item.name, written, argsText items trailing) := by
      rw [parseInvocationArgument, parseWord_name hname]
      simp [hvalue, Except.toOption]
    have htrim : trimStart (argsText (item :: items) trailing) = item.name ++
        '=' :: (item.value.text ++ argsText items trailing) := by
      rw [argsText_cons, trimStart_append (h.blanks item (.head _)).1, trimStart_of_word hname]
    rw [parseInvocationLoop_argument (by rw [htrim]; simp) (by rw [htrim]; exact hargument)
      hdeclared, hbound]
    exact ih h.tail (by simp at hfuel; omega)

/-- The last argument named as the key decides what is bound to it. -/
theorem bindItems_get {items : List Item} {values : BTreeMap Text (Option Text)} :
    (bindItems values items).get key =
      (((items.filter fun item => item.name = key).getLast?.map fun item =>
        some (some item.value.bound)).getD (values.get key)) := by
  induction items generalizing values with
  | nil => rfl
  | cons item items ih =>
    have hstep : bindItems values (item :: items) =
        bindItems (values.insert item.name (some item.value.bound)) items := rfl
    rw [hstep, ih, BTreeMap.get_insert]
    by_cases hname : item.name = key
    · rw [List.filter_cons_of_pos (by simpa using hname), List.getLast?_cons, if_pos hname.symm]
      cases (items.filter fun item => item.name = key).getLast? with
      | none => rfl
      | some last => rfl
    · rw [List.filter_cons_of_neg (by simpa using hname), if_neg (Ne.symm hname)]

/-- Every declared name gets a value, absent if none was given. -/
theorem defaults_get {names : List Text} {values : BTreeMap Text (Option Text)}
    (hkey : key ∈ names) :
    (names.foldl (fun values name => values.alter name fun value => value.getD none) values).get
      key = some ((values.get key).getD none) := by
  suffices hmain : ∀ (names : List Text) (values : BTreeMap Text (Option Text)),
      (names.foldl (fun values name => values.alter name fun value => value.getD none) values).get
        key = if key ∈ names then some ((values.get key).getD none) else values.get key by
    rw [hmain, if_pos hkey]
  intro names
  induction names with
  | nil => intro values; rw [if_neg List.not_mem_nil]; rfl
  | cons name names ih =>
    intro values
    rw [List.foldl_cons, ih, BTreeMap.get_alter]
    by_cases hname : key = name
    · subst hname
      by_cases hmem : key ∈ names <;> simp [hmem]
    · by_cases hmem : key ∈ names <;> simp [hmem, hname]

/-- **`parse_invocation` reads a readable text argument by argument.** -/
theorem parseInvocation_items {items : List Item} {trailing : Text}
    (h : Readable declared multi key items trailing) (hkey : (declared.get key).isSome = true) :
    ∃ values, parseInvocation declared multi (argsText items trailing) = .ok values ∧
      values.get key = some ((items.filter fun item => item.name = key).getLast?.map
        fun item => item.value.bound) := by
  have hfuel : items.length ≤ (argsText items trailing).length + 1 := by
    have hlength : items.length ≤ (items.flatMap Item.text).length := by
      clear h
      induction items with
      | nil => exact Nat.zero_le _
      | cons item items ih =>
        have hitem : 1 ≤ item.text.length := by
          rw [Item.text, List.length_append, List.length_cons]
          omega
        rw [List.flatMap_cons, List.length_append, List.length_cons]
        omega
    rw [argsText, List.length_append]
    omega
  obtain ⟨values, hloop, hvalues⟩ := @parseInvocationLoop_items _ _ _ _ _ _ .new h hfuel
  refine ⟨declared.keys.foldl (fun values name => values.alter name fun value => value.getD none)
    values, ?_, ?_⟩
  · rw [parseInvocation, hloop]
    rfl
  · rw [defaults_get (BTreeMap.mem_keys.mpr (Option.isSome_iff_exists.mp hkey)), hvalues,
      bindItems_get]
    cases (items.filter fun item => item.name = key).getLast? with
    | none => rfl
    | some last => rfl

/-! ### `macro_arg` -/

theorem macroArgFrom_miss {previous : Option Char} {c : Char} {rest : Text}
    (h : ¬ (previous.all isWhitespace = true ∧ key ++ ['='] <+: c :: rest)) :
    macroArgFrom key previous (c :: rest) = macroArgFrom key (some c) rest := by
  rw [macroArgFrom]
  by_cases hkey : (previous.all isWhitespace && key.isPrefixOf (c :: rest)) = true
  · rw [if_pos hkey]
    rw [Bool.and_eq_true, List.isPrefixOf_iff_prefix] at hkey
    obtain ⟨after, hafter⟩ := hkey.2
    have hdrop : (c :: rest).drop key.length = after := by
      rw [← hafter, List.drop_left]
    rw [hdrop]
    split
    · exact absurd ⟨hkey.1, ⟨_, by rw [← hafter]; simp; rfl⟩⟩ h
    · exact absurd ⟨hkey.1, ⟨_, by rw [← hafter]; simp; rfl⟩⟩ h
    · rfl
  · rw [if_neg hkey]

theorem not_prefix_of_head {c : Char} {rest : Text} (hkey : key.head?.any isNameStart = true)
    (hc : isNameStart c = false) : ¬ key ++ ['='] <+: c :: rest := by
  cases key with
  | nil => cases hkey
  | cons k key =>
    intro h
    rw [List.cons_append, List.cons_prefix_cons] at h
    rw [h.1] at hkey
    have hkey : isNameStart c = true := hkey
    rw [hc] at hkey
    cases hkey

theorem isWordCharacter_of_isNameStart {c : Char} (h : isNameStart c = true) :
    isWordCharacter c = true := by
  simp only [isNameStart, Bool.or_eq_true] at h
  simp only [isWordCharacter, isAlphanumeric, Bool.or_eq_true]
  tauto

theorem not_isNameStart_of_isPythonWhitespace {c : Char} (h : isPythonWhitespace c = true) :
    isNameStart c = false := by
  by_contra hstart
  rw [Bool.not_eq_false] at hstart
  rw [not_isPythonWhitespace_of_isWordCharacter (isWordCharacter_of_isNameStart hstart)] at h
  cases h

/-- Text in which the key cannot begin is passed over. -/
theorem macroArgFrom_skip {previous : Option Char} {segment rest : Text}
    (hkey : key.head?.any isNameStart = true)
    (hsegment : segment.all (fun c => !isNameStart c) = true) :
    macroArgFrom key previous (segment ++ rest) =
      macroArgFrom key (segment.getLast?.or previous) rest := by
  induction segment generalizing previous with
  | nil => rfl
  | cons c segment ih =>
    rw [List.all_cons, Bool.and_eq_true] at hsegment
    have hc : isNameStart c = false := by simpa using hsegment.1
    rw [List.cons_append, macroArgFrom_miss fun h => not_prefix_of_head hkey hc h.2,
      ih hsegment.2]
    cases hlast : segment.getLast? with
    | none =>
      rw [List.getLast?_eq_none_iff] at hlast
      rw [hlast]
      rfl
    | some d => rw [List.getLast?_cons, hlast]; rfl

/-- Inside a word the key is not looked for. -/
theorem macroArgFrom_word {p : Char} {word rest : Text} (hp : isWhitespace p = false)
    (hword : word.all (fun c => !isWhitespace c) = true) :
    ∃ q, isWhitespace q = false ∧
      macroArgFrom key (some p) (word ++ rest) = macroArgFrom key (some q) rest := by
  induction word generalizing p with
  | nil => exact ⟨p, hp, rfl⟩
  | cons c word ih =>
    rw [List.all_cons, Bool.and_eq_true] at hword
    have hc : isWhitespace c = false := by simpa using hword.1
    obtain ⟨q, hq, heq⟩ := ih hc hword.2
    refine ⟨q, hq, ?_⟩
    rw [List.cons_append, macroArgFrom_miss (by simp [hp]), heq]

theorem prefix_of_append_of_notMem {a b l : Text} {c : Char} (h : l <+: a ++ c :: b)
    (hc : c ∉ l) : l <+: a := by
  rcases List.prefix_or_prefix_of_prefix h (List.prefix_append a (c :: b)) with hla | hal
  · exact hla
  · obtain ⟨t, rfl⟩ := hal
    cases t with
    | nil => rw [List.append_nil]
    | cons d t =>
      rw [List.prefix_append_right_inj, List.cons_prefix_cons] at h
      exact absurd (by rw [h.1]; simp) hc

/-- A quoted text that does not mention the key is passed over. -/
theorem macroArgFrom_quoted {p : Char} {value rest : Text}
    (hkey : key.head?.any isNameStart = true) (hquote : '"' ∉ key)
    (hp : isWhitespace p = true → ¬ key ++ ['='] <+: value) (hvalue : mentions key value = false) :
    macroArgFrom key (some p) (value ++ '"' :: rest) = macroArgFrom key (some '"') rest := by
  induction value generalizing p with
  | nil => exact macroArgFrom_miss fun h => not_prefix_of_head hkey rfl h.2
  | cons c value ih =>
    rw [mentions, Bool.or_eq_false_iff] at hvalue
    rw [List.cons_append, macroArgFrom_miss, ih ?_ hvalue.2]
    · intro hc hpre
      have := hvalue.1
      rw [hc, Bool.true_and, ← Bool.not_eq_true, List.isPrefixOf_iff_prefix] at this
      exact this hpre
    · rintro ⟨hblank, hpre⟩
      refine hp (by simpa using hblank) (prefix_of_append_of_notMem (b := rest) hpre ?_)
      simp [hquote]

/-- A value in which the key does not stand is passed over. -/
theorem macroArgFrom_value {p : Char} {value : ArgumentValue} {rest : Text}
    (hkey : key.head?.any isNameStart = true) (hquote : '"' ∉ key)
    (hp : isWhitespace p = false) (hvalue : value.readable key = true) :
    ∃ q, isWhitespace q = false ∧
      macroArgFrom key (some p) (value.text ++ rest) = macroArgFrom key (some q) rest := by
  cases value with
  | absent => exact ⟨p, hp, rfl⟩
  | plain text =>
    simp only [ArgumentValue.readable, Bool.and_eq_true, List.all_eq_true] at hvalue
    refine macroArgFrom_word hp (List.all_eq_true.mpr fun c hc => ?_)
    have := hvalue.1.2 c hc
    simp only [isValueCharacter, isPythonWhitespace, Bool.not_or, Bool.and_eq_true] at this
    exact this.1.1
  | quoted text =>
    have hmentions : mentions key text = false := by
      simpa using ((Bool.and_eq_true _ _).mp hvalue).2
    have htext : ArgumentValue.text (.quoted text) ++ rest = '"' :: (text ++ '"' :: rest) := by
      simp [ArgumentValue.text]
    refine ⟨'"', rfl, ?_⟩
    rw [htext, macroArgFrom_miss (by simp [hp])]
    exact macroArgFrom_quoted hkey hquote (fun h => by cases h) hmentions

theorem notMem_of_validReferenceName {name : Text} {c : Char} (h : validReferenceName name = true)
    (hc : isWordCharacter c = false) : c ∉ name := by
  obtain ⟨d, rest, rfl, hd, hrest⟩ := isWordCharacter_of_validReferenceName h
  intro hmem
  rcases List.mem_cons.mp hmem with rfl | hmem
  · rw [isWordCharacter_of_isAlphanumeric hd] at hc
    cases hc
  · rw [List.all_eq_true.mp hrest c hmem] at hc
    cases hc

/-- Up to its first `=`, a text determines its name. -/
theorem name_eq_of_key {name rest : Text} (hkey : '=' ∉ key) (hname : '=' ∉ name)
    (h : key ++ ['='] <+: name ++ '=' :: rest) : key = name := by
  obtain ⟨t, ht⟩ := h
  rw [List.append_assoc, List.singleton_append] at ht
  rcases List.append_eq_append_iff.mp ht with ⟨m, rfl, hm⟩ | ⟨m, rfl, hm⟩
  · cases m with
    | nil => rw [List.append_nil]
    | cons c m =>
      rw [List.cons_append, List.cons.injEq] at hm
      exact absurd (by rw [← hm.1]; simp) hname
  · cases m with
    | nil => rw [List.append_nil]
    | cons c m =>
      rw [List.cons_append, List.cons.injEq] at hm
      exact absurd (by rw [← hm.1]; simp) hkey

theorem not_isWhitespace_of_isWordCharacter {c : Char} (h : isWordCharacter c = true) :
    isWhitespace c = false := by
  have := not_isPythonWhitespace_of_isWordCharacter h
  rw [isPythonWhitespace, Bool.or_eq_false_iff] at this
  exact this.1

/-- The rest of a name, its `=` and its value are passed over. -/
theorem macroArgFrom_afterStart {c : Char} {word : Text} {value : ArgumentValue} {rest : Text}
    (hkey : key.head?.any isNameStart = true) (hquote : '"' ∉ key)
    (hname : validReferenceName (c :: word) = true) (hvalue : value.readable key = true) :
    ∃ q, isWhitespace q = false ∧
      macroArgFrom key (some c) (word ++ '=' :: (value.text ++ rest)) =
        macroArgFrom key (some q) rest := by
  rw [validReferenceName, Bool.and_eq_true] at hname
  have hc := not_isWhitespace_of_isWordCharacter (isWordCharacter_of_isAlphanumeric hname.1)
  have hword : (word ++ ['=']).all (fun c => !isWhitespace c) = true := by
    rw [List.all_append, Bool.and_eq_true]
    refine ⟨List.all_eq_true.mpr fun d hd => ?_, rfl⟩
    rw [not_isWhitespace_of_isWordCharacter (List.all_eq_true.mp hname.2 d hd)]
    rfl
  obtain ⟨p, hp, hskip⟩ := @macroArgFrom_word key _ _ (value.text ++ rest) hc hword
  obtain ⟨q, hq, hend⟩ := @macroArgFrom_value _ _ _ rest hkey hquote hp hvalue
  refine ⟨q, hq, ?_⟩
  rw [← hend, ← hskip]
  simp

theorem macroArgFrom_other {previous : Option Char} {item : Item} {rest : Text}
    (hkey : validReferenceName key = true) (hstart : key.head?.any isNameStart = true)
    (hname : validReferenceName item.name = true) (hvalue : item.value.readable key = true)
    (hne : item.name ≠ key) :
    ∃ q, isWhitespace q = false ∧
      macroArgFrom key previous (item.name ++ '=' :: (item.value.text ++ rest)) =
        macroArgFrom key (some q) rest := by
  obtain ⟨c, word, hword, -, -⟩ := isWordCharacter_of_validReferenceName hname
  have hmiss : ¬ key ++ ['='] <+: item.name ++ '=' :: (item.value.text ++ rest) := fun h =>
    hne (name_eq_of_key (notMem_of_validReferenceName hkey rfl)
      (notMem_of_validReferenceName hname rfl) h).symm
  rw [hword] at hname hmiss ⊢
  rw [List.cons_append] at hmiss ⊢
  obtain ⟨q, hq, hend⟩ := @macroArgFrom_afterStart _ _ _ _ rest hstart
    (notMem_of_validReferenceName hkey rfl) hname hvalue
  refine ⟨q, hq, ?_⟩
  rw [macroArgFrom_miss fun h => hmiss h.2, hend]

theorem macroArgFrom_key {previous : Option Char} {after : Text} {c : Char} {word : Text}
    (hprevious : previous.all isWhitespace = true) (hkey : key = c :: word) :
    macroArgFrom key previous (key ++ '=' :: after) =
      if after.head? = some '"' then
        if after.tail.contains '"' then some (after.tail.takeWhile (· ≠ '"')) else none
      else if after.takeWhile (fun c => !isWhitespace c) = [] then
        macroArgFrom key (some c) (word ++ '=' :: after)
      else some (after.takeWhile fun c => !isWhitespace c) := by
  have hpre : key.isPrefixOf (c :: (word ++ '=' :: after)) = true := by
    rw [List.isPrefixOf_iff_prefix, hkey]
    exact List.prefix_append _ _
  have hdrop : (c :: (word ++ '=' :: after)).drop key.length = '=' :: after := by
    rw [hkey, ← List.cons_append, List.drop_left]
  have htext : key ++ '=' :: after = c :: (word ++ '=' :: after) := by rw [hkey]; rfl
  rw [htext, macroArgFrom, hprevious, hpre, hdrop]
  cases after with
  | nil => rfl
  | cons d after =>
    by_cases hd : d = '"'
    · rw [hd]
      rfl
    · have hhead : (d :: after).head? ≠ some '"' := by simpa using hd
      rw [if_neg hhead]
      simp only [Bool.and_self, if_true]
      split
      · rename_i heq
        simp only [List.cons.injEq, true_and] at heq
        exact absurd heq.1 hd
      · rename_i heq
        simp only [List.cons.injEq, true_and] at heq
        rw [← heq]
      · rename_i heq
        exact absurd rfl (heq _)

/-- The argument that is looked for. -/
theorem macroArgFrom_found {previous : Option Char} {value : ArgumentValue} {rest : Text}
    (hname : validReferenceName key = true) (hstart : key.head?.any isNameStart = true)
    (hprevious : previous.all isWhitespace = true) (hvalue : value.readable key = true)
    (hrest : rest.head?.all isWhitespace = true) :
    ∃ q, isWhitespace q = false ∧
      macroArgFrom key previous (key ++ '=' :: (value.text ++ rest)) =
        value.given.or (macroArgFrom key (some q) rest) := by
  obtain ⟨c, word, hword, -, -⟩ := isWordCharacter_of_validReferenceName hname
  cases value with
  | absent =>
    have hnone : rest.takeWhile (fun c => !isWhitespace c) = [] := by
      cases rest with
      | nil => rfl
      | cons d rest =>
        have hd : isWhitespace d = true := by simpa using hrest
        simp [hd]
    obtain ⟨q, hq, hend⟩ := @macroArgFrom_afterStart _ _ _ _ rest hstart
      (notMem_of_validReferenceName hname rfl) (hword ▸ hname) hvalue
    refine ⟨q, hq, ?_⟩
    have hhead : rest.head? ≠ some '"' := by
      intro heq
      rw [heq] at hrest
      cases hrest
    rw [ArgumentValue.given, Option.none_or, ← hend]
    rw [ArgumentValue.text, List.nil_append, macroArgFrom_key hprevious hword, if_neg hhead,
      if_pos hnone]
  | plain text =>
    simp only [ArgumentValue.readable, Bool.and_eq_true, decide_eq_true_eq] at hvalue
    obtain ⟨⟨hne, hall⟩, -⟩ := hvalue
    have htake : (text ++ rest).takeWhile (fun c => !isWhitespace c) = text := by
      refine takeWhile_append_stop (List.all_eq_true.mpr fun d hd => ?_) ?_
      · have := List.all_eq_true.mp hall d hd
        simp only [isValueCharacter, isPythonWhitespace, Bool.not_or, Bool.and_eq_true] at this
        exact this.1.1
      · simpa using hrest
    obtain ⟨d, text, rfl⟩ := List.exists_cons_of_ne_nil hne
    have hd : d ≠ '"' := by
      rw [List.all_cons, Bool.and_eq_true] at hall
      exact (by simpa [isValueCharacter] using hall.1 : _ ∧ _).2
    refine ⟨'=', rfl, ?_⟩
    have hhead : (d :: text ++ rest).head? ≠ some '"' := by simpa using hd
    have hsome : (d :: text ++ rest).takeWhile (fun c => !isWhitespace c) ≠ [] := by
      rw [htake]
      exact List.cons_ne_nil _ _
    rw [ArgumentValue.text, macroArgFrom_key hprevious hword, if_neg hhead, if_neg hsome, htake]
    rfl
  | quoted text =>
    have hquote : '"' ∉ text := by
      simpa using ((Bool.and_eq_true _ _).mp hvalue).1
    have htext : ArgumentValue.text (.quoted text) ++ rest = '"' :: (text ++ '"' :: rest) := by
      simp [ArgumentValue.text]
    have hall : text.all (fun c => decide (c ≠ '"')) = true := by
      rw [List.all_eq_true]
      intro c hc
      exact decide_eq_true fun heq => hquote (heq ▸ hc)
    refine ⟨'=', rfl, ?_⟩
    rw [htext, macroArgFrom_key hprevious hword, if_pos List.head?_cons, List.tail_cons,
      if_pos (by simp), takeWhile_append_stop hall rfl]
    rfl

/-- What stands before an argument: the beginning of the text, or a character of another argument
and then white space. -/
def startsAfter (previous : Option Char) (items : List Item) : Prop :=
  ∀ p, previous = some p → isWhitespace p = false ∧ ∀ item ∈ items.head?, item.blanks ≠ []

theorem startsAfter_blanks {previous : Option Char} {item : Item} {items : List Item}
    (h : startsAfter previous (item :: items))
    (hblanks : item.blanks.getLast?.all isAsciiWhitespace = true) :
    (item.blanks.getLast?.or previous).all isWhitespace = true := by
  cases hlast : item.blanks.getLast? with
  | none =>
    cases previous with
    | none => rfl
    | some p => exact absurd (List.getLast?_eq_none_iff.mp hlast) ((h p rfl).2 item rfl)
  | some c =>
    rw [hlast] at hblanks
    exact isWhitespace_of_isAsciiWhitespace (by simpa using hblanks)

theorem startsAfter_tail {q : Char} {item : Item} {items : List Item} {trailing : Text}
    (h : Readable declared multi key (item :: items) trailing) (hq : isWhitespace q = false) :
    startsAfter (some q) items := by
  rintro p ⟨rfl⟩
  exact ⟨hq, fun i hi => (h.separated i (List.mem_of_mem_head? hi)).1⟩

theorem skipsBlanks {blanks : Text} (h : blanks.all isPythonWhitespace = true) :
    blanks.all (fun c => !isNameStart c) = true := by
  rw [List.all_eq_true] at h ⊢
  intro c hc
  rw [not_isNameStart_of_isPythonWhitespace (h c hc)]
  rfl

/-- A text that does not mention the key has no value for it. -/
theorem macroArgFrom_unmentioned {previous : Option Char} {text : Text}
    (hhead : ¬ key ++ ['='] <+: text) (h : mentions key text = false) :
    macroArgFrom key previous text = none := by
  suffices hmain : ∀ {previous : Option Char} {text : Text},
      (previous.all isWhitespace = true → ¬ key ++ ['='] <+: text) → mentions key text = false →
      macroArgFrom key previous text = none from hmain (fun _ => hhead) h
  intro previous text
  induction text generalizing previous with
  | nil => intro _ _; rfl
  | cons c text ih =>
    intro hhead h
    rw [mentions, Bool.or_eq_false_iff] at h
    rw [macroArgFrom_miss fun hkey => hhead hkey.1 hkey.2]
    refine ih (fun hc hpre => ?_) h.2
    have hc : isWhitespace c = true := by simpa using hc
    have hnone := h.1
    rw [hc, Bool.true_and, ← Bool.not_eq_true, List.isPrefixOf_iff_prefix] at hnone
    exact hnone hpre

/-- **`macro_arg` reads a readable text argument by argument.** -/
theorem macroArgFrom_items {items : List Item} {trailing : Text} {previous : Option Char}
    (h : Readable declared multi key items trailing) (hprevious : startsAfter previous items) :
    macroArgFrom key previous (argsText items trailing) = givenFor key items := by
  induction items generalizing previous with
  | nil => exact macroArgFrom_unmentioned h.quiet.1 h.quiet.2
  | cons item items ih =>
    have hvalue := h.values item (.head _)
    rw [argsText_cons, macroArgFrom_skip h.keyStart (skipsBlanks (h.blanks item (.head _)).1)]
    by_cases heq : item.name = key
    · obtain ⟨q, hq, hfound⟩ := macroArgFrom_found h.keyName h.keyStart
        (startsAfter_blanks hprevious (h.blanks item (.head _)).2) hvalue h.head
      rw [heq, hfound, ih h.tail (startsAfter_tail h hq), givenFor, givenFor,
        List.filter_cons_of_pos (by simpa using heq), List.findSome?_cons]
      cases item.value.given with
      | none => rfl
      | some value => rfl
    · obtain ⟨q, hq, hskip⟩ := macroArgFrom_other h.keyName h.keyStart (h.names item (.head _)).1
        hvalue heq
      rw [hskip, ih h.tail (startsAfter_tail h hq), givenFor, givenFor,
        List.filter_cons_of_neg (by simpa using heq)]

/-! ### `macro_argument_names` -/

theorem argumentNames_step {s : NameScan} {c : Char} {rest : Text} (h : s.word = none) :
    argumentNames s (c :: rest) = argumentNames (s.step c rest.head?) rest := by
  rw [argumentNames, h]

/-- Characters that mean nothing to the scan outside a word. -/
theorem NameScan.step_other {boundary : Bool} {c : Char} {next : Option Char}
    (hquote : c ≠ '\'' ∧ c ≠ '"') (hreference : c ≠ '$') (hblank : isAsciiWhitespace c = false)
    (hstart : boundary = false ∨ isNameStart c = false) :
    NameScan.step ⟨none, 0, boundary, none⟩ c next = .inside := by
  rcases hstart with rfl | hstart
  · simp [NameScan.step, hquote, hreference, hblank, NameScan.inside]
  · simp [NameScan.step, hquote, hreference, hblank, hstart, NameScan.inside]

theorem isWordCharacter_ne {c d : Char} (hc : isWordCharacter c = true)
    (hd : isWordCharacter d = false) : c ≠ d := by
  rintro rfl
  rw [hc] at hd
  cases hd

theorem isPythonWhitespace_ne {c d : Char} (hc : isPythonWhitespace c = true)
    (hd : isPythonWhitespace d = false) : c ≠ d := by
  rintro rfl
  rw [hc] at hd
  cases hd

theorem not_isAsciiWhitespace {c : Char} (h : isPythonWhitespace c = false) :
    isAsciiWhitespace c = false := by
  by_contra hblank
  rw [Bool.not_eq_false] at hblank
  rw [isPythonWhitespace_of_isWhitespace (isWhitespace_of_isAsciiWhitespace hblank)] at h
  cases h

theorem NameScan.step_blank {boundary : Bool} {c : Char} {next : Option Char}
    (hc : isPythonWhitespace c = true) :
    NameScan.step ⟨none, 0, boundary, none⟩ c next = ⟨none, 0, isAsciiWhitespace c, none⟩ := by
  by_cases hblank : isAsciiWhitespace c = true
  · rw [hblank]
    simp [NameScan.step, hblank, isPythonWhitespace_ne hc (d := '\'') rfl,
      isPythonWhitespace_ne hc (d := '"') rfl, isPythonWhitespace_ne hc (d := '$') rfl]
  · rw [Bool.not_eq_true] at hblank
    rw [hblank]
    exact NameScan.step_other ⟨isPythonWhitespace_ne hc rfl, isPythonWhitespace_ne hc rfl⟩
      (isPythonWhitespace_ne hc rfl) hblank (.inr (not_isNameStart_of_isPythonWhitespace hc))

theorem argumentNames_blanks {boundary : Bool} {blanks rest : Text}
    (h : blanks.all isPythonWhitespace = true) :
    argumentNames ⟨none, 0, boundary, none⟩ (blanks ++ rest) =
      argumentNames ⟨none, 0, (blanks.getLast?.map isAsciiWhitespace).getD boundary, none⟩ rest := by
  induction blanks generalizing boundary with
  | nil => rfl
  | cons c blanks ih =>
    rw [List.all_cons, Bool.and_eq_true] at h
    rw [List.cons_append, argumentNames_step rfl, NameScan.step_blank h.1, ih h.2,
      List.getLast?_cons]
    cases blanks.getLast? with
    | none => rfl
    | some d => rfl

theorem NameScan.step_word {c : Char} {next : Option Char} (hc : isWordCharacter c = true) :
    NameScan.inside.step c next = .inside :=
  NameScan.step_other ⟨isWordCharacter_ne hc rfl, isWordCharacter_ne hc rfl⟩
    (isWordCharacter_ne hc rfl)
    (not_isAsciiWhitespace (not_isPythonWhitespace_of_isWordCharacter hc)) (.inl rfl)

theorem argumentNames_inWord {read word rest : Text} (h : word.all isWordCharacter = true) :
    argumentNames ⟨none, 0, false, some read⟩ (word ++ '=' :: rest) =
      (read ++ word) :: argumentNames .inside rest := by
  induction word generalizing read with
  | nil =>
    rw [List.nil_append, List.append_nil, argumentNames]
    rfl
  | cons c word ih =>
    rw [List.all_cons, Bool.and_eq_true] at h
    rw [List.cons_append, argumentNames]
    simp only [h.1, if_true]
    rw [ih h.2, List.append_assoc, List.singleton_append]

theorem argumentNames_noWord {word rest : Text} (h : word.all isWordCharacter = true) :
    argumentNames .inside (word ++ '=' :: rest) = argumentNames .inside rest := by
  induction word with
  | nil =>
    rw [List.nil_append, argumentNames_step rfl]
    rfl
  | cons c word ih =>
    rw [List.all_cons, Bool.and_eq_true] at h
    rw [List.cons_append, argumentNames_step rfl, NameScan.step_word h.1, ih h.2]

/-- A name is listed unless it begins with a digit. -/
theorem argumentNames_name {name rest : Text} (h : validReferenceName name = true) :
    argumentNames ⟨none, 0, true, none⟩ (name ++ '=' :: rest) =
      (if name.head?.any isNameStart = true then [name] else []) ++
        argumentNames .inside rest := by
  obtain ⟨c, word, rfl, hc, hword⟩ := isWordCharacter_of_validReferenceName h
  have hc := isWordCharacter_of_isAlphanumeric hc
  have hblank := not_isAsciiWhitespace (not_isPythonWhitespace_of_isWordCharacter hc)
  have hquote : c ≠ '\'' ∧ c ≠ '"' := ⟨isWordCharacter_ne hc rfl, isWordCharacter_ne hc rfl⟩
  have hreference : c ≠ '$' := isWordCharacter_ne hc rfl
  rw [List.cons_append, argumentNames_step rfl]
  by_cases hstart : isNameStart c = true
  · have hstep : ∀ next, NameScan.step ⟨none, 0, true, none⟩ c next =
        ⟨none, 0, false, some [c]⟩ := by
      intro next
      simp [NameScan.step, hquote, hreference, hblank, hstart]
    rw [hstep, argumentNames_inWord hword, if_pos (by simpa using hstart)]
    rfl
  · rw [NameScan.step_other hquote hreference hblank (.inr (by simpa using hstart)),
      argumentNames_noWord hword, if_neg (by simpa using hstart)]
    rfl

/-- Only a parenthesis after a `$` matters to the scan. -/
theorem NameScan.step_next {s : NameScan} {c : Char} {next : Option Char} (h : next ≠ some '(') :
    s.step c next = s.step c none := by
  unfold NameScan.step
  simp [h]

theorem NameScan.step_value {s : NameScan} {c : Char} {next : Option Char}
    (hboundary : s.wordBoundary = false) (hc : isAsciiWhitespace c = false) :
    (s.step c next).word = none ∧ (s.step c next).wordBoundary = false := by
  unfold NameScan.step
  split
  · exact ⟨rfl, hboundary⟩
  · simp only [hboundary, hc, Bool.and_false, Bool.false_and, Bool.false_eq_true, if_false]
    split_ifs <;> simp

theorem argumentNames_run {s : NameScan} {value rest : Text} (hword : s.word = none)
    (hboundary : s.wordBoundary = false) (hvalue : value.all (fun c => !isAsciiWhitespace c) = true)
    (hrest : rest.head? ≠ some '(') :
    argumentNames s (value ++ rest) = argumentNames (s.run value) rest := by
  induction value generalizing s with
  | nil => rfl
  | cons c value ih =>
    rw [List.all_cons, Bool.and_eq_true] at hvalue
    have hc : isAsciiWhitespace c = false := by simpa using hvalue.1
    have hnext : s.step c (value ++ rest).head? = s.step c value.head? := by
      cases value with
      | nil => exact NameScan.step_next hrest
      | cons d value => rfl
    obtain ⟨hword', hboundary'⟩ := @NameScan.step_value _ _ (value.head?) hboundary hc
    rw [List.cons_append, argumentNames_step hword, hnext, ih hword' hboundary' hvalue.2]
    rfl

theorem argumentNames_inQuotes {value rest : Text} (h : '"' ∉ value) :
    argumentNames ⟨some '"', 0, false, none⟩ (value ++ '"' :: rest) =
      argumentNames .inside rest := by
  induction value with
  | nil =>
    rw [List.nil_append, argumentNames_step rfl]
    rfl
  | cons c value ih =>
    rw [List.mem_cons, not_or] at h
    have hstep : ∀ next, NameScan.step ⟨some '"', 0, false, none⟩ c next =
        ⟨some '"', 0, false, none⟩ := by
      intro next
      simp [NameScan.step, Ne.symm h.1]
    rw [List.cons_append, argumentNames_step rfl, hstep, ih h.2]

theorem argumentNames_value {value : ArgumentValue} {rest : Text}
    (hvalue : value.readable key = true) (hrest : rest.head?.all isWhitespace = true) :
    argumentNames .inside (value.text ++ rest) = argumentNames .inside rest := by
  cases value with
  | absent => rfl
  | plain text =>
    simp only [ArgumentValue.readable, Bool.and_eq_true] at hvalue
    have hall : text.all (fun c => !isAsciiWhitespace c) = true := by
      refine List.all_eq_true.mpr fun c hc => ?_
      have := List.all_eq_true.mp hvalue.1.2 c hc
      simp only [isValueCharacter, Bool.and_eq_true, Bool.not_eq_true'] at this
      rw [not_isAsciiWhitespace this.1]
      rfl
    have hhead : rest.head? ≠ some '(' := by
      intro heq
      rw [heq] at hrest
      cases hrest
    rw [ArgumentValue.text, argumentNames_run rfl rfl hall hhead, of_decide_eq_true hvalue.2]
  | quoted text =>
    have hquote : '"' ∉ text := by
      simpa using ((Bool.and_eq_true _ _).mp hvalue).1
    have htext : ArgumentValue.text (.quoted text) ++ rest = '"' :: (text ++ '"' :: rest) := by
      simp [ArgumentValue.text]
    rw [htext, argumentNames_step rfl]
    exact argumentNames_inQuotes hquote

/-- **`macro_argument_names` lists the arguments of a readable text**, apart from those whose names
begin with a digit. -/
theorem argumentNames_items {items : List Item} {trailing : Text} {boundary : Bool}
    (h : Readable declared multi key items trailing)
    (hboundary : boundary = false → ∀ item ∈ items.head?, item.blanks ≠ []) :
    (items.map Item.name).filter (fun name => name.head?.any isNameStart) <+:
      argumentNames ⟨none, 0, boundary, none⟩ (argsText items trailing) := by
  induction items generalizing boundary with
  | nil => exact List.nil_prefix
  | cons item items ih =>
    have hlast := (h.blanks item (.head _)).2
    have hstart : (item.blanks.getLast?.map isAsciiWhitespace).getD boundary = true := by
      cases hblanks : item.blanks.getLast? with
      | none =>
        rw [List.getLast?_eq_none_iff] at hblanks
        by_contra hfalse
        exact hboundary (by simpa using hfalse) item rfl hblanks
      | some c =>
        rw [hblanks] at hlast
        simpa using hlast
    have htail := @ih false h.tail
      fun _ i hi => (h.separated i (List.mem_of_mem_head? hi)).1
    rw [argsText_cons, argumentNames_blanks (h.blanks item (.head _)).1, hstart,
      argumentNames_name (h.names item (.head _)).1,
      argumentNames_value (h.values item (.head _)) h.head, List.map_cons, List.filter_cons]
    by_cases hname : item.name.head?.any isNameStart = true
    · rw [if_pos hname, if_pos hname, List.singleton_append, List.cons_prefix_cons]
      exact ⟨rfl, htail⟩
    · rw [if_neg hname, if_neg hname, List.nil_append]
      exact htail

/-! ### The three readers -/

/-- The arguments `a` and `b`, neither of which is required. -/
def twoArguments : BTreeMap Text Argument :=
  (BTreeMap.new.insert (lit "a") ⟨none, false, false⟩).insert (lit "b") ⟨none, false, false⟩

/-- `b=y a="x c=y" b=y`, the key `b` given twice. -/
def twiceGiven : List Item :=
  [⟨[], lit "b", .plain (lit "y")⟩, ⟨lit " ", lit "a", .quoted (lit "x c=y")⟩,
    ⟨lit " ", lit "b", .plain (lit "y")⟩]

end Genmf

end ArosTools
