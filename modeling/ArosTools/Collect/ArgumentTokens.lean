import ArosTools.Collect.Arguments
import ArosTools.Program.Except

/-!
# Command lines as tokens

A command line is cut into `Token`s: single words, and options with the operand that follows.
`tokens_of_readArgs` and `readArgs_words` say what the parser makes of them, `replaceOutput_skip`
and `replaceOutput_hit` what the replacement does, and `effects_split` that at most one of them
names an output.
-/

namespace ArosTools

namespace Engine

/-! ### Tokens -/

/-- A word, or an option and its operand. -/
inductive Token where
  | word (w : OsString)
  | pair (o v : OsString)
  deriving DecidableEq, Repr

/-- The options that the parser reads together with the next argument. -/
def takesOperand (text : Bytes) : Bool :=
  takesSeparateValue text || text = ascii "-m" || text = ascii "--emulation"

namespace Token

/-- The arguments of a token. -/
def words : Token → List OsString
  | word w => [w]
  | pair o v => [o, v]

/-- A token as the parser cuts them. -/
def Valid : Token → Prop
  | word w => toStringLossy w ≠ ascii "--" ∧ takesOperand (toStringLossy w) = false
  | pair o _ => takesOperand (toStringLossy o) = true

/-- The output that a token names. -/
def output : Token → Option Bytes
  | word w => (stripPrefix (toStringLossy w) "--output=").or
      ((stripPrefix (toStringLossy w) "-o").filter (· ≠ []))
  | pair o v =>
    if toStringLossy o = ascii "-o" || toStringLossy o = ascii "--output" then some v else none

/-- The flags that are taken out. -/
def collectorFlags : List String := ["-Ur", "-ius", "-s"]

/-- The token that is passed on. -/
def rewrite : Token → Token
  | word w => if (collectorFlags.map ascii).contains (toStringLossy w) then word (ascii "-r") else word w
  | pair o v => pair o v

/-- What a token that names no output selects. -/
def select (s : Selections) : Token → Option Selections
  | word w =>
    let text := toStringLossy w
    match stripPrefix text "--sysroot=" with
    | some value => if value = [] then none else some { s with sysroot := some value }
    | none =>
      if text = ascii "-r" || text = ascii "-i" then some { s with mode := .incremental }
      else if text = ascii "-Ur" then some { s with mode := .collectRelocatable }
      else if text = ascii "-ius" then some { s with ignoreUndefined := true }
      else if text = ascii "-s" then some { s with stripOutput := true }
      else if startsWith text "--ld-path" || startsWith text "-Wl,--ld-path" then none
      else some s
  | pair o v => if toStringLossy o = ascii "--sysroot" then some { s with sysroot := some v } else some s

/-- What a token selects. -/
def effect (s : Selections) (t : Token) : Option Selections :=
  match t.output with
  | some value => if s.output = none ∧ value ≠ [] then some { s with output := some value } else none
  | none => t.select s

end Token

/-- The arguments of a list of tokens. -/
def words (tokens : List Token) : List OsString := tokens.flatMap Token.words

@[simp] theorem words_nil : words [] = [] := rfl

@[simp] theorem words_cons (t : Token) (ts : List Token) : words (t :: ts) = t.words ++ words ts := rfl

theorem words_append (ts us : List Token) : words (ts ++ us) = words ts ++ words us :=
  List.flatMap_append

/-- Where the options end. -/
def Boundary : List OsString → Prop
  | [] => True
  | w :: _ => toStringLossy w = ascii "--"

/-- Every argument list starts with its boundary, with a token, or with an option that lacks its
operand. -/
theorem next_token (args : List OsString) :
    Boundary args ∨ (∃ t rest, Token.Valid t ∧ args = t.words ++ rest) ∨
      ∃ o, args = [o] ∧ takesOperand (toStringLossy o) = true := by
  match args with
  | [] => exact .inl trivial
  | w :: rest =>
    by_cases hstop : toStringLossy w = ascii "--"
    · exact .inl hstop
    cases htakes : takesOperand (toStringLossy w) with
    | false => exact .inr (.inl ⟨.word w, rest, ⟨hstop, htakes⟩, rfl⟩)
    | true =>
      match rest with
      | [] => exact .inr (.inr ⟨w, rfl, htakes⟩)
      | v :: rest => exact .inr (.inl ⟨.pair w v, rest, htakes, rfl⟩)

/-! ### Texts of options -/

theorem startsWith_append (start : String) (text : Bytes) :
    startsWith (ascii start ++ text) start = true := by
  simp [startsWith]

theorem stripPrefix_eq_some {text value : Bytes} {start : String} :
    stripPrefix text start = some value ↔ text = ascii start ++ value := by
  unfold stripPrefix startsWith
  constructor
  · intro h
    split_ifs at h with hprefix
    cases h
    obtain ⟨rest, rfl⟩ := List.isPrefixOf_iff_prefix.mp hprefix
    rw [List.drop_left]
  · rintro rfl
    rw [if_pos (by simp), List.drop_left]

theorem stripPrefix_eq_none {text : Bytes} {start : String} :
    stripPrefix text start = none ↔ startsWith text start = false := by
  unfold stripPrefix
  split_ifs with h
  · simp [h]
  · simpa using h

theorem not_startsWith_long (value : Bytes) :
    startsWith (ascii "--output=" ++ value) "-o" = false := by
  rw [startsWith, show ascii "-o" = [0x2d, 0x6f] by decide,
    show ascii "--output=" = 0x2d :: 0x2d :: ascii "output=" by decide]
  rfl

theorem joined_cases {text value : Bytes}
    (h : (stripPrefix text "--output=").or ((stripPrefix text "-o").filter (· ≠ [])) = some value) :
    text = ascii "--output=" ++ value ∨ text = ascii "-o" ++ value ∧ value ≠ [] := by
  rw [Option.or_eq_some_iff, stripPrefix_eq_some, Option.filter_eq_some_iff, stripPrefix_eq_some] at h
  rcases h with h | ⟨-, h, hne⟩
  · exact .inl h
  · exact .inr ⟨h, by simpa using hne⟩

/-- The options that are read together with the next argument. -/
def operandOptions : List Bytes := (separateValueOptions ++ ["-m", "--emulation"]).map ascii

theorem mem_operandOptions {text : Bytes} : text ∈ operandOptions ↔ takesOperand text = true := by
  simp [operandOptions, takesOperand, takesSeparateValue, or_assoc]

/-- What an option that takes an operand can be, among the texts that the readers look for. -/
structure PlainOption (text : Bytes) : Prop where
  output : (stripPrefix text "--output=").or ((stripPrefix text "-o").filter (· ≠ [])) = none
  short : startsWith text "-o" = false
  long : startsWith text "--output=" = false
  sysroot : stripPrefix text "--sysroot=" = none
  flag : text ∉ ["-r", "-i", "-Ur", "-ius", "-s"].map ascii
  path : (startsWith text "--ld-path" || startsWith text "-Wl,--ld-path") = false
  emulation : startsWith text "--emulation=" = false

theorem operandOptions_facts :
    ∀ text ∈ operandOptions, text ≠ ascii "--" ∧
      (text = ascii "-o" ∨ text = ascii "--output" ∨
        (stripPrefix text "--output=").or ((stripPrefix text "-o").filter (· ≠ [])) = none ∧
        startsWith text "-o" = false ∧ startsWith text "--output=" = false ∧
        stripPrefix text "--sysroot=" = none ∧ text ∉ ["-r", "-i", "-Ur", "-ius", "-s"].map ascii ∧
        (startsWith text "--ld-path" || startsWith text "-Wl,--ld-path") = false ∧
        startsWith text "--emulation=" = false) := by
  decide

theorem plainOption_of_takesOperand {text : Bytes} (h : takesOperand text = true)
    (hout : ¬ (text = ascii "-o" ∨ text = ascii "--output")) : PlainOption text := by
  obtain ⟨-, hfacts⟩ := operandOptions_facts text (mem_operandOptions.mpr h)
  rw [← or_assoc] at hfacts
  obtain ⟨h₁, h₂, h₃, h₄, h₅, h₆, h₇⟩ := hfacts.resolve_left hout
  exact ⟨h₁, h₂, h₃, h₄, h₅, h₆, h₇⟩

/-! ### The parser on tokens -/

open Token

theorem takesOperand_eq_false {text : Bytes} : takesOperand text = false ↔
    takesSeparateValue text = false ∧ text ≠ ascii "-m" ∧ text ≠ ascii "--emulation" := by
  simp [takesOperand, and_assoc]

theorem ne_of_takesSeparateValue {text option : Bytes} (h : takesSeparateValue text = false)
    (hoption : takesSeparateValue option = true) : text ≠ option := by
  rintro rfl
  rw [h] at hoption
  cases hoption

theorem setOutput_eq (s : Selections) (value empty : Bytes) :
    (s.output = none ∧ value ≠ [] → s.setOutput value empty = .ok { s with output := some value }) ∧
      (¬ (s.output = none ∧ value ≠ []) → ∃ e, s.setOutput value empty = .error e) := by
  unfold Selections.setOutput
  cases hs : s.output with
  | some o => simp
  | none =>
    cases value with
    | nil => simp
    | cons b value => simp

/-- The flags that are taken out name neither an output nor a sysroot. -/
theorem collectorFlags_facts :
    ∀ text ∈ collectorFlags.map ascii,
      (stripPrefix text "--output=").or ((stripPrefix text "-o").filter (· ≠ [])) = none ∧
      stripPrefix text "--sysroot=" = none := by
  decide

theorem rewrite_word_of_not_flag {w : OsString}
    (h : toStringLossy w ∉ collectorFlags.map ascii) : (word w).rewrite = word w := by
  rw [rewrite, if_neg (by rwa [List.contains_iff_mem])]

theorem readArgs_word {s : Selections} {w : OsString} {rest : List OsString}
    (h : Token.Valid (.word w)) :
    (∀ s', (word w).effect s = some s' →
      readArgs s (w :: rest) = (readArgs s' rest).map (.push (word w).rewrite.words)) ∧
    ((word w).effect s = none → ∃ e, readArgs s (w :: rest) = .error e) := by
  obtain ⟨hstop, htakes⟩ := h
  obtain ⟨hsep, hm, hem⟩ := takesOperand_eq_false.mp htakes
  have ho := ne_of_takesSeparateValue hsep (show takesSeparateValue (ascii "-o") = true by decide)
  have hout := ne_of_takesSeparateValue hsep
    (show takesSeparateValue (ascii "--output") = true by decide)
  have hroot := ne_of_takesSeparateValue hsep
    (show takesSeparateValue (ascii "--sysroot") = true by decide)
  have hflags := collectorFlags_facts (toStringLossy w)
  rw [readArgs.eq_def]
  dsimp only
  rw [if_neg hstop, if_neg (by simp [ho, hout]), if_neg hroot]
  simp only [effect, output, select]
  cases houtput : (stripPrefix (toStringLossy w) "--output=").or
      ((stripPrefix (toStringLossy w) "-o").filter (· ≠ [])) with
  | some value =>
    have hrewrite := @rewrite_word_of_not_flag w fun hmem => by
      rw [(hflags hmem).1] at houtput
      cases houtput
    obtain ⟨hok, herr⟩ := setOutput_eq s value (ascii "--output")
    rw [hrewrite]
    dsimp only
    split_ifs with hcan
    · rw [hok hcan]
      exact ⟨fun s' hs' => (by cases hs'; rfl), fun h => (by cases h)⟩
    · obtain ⟨e, he⟩ := herr hcan
      rw [he]
      exact ⟨fun s' hs' => (by cases hs'), fun _ => ⟨e, rfl⟩⟩
  | none =>
    dsimp only
    cases hvalue : stripPrefix (toStringLossy w) "--sysroot=" with
    | some value =>
      have hrewrite := @rewrite_word_of_not_flag w fun hmem => by
        rw [(hflags hmem).2] at hvalue
        cases hvalue
      rw [hrewrite]
      cases value with
      | nil => exact ⟨fun s' hs' => (by cases hs'), fun _ => ⟨_, rfl⟩⟩
      | cons b value => exact ⟨fun s' hs' => (by cases hs'; rfl), fun h => (by cases h)⟩
    | none =>
      dsimp only
      have hr' : ∀ flag ∈ collectorFlags.map ascii,
          (decide (flag = ascii "-r") || decide (flag = ascii "-i")) = false := by decide
      by_cases hflag : toStringLossy w ∈ collectorFlags.map ascii
      · have hrewrite : (word w).rewrite = word (ascii "-r") := by
          rw [rewrite, if_pos (List.contains_iff_mem.mpr hflag)]
        rw [hrewrite]
        simp only [hr' _ hflag, Bool.false_eq_true, if_false]
        simp only [collectorFlags, List.map_cons, List.map_nil, List.mem_cons, List.not_mem_nil,
          or_false] at hflag
        by_cases hUr : toStringLossy w = ascii "-Ur"
        · simp only [hUr, reduceIte]
          exact ⟨fun s' hs' => (by cases hs'; rfl), fun h => (by cases h)⟩
        by_cases hius : toStringLossy w = ascii "-ius"
        · simp only [hius, reduceIte]
          exact ⟨fun s' hs' => (by cases hs'; rfl), fun h => (by cases h)⟩
        · have hs := (hflag.resolve_left hUr).resolve_left hius
          simp only [hs, reduceIte]
          exact ⟨fun s' hs' => (by cases hs'; rfl), fun h => (by cases h)⟩
      · rw [rewrite_word_of_not_flag hflag]
        simp only [collectorFlags, List.map_cons, List.map_nil, List.mem_cons, List.not_mem_nil,
          or_false, not_or] at hflag
        simp only [hflag.1, hflag.2.1, hflag.2.2, hm, hem, hsep, decide_false, Bool.or_false,
          Bool.false_eq_true, if_false]
        split_ifs
        · exact ⟨fun s' hs' => (by cases hs'; rfl), fun h => (by cases h)⟩
        · exact ⟨fun s' hs' => (by cases hs'), fun _ => ⟨_, rfl⟩⟩
        · exact ⟨fun s' hs' => (by cases hs'; rfl), fun h => (by cases h)⟩
        · exact ⟨fun s' hs' => (by cases hs'; rfl), fun h => (by cases h)⟩

theorem readArgs_pair {s : Selections} {o v : OsString} {rest : List OsString}
    (h : Token.Valid (.pair o v)) :
    (∀ s', (pair o v).effect s = some s' →
      readArgs s (o :: v :: rest) = (readArgs s' rest).map (.push [o, v])) ∧
    ((pair o v).effect s = none → ∃ e, readArgs s (o :: v :: rest) = .error e) := by
  rw [readArgs.eq_def]
  dsimp only
  simp only [effect, output, select]
  have hstop := (operandOptions_facts _ (mem_operandOptions.mpr h)).1
  rw [if_neg hstop]
  by_cases hout : toStringLossy o = ascii "-o" ∨ toStringLossy o = ascii "--output"
  · have hout' : (decide (toStringLossy o = ascii "-o") ||
        decide (toStringLossy o = ascii "--output")) = true := by simpa using hout
    simp only [hout', if_true]
    obtain ⟨hok, herr⟩ := setOutput_eq s v (toStringLossy o)
    by_cases hcan : s.output = none ∧ v ≠ []
    · rw [if_pos hcan, if_neg (by simp [hcan.1]), hok hcan]
      exact ⟨fun s' hs' => (by cases hs'; rfl), fun h => (by cases h)⟩
    · rw [if_neg hcan]
      refine ⟨fun s' hs' => (by cases hs'), fun _ => ?_⟩
      split_ifs
      · exact ⟨_, rfl⟩
      · obtain ⟨e, he⟩ := herr hcan
        rw [he]
        exact ⟨e, rfl⟩
  · have hout' : (decide (toStringLossy o = ascii "-o") ||
        decide (toStringLossy o = ascii "--output")) = false := by simpa using hout
    obtain ⟨houtput, -, -, hroot, hflag, hpath, hemulation⟩ := plainOption_of_takesOperand h hout
    simp only [List.map_cons, List.map_nil, List.mem_cons, List.not_mem_nil, or_false, not_or]
      at hflag
    simp only [hout', houtput, hroot, hflag.1, hflag.2.1, hflag.2.2.1, hflag.2.2.2.1,
      hflag.2.2.2.2, hpath, hemulation, decide_false, Bool.or_false, Bool.false_eq_true, if_false]
    by_cases hsysroot : toStringLossy o = ascii "--sysroot"
    · rw [if_pos hsysroot, if_pos hsysroot]
      exact ⟨fun s' hs' => (by cases hs'; rfl), fun h => (by cases h)⟩
    rw [if_neg hsysroot, if_neg hsysroot]
    split_ifs with hem hsep
    · exact ⟨fun s' hs' => (by cases hs'; rfl), fun h => (by cases h)⟩
    · exact ⟨fun s' hs' => (by cases hs'; rfl), fun h => (by cases h)⟩
    · exfalso
      simp only [Valid, takesOperand, Bool.or_assoc, Bool.or_eq_true] at h
      exact h.elim hsep fun hm => hem (by rwa [Bool.or_eq_true])

theorem readArgs_token {s : Selections} {t : Token} {rest : List OsString} (h : t.Valid) :
    (∀ s', t.effect s = some s' →
      readArgs s (t.words ++ rest) = (readArgs s' rest).map (.push t.rewrite.words)) ∧
    (t.effect s = none → ∃ e, readArgs s (t.words ++ rest) = .error e) := by
  cases t with
  | word w => exact readArgs_word h
  | pair o v => exact readArgs_pair h

theorem readArgs_boundary {s : Selections} {args : List OsString} (h : Boundary args) :
    readArgs s args = .ok ⟨s, [], args⟩ := by
  cases args with
  | nil => rfl
  | cons w rest => exact readArgs_separator h

theorem readArgs_lone {s : Selections} {o : OsString} (h : takesOperand (toStringLossy o) = true) :
    ∃ e, readArgs s [o] = .error e := by
  rw [readArgs.eq_def]
  dsimp only
  rw [if_neg (operandOptions_facts _ (mem_operandOptions.mpr h)).1]
  by_cases hout : toStringLossy o = ascii "-o" ∨ toStringLossy o = ascii "--output"
  · rw [if_pos (by simpa using hout)]
    split_ifs
    · exact ⟨_, rfl⟩
    · exact ⟨_, rfl⟩
  · have hout' : (decide (toStringLossy o = ascii "-o") ||
        decide (toStringLossy o = ascii "--output")) = false := by simpa using hout
    obtain ⟨houtput, -, -, hroot, hflag, hpath, hemulation⟩ := plainOption_of_takesOperand h hout
    simp only [List.map_cons, List.map_nil, List.mem_cons, List.not_mem_nil, or_false, not_or]
      at hflag
    simp only [hout', houtput, hroot, hflag.1, hflag.2.1, hflag.2.2.1, hflag.2.2.2.1,
      hflag.2.2.2.2, hpath, hemulation, decide_false, Bool.or_false, Bool.false_eq_true, if_false]
    split_ifs with hsysroot hem hsep
    · exact ⟨_, rfl⟩
    · exact ⟨_, rfl⟩
    · exact ⟨_, rfl⟩
    · exfalso
      simp only [takesOperand, Bool.or_assoc, Bool.or_eq_true] at h
      exact h.elim hsep fun hm => hem (by rwa [Bool.or_eq_true])

/-- What a list of tokens selects. -/
def effects (s : Selections) (tokens : List Token) : Option Selections :=
  tokens.foldlM Token.effect s

@[simp] theorem effects_nil (s : Selections) : effects s [] = some s := rfl

theorem effects_cons (s : Selections) (t : Token) (ts : List Token) :
    effects s (t :: ts) = (t.effect s).bind fun s' => effects s' ts := by
  rw [effects, List.foldlM_cons]
  rfl

theorem effects_append (s : Selections) (ts us : List Token) :
    effects s (ts ++ us) = (effects s ts).bind fun s' => effects s' us := by
  rw [effects, List.foldlM_append]
  rfl

/-- The parser reads tokens one after the other. -/
theorem readArgs_words {s s' : Selections} {tokens : List Token} {after : List OsString}
    (hvalid : ∀ t ∈ tokens, t.Valid) (heffects : effects s tokens = some s')
    (hafter : Boundary after) :
    readArgs s (words tokens ++ after) = .ok ⟨s', words (tokens.map rewrite), after⟩ := by
  induction tokens generalizing s with
  | nil =>
    cases heffects
    exact readArgs_boundary hafter
  | cons t tokens ih =>
    rw [effects_cons, Option.bind_eq_some_iff] at heffects
    obtain ⟨s₁, hs₁, heffects⟩ := heffects
    rw [words_cons, List.append_assoc, (readArgs_token (hvalid t (by simp))).1 s₁ hs₁,
      ih (fun u hu => hvalid u (by simp [hu])) heffects]
    rfl

/-- Whatever the parser accepts is a list of tokens. -/
theorem tokens_of_readArgs {s : Selections} {args : List OsString} {r : Reading}
    (h : readArgs s args = .ok r) :
    ∃ tokens, args = words tokens ++ r.after ∧ (∀ t ∈ tokens, t.Valid) ∧ Boundary r.after ∧
      effects s tokens = some r.selections ∧ r.before = words (tokens.map rewrite) := by
  induction hn : args.length using Nat.strong_induction_on generalizing s args r with
  | _ n ih =>
    subst hn
    rcases next_token args with hstop | ⟨t, rest, hvalid, rfl⟩ | ⟨o, rfl, hlone⟩
    · rw [readArgs_boundary hstop] at h
      cases h
      exact ⟨[], rfl, by simp, hstop, rfl, rfl⟩
    · obtain ⟨hok, herr⟩ := @readArgs_token s t rest hvalid
      cases heffect : t.effect s with
      | none =>
        obtain ⟨e, he⟩ := herr heffect
        rw [he] at h
        cases h
      | some s₁ =>
        rw [hok s₁ heffect] at h
        obtain ⟨r₁, hr₁, rfl⟩ := Except.map_eq_ok h
        have hlen : rest.length < (t.words ++ rest).length := by
          rw [List.length_append]
          have : 0 < t.words.length := by cases t <;> simp [Token.words]
          omega
        obtain ⟨tokens, rfl, hall, hafter, heffects, hbefore⟩ := ih _ hlen hr₁ rfl
        refine ⟨t :: tokens, by simp [Reading.push], ?_, hafter, ?_, ?_⟩
        · intro u hu
          rcases List.mem_cons.mp hu with rfl | hu
          · exact hvalid
          · exact hall u hu
        · rw [effects_cons, heffect]
          exact heffects
        · simp [Reading.push, hbefore]
    · obtain ⟨e, he⟩ := @readArgs_lone s o hlone
      rw [he] at h
      cases h

/-! ### The replacement on tokens -/

/-- An operand that does not read as the end of the options, as an output or as an option with a
separate value. -/
def plainOperand (v : OsString) : Bool :=
  toStringLossy v ≠ ascii "--" && !takesSeparateValue (toStringLossy v) &&
    !startsWith (toStringLossy v) "-o" && !startsWith (toStringLossy v) "--output="

namespace Token

/-- The operand of an emulation option is plain. -/
def Plain : Token → Prop
  | word _ => True
  | pair o v =>
    toStringLossy o = ascii "-m" ∨ toStringLossy o = ascii "--emulation" → plainOperand v = true

/-- A token that names an output, with another one. -/
def replace (p : Bytes) : Token → Token
  | word w =>
    if startsWith (toStringLossy w) "-o" then word (ascii "-o" ++ p) else word (ascii "--output=" ++ p)
  | pair o _ => pair o p

end Token

theorem replaceOutput_plain {p : Bytes} {w : OsString} {rest : List OsString}
    (h : plainOperand w = true) :
    replaceOutput p (w :: rest) = (replaceOutput p rest).map fun words => w :: words := by
  simp only [plainOperand, Bool.and_eq_true, decide_eq_true_eq, Bool.not_eq_true'] at h
  obtain ⟨⟨⟨hstop, hsep⟩, hshort⟩, hlong⟩ := h
  have ho := ne_of_takesSeparateValue hsep
    (show takesSeparateValue (ascii "-o") = true by decide)
  have hout := ne_of_takesSeparateValue hsep
    (show takesSeparateValue (ascii "--output") = true by decide)
  rw [replaceOutput.eq_def]
  simp only [hstop, ho, hout, hshort, hlong, hsep, decide_false, Bool.or_false, Bool.false_and,
    Bool.false_eq_true, if_false]

theorem plainOperand_word {w : OsString} (h : Token.Valid (.word w)) (hout : (word w).output = none) :
    plainOperand w = true := by
  obtain ⟨hstop, htakes⟩ := h
  obtain ⟨hsep, -, -⟩ := takesOperand_eq_false.mp htakes
  have ho := ne_of_takesSeparateValue hsep
    (show takesSeparateValue (ascii "-o") = true by decide)
  rw [Token.output, Option.or_eq_none_iff, stripPrefix_eq_none, Option.filter_eq_none_iff] at hout
  have hshort : startsWith (toStringLossy w) "-o" = false := by
    rw [← stripPrefix_eq_none]
    cases hvalue : stripPrefix (toStringLossy w) "-o" with
    | none => rfl
    | some value =>
      have hempty : value = [] := by simpa using hout.2 value hvalue
      rw [stripPrefix_eq_some, hempty, List.append_nil] at hvalue
      exact absurd hvalue ho
  simp [plainOperand, hstop, hsep, hshort, hout.1]

/-- The replacement passes over a token that names no output. -/
theorem replaceOutput_skip {p : Bytes} {t : Token} {rest : List OsString} (h : t.Valid)
    (hout : t.output = none) (hplain : t.Plain) :
    replaceOutput p (t.words ++ rest) = (replaceOutput p rest).map fun words => t.words ++ words := by
  cases t with
  | word w => exact replaceOutput_plain (plainOperand_word h hout)
  | pair o v =>
    have hnot : ¬ (toStringLossy o = ascii "-o" ∨ toStringLossy o = ascii "--output") := by
      intro hcase
      rw [Token.output, if_pos (by simpa using hcase)] at hout
      cases hout
    obtain ⟨-, hshort, hlong, -, -, -, -⟩ := plainOption_of_takesOperand h hnot
    have hstop := (operandOptions_facts _ (mem_operandOptions.mpr h)).1
    rw [not_or] at hnot
    cases hsep : takesSeparateValue (toStringLossy o) with
    | true =>
      rw [Token.words, List.cons_append, replaceOutput.eq_def]
      simp only [hstop, hnot.1, hnot.2, hshort, hlong, hsep, decide_false, Bool.or_false,
        Bool.false_and, Bool.false_eq_true, if_false, if_true]
      rfl
    | false =>
      have hem : toStringLossy o = ascii "-m" ∨ toStringLossy o = ascii "--emulation" := by
        simpa [Valid, takesOperand, hsep] using h
      have hplain' : plainOperand o = true := by
        simp [plainOperand, hstop, hsep, hshort, hlong]
      rw [Token.words, List.cons_append, replaceOutput_plain hplain', List.cons_append,
        replaceOutput_plain (hplain hem)]
      change Except.map _ (Except.map _ (replaceOutput p rest)) = _
      cases replaceOutput p rest <;> rfl

/-- The replacement changes the first token that names an output. -/
theorem replaceOutput_hit {p value : Bytes} {t : Token} {rest : List OsString} (h : t.Valid)
    (hout : t.output = some value) :
    replaceOutput p (t.words ++ rest) = .ok ((t.replace p).words ++ rest) := by
  cases t with
  | word w =>
    obtain ⟨hstop, htakes⟩ := h
    obtain ⟨hsep, -, -⟩ := takesOperand_eq_false.mp htakes
    have ho := ne_of_takesSeparateValue hsep
      (show takesSeparateValue (ascii "-o") = true by decide)
    have hlong := ne_of_takesSeparateValue hsep
      (show takesSeparateValue (ascii "--output") = true by decide)
    rw [Token.words, List.cons_append, replaceOutput.eq_def, Token.replace]
    simp only [hstop, ho, hlong, decide_false, Bool.or_false, Bool.false_eq_true, if_false]
    rcases joined_cases hout with htext | ⟨htext, hne⟩
    · rw [htext, not_startsWith_long, Bool.false_and, if_neg Bool.false_ne_true,
        if_pos (startsWith_append _ _)]
      rfl
    · have hlength : (decide ((ascii "-o" ++ value).length > 2)) = true := by
        simp [show (ascii "-o").length = 2 by decide, List.length_pos_iff.mpr hne]
      rw [htext, startsWith_append, hlength]
      rfl
  | pair o v =>
    have hcase : (decide (toStringLossy o = ascii "-o") ||
        decide (toStringLossy o = ascii "--output")) = true := by
      by_contra hnot
      rw [Token.output, if_neg hnot] at hout
      cases hout
    have hstop := (operandOptions_facts _ (mem_operandOptions.mpr h)).1
    exact replaceOutput_operand hstop hcase

/-! ### Rewritten and replaced tokens -/

theorem toStringLossy_ascii_append {start : String} (h : ∀ b ∈ ascii start, b < 0x80) (p : Bytes) :
    toStringLossy (ascii start ++ p) = ascii start ++ toStringLossy p := toStringLossy_append h p

theorem toStringLossy_r : toStringLossy (ascii "-r") = ascii "-r" := by decide

theorem rewrite_cases (t : Token) :
    t.rewrite = t ∨ ∃ w, t = word w ∧ toStringLossy w ∈ collectorFlags.map ascii ∧
      t.rewrite = word (ascii "-r") := by
  cases t with
  | pair o v => exact .inl rfl
  | word w =>
    by_cases hflag : toStringLossy w ∈ collectorFlags.map ascii
    · exact .inr ⟨w, rfl, hflag, by rw [rewrite, if_pos (List.contains_iff_mem.mpr hflag)]⟩
    · exact .inl (rewrite_word_of_not_flag hflag)

theorem output_r : (word (ascii "-r")).output = none := by
  rw [Token.output, toStringLossy_r]
  decide

section Rewrite

variable {t : Token}

theorem rewrite_rewrite (t : Token) : t.rewrite.rewrite = t.rewrite := by
  rcases rewrite_cases t with h | ⟨w, -, -, h⟩
  · rw [h, h]
  · rw [h, rewrite_word_of_not_flag]
    rw [toStringLossy_r]
    decide

theorem output_rewrite (t : Token) : t.rewrite.output = t.output := by
  rcases rewrite_cases t with h | ⟨w, rfl, hflag, h⟩
  · rw [h]
  · rw [h, output_r, Token.output, (collectorFlags_facts _ hflag).1]

theorem valid_rewrite (h : t.Valid) : t.rewrite.Valid := by
  rcases rewrite_cases t with heq | ⟨w, -, -, heq⟩
  · rwa [heq]
  · rw [heq, Valid, toStringLossy_r]
    decide

theorem plain_rewrite (h : t.Plain) : t.rewrite.Plain := by
  rcases rewrite_cases t with heq | ⟨w, -, -, heq⟩
  · rwa [heq]
  · rw [heq]
    trivial

end Rewrite

/-- The path that a token of the same spelling as `t` can name: spelled together with its option,
it is read as text. -/
def Token.CanName (p : Bytes) : Token → Prop
  | word _ => p ≠ [] ∧ toStringLossy p = p
  | pair _ _ => p ≠ []

section Replace

variable {t : Token} {p value : Bytes}

theorem replace_word_cases {w : OsString} (p : Bytes) (hout : (word w).output = some value) :
    (toStringLossy w = ascii "--output=" ++ value ∧
      (word w).replace p = word (ascii "--output=" ++ p)) ∨
    toStringLossy w = ascii "-o" ++ value ∧ (word w).replace p = word (ascii "-o" ++ p) := by
  rcases joined_cases hout with htext | ⟨htext, -⟩
  · refine .inl ⟨htext, ?_⟩
    rw [Token.replace, htext, not_startsWith_long]
    rfl
  · refine .inr ⟨htext, ?_⟩
    rw [Token.replace, htext, startsWith_append]
    rfl

theorem text_long (h : toStringLossy p = p) :
    toStringLossy (ascii "--output=" ++ p) = ascii "--output=" ++ p := by
  rw [toStringLossy_ascii_append (by decide +kernel), h]

theorem text_short (h : toStringLossy p = p) : toStringLossy (ascii "-o" ++ p) = ascii "-o" ++ p := by
  rw [toStringLossy_ascii_append (by decide +kernel), h]

theorem takesOperand_joined (hp : p ≠ []) :
    takesOperand (ascii "--output=" ++ p) = false ∧ takesOperand (ascii "-o" ++ p) = false := by
  have hfacts : ∀ text ∈ operandOptions,
      startsWith text "--output=" = false ∧ (startsWith text "-o" = true → text = ascii "-o") := by
    decide
  constructor
  · rw [← Bool.not_eq_true, ← mem_operandOptions]
    intro hmem
    have hlong := (hfacts _ hmem).1
    rw [startsWith_append] at hlong
    cases hlong
  · rw [← Bool.not_eq_true, ← mem_operandOptions]
    intro hmem
    have hshort := (hfacts _ hmem).2 (startsWith_append _ _)
    exact hp (List.append_right_eq_self.mp hshort)

theorem valid_replace (h : t.Valid) (hout : t.output = some value) (hp : t.CanName p) :
    (t.replace p).Valid := by
  cases t with
  | pair o v => exact h
  | word w =>
    obtain ⟨hne, htext⟩ := hp
    obtain ⟨hlong, hshort⟩ := takesOperand_joined hne
    rcases replace_word_cases p hout with ⟨-, heq⟩ | ⟨-, heq⟩
    · rw [heq, Valid, text_long htext]
      refine ⟨fun hstop => ?_, hlong⟩
      have hlength := congrArg List.length hstop
      rw [List.length_append, show (ascii "--output=").length = 9 by decide,
        show (ascii "--").length = 2 by decide] at hlength
      omega
    · rw [heq, Valid, text_short htext]
      refine ⟨fun hstop => ?_, hshort⟩
      rw [show ascii "-o" = [0x2d, 0x6f] by decide,
        show ascii "--" = [0x2d, 0x2d] by decide] at hstop
      simp at hstop

theorem output_replace (hout : t.output = some value) (hp : t.CanName p) :
    (t.replace p).output = some p := by
  cases t with
  | pair o v =>
    rw [Token.output] at hout
    rw [Token.replace, Token.output]
    split_ifs at hout ⊢
    rfl
  | word w =>
    obtain ⟨hne, htext⟩ := hp
    rcases replace_word_cases p hout with ⟨-, heq⟩ | ⟨-, heq⟩
    · rw [heq, Token.output, text_long htext, stripPrefix_eq_some.mpr rfl, Option.some_or]
    · have hnone : stripPrefix (ascii "-o" ++ p) "--output=" = none := by
        rw [stripPrefix_eq_none, startsWith, show ascii "-o" = [0x2d, 0x6f] by decide,
          show ascii "--output=" = 0x2d :: 0x2d :: ascii "output=" by decide]
        rfl
      rw [heq, Token.output, text_short htext, hnone, Option.none_or, stripPrefix_eq_some.mpr rfl]
      simp [hne]

theorem rewrite_replace (hout : t.output = some value) (hp : t.CanName p) :
    (t.replace p).rewrite = t.replace p := by
  rcases rewrite_cases (t.replace p) with h | ⟨w, hw, hflag, -⟩
  · exact h
  · have hnone := (collectorFlags_facts _ hflag).1
    have hsome := output_replace hout hp
    rw [hw, Token.output, hnone] at hsome
    cases hsome

end Replace

/-! ### Selections -/

/-- What is left of the selections when the arguments are read once more: the flags that were taken
out are gone, and each has left a `-r`. -/
def Selections.settle (s : Selections) : Selections :=
  { s with
    mode := if s.mode = .final && !s.stripOutput && !s.ignoreUndefined then .final
      else .incremental
    stripOutput := false
    ignoreUndefined := false }

/-- The selections with another output. -/
def Selections.withOutput (s : Selections) (output : Option Bytes) : Selections :=
  { s with output := output }

section Select

variable {s s' : Selections} {t : Token} {tokens : List Token}

theorem output_select (h : t.select s = some s') : s'.output = s.output := by
  cases t with
  | pair o v =>
    simp only [select] at h
    split_ifs at h <;> cases h <;> rfl
  | word w =>
    simp only [select] at h
    split at h
    · split_ifs at h
      cases h
      rfl
    · split_ifs at h <;> cases h <;> rfl

/-- A rewritten token selects the same once more. -/
theorem select_rewrite (h : t.select s = some s') (output : Option Bytes) :
    t.rewrite.select (s.settle.withOutput output) = some (s'.settle.withOutput output) := by
  cases t with
  | pair o v =>
    simp only [rewrite, select] at h ⊢
    split_ifs at h ⊢ <;> cases h <;> rfl
  | word w =>
    by_cases hflag : toStringLossy w ∈ collectorFlags.map ascii
    · have hrewrite : (word w).rewrite = word (ascii "-r") := by
        rw [rewrite, if_pos (List.contains_iff_mem.mpr hflag)]
      have hr : ∀ s, (word (ascii "-r")).select s = some { s with mode := .incremental } := by
        intro s
        simp only [select, toStringLossy_r]
        rfl
      have hr' : ∀ flag ∈ collectorFlags.map ascii,
          (decide (flag = ascii "-r") || decide (flag = ascii "-i")) = false := by decide
      rw [hrewrite, hr]
      simp only [select, (collectorFlags_facts _ hflag).2, hr' _ hflag, Bool.false_eq_true,
        if_false] at h
      split_ifs at h with hUr hius hs
      · cases h
        rfl
      · cases h
        simp [Selections.settle, Selections.withOutput]
      · cases h
        simp [Selections.settle, Selections.withOutput]
      all_goals simp [collectorFlags, hUr, hius, hs] at hflag
    · rw [rewrite_word_of_not_flag hflag]
      simp only [collectorFlags, List.map_cons, List.map_nil, List.mem_cons, List.not_mem_nil,
        or_false, not_or] at hflag
      simp only [select, hflag.1, hflag.2.1, hflag.2.2, if_false] at h ⊢
      split at h
      · split_ifs at h ⊢
        cases h
        rfl
      · split_ifs at h ⊢
        · cases h
          rfl
        · cases h
          rfl

theorem effects_rewrite (hnone : ∀ t ∈ tokens, t.output = none) (h : effects s tokens = some s')
    (output : Option Bytes) :
    effects (s.settle.withOutput output) (tokens.map rewrite) =
      some (s'.settle.withOutput output) := by
  induction tokens generalizing s with
  | nil =>
    cases h
    rfl
  | cons t tokens ih =>
    rw [effects_cons, Option.bind_eq_some_iff] at h
    obtain ⟨s₁, hs₁, h⟩ := h
    have hout := hnone t (by simp)
    simp only [effect, hout] at hs₁
    rw [List.map_cons, effects_cons]
    simp only [effect, output_rewrite, hout]
    rw [select_rewrite hs₁ output]
    exact ih (fun u hu => hnone u (by simp [hu])) h

theorem effect_output (h : t.effect s = some s') :
    t.output = none ∧ s'.output = s.output ∨
      ∃ value, t.output = some value ∧ s.output = none ∧ value ≠ [] ∧
        s' = s.withOutput (some value) := by
  unfold effect at h
  cases hout : t.output with
  | none =>
    rw [hout] at h
    exact .inl ⟨rfl, output_select h⟩
  | some value =>
    rw [hout] at h
    dsimp only at h
    split_ifs at h with hcan
    cases h
    exact .inr ⟨value, rfl, hcan.1, hcan.2, rfl⟩

theorem effects_some {value : Bytes} (h : effects s tokens = some s') (hs : s.output = some value) :
    s'.output = some value ∧ ∀ t ∈ tokens, t.output = none := by
  induction tokens generalizing s with
  | nil =>
    cases h
    exact ⟨hs, by simp⟩
  | cons t tokens ih =>
    rw [effects_cons, Option.bind_eq_some_iff] at h
    obtain ⟨s₁, hs₁, h⟩ := h
    rcases effect_output hs₁ with ⟨hnone, hsame⟩ | ⟨_, _, hempty, _⟩
    · obtain ⟨hout, hall⟩ := ih h (hsame.trans hs)
      refine ⟨hout, fun u hu => ?_⟩
      rcases List.mem_cons.mp hu with rfl | hu
      · exact hnone
      · exact hall u hu
    · rw [hs] at hempty
      cases hempty

/-- At most one token names an output, and it is the one that is recorded. -/
theorem effects_split (h : effects s tokens = some s') (hs : s.output = none) :
    (s'.output = none ∧ ∀ t ∈ tokens, t.output = none) ∨
      ∃ pre t post s₁ value, tokens = pre ++ t :: post ∧ t.output = some value ∧
        s'.output = some value ∧ effects s pre = some s₁ ∧
        effects (s₁.withOutput (some value)) post = some s' ∧
        (∀ u ∈ pre, u.output = none) ∧ ∀ u ∈ post, u.output = none := by
  induction tokens generalizing s with
  | nil =>
    cases h
    exact .inl ⟨hs, by simp⟩
  | cons t tokens ih =>
    rw [effects_cons, Option.bind_eq_some_iff] at h
    obtain ⟨s₁, hs₁, h⟩ := h
    rcases effect_output hs₁ with ⟨hnone, hsame⟩ | ⟨value, hvalue, -, -, rfl⟩
    · rcases ih h (hsame.trans hs) with ⟨hout, hall⟩ |
        ⟨pre, u, post, s₂, value, rfl, hu, hout, hpre, hpost, hall, hall'⟩
      · refine .inl ⟨hout, fun u hu => ?_⟩
        rcases List.mem_cons.mp hu with rfl | hu
        · exact hnone
        · exact hall u hu
      · refine .inr ⟨t :: pre, u, post, s₂, value, rfl, hu, hout, ?_, hpost, ?_, hall'⟩
        · rw [effects_cons, hs₁]
          exact hpre
        · intro x hx
          rcases List.mem_cons.mp hx with rfl | hx
          · exact hnone
          · exact hall x hx
    · obtain ⟨hout, hall⟩ := effects_some h rfl
      exact .inr ⟨[], t, tokens, s, value, rfl, hvalue, hout, rfl, h, by simp, hall⟩

end Select

end Engine

end ArosTools
