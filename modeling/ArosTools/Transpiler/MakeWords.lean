import ArosTools.Transpiler.MakeForeach

/-!
# Laws of the word functions

* `splitWhitespace_spaced` : words with spaces between them are read back.
* `filter_partition` : `filter` and `filter-out` divide the words between them and keep their order.
* `value_patsubst_suffix` : the two implementations of the suffix rule agree on every list of words.
* `word_laws` : both, as results of the references.
* `evaluateMakeList_words` : the list of an expression holds the words of its value.
-/

namespace ArosTools

namespace MakeExpr

open Str Eval Scoped

variable {ev : Evaluator} {files : Filesystem} {expand : Text → Eval Text} {e : Frames}

/-! ### Lists of words -/

/-- A word of a list: not empty, and without whitespace. -/
def Solid (word : Text) : Prop := word ≠ [] ∧ ∀ c ∈ word, isWhitespace c = false

theorem splitAt_solid {piece : Text} (hpiece : ∀ c ∈ piece, isWhitespace c = false) (text : Text) :
    ∀ word ∈ Str.splitAt isWhitespace piece text, ∀ c ∈ word, isWhitespace c = false := by
  induction text generalizing piece with
  | nil =>
    intro word hword
    rw [List.mem_singleton.mp hword]
    exact hpiece
  | cons c rest ih =>
    rw [Str.splitAt]
    split_ifs with hc
    · intro word hword
      rcases List.mem_cons.mp hword with rfl | hword
      · exact hpiece
      · exact ih (by simp) word hword
    · refine ih fun d hd => ?_
      rcases List.mem_append.mp hd with hd | hd
      · exact hpiece d hd
      · rw [List.mem_singleton.mp hd]
        exact Bool.eq_false_iff.mpr hc

theorem solid_of_mem_splitWhitespace {text word : Text} (h : word ∈ splitWhitespace text) :
    Solid word := by
  obtain ⟨hmem, hne⟩ := List.mem_filter.mp h
  exact ⟨by simpa using hne, splitAt_solid (by simp) text word hmem⟩

theorem splitAt_word {word : Text} (h : ∀ c ∈ word, isWhitespace c = false) (piece rest : Text) :
    Str.splitAt isWhitespace piece (word ++ rest) = Str.splitAt isWhitespace (piece ++ word) rest := by
  induction word generalizing piece with
  | nil => simp
  | cons c word ih =>
    rw [List.cons_append, Str.splitAt, if_neg (by simp [h c (by simp)]),
      ih (fun d hd => h d (by simp [hd])), List.append_assoc]
    rfl

/-- **Words are read back**: splitting undoes joining with spaces. -/
theorem splitWhitespace_spaced {words : List Text} (h : ∀ word ∈ words, Solid word) :
    splitWhitespace (spaced words) = words := by
  induction words with
  | nil => rfl
  | cons word rest ih =>
    obtain ⟨hne, hsolid⟩ := h word (by simp)
    have hrest := ih fun later hlater => h later (by simp [hlater])
    cases rest with
    | nil =>
      have hword := splitAt_word hsolid [] []
      rw [List.append_nil, List.nil_append] at hword
      rw [spaced, splitWhitespace, split, hword, Str.splitAt]
      simp [hne]
    | cons next rest =>
      have hspaced : spaced (word :: next :: rest) = word ++ ' ' :: spaced (next :: rest) := by
        simp [spaced]
      rw [hspaced, splitWhitespace, split, splitAt_word hsolid, List.nil_append, Str.splitAt,
        if_pos (by decide), List.filter_cons_of_pos (by simpa using hne)]
      exact congrArg (word :: ·) hrest

/-! ### Appending words -/

/-- The output with a word added to it. -/
def joinWord (output word : Text) : Text :=
  if word = [] then output else if output = [] then word else output ++ ' ' :: word

@[simp] theorem value_appendWord (output : Text) (pieces : List Text) :
    evaluator.value (appendWord output pieces) e = .ok (joinWord output pieces.flatten) := by
  rw [appendWord, joinWord]
  simp only [chargeWork, checkValueSize, chargeItems, chargeEmitted, Interp.value_bind, value_pay,
    Except.ok_bind]
  by_cases hword : pieces.flatten = []
  · rw [if_pos hword, if_pos hword]
    rfl
  · rw [if_neg hword, if_neg hword]
    by_cases houtput : output = []
    · subst houtput
      rfl
    · simp only [Interp.value_bind, value_pay, Except.ok_bind, if_neg houtput, pure_eq,
        Interp.value_ret, List.append_assoc]
      rfl

theorem foldl_joinWord {output : Text} (houtput : output ≠ []) {words : List Text}
    (h : ∀ word ∈ words, word ≠ []) :
    words.foldl joinWord output = output ++ words.flatMap (' ' :: ·) := by
  induction words generalizing output with
  | nil => simp
  | cons word rest ih =>
    have hjoin : joinWord output word = output ++ ' ' :: word := by
      rw [joinWord, if_neg (h word (by simp)), if_neg houtput]
    rw [List.foldl_cons, hjoin, ih (by simp) fun later hlater => h later (by simp [hlater])]
    simp

theorem foldl_joinWord_nil {words : List Text} (h : ∀ word ∈ words, word ≠ []) :
    words.foldl joinWord [] = spaced words := by
  cases words with
  | nil => rfl
  | cons word rest =>
    have hword := h word (by simp)
    have hjoin : joinWord [] word = word := by rw [joinWord, if_neg hword, if_pos rfl]
    rw [List.foldl_cons, hjoin, spaced_cons,
      foldl_joinWord hword fun later hlater => h later (by simp [hlater])]

theorem value_foldlM {f : Text → Text → Eval Text} {g : Text → Text → Text}
    (h : ∀ output word, evaluator.value (f output word) e = .ok (g output word)) (words : List Text)
    (output : Text) : evaluator.value (words.foldlM f output) e = .ok (words.foldl g output) := by
  induction words generalizing output with
  | nil => rfl
  | cons word rest ih =>
    rw [List.foldlM_cons, Interp.value_bind, h, Except.ok_bind, ih, List.foldl_cons]

/-! ### Filters -/

/-- A pattern matches a word. -/
def matchesPattern (pattern word : Text) : Bool :=
  match patternStem pattern word with
  | .ok (some _) => true
  | _ => false

theorem patternStem_ok (pattern word : Text) : ∃ stem, patternStem pattern word = .ok stem := by
  cases hfind : find '%' pattern with
  | none =>
    rw [patternStem, hfind]
    exact ⟨_, rfl⟩
  | some percent =>
    obtain ⟨a, b, rfl, ha, -⟩ := exists_of_find hfind
    obtain ⟨stem, hstem, -⟩ := patternStem_percent ha b word
    exact ⟨stem, hstem⟩

theorem value_matchesAny (word : Text) (patterns : List Text) :
    evaluator.value (matchesAny word patterns) e = .ok (patterns.any (matchesPattern · word)) := by
  induction patterns with
  | nil => rfl
  | cons pattern rest ih =>
    obtain ⟨stem, hstem⟩ := patternStem_ok pattern word
    rw [matchesAny, List.any_cons, matchesPattern, hstem]
    simp only [chargeScanned, chargeWork, Interp.value_bind, value_pay, Except.ok_bind,
      ofExcept_ok, Interp.value_ret]
    cases stem with
    | none => simpa using ih
    | some stem => rfl

theorem value_filterWords {words : List Text} (hwords : ∀ word ∈ words, word ≠ [])
    (patterns : List Text) (keepMatches : Bool) :
    evaluator.value (filterWords patterns words keepMatches) e =
      .ok (spaced (words.filter fun word =>
        patterns.any (matchesPattern · word) = keepMatches)) := by
  have hstep : ∀ output word, evaluator.value (do
      let matched ← matchesAny word patterns
      if matched = keepMatches then appendWord output [word] else return output) e =
      .ok (if patterns.any (matchesPattern · word) = keepMatches then joinWord output word
        else output) := by
    intro output word
    rw [Interp.value_bind, value_matchesAny, Except.ok_bind]
    split_ifs with hkeep
    · rw [value_appendWord, List.flatten_singleton]
    · rfl
  rw [filterWords, chargeWork, Interp.value_bind, value_pay, Except.ok_bind,
    value_foldlM hstep words [], ← foldl_joinWord_nil fun word hword =>
      hwords word (List.mem_of_mem_filter hword), List.foldl_filter]
  simp only [decide_eq_true_eq]

/-- What `filter` and `filter-out` come to, once their arguments are expanded. -/
theorem value_evaluateFilter {name rawArgs rawPatterns rawWords patterns text : Text}
    (hargs : splitTopLevel rawArgs ',' = .ok [rawPatterns, rawWords])
    (hpatterns : evaluator.value (expand (trim rawPatterns)) e = .ok patterns)
    (htext : evaluator.value (expand (trim rawWords)) e = .ok text) (keepMatches : Bool) :
    evaluator.value (evaluateFilter expand name rawArgs keepMatches) e =
      .ok (spaced ((splitWhitespace text).filter fun word =>
        (splitWhitespace patterns).any (matchesPattern · word) = keepMatches)) := by
  have hlength : [rawPatterns, rawWords].length = 2 := rfl
  have haffix : evaluator.value (affixArguments expand name rawArgs) e =
      .ok (patterns, splitWhitespace text) := by
    rw [affixArguments, Interp.value_bind, value_functionArguments hargs hlength, Except.ok_bind,
      Interp.value_bind, hpatterns, Except.ok_bind, Interp.value_bind, htext, Except.ok_bind,
      Interp.value_bind, value_makeWords]
    rfl
  rw [evaluateFilter, Interp.value_bind, haffix, Except.ok_bind, Interp.value_bind, value_makeWords,
    Except.ok_bind,
    value_filterWords fun word hword => (solid_of_mem_splitWhitespace hword).1]

/-- **`filter` and `filter-out` divide the words.** With the same patterns their results are the
words of two sublists that together are a permutation of all the words. -/
theorem filter_partition {name rawArgs rawPatterns rawWords patterns text : Text}
    (hargs : splitTopLevel rawArgs ',' = .ok [rawPatterns, rawWords])
    (hpatterns : evaluator.value (expand (trim rawPatterns)) e = .ok patterns)
    (htext : evaluator.value (expand (trim rawWords)) e = .ok text) :
    ∃ matching : Text → Bool,
      let words := splitWhitespace text
      evaluator.value (evaluateFilter expand name rawArgs true) e =
        .ok (spaced (words.filter matching)) ∧
      evaluator.value (evaluateFilter expand name rawArgs false) e =
        .ok (spaced (words.filter (!matching ·))) ∧
      splitWhitespace (spaced (words.filter matching)) = words.filter matching ∧
      splitWhitespace (spaced (words.filter (!matching ·))) = words.filter (!matching ·) ∧
      (words.filter matching).Sublist words ∧ (words.filter (!matching ·)).Sublist words ∧
      (words.filter matching ++ words.filter (!matching ·)).Perm words := by
  have hsolid : ∀ p : Text → Bool, ∀ word ∈ (splitWhitespace text).filter p, Solid word :=
    fun p word hword => solid_of_mem_splitWhitespace (List.mem_of_mem_filter hword)
  refine ⟨fun word => (splitWhitespace patterns).any (matchesPattern · word), ?_, ?_,
    splitWhitespace_spaced (hsolid _), splitWhitespace_spaced (hsolid _), List.filter_sublist,
    List.filter_sublist, List.filter_append_perm _ _⟩
  · rw [value_evaluateFilter hargs hpatterns htext true]
    simp only [Bool.decide_eq_true]
  · rw [value_evaluateFilter hargs hpatterns htext false]
    simp only [Bool.decide_eq_false]

/-! ### The suffix rule -/

theorem stripSuffix_append (stem stop : Text) : stripSuffix stop (stem ++ stop) = some stem := by
  rw [stripSuffix, if_pos (List.isSuffixOf_iff_suffix.mpr (List.suffix_append _ _))]
  simp

theorem stripSuffix_some {stop word stem : Text} (h : stripSuffix stop word = some stem) :
    word = stem ++ stop := by
  unfold stripSuffix at h
  split_ifs at h with hsuffix
  obtain ⟨front, rfl⟩ := List.isSuffixOf_iff_suffix.mp hsuffix
  simpa using h

/-- The stem of a pattern that begins with its percent sign. -/
theorem patternStem_suffix (source word : Text) :
    patternStem ('%' :: source) word = .ok (stripSuffix source word) := by
  obtain ⟨stem, hstem, hiff⟩ := patternStem_percent (a := []) (by simp) source word
  simp only [List.nil_append] at hstem hiff
  rw [hstem]
  congr 1
  cases hstrip : stripSuffix source word with
  | some front => exact (hiff front).mpr (stripSuffix_some hstrip)
  | none =>
    cases stem with
    | none => rfl
    | some front =>
      rw [(hiff front).mp rfl, stripSuffix_append] at hstrip
      cases hstrip

theorem value_patsubstWord_suffix (source target output word : Text) :
    evaluator.value (patsubstWord ('%' :: source) ('%' :: target) output word) e =
      evaluator.value (suffixSubstituteWord source target output word) e := by
  rw [patsubstWord, suffixSubstituteWord, patternStem_suffix]
  simp only [chargeScanned, chargeWork, Interp.value_bind, value_pay, Except.ok_bind, ofExcept_ok,
    Interp.value_ret]
  cases stripSuffix source word with
  | none => rfl
  | some stem =>
    have hfind : find '%' ('%' :: target) = some 0 := by
      simpa using find_append (c := '%') (a := []) (by simp) target
    have hstart : slicedTo ('%' :: target) 0 = .ok [] := slicedTo_append [] ('%' :: target)
    have hstop : slicedFrom ('%' :: target) (0 + 1) = .ok target := slicedFrom_append ['%'] target
    simp only [hfind, hstart, hstop, ofExcept_ok, Interp.value_bind, Interp.value_ret,
      Except.ok_bind, value_appendWord]
    simp

/-- **The two suffix rules agree** on every list of words. -/
theorem value_patsubst_suffix (source target : Text) (words : List Text) :
    evaluator.value (patsubstWords ('%' :: source) ('%' :: target) words) e =
      evaluator.value (suffixSubstituteWords words source target) e := by
  rw [patsubstWords, suffixSubstituteWords]
  generalize ([] : Text) = output
  induction words generalizing output with
  | nil => rfl
  | cons word rest ih =>
    rw [List.foldlM_cons, List.foldlM_cons, Interp.value_bind, Interp.value_bind,
      value_patsubstWord_suffix]
    cases evaluator.value (suffixSubstituteWord source target output word) e with
    | error h => rfl
    | ok next => exact ih next

/-- What a substitution reference comes to. -/
theorem value_evaluateVariable_suffix {body rawName rawSource rawTarget name text source target : Text}
    (hbody : splitSubstitutionReference body = .ok (rawName, some (rawSource, rawTarget)))
    (hname : evaluator.value (variableName expand body rawName) e = .ok name)
    (htext : evaluator.value (expandVariable ev expand name) e = .ok text)
    (hsource : evaluator.value (expand rawSource) e = .ok source)
    (htarget : evaluator.value (expand rawTarget) e = .ok target) (hpercent : '%' ∉ trim source) :
    evaluator.value (evaluateVariable ev expand body) e =
      evaluator.value (suffixSubstituteWords (splitWhitespace text) (trim source) (trim target)) e := by
  rw [evaluateVariable, chargeScanned, Interp.value_bind, value_pay, Except.ok_bind, hbody,
    ofExcept_ok, ret_bind, Interp.value_bind, hname, Except.ok_bind, Interp.value_bind, htext,
    Except.ok_bind]
  simp only [Interp.value_bind, hsource, htarget, Except.ok_bind, value_makeWords]
  rw [if_neg (by simpa using hpercent)]

/-- What a `patsubst` comes to. -/
theorem value_evaluatePatsubst {name rawArgs rawPattern rawReplacement rawWords : Text}
    {pattern replacement text : Text}
    (hargs : splitTopLevel rawArgs ',' = .ok [rawPattern, rawReplacement, rawWords])
    (hpattern : evaluator.value (expand (trim rawPattern)) e = .ok pattern)
    (hreplacement : evaluator.value (expand (trim rawReplacement)) e = .ok replacement)
    (htext : evaluator.value (expand (trim rawWords)) e = .ok text) :
    evaluator.value (evaluatePatsubst expand name rawArgs) e =
      evaluator.value (patsubstWords (trim pattern) (trim replacement) (splitWhitespace text)) e := by
  have hlength : [rawPattern, rawReplacement, rawWords].length = 3 := rfl
  rw [evaluatePatsubst, Interp.value_bind, value_functionArguments hargs hlength, Except.ok_bind]
  simp only [Interp.value_bind, hpattern, hreplacement, htext, Except.ok_bind, value_makeWords]

/-! ### Values and lists -/

theorem listProgram_eq (files : Filesystem) (ev : Evaluator) (raw : Text) :
    listProgram ev files raw = expressionProgram ev files raw >>= makeWords := by
  rw [listProgram, expressionProgram, Scoped.bind_assoc]

/-- **Laws of the word functions.** `filter` and `filter-out` with the same arguments divide the
words between them and keep their order. A substitution reference and a `patsubst` come to the same
where both read the same text, and the pattern and the replacement of the `patsubst` are a percent
sign followed by the two sides of the substitution, of which the left has none itself. -/
theorem word_laws (ev : Evaluator) (expand : Text → Eval Text) (e : Frames) :
    (∀ name rawArgs rawPatterns rawWords patterns text,
      splitTopLevel rawArgs ',' = .ok [rawPatterns, rawWords] →
      evaluator.value (expand (trim rawPatterns)) e = .ok patterns →
      evaluator.value (expand (trim rawWords)) e = .ok text →
      ∃ matching : Text → Bool,
        let words := splitWhitespace text
        evaluator.value (evaluateFilter expand name rawArgs true) e =
          .ok (spaced (words.filter matching)) ∧
        evaluator.value (evaluateFilter expand name rawArgs false) e =
          .ok (spaced (words.filter (!matching ·))) ∧
        splitWhitespace (spaced (words.filter matching)) = words.filter matching ∧
        splitWhitespace (spaced (words.filter (!matching ·))) = words.filter (!matching ·) ∧
        (words.filter matching).Sublist words ∧ (words.filter (!matching ·)).Sublist words ∧
        (words.filter matching ++ words.filter (!matching ·)).Perm words) ∧
    ∀ body rawName rawSource rawTarget varName source target name rawArgs rawPattern
      rawReplacement rawWords pattern replacement text,
      splitSubstitutionReference body = .ok (rawName, some (rawSource, rawTarget)) →
      evaluator.value (variableName expand body rawName) e = .ok varName →
      evaluator.value (expandVariable ev expand varName) e = .ok text →
      evaluator.value (expand rawSource) e = .ok source →
      evaluator.value (expand rawTarget) e = .ok target →
      '%' ∉ trim source →
      splitTopLevel rawArgs ',' = .ok [rawPattern, rawReplacement, rawWords] →
      evaluator.value (expand (trim rawPattern)) e = .ok pattern →
      evaluator.value (expand (trim rawReplacement)) e = .ok replacement →
      evaluator.value (expand (trim rawWords)) e = .ok text →
      trim pattern = '%' :: trim source → trim replacement = '%' :: trim target →
      evaluator.value (evaluateVariable ev expand body) e =
        evaluator.value (evaluatePatsubst expand name rawArgs) e := by
  refine ⟨fun name rawArgs rawPatterns rawWords patterns text hargs hpatterns htext =>
    filter_partition hargs hpatterns htext, ?_⟩
  intro body rawName rawSource rawTarget name source target function rawArgs rawPattern
    rawReplacement rawWords pattern replacement text hbody hname htext hsource htarget hpercent hargs
    hpattern hreplacement hwords htrim htrim'
  rw [value_evaluateVariable_suffix hbody hname htext hsource htarget hpercent,
    value_evaluatePatsubst hargs hpattern hreplacement hwords, htrim, htrim', value_patsubst_suffix]

/-- `$(V:.c=.o)` and `$(patsubst %.c,%.o,$(V))`. -/
theorem word_laws_objects :
    evaluator.value (evaluateVariable (oneVariable (lit "V") (lit "a.c b.h"))
      (expandText (oneVariable (lit "V") (lit "a.c b.h")) noFiles 3) (lit "V:.c=.o")) {} =
    evaluator.value (evaluatePatsubst (expandText (oneVariable (lit "V") (lit "a.c b.h")) noFiles 3)
      (lit "patsubst") (lit "%.c,%.o,$(V)")) {} :=
  (word_laws (oneVariable (lit "V") (lit "a.c b.h"))
    (expandText (oneVariable (lit "V") (lit "a.c b.h")) noFiles 3) {}).2 (lit "V:.c=.o") (lit "V")
    (lit ".c") (lit ".o") (lit "V") (lit ".c") (lit ".o") (lit "patsubst") (lit "%.c,%.o,$(V)")
    (lit "%.c") (lit "%.o") (lit "$(V)") (lit "%.c") (lit "%.o") (lit "a.c b.h")
    (by decide) (by decide) (by decide) (by decide)
    (by decide) (by decide) (by decide) (by decide)
    (by decide) (by decide) (by decide) (by decide)

/-- A comma belongs to the suffix of a substitution reference, but divides the arguments of
`patsubst`. -/
theorem patsubst_comma :
    evaluateMakeExpr noFiles (lit "$(V:,x=y)")
        { emptyContext with
          lookup := fun name => if name = lit "V" then some (lit "a,x b") else none } =
      .ok (lit "ay b") ∧
    evaluateMakeExpr noFiles (lit "$(patsubst %,x,%y,$(V))")
        { emptyContext with
          lookup := fun name => if name = lit "V" then some (lit "a,x b") else none } ≠
      .ok (lit "ay b") := by
  decide

end MakeExpr

end ArosTools
