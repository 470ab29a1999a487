import ArosTools.Transpiler.MakeConcat

/-!
# The loop variable of `foreach`

`foreach` binds its variable to each word in turn and expands its body. The binding is looked up
before every other source of a value, but after the check for a variable that is already being
expanded, and the word it yields is expanded like the value of any variable.

* `value_evaluateForeach` : the results of the body for each word, with a space between them.
* `value_expandVariable_bound` : what the bound name expands to.
* `foreach_hygiene_iff` : the hygiene of the binding, with the exact condition under which the bound
  name stands for the bound word.
* `foreach_cycle` : a variable that is bound while it is being expanded.
-/

namespace ArosTools

namespace MakeExpr

open Str Eval Scoped

variable {ev : Evaluator} {files : Filesystem} {expand : Text → Eval Text} {e : Frames}

/-! ### Values of the building blocks -/

@[simp] theorem value_takeWords (words : List Text) :
    evaluator.value (takeWords words) e = .ok () := by
  induction words with
  | nil => rfl
  | cons word rest ih => exact ih

@[simp] theorem value_makeWords (raw : Text) :
    evaluator.value (makeWords raw) e = .ok (splitWhitespace raw) := by
  rw [makeWords, Interp.value_bind, Interp.value_bind, value_takeWords]
  rfl

/-- The arguments of a function, when their number is right. -/
theorem value_functionArguments {function raw : Text} {args : List Text} {expected : ℕ}
    (h : splitTopLevel raw ',' = .ok args) (hlength : args.length = expected) :
    evaluator.value (functionArguments function raw expected) e = .ok args := by
  rw [functionArguments, functionArgumentsBetween]
  simp only [chargeScanned, Interp.value_bind, value_pay, Except.ok_bind, value_ofExcept, h]
  rw [if_neg (by simp [hlength])]
  rfl

theorem spaced_cons (word : Text) (rest : List Text) :
    spaced (word :: rest) = word ++ rest.flatMap (' ' :: ·) := by
  induction rest generalizing word with
  | nil => simp [spaced]
  | cons next rest ih =>
    have hspaced : spaced (word :: next :: rest) = word ++ ' ' :: spaced (next :: rest) := by
      simp [spaced]
    rw [hspaced, ih, List.flatMap_cons]
    simp

/-! ### The loop -/

theorem value_foreachBody (loopVariable body word : Text) :
    evaluator.value (foreachBody expand loopVariable body word) e =
      evaluator.value (expand body) (evaluator.push (.loopVars [(loopVariable, word)]) e) := by
  rw [foreachBody]
  simp only [chargeItems, chargeEmitted, chargeWork, Interp.value_bind, value_pay, Except.ok_bind,
    Interp.value_scope, Interp.value_ret]
  cases evaluator.value (expand body) _ <;> rfl

theorem value_foreachRest (loopVariable body : Text) (words : List Text) (output : Text) :
    evaluator.value (foreachRest expand loopVariable body words output) e =
      (words.mapM fun word => evaluator.value (expand body)
        (evaluator.push (.loopVars [(loopVariable, word)]) e)) >>= fun results =>
          .ok (output ++ results.flatMap (' ' :: ·)) := by
  induction words generalizing output with
  | nil =>
    rw [foreachRest, List.mapM_nil]
    simp [pure, Except.pure]
  | cons word rest ih =>
    rw [foreachRest, Interp.value_bind, value_foreachBody, List.mapM_cons]
    cases evaluator.value (expand body) _ with
    | error h => rfl
    | ok result =>
      simp only [Except.ok_bind, Interp.value_bind, value_appendChar, value_appendOutput, ih]
      generalize rest.mapM (fun word => evaluator.value (expand body)
        (evaluator.push (.loopVars [(loopVariable, word)]) e)) = outcome
      cases outcome with
      | error h => rfl
      | ok results => simp [pure, Except.pure]

theorem value_foreachWords (loopVariable body : Text) (words : List Text) :
    evaluator.value (foreachWords expand loopVariable body words) e =
      (words.mapM fun word => evaluator.value (expand body)
        (evaluator.push (.loopVars [(loopVariable, word)]) e)) >>= fun results =>
          .ok (spaced results) := by
  cases words with
  | nil => rfl
  | cons word rest =>
    rw [foreachWords, Interp.value_bind, value_foreachBody, List.mapM_cons]
    cases evaluator.value (expand body) _ with
    | error h => rfl
    | ok result =>
      simp only [Except.ok_bind, Interp.value_bind, value_appendOutput, List.nil_append,
        value_foreachRest]
      generalize rest.mapM (fun word => evaluator.value (expand body)
        (evaluator.push (.loopVars [(loopVariable, word)]) e)) = outcome
      cases outcome with
      | error h => rfl
      | ok results => simp [pure, Except.pure, spaced_cons]

/-- **The result of `foreach`**: the results of the body for each word, with a space between. -/
theorem value_evaluateForeach {name rawArgs rawVariable rawList body loopVariable list : Text}
    (hargs : splitTopLevel rawArgs ',' = .ok [rawVariable, rawList, body])
    (hvariable : evaluator.value (expand (trim rawVariable)) e = .ok loopVariable)
    (hnonempty : trim loopVariable ≠ [])
    (hlist : evaluator.value (expand (trim rawList)) e = .ok list) :
    evaluator.value (evaluateForeach expand name rawArgs) e =
      ((splitWhitespace list).mapM fun word => evaluator.value (expand body)
        (evaluator.push (.loopVars [(trim loopVariable, word)]) e)) >>= fun results =>
          .ok (spaced results) := by
  have hlength : [rawVariable, rawList, body].length = 3 := rfl
  rw [evaluateForeach, Interp.value_bind, value_functionArguments hargs hlength, Except.ok_bind,
    Interp.value_bind, hvariable, Except.ok_bind, if_neg hnonempty, Interp.value_bind, hlist,
    Except.ok_bind, Interp.value_bind, value_makeWords, Except.ok_bind, value_foreachWords]

/-! ### The bound name -/

/-- The innermost binding is found first. -/
theorem lookupBinding_append (name value : Text) (bindings : List (Text × Text)) :
    lookupBinding name (bindings ++ [(name, value)]) = some value := by
  rw [lookupBinding, List.reverse_append]
  simp

theorem value_checkCycle (name : Text) :
    evaluator.value (checkCycle name) e =
      if name ∈ e.expansionChain then
        .error (.error (.variableCycle (e.expansionChain.dropWhile (· ≠ name) ++ [name])))
      else .ok () := by
  have hanswer : evaluator.answer .expansionChain e = e.expansionChain := rfl
  rw [checkCycle, Interp.value_ask, hanswer]
  by_cases hmem : name ∈ e.expansionChain
  · rw [if_pos hmem, if_pos (by simpa using hmem)]
    rfl
  · rw [if_neg hmem, if_neg (by simpa using hmem)]
    rfl

theorem value_resolveVariable_bound {name word : Text}
    (h : lookupBinding name e.loopVars = some word) :
    evaluator.value (resolveVariable ev name) e = .ok word := by
  have hanswer : evaluator.answer (.loopVar name) e = some word := h
  rw [resolveVariable, Interp.value_ask, hanswer]
  rfl

/-- What a bound name expands to: its word, expanded once more, unless it is being expanded. -/
theorem value_expandVariable_bound {name word : Text}
    (h : lookupBinding name e.loopVars = some word) :
    evaluator.value (expandVariable ev expand name) e =
      if name ∈ e.expansionChain then
        .error (.error (.variableCycle (e.expansionChain.dropWhile (· ≠ name) ++ [name])))
      else evaluator.value (expand word) (evaluator.push (.expanding name) e) := by
  rw [expandVariable, Interp.value_bind, value_checkCycle]
  by_cases hmem : name ∈ e.expansionChain
  · rw [if_pos hmem, if_pos hmem]
    rfl
  · rw [if_neg hmem, if_neg hmem, Except.ok_bind, Interp.value_bind,
      value_resolveVariable_bound h, Except.ok_bind, Interp.value_scope]
    cases evaluator.value (expand word) _ <;> rfl

/-- Texts that expand to themselves: none of their dollars escapes a dollar or begins a reference
other than a deferred one. -/
inductive Inert : Text → Prop
  | nil : Inert []
  | plain {c : Char} {rest : Text} : c ≠ '$' → Inert rest → Inert (c :: rest)
  | last : Inert ['$']
  | other {c : Char} {rest : Text} : c ≠ '$' → c ≠ '(' → c ≠ '\x7b' → Inert (c :: rest) →
      Inert ('$' :: c :: rest)
  | deferred {name rest : Text} : '\x7d' ∉ name → isDeferredCmakeReference name = true →
      Inert rest → Inert ('$' :: '\x7b' :: (name ++ '\x7d' :: rest))

theorem value_expandAll_inert {reference : Text → Eval Text} {text : Text} (h : Inert text)
    (out : Text) : evaluator.value (expandAll reference text out) e = .ok (out ++ text) := by
  induction h generalizing out with
  | nil => simp
  | plain hc _ ih =>
    rw [value_expandAll_plain hc, ih]
    simp
  | last =>
    rw [value_expandAll_dollar]
    rfl
  | @other c rest hdollar hopen hbrace _ ih =>
    have hafter : evaluator.value (expandAfter reference (c :: rest) out) e =
        .ok (c :: rest, out ++ ['$']) := by
      unfold expandAfter
      split <;> simp_all
    rw [value_expandAll_dollar, hafter, Except.ok_bind, ih]
    simp
  | @deferred name rest hname hdeferred _ ih =>
    obtain ⟨htake, hdrop⟩ := takeWhile_ne_append hname rest
    have hmem : '\x7d' ∈ name ++ '\x7d' :: rest := by simp
    rw [value_expandAll_dollar]
    simp only [expandAfter, chargeScanned, Interp.value_bind, value_pay, Except.ok_bind,
      if_pos hmem, htake, hdrop, if_pos hdeferred, value_appendOutput, pure_eq, Interp.value_ret,
      ih]
    simp

/-- A text that expands to itself does so at every depth and in every frame. -/
theorem value_expandText_inert {text : Text} (h : Inert text) (depth : ℕ) :
    evaluator.value (expandText ev files (depth + 1) text) e = .ok text := by
  rw [value_expandText_succ, value_expandAll_inert h, List.nil_append]

/-- **Hygiene of the loop variable.** The result of a `foreach` is the results of its body with the
variable bound to each word, with a space between them; a run of it leaves the stacks as they were,
also after an error inside, and comes to that result or to a limit. Inside the body the name is
bound to the word, and wherever it is bound to a word it expands to the word exactly if it is not
being expanded and the word expands to itself, which a word does whose dollars begin nothing. -/
theorem foreach_hygiene_iff (ev : Evaluator) (files : Filesystem) (depth : ℕ) (e : Frames)
    (name rawArgs rawVariable rawList body loopVariable list : Text)
    (hargs : splitTopLevel rawArgs ',' = .ok [rawVariable, rawList, body])
    (hvariable : evaluator.value (expandText ev files depth (trim rawVariable)) e = .ok loopVariable)
    (hnonempty : trim loopVariable ≠ [])
    (hlist : evaluator.value (expandText ev files depth (trim rawList)) e = .ok list) :
    (evaluator.value (evaluateForeach (expandText ev files depth) name rawArgs) e =
      ((splitWhitespace list).mapM fun word => evaluator.value (expandText ev files depth body)
        (evaluator.push (.loopVars [(trim loopVariable, word)]) e)) >>= fun results =>
          .ok (spaced results)) ∧
    (∀ budget,
      (evaluator.run (evaluateForeach (expandText ev files depth) name rawArgs) ⟨e, budget⟩).2.env =
        e ∧
      ((evaluator.run (evaluateForeach (expandText ev files depth) name rawArgs) ⟨e, budget⟩).1 =
          evaluator.value (evaluateForeach (expandText ev files depth) name rawArgs) e ∨
        Limited
          (evaluator.run (evaluateForeach (expandText ev files depth) name rawArgs) ⟨e, budget⟩).1)) ∧
    (∀ word, lookupBinding (trim loopVariable)
      (evaluator.push (.loopVars [(trim loopVariable, word)]) e).loopVars = some word) ∧
    (∀ word inner left, lookupBinding (trim loopVariable) inner.loopVars = some word →
      (evaluator.value (expandVariable ev (expandText ev files left) (trim loopVariable)) inner =
          .ok word ↔
        trim loopVariable ∉ inner.expansionChain ∧
          evaluator.value (expandText ev files left word)
            (evaluator.push (.expanding (trim loopVariable)) inner) = .ok word)) ∧
    ∀ word inner left, Inert word →
      evaluator.value (expandText ev files (left + 1) word) inner = .ok word := by
  refine ⟨value_evaluateForeach hargs hvariable hnonempty hlist, fun budget => ⟨?_, ?_⟩,
    fun word => lookupBinding_append _ _ _, fun word inner left hbound => ?_,
    fun word inner left hinert => value_expandText_inert hinert left⟩
  · exact evaluator.run_env _ ⟨e, budget⟩
  · exact (evaluator.run_value (evaluateForeach (expandText ev files depth) name rawArgs)
      ⟨e, budget⟩).imp id limited_of_refused
  · rw [value_expandVariable_bound hbound]
    by_cases hmem : trim loopVariable ∈ inner.expansionChain
    · rw [if_pos hmem]
      exact ⟨nofun, fun h => absurd hmem h.1⟩
    · rw [if_neg hmem]
      exact ⟨fun h => ⟨hmem, h⟩, fun h => h.2⟩

/-- The evaluator of the empty context. -/
def emptyEvaluator : Evaluator where
  scope := emptyContext.scope
  dirs := emptyContext.dirs
  sourceText := lit "/src"
  relativeText := lit "rom"
  wildcardRoot := lit "/src/rom"
  lookup := emptyContext.lookup
  guard := emptyContext.guard
  filesystemEnabled := emptyContext.filesystemEnabled

/-- An evaluator that knows one variable. -/
def oneVariable (name value : Text) : Evaluator :=
  { emptyEvaluator with lookup := fun other => if other = name then some value else none }

/-- The result of `$(foreach x,a b,[$(x)])`. -/
theorem foreach_hygiene_brackets :
    evaluator.value (evaluateForeach (expandText emptyEvaluator noFiles 3) (lit "foreach")
      (lit "x,a b,[$(x)]")) {} = .ok (lit "[a] [b]") := by
  have hplain : Inert (lit "x") := .plain (by decide) .nil
  have hwords : Inert (lit "a b") :=
    .plain (by decide) (.plain (by decide) (.plain (by decide) .nil))
  rw [(foreach_hygiene_iff emptyEvaluator noFiles 3 {} (lit "foreach") (lit "x,a b,[$(x)]")
    (lit "x") (lit "a b") (lit "[$(x)]") (lit "x") (lit "a b") (by decide)
    (value_expandText_inert hplain 2) (by decide) (value_expandText_inert hwords 2)).1]
  decide

/-- A variable that is bound while it is being expanded is reported as a cycle, although the binding
stands before it. -/
theorem foreach_cycle :
    evaluateMakeExpr noFiles (lit "$(foreach X,a b,$(X))") emptyContext = .ok (lit "a b") ∧
    evaluateMakeExpr noFiles (lit "$(X)")
      { emptyContext with
        lookup := fun name => if name = ['X'] then some (lit "$(foreach X,a b,$(X))") else none } =
      .error (.error (.variableCycle [['X'], ['X']])) := by
  decide

end MakeExpr

end ArosTools
