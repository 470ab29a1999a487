import ArosTools.Program.Except
import ArosTools.Transpiler.MakeDollar

/-!
# Evaluating texts one after the other

A text that does not end inside a reference is expanded before what follows it, whatever that is.

* `value_expandAll_append` : the expansion of such a text followed by another.
* `dollars_faithful_iff` : doubled dollars, concatenation and the private-use character.
* `evaluateMakeExpr_privateUse` : that character in the input and in a variable value.
-/

namespace ArosTools

namespace MakeExpr

open Str Eval Scoped

/-- Texts that do not end inside a reference. -/
inductive Whole : Text → Prop
  | nil : Whole []
  | plain {c : Char} {rest : Text} : c ≠ '$' → Whole rest → Whole (c :: rest)
  | escaped {rest : Text} : Whole rest → Whole ('$' :: '$' :: rest)
  | parenthesis {tail body rest : Text} : closing 1 tail = some (body, rest) → Whole rest →
      Whole ('$' :: '(' :: tail)
  | brace {name rest : Text} : '\x7d' ∉ name → Whole rest →
      Whole ('$' :: '\x7b' :: (name ++ '\x7d' :: rest))
  | other {c : Char} {rest : Text} : c ≠ '$' → c ≠ '(' → c ≠ '\x7b' → Whole (c :: rest) →
      Whole ('$' :: c :: rest)

theorem closing_append {depth : ℕ} {text body after : Text}
    (h : closing depth text = some (body, after)) (b : Text) :
    closing depth (text ++ b) = some (body, after ++ b) := by
  induction hn : text.length using Nat.strong_induction_on generalizing text depth body with
  | _ n ih =>
    cases text with
    | nil => cases h
    | cons c rest =>
      rw [List.cons_append, closing_cons]
      rw [closing_cons] at h
      by_cases hopen : c = '$' ∧ rest.head? = some '('
      · obtain ⟨rfl, hhead⟩ := hopen
        cases rest with
        | nil => cases hhead
        | cons d tail =>
          rw [if_pos ⟨rfl, hhead⟩] at h
          obtain ⟨⟨b', a'⟩, hb, heq⟩ := Option.map_eq_some_iff.mp h
          obtain ⟨rfl, rfl⟩ := Prod.mk.inj heq
          rw [List.tail_cons] at hb
          rw [if_pos ⟨rfl, by simpa using hhead⟩, List.cons_append, List.tail_cons,
            ih tail.length (by simp only [List.length_cons] at hn; omega) hb rfl]
          rfl
      · rw [if_neg hopen] at h
        have hopen' : ¬(c = '$' ∧ (rest ++ b).head? = some '(') := by
          rintro ⟨rfl, hhead⟩
          cases rest with
          | nil =>
            rw [if_neg (by decide)] at h
            cases h
          | cons d tail => exact hopen ⟨rfl, by simpa using hhead⟩
        rw [if_neg hopen']
        by_cases hclose : c = ')'
        · rw [if_pos hclose] at h ⊢
          by_cases hdepth : depth = 1
          · rw [if_pos hdepth] at h ⊢
            obtain ⟨rfl, rfl⟩ := Prod.mk.inj (Option.some.inj h)
            rfl
          · rw [if_neg hdepth] at h ⊢
            obtain ⟨⟨b', a'⟩, hb, heq⟩ := Option.map_eq_some_iff.mp h
            obtain ⟨rfl, rfl⟩ := Prod.mk.inj heq
            rw [ih rest.length (by simp only [List.length_cons] at hn; omega) hb rfl]
            rfl
        · rw [if_neg hclose] at h ⊢
          obtain ⟨⟨b', a'⟩, hb, heq⟩ := Option.map_eq_some_iff.mp h
          obtain ⟨rfl, rfl⟩ := Prod.mk.inj heq
          rw [ih rest.length (by simp only [List.length_cons] at hn; omega) hb rfl]
          rfl

/-! ### Values of expansions -/

variable {reference : Text → Eval Text} {e : Frames}

@[simp] theorem value_pay (c : Charge) : evaluator.value (pay c) e = .ok () := rfl

@[simp] theorem value_fail {α : Type} (x : MakeExprError) :
    evaluator.value (fail x : Eval α) e = .error (.error x) := rfl

@[simp] theorem value_ofExcept {α : Type} (r : Except Halt α) :
    evaluator.value (ofExcept r) e = r := by
  cases r <;> rfl

@[simp] theorem value_appendOutput (out piece : Text) :
    evaluator.value (appendOutput out piece) e = .ok (out ++ piece) := rfl

@[simp] theorem value_appendChar (out : Text) (c : Char) :
    evaluator.value (appendChar out c) e = .ok (out ++ [c]) := rfl

/-- At a dollar. -/
theorem value_expandAll_dollar (after out : Text) :
    evaluator.value (expandAll reference ('$' :: after) out) e =
      evaluator.value (expandAfter reference after out) e >>= fun left =>
        evaluator.value (expandAll reference left.1 left.2) e := by
  have := @expandAll_dollar reference [] (by simp) after out
  rw [List.nil_append] at this
  rw [this, Interp.value_bind, value_appendOutput, Except.ok_bind, List.append_nil,
    Interp.value_bind]

/-- At any other character. -/
theorem value_expandAll_plain {c : Char} (hc : c ≠ '$') (rest out : Text) :
    evaluator.value (expandAll reference (c :: rest) out) e =
      evaluator.value (expandAll reference rest (out ++ [c])) e := by
  by_cases hmem : '$' ∈ rest
  · obtain ⟨plain, after, rfl, hplain⟩ := List.eq_append_cons_of_mem hmem
    have hcons : '$' ∉ c :: plain := by
      rw [List.mem_cons, not_or]
      exact ⟨Ne.symm hc, hplain⟩
    have := @expandAll_dollar reference (c :: plain) hcons after out
    rw [List.cons_append] at this
    rw [this, expandAll_dollar hplain]
    simp only [Interp.value_bind, value_appendOutput, Except.ok_bind, List.append_assoc,
      List.singleton_append]
  · have hcons : '$' ∉ c :: rest := by
      rw [List.mem_cons, not_or]
      exact ⟨Ne.symm hc, hmem⟩
    rw [expandAll_plain hcons (by simp)]
    by_cases hnil : rest = []
    · subst hnil
      rfl
    · rw [expandAll_plain hmem hnil, value_appendOutput, value_appendOutput]
      simp

/-- The output so far stands before what an expansion adds. -/
theorem value_expandAfter_out (after out : Text) :
    evaluator.value (expandAfter reference after out) e =
      evaluator.value (expandAfter reference after []) e >>= fun left =>
        .ok (left.1, out ++ left.2) := by
  unfold expandAfter
  split
  · simp
  · rename_i tail
    simp only [chargeScanned, Interp.value_bind, value_pay, Except.ok_bind]
    cases closing 1 tail with
    | none => rfl
    | some parts =>
      simp only [Interp.value_bind]
      cases evaluator.value (reference parts.1) e with
      | error h => rfl
      | ok expanded => simp
  · rename_i tail
    simp only [chargeScanned, Interp.value_bind, value_pay, Except.ok_bind]
    by_cases hmem : '\x7d' ∈ tail
    · rw [if_pos hmem, if_pos hmem]
      by_cases hdeferred : isDeferredCmakeReference (tail.takeWhile (· ≠ '\x7d')) = true
      · rw [if_pos hdeferred, if_pos hdeferred]
        simp
      · rw [if_neg hdeferred, if_neg hdeferred]
        simp only [Interp.value_bind]
        cases evaluator.value (reference (tail.takeWhile (· ≠ '\x7d'))) e with
        | error h => rfl
        | ok expanded => simp
    · rw [if_neg hmem, if_neg hmem]
      rfl
  · simp

/-- What is left after a dollar is no longer than what stood there. -/
theorem value_expandAfter_length {after out : Text} {left : Text × Text}
    (h : evaluator.value (expandAfter reference after out) e = .ok left) :
    left.1.length ≤ after.length := by
  by_contra hlong
  have hsame := @expandAfter_congr reference (Text × Text) after out .ret
    (fun left => if left.1.length ≤ after.length then .ret left else outOfRange 0 0)
    fun rest out hrest => (if_pos hrest).symm
  have hvalue := congrArg (evaluator.value · e) hsame
  simp only [Interp.value_bind, h, Except.ok_bind, if_neg hlong] at hvalue
  cases hvalue

theorem value_expandAll_out (rest out : Text) :
    evaluator.value (expandAll reference rest out) e =
      evaluator.value (expandAll reference rest []) e >>= fun value => .ok (out ++ value) := by
  induction hn : rest.length using Nat.strong_induction_on generalizing rest out with
  | _ n ih =>
    cases rest with
    | nil => simp
    | cons c rest =>
      rw [List.length_cons] at hn
      by_cases hc : c = '$'
      · subst hc
        rw [value_expandAll_dollar, value_expandAll_dollar, value_expandAfter_out]
        cases hafter : evaluator.value (expandAfter reference rest []) e with
        | error h => rfl
        | ok left =>
          have hlen := value_expandAfter_length hafter
          rw [Except.ok_bind, Except.ok_bind, Except.ok_bind,
            ih left.1.length (by omega) left.1 (out ++ left.2) rfl,
            ih left.1.length (by omega) left.1 left.2 rfl]
          cases evaluator.value (expandAll reference left.1 []) e with
          | error h => rfl
          | ok value => simp
      · rw [value_expandAll_plain hc, value_expandAll_plain hc, List.nil_append,
          ih rest.length (by omega) rest (out ++ [c]) rfl, ih rest.length (by omega) rest [c] rfl]
        cases evaluator.value (expandAll reference rest []) e with
        | error h => rfl
        | ok value => simp

/-- **A text that does not end inside a reference is expanded before what follows it.** -/
theorem value_expandAll_append {a : Text} (ha : Whole a) (b out : Text) :
    evaluator.value (expandAll reference (a ++ b) out) e =
      evaluator.value (expandAll reference a out) e >>= fun value =>
        evaluator.value (expandAll reference b value) e := by
  induction ha generalizing out with
  | nil => rfl
  | plain hc _ ih => rw [List.cons_append, value_expandAll_plain hc, value_expandAll_plain hc, ih]
  | @escaped rest _ ih =>
    rw [List.cons_append, List.cons_append, value_expandAll_dollar, value_expandAll_dollar]
    have hafter : ∀ tail, evaluator.value (expandAfter reference ('$' :: tail) out) e =
        .ok (tail, out ++ [escapedDollar]) := fun _ => rfl
    rw [hafter, hafter, Except.ok_bind, Except.ok_bind, ih]
  | @parenthesis tail body rest hclose _ ih =>
    rw [List.cons_append, List.cons_append, value_expandAll_dollar, value_expandAll_dollar]
    simp only [expandAfter, chargeScanned, hclose, closing_append hclose b, Interp.value_bind,
      value_pay, Except.ok_bind]
    cases evaluator.value (reference body) e with
    | error h => rfl
    | ok expanded => exact ih _
  | @brace name rest hname _ ih =>
    rw [List.cons_append, List.cons_append, List.append_assoc, List.cons_append,
      value_expandAll_dollar, value_expandAll_dollar]
    obtain ⟨htake, hdrop⟩ := takeWhile_ne_append hname rest
    obtain ⟨htake', hdrop'⟩ := takeWhile_ne_append hname (rest ++ b)
    have hmem : '\x7d' ∈ name ++ '\x7d' :: rest := by simp
    have hmem' : '\x7d' ∈ name ++ '\x7d' :: (rest ++ b) := by simp
    simp only [expandAfter, chargeScanned, Interp.value_bind, value_pay, Except.ok_bind,
      if_pos hmem, if_pos hmem', htake, htake', hdrop, hdrop']
    by_cases hdeferred : isDeferredCmakeReference name = true
    · rw [if_pos hdeferred, if_pos hdeferred]
      exact ih _
    · rw [if_neg hdeferred, if_neg hdeferred]
      simp only [Interp.value_bind]
      cases evaluator.value (reference name) e with
      | error h => rfl
      | ok expanded => exact ih _
  | @other c rest hdollar hopen hbrace _ ih =>
    rw [List.cons_append, List.cons_append, value_expandAll_dollar, value_expandAll_dollar]
    have hafter : ∀ tail, evaluator.value (expandAfter reference (c :: tail) out) e =
        .ok (c :: tail, out ++ ['$']) := by
      intro tail
      unfold expandAfter
      split <;> simp_all
    rw [hafter, hafter, Except.ok_bind, Except.ok_bind, ← List.cons_append, ih]

/-! ### Values of evaluations -/

variable {ev : Evaluator} {files : Filesystem}

theorem value_expandText_succ (depth : ℕ) (raw : Text) :
    evaluator.value (expandText ev files (depth + 1) raw) e =
      evaluator.value
        (expandAll (evaluateReference ev files (expandText ev files depth)) raw [])
        (evaluator.push .text e) := by
  rw [expandText_succ, Interp.value_scope, Interp.value_bind]
  simp only [chargeScanned, value_pay, Except.ok_bind, Interp.value_ret]
  cases evaluator.value (expandAll _ raw []) (evaluator.push .text e) <;> rfl

/-- The expansion of a concatenation. -/
theorem value_expandText_append {a : Text} (ha : Whole a) (b : Text) (depth : ℕ) :
    evaluator.value (expandText ev files (depth + 1) (a ++ b)) e =
      evaluator.value (expandText ev files (depth + 1) a) e >>= fun x =>
        evaluator.value (expandText ev files (depth + 1) b) e >>= fun y => .ok (x ++ y) := by
  rw [value_expandText_succ, value_expandText_succ, value_expandText_succ,
    value_expandAll_append ha]
  congr 1
  funext x
  rw [value_expandAll_out]

theorem value_finishValue (value : Text) :
    evaluator.value (finishValue value) e =
      rejectUnsupportedReferences value >>= fun _ => .ok (unescape value) := by
  have hrestore : evaluator.value (restoreDollars value) e = .ok (unescape value) := by
    unfold restoreDollars
    by_cases hmem : escapedDollar ∈ value
    · rw [if_neg (by simpa using hmem)]
      rfl
    · rw [if_pos (by simpa using hmem), unescape_eq_self hmem]
      rfl
  rw [finishValue, Interp.value_bind]
  simp only [chargeScanned, value_pay, Except.ok_bind, Interp.value_bind, value_ofExcept, hrestore]

theorem escapedDollar_not_mem_unescape (value : Text) : escapedDollar ∉ unescape value := by
  intro hmem
  obtain ⟨c, -, hc⟩ := List.mem_map.mp hmem
  split_ifs at hc with hescaped
  · exact absurd hc (by decide)
  · exact hescaped hc

theorem unescape_append (a b : Text) : unescape (a ++ b) = unescape a ++ unescape b :=
  List.map_append

/-- The value of an evaluation that returns: the text expands to an accepted value, and the result
is that value with its escaped dollars made dollars. -/
theorem evaluateMakeExpr_ok {context : MakeExprContext} {raw value : Text}
    (h : evaluateMakeExpr files raw context = .ok value) :
    ∃ ev expanded, Evaluator.new context = .ok ev ∧
      evaluator.value (expandText ev files maxExpansionDepth raw) {} = .ok expanded ∧
      Accepted expanded ∧ value = unescape expanded := by
  obtain ⟨ev, hnew, hrun⟩ := evaluate_ok h
  have hvalue := evaluator.value_of_run hrun
  rw [expressionProgram, Interp.value_bind] at hvalue
  obtain ⟨expanded, hexpanded, hfinish⟩ := Except.bind_eq_ok.mp hvalue
  rw [value_finishValue] at hfinish
  obtain ⟨u, hu, hunescape⟩ := Except.bind_eq_ok.mp hfinish
  exact ⟨ev, expanded, hnew, hexpanded, rejectUnsupportedReferences_eq_ok.mp hu,
    (Except.ok.inj hunescape).symm⟩

/-- The evaluation ran into one of its limits. -/
def Limited {α : Type} (r : Except Halt α) : Prop :=
  ∃ resource limit, r = .error (.error (.resourceLimit resource limit))

theorem limited_of_refused {α : Type} {r : Except Halt α} (h : evaluator.Refused r) :
    Limited r := by
  obtain ⟨c, rfl⟩ := h
  cases c <;> exact ⟨_, _, rfl⟩

/-- Texts that are evaluated one after the other. -/
theorem evaluateMakeExpr_append {context : MakeExprContext} {a b x y : Text} (hwhole : Whole a)
    (ha : evaluateMakeExpr files a context = .ok x)
    (hb : evaluateMakeExpr files b context = .ok y) :
    evaluateMakeExpr files (a ++ b) context = .ok (x ++ y) ∨
      Limited (evaluateMakeExpr files (a ++ b) context) := by
  obtain ⟨ev, ea, hnew, hea, haccepted, rfl⟩ := evaluateMakeExpr_ok ha
  obtain ⟨ev', eb, hnew', heb, hbccepted, rfl⟩ := evaluateMakeExpr_ok hb
  obtain rfl : ev = ev' := Except.ok.inj (hnew.symm.trans hnew')
  have hvalue : evaluator.value (expressionProgram ev files (a ++ b)) {} =
      .ok (unescape ea ++ unescape eb) := by
    rw [expressionProgram, Interp.value_bind, maxExpansionDepth, value_expandText_append hwhole]
    rw [maxExpansionDepth] at hea heb
    rw [hea, heb, Except.ok_bind, Except.ok_bind, Except.ok_bind, value_finishValue,
      rejectUnsupportedReferences_accepted (haccepted.append hbccepted), Except.ok_bind,
      unescape_append]
  have hresult : evaluateMakeExpr files (a ++ b) context =
      (evaluator.run (expressionProgram ev files (a ++ b)) start).1 := by
    rw [evaluateMakeExpr, evaluate, hnew]
    rfl
  rw [hresult]
  rcases evaluator.run_value (expressionProgram ev files (a ++ b)) start with h | h
  · exact .inl (h.trans hvalue)
  · exact .inr (limited_of_refused h)

/-- **Escaping dollars.** A text with its dollars doubled evaluates to itself exactly if the
evaluator accepts the context, the text does not hold the private-use character and it fits the
budget. Where a text that does not end inside a reference and another one evaluate, their
concatenation evaluates to the concatenation, or runs into a limit. No result holds the private-use
character: it is the expanded text with every such character made a dollar. -/
theorem dollars_faithful_iff (files : Filesystem) (context : MakeExprContext) :
    (∀ text, evaluateMakeExpr files (doubled text) context = .ok text ↔
      (∃ ev, Evaluator.new context = .ok ev) ∧ escapedDollar ∉ text ∧ FitsDoubled text) ∧
    (∀ a b x y, Whole a → evaluateMakeExpr files a context = .ok x →
      evaluateMakeExpr files b context = .ok y →
      evaluateMakeExpr files (a ++ b) context = .ok (x ++ y) ∨
        Limited (evaluateMakeExpr files (a ++ b) context)) ∧
    ∀ raw value, evaluateMakeExpr files raw context = .ok value → escapedDollar ∉ value ∧
      ∃ ev expanded, Evaluator.new context = .ok ev ∧
        evaluator.value (expandText ev files maxExpansionDepth raw) {} = .ok expanded ∧
        value = unescape expanded ∧ (value = expanded ↔ escapedDollar ∉ expanded) := by
  refine ⟨evaluate_doubled_iff files context, fun a b x y => evaluateMakeExpr_append,
    fun raw value h => ?_⟩
  obtain ⟨ev, expanded, hnew, hexpanded, -, rfl⟩ := evaluateMakeExpr_ok h
  refine ⟨escapedDollar_not_mem_unescape expanded, ev, expanded, hnew, hexpanded, rfl,
    fun heq => ?_, unescape_eq_self⟩
  rw [← heq]
  exact escapedDollar_not_mem_unescape expanded

/-- The private-use character in the input is mistaken for an escaped dollar, and so is one in the
value of a variable. -/
theorem evaluateMakeExpr_privateUse :
    evaluateMakeExpr noFiles (doubled ['a', '\uE000']) emptyContext ≠ .ok ['a', '\uE000'] ∧
      evaluateMakeExpr noFiles (doubled ['a', '\uE000']) emptyContext = .ok ['a', '$'] ∧
      evaluateMakeExpr noFiles (lit "$(V)")
        { emptyContext with lookup := fun name => if name = ['V'] then some ['\uE000'] else none } =
        .ok ['$'] := by
  decide

end MakeExpr

end ArosTools
