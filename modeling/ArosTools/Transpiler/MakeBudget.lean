import ArosTools.Transpiler.MakeSafe

/-!
# The budgets of an evaluation

Termination of an evaluation rests on its budgets: `foreach` and `call` expand text that was
produced a moment ago. The counters are charged before anything grows, and the depth of open
expansions goes down by one at each nested call.

* `evaluation_within_budget` : at every moment of every evaluation each counter is within its limit,
  the value and the list it returns are within theirs, and its loop ends by itself.
-/

namespace ArosTools

namespace MakeExpr

open Str Eval Scoped

/-- Every counter is within its limit. -/
structure EvaluationBudget.Within (b : EvaluationBudget) : Prop where
  scanned : b.scannedBytes ≤ maxScannedBytes
  emitted : b.emittedBytes ≤ maxEmittedBytes
  work : b.workUnits ≤ maxWorkUnits
  items : b.listItems ≤ maxListItems

theorem spendUpTo_some {current amount limit next : ℕ}
    (h : spendUpTo current amount limit = some next) : next = current + amount ∧ next ≤ limit := by
  unfold spendUpTo at h
  split_ifs at h with hle
  obtain rfl := Option.some.inj h
  exact ⟨rfl, hle⟩

theorem spend_valueSize {n : ℕ} {b b' : EvaluationBudget} (h : b.spend (.valueSize n) = some b') :
    b' = b ∧ n ≤ maxValueBytes := by
  have hif : (if n ≤ maxValueBytes then some b else none) = some b' := h
  split_ifs at hif with hle
  exact ⟨(Option.some.inj hif).symm, hle⟩

/-- A charge that is granted keeps every counter within its limit. -/
theorem EvaluationBudget.Within.spend {c : Charge} {b b' : EvaluationBudget}
    (h : b.spend c = some b') (hb : b.Within) : b'.Within := by
  cases c with
  | scanned n =>
    obtain ⟨next, hnext, rfl⟩ := Option.map_eq_some_iff.mp h
    exact ⟨(spendUpTo_some hnext).2, hb.emitted, hb.work, hb.items⟩
  | emitted n =>
    obtain ⟨next, hnext, rfl⟩ := Option.map_eq_some_iff.mp h
    exact ⟨hb.scanned, (spendUpTo_some hnext).2, hb.work, hb.items⟩
  | work n =>
    obtain ⟨next, hnext, rfl⟩ := Option.map_eq_some_iff.mp h
    exact ⟨hb.scanned, hb.emitted, (spendUpTo_some hnext).2, hb.items⟩
  | items n =>
    obtain ⟨next, hnext, rfl⟩ := Option.map_eq_some_iff.mp h
    exact ⟨hb.scanned, hb.emitted, hb.work, (spendUpTo_some hnext).2⟩
  | valueSize n => exact (spend_valueSize h).1 ▸ hb

/-- The state in which an evaluation begins. -/
def start : Interp.State Frames EvaluationBudget := ⟨{}, {}⟩

theorem start_within : start.budget.Within :=
  ⟨Nat.zero_le _, Nat.zero_le _, Nat.zero_le _, Nat.zero_le _⟩

/-! ### Words -/

theorem run_pay_bind {α : Type} {c : Charge} {f : Unit → Eval α}
    {s s' : Interp.State Frames EvaluationBudget} {a : α}
    (h : evaluator.run (pay c >>= f) s = (.ok a, s')) :
    ∃ b, s.budget.spend c = some b ∧ evaluator.run (f ()) { s with budget := b } = (.ok a, s') := by
  cases hspend : s.budget.spend c with
  | none =>
    have hrun : evaluator.run (pay c >>= f) s = _ := evaluator.run_charge_none hspend (f ())
    rw [hrun] at h
    cases h
  | some b =>
    have hrun : evaluator.run (pay c >>= f) s = _ := evaluator.run_charge_some hspend (f ())
    rw [hrun] at h
    exact ⟨b, rfl, h⟩

/-- Charges other than that of list items leave that counter alone. -/
theorem spend_listItems {c : Charge} {b b' : EvaluationBudget} (h : b.spend c = some b') :
    b'.listItems = b.listItems + (match c with | .items n => n | _ => 0) := by
  cases c with
  | items n =>
    obtain ⟨next, hnext, rfl⟩ := Option.map_eq_some_iff.mp h
    exact (spendUpTo_some hnext).1
  | valueSize n =>
    obtain ⟨rfl, -⟩ := spend_valueSize h
    rfl
  | scanned n =>
    obtain ⟨next, hnext, rfl⟩ := Option.map_eq_some_iff.mp h
    rfl
  | emitted n =>
    obtain ⟨next, hnext, rfl⟩ := Option.map_eq_some_iff.mp h
    rfl
  | work n =>
    obtain ⟨next, hnext, rfl⟩ := Option.map_eq_some_iff.mp h
    rfl

/-- Every word that is taken costs a list item. -/
theorem takeWords_items {words : List Text} {s s' : Interp.State Frames EvaluationBudget}
    (h : evaluator.run (takeWords words) s = (.ok (), s')) :
    s'.budget.listItems = s.budget.listItems + words.length := by
  induction words generalizing s with
  | nil =>
    obtain rfl : s = s' := (Prod.mk.inj h).2
    rfl
  | cons word rest ih =>
    obtain ⟨b₁, h₁, h⟩ := run_pay_bind h
    obtain ⟨b₂, h₂, h⟩ := run_pay_bind h
    obtain ⟨b₃, h₃, h⟩ := run_pay_bind h
    have hitems := ih h
    simp only [spend_listItems h₁, spend_listItems h₂, spend_listItems h₃] at hitems
    rw [hitems, List.length_cons]
    omega

/-- A list that `make_words` returns has no more words than the limit. -/
theorem makeWords_length {raw : Text} {words : List Text}
    {s s' : Interp.State Frames EvaluationBudget} (hs : s.budget.Within)
    (h : evaluator.run (makeWords raw) s = (.ok words, s')) : words.length ≤ maxListItems := by
  have hwithin := (evaluator.budget_of_mem_moments (I := EvaluationBudget.Within)
    (fun _ _ _ hspend hb => hb.spend hspend) (makeWords raw) s hs).2
  rw [h] at hwithin
  obtain ⟨b, hb, h⟩ := run_pay_bind h
  rw [evaluator.run_bind] at h
  cases htake : evaluator.run (takeWords (splitWhitespace raw)) { s with budget := b } with
  | mk r t =>
    rw [htake] at h
    cases r with
    | error e => cases h
    | ok u =>
      obtain ⟨hwords, rfl⟩ := Prod.mk.inj h
      obtain rfl := Except.ok.inj hwords
      have hitems := takeWords_items htake
      exact Nat.le_trans (by rw [hitems]; exact Nat.le_add_left _ _) hwithin.items

/-! ### Values -/

theorem utf8Size_escapedDollar : escapedDollar.utf8Size = 3 := by decide

/-- The escaped dollars of a value made dollars. -/
def unescape (value : Text) : Text := value.map fun c => if c = escapedDollar then '$' else c

theorem unescape_eq_self {value : Text} (h : escapedDollar ∉ value) : unescape value = value := by
  refine List.map_congr_left (fun c hc => ?_) |>.trans (List.map_id value)
  exact if_neg fun heq : c = escapedDollar => h (heq ▸ hc)

theorem len_unescape (value : Text) :
    len (unescape value) = len value - value.count escapedDollar * 3 + value.count escapedDollar ∧
      value.count escapedDollar * 3 ≤ len value := by
  induction value with
  | nil => exact ⟨rfl, Nat.le_refl _⟩
  | cons c value ih =>
    obtain ⟨hlen, hle⟩ := ih
    rw [unescape] at hlen ⊢
    by_cases hc : c = escapedDollar
    · subst hc
      rw [List.map_cons, if_pos rfl, len_cons, len_cons, List.count_cons_self, hlen,
        utf8Size_escapedDollar]
      have hsize : '$'.utf8Size = 1 := by decide
      omega
    · rw [List.map_cons, if_neg hc, len_cons, len_cons, List.count_cons_of_ne hc, hlen]
      omega

/-- `finish_value`, by what the value holds. -/
theorem finishValue_spec {k : ℕ} {value : Text} (hvalue : len value ≤ maxValueBytes) :
    Spec k (fun t => t = unescape value ∧ len t ≤ maxValueBytes) (finishValue value) := by
  refine Spec.paid ((rejectUnsupportedReferences_fine value).bind fun _ _ => ?_)
  obtain ⟨hlen, hle⟩ := len_unescape value
  unfold restoreDollars
  by_cases hescaped : escapedDollar ∈ value
  · rw [if_neg (by simpa using hescaped)]
    refine (checkValueSize_spec _).bind fun _ _ => Spec.paid (Spec.paid (Spec.pure ⟨rfl, ?_⟩))
    change len (unescape value) ≤ maxValueBytes
    omega
  · rw [if_pos (by simpa using hescaped)]
    exact Spec.pure ⟨(unescape_eq_self hescaped).symm, hvalue⟩

variable (ev : Evaluator) (files : Filesystem) (raw : Text)

theorem expressionProgram_spec :
    Spec 0 (fun t => len t ≤ maxValueBytes) (expressionProgram ev files raw) :=
  (expandText_spec maxExpansionDepth 0 (Nat.le_of_eq (Nat.zero_add _)) raw).bind fun _ hvalue =>
    (finishValue_spec hvalue).weaken fun _ h => h.2

theorem listProgram_fine : Fine 0 (listProgram ev files raw) :=
  (expandText_spec maxExpansionDepth 0 (Nat.le_of_eq (Nat.zero_add _)) raw).bind fun _ hvalue =>
    (finishValue_spec hvalue).bind fun value _ => makeWords_fine value

variable {ev files raw}

/-- A result of an evaluation is the result of a run of a new evaluator. -/
theorem evaluate_ok {α : Type} {context : MakeExprContext} {program : Evaluator → Eval α} {a : α}
    (h : evaluate context program = .ok a) :
    ∃ ev, Evaluator.new context = .ok ev ∧ (evaluator.run (program ev) start).1 = .ok a := by
  unfold evaluate at h
  cases hnew : Evaluator.new context with
  | error e =>
    rw [hnew] at h
    cases h
  | ok ev =>
    rw [hnew] at h
    exact ⟨ev, rfl, h⟩

theorem evaluateMakeExpr_len {context : MakeExprContext} {value : Text}
    (h : evaluateMakeExpr files raw context = .ok value) : len value ≤ maxValueBytes := by
  obtain ⟨ev, -, hrun⟩ := evaluate_ok h
  rcases (expressionProgram_spec ev files raw start.env rfl).run with
    ⟨a, ha, hlen⟩ | ⟨x, hx, -⟩ | ⟨c, hc⟩
  · obtain rfl : a = value := Except.ok.inj (ha.symm.trans hrun)
    exact hlen
  · rw [hrun] at hx
    cases hx
  · rw [hrun] at hc
    cases hc

theorem evaluateMakeList_length {context : MakeExprContext} {words : List Text}
    (h : evaluateMakeList files raw context = .ok words) : words.length ≤ maxListItems := by
  obtain ⟨ev, -, hrun⟩ := evaluate_ok h
  have hprogram : listProgram ev files raw =
      (expressionProgram ev files raw >>= fun value => makeWords value) := by
    simp [listProgram, expressionProgram]
  rw [hprogram, evaluator.run_bind] at hrun
  have hwithin := (evaluator.budget_of_mem_moments (I := EvaluationBudget.Within)
    (fun _ _ _ hspend hb => hb.spend hspend) (expressionProgram ev files raw) start
    start_within).2
  cases hvalue : evaluator.run (expressionProgram ev files raw) start with
  | mk r s =>
    rw [hvalue] at hrun hwithin
    cases r with
    | error e => cases hrun
    | ok value =>
      exact @makeWords_length value words s _ hwithin (Prod.ext hrun rfl)

/-- At every moment the counters and the depth are within their limits. -/
theorem moments_within {α : Type} {p : Eval α} (hp : Fine 0 p) :
    ∀ m ∈ evaluator.moments p start, m.budget.Within ∧ m.env.depth ≤ maxExpansionDepth :=
  fun m hm =>
    ⟨(evaluator.budget_of_mem_moments (I := EvaluationBudget.Within)
      (fun _ _ _ hspend hb => hb.spend hspend) p start start_within).1 m hm,
      (hp start.env rfl).moments (Nat.zero_le _) m hm⟩

/-- **Budgets hold globally.** At every moment of an evaluation every counter, the depth among them,
is at most its limit; a value is at most the maximal size and a list has at most the maximal number
of words; and the loop of `expand_text` ends by itself, however many more rounds it could take. -/
theorem evaluation_within_budget (files : Filesystem) (context : MakeExprContext) (raw : Text) :
    (∀ ev, Evaluator.new context = .ok ev →
      (∀ m ∈ evaluator.moments (expressionProgram ev files raw) start,
        m.budget.Within ∧ m.env.depth ≤ maxExpansionDepth) ∧
      (∀ m ∈ evaluator.moments (listProgram ev files raw) start,
        m.budget.Within ∧ m.env.depth ≤ maxExpansionDepth)) ∧
    (∀ value, evaluateMakeExpr files raw context = .ok value → len value ≤ maxValueBytes) ∧
    (∀ words, evaluateMakeList files raw context = .ok words → words.length ≤ maxListItems) ∧
    (∀ reference text fuel, len text ≤ fuel →
      expandLoop reference text fuel 0 [] = expandLoop reference text (len text) 0 []) := by
  refine ⟨fun ev _ => ⟨moments_within (expressionProgram_spec ev files raw).fine,
    moments_within (listProgram_fine ev files raw)⟩, fun _ => evaluateMakeExpr_len,
    fun _ => evaluateMakeList_length, fun reference text fuel hfuel => ?_⟩
  have hchars := fun n => @expandLoop_eq reference n text [] text [] rfl
  simp only [len_nil] at hchars
  rw [hchars, hchars, expandRest_enough (Nat.le_trans (length_le_len text) hfuel),
    expandRest_enough (length_le_len text)]

end MakeExpr

end ArosTools
