import ArosTools.Transpiler.MakePanics
import Mathlib.Algebra.GroupWithZero.Nat

/-!
# Escaped dollars

During an evaluation an escaped dollar is carried as a private-use character and made a dollar at
the end. The character is not told apart from one that stands in the input or in a variable value.

* `expandAll_doubled` : expanding a text whose dollars are doubled marks them, at an exact cost.
* `value_expandAll_append` : a text that does not end inside a reference is expanded before what
  follows it.
* `dollars_faithful_iff` : a text with its dollars doubled evaluates to itself exactly if it does
  not hold the private-use character and fits the budget; evaluation of a concatenation is the
  concatenation of the evaluations, within the budget; the character never leaks into a result.
-/

namespace ArosTools

namespace MakeExpr

open Str Eval Scoped

/-! ### The cost of charges in order -/

namespace Charge

def scannedBytes : Charge → ℕ
  | scanned n => n
  | _ => 0

def emittedBytes : Charge → ℕ
  | emitted n => n
  | _ => 0

def workUnits : Charge → ℕ
  | work n => n
  | _ => 0

def listItems : Charge → ℕ
  | items n => n
  | _ => 0

end Charge

/-- The charges fit the budget: each counter with all that is charged to it, and each size. -/
structure Fits (b : EvaluationBudget) (cs : List Charge) : Prop where
  scanned : b.scannedBytes + (cs.map Charge.scannedBytes).sum ≤ maxScannedBytes
  emitted : b.emittedBytes + (cs.map Charge.emittedBytes).sum ≤ maxEmittedBytes
  work : b.workUnits + (cs.map Charge.workUnits).sum ≤ maxWorkUnits
  items : b.listItems + (cs.map Charge.listItems).sum ≤ maxListItems
  sizes : ∀ n, .valueSize n ∈ cs → n ≤ maxValueBytes

theorem fits_cons {b b' : EvaluationBudget} {c : Charge} (h : b.spend c = some b')
    (cs : List Charge) : Fits b (c :: cs) ↔ Fits b' cs := by
  have hsize : (∀ n, .valueSize n ∈ c :: cs → n ≤ maxValueBytes) ↔
      ∀ n, .valueSize n ∈ cs → n ≤ maxValueBytes := by
    refine ⟨fun hall n hn => hall n (.tail _ hn), fun hall n hn => ?_⟩
    rcases List.mem_cons.mp hn with rfl | hn
    · exact (spend_valueSize h).2
    · exact hall n hn
  have hsums : b'.scannedBytes = b.scannedBytes + c.scannedBytes ∧
      b'.emittedBytes = b.emittedBytes + c.emittedBytes ∧
      b'.workUnits = b.workUnits + c.workUnits ∧ b'.listItems = b.listItems + c.listItems := by
    cases c with
    | valueSize n =>
      obtain ⟨rfl, -⟩ := spend_valueSize h
      exact ⟨rfl, rfl, rfl, rfl⟩
    | scanned n =>
      obtain ⟨next, hnext, rfl⟩ := Option.map_eq_some_iff.mp h
      exact ⟨(spendUpTo_some hnext).1, rfl, rfl, rfl⟩
    | emitted n =>
      obtain ⟨next, hnext, rfl⟩ := Option.map_eq_some_iff.mp h
      exact ⟨rfl, (spendUpTo_some hnext).1, rfl, rfl⟩
    | work n =>
      obtain ⟨next, hnext, rfl⟩ := Option.map_eq_some_iff.mp h
      exact ⟨rfl, rfl, (spendUpTo_some hnext).1, rfl⟩
    | items n =>
      obtain ⟨next, hnext, rfl⟩ := Option.map_eq_some_iff.mp h
      exact ⟨rfl, rfl, rfl, (spendUpTo_some hnext).1⟩
  obtain ⟨hscanned, hemitted, hwork, hitems⟩ := hsums
  refine ⟨fun hf => ⟨?_, ?_, ?_, ?_, hsize.mp hf.sizes⟩,
    fun hf => ⟨?_, ?_, ?_, ?_, hsize.mpr hf.sizes⟩⟩
  · simpa [hscanned, Nat.add_assoc] using hf.scanned
  · simpa [hemitted, Nat.add_assoc] using hf.emitted
  · simpa [hwork, Nat.add_assoc] using hf.work
  · simpa [hitems, Nat.add_assoc] using hf.items
  · simpa [hscanned, Nat.add_assoc] using hf.scanned
  · simpa [hemitted, Nat.add_assoc] using hf.emitted
  · simpa [hwork, Nat.add_assoc] using hf.work
  · simpa [hitems, Nat.add_assoc] using hf.items

theorem not_fits_cons {b : EvaluationBudget} {c : Charge} (h : b.spend c = none)
    (cs : List Charge) : ¬Fits b (c :: cs) := by
  intro hf
  cases c with
  | valueSize n =>
    have hle : n ≤ maxValueBytes := hf.sizes n (.head _)
    have : b.spend (.valueSize n) = some b := if_pos hle
    rw [this] at h
    cases h
  | scanned n =>
    have hle := hf.scanned
    simp only [List.map_cons, List.sum_cons, Charge.scannedBytes] at hle
    have := Option.map_eq_none_iff.mp h
    rw [spendUpTo, if_pos (by omega)] at this
    cases this
  | emitted n =>
    have hle := hf.emitted
    simp only [List.map_cons, List.sum_cons, Charge.emittedBytes] at hle
    have := Option.map_eq_none_iff.mp h
    rw [spendUpTo, if_pos (by omega)] at this
    cases this
  | work n =>
    have hle := hf.work
    simp only [List.map_cons, List.sum_cons, Charge.workUnits] at hle
    have := Option.map_eq_none_iff.mp h
    rw [spendUpTo, if_pos (by omega)] at this
    cases this
  | items n =>
    have hle := hf.items
    simp only [List.map_cons, List.sum_cons, Charge.listItems] at hle
    have := Option.map_eq_none_iff.mp h
    rw [spendUpTo, if_pos (by omega)] at this
    cases this

/-- Charges are all granted exactly if they fit together. -/
theorem spendAll_isSome_iff {b : EvaluationBudget} (hb : b.Within) (cs : List Charge) :
    (evaluator.spendAll cs b).isSome = true ↔ Fits b cs := by
  induction cs generalizing b with
  | nil =>
    refine ⟨fun _ => ⟨hb.scanned, hb.emitted, hb.work, hb.items, fun n hn => ?_⟩, fun _ => rfl⟩
    cases hn
  | cons c cs ih =>
    rw [Interp.spendAll]
    cases hspend : b.spend c with
    | none =>
      have hnone : evaluator.spend c b = none := hspend
      rw [hnone]
      exact ⟨fun h => (by cases h), fun h => absurd h (not_fits_cons hspend cs)⟩
    | some b' =>
      have hsome : evaluator.spend c b = some b' := hspend
      rw [hsome, Option.bind_some, ih (hb.spend hspend), fits_cons hspend]

/-- The run of a program that only charges. -/
theorem run_payAll_ret {α : Type} {cs : List Charge} {a b : α}
    {s : Interp.State Frames EvaluationBudget} (hs : s.budget.Within) :
    (evaluator.run (.payAll cs (.ret a)) s).1 = .ok b ↔ a = b ∧ Fits s.budget cs := by
  cases hspend : evaluator.spendAll cs s.budget with
  | none =>
    obtain ⟨c, hc⟩ := evaluator.run_payAll_none hspend (.ret a)
    rw [hc]
    refine ⟨nofun, fun h => ?_⟩
    have := (spendAll_isSome_iff hs cs).mpr h.2
    rw [hspend] at this
    cases this
  | some budget =>
    rw [evaluator.run_payAll_some hspend]
    have hfits := (spendAll_isSome_iff hs cs).mp (by rw [hspend]; rfl)
    refine ⟨fun h => ⟨Except.ok.inj h, hfits⟩, fun h => ?_⟩
    rw [h.1]
    rfl

/-! ### Doubled dollars -/

/-- A text with each dollar doubled. -/
def doubled (text : Text) : Text := text.flatMap fun c => if c = '$' then ['$', '$'] else [c]

/-- A text with its dollars marked as escaped. -/
def marked (text : Text) : Text := text.map fun c => if c = '$' then escapedDollar else c

/-- One unit if something follows the last dollar. -/
def lastPiece (text : Text) : ℕ := if text.rtakeWhile (· ≠ '$') = [] then 0 else 1

theorem doubled_append (a b : Text) : doubled (a ++ b) = doubled a ++ doubled b :=
  List.flatMap_append

theorem marked_append (a b : Text) : marked (a ++ b) = marked a ++ marked b := List.map_append

theorem doubled_plain {text : Text} (h : '$' ∉ text) : doubled text = text := by
  induction text with
  | nil => rfl
  | cons c text ih =>
    have hc : c ≠ '$' := fun heq => h (heq ▸ .head _)
    have hrest : doubled text = text := ih fun hmem => h (.tail _ hmem)
    rw [doubled, List.flatMap_cons, if_neg hc, ← doubled, hrest]
    rfl

theorem marked_plain {text : Text} (h : '$' ∉ text) : marked text = text := by
  refine (List.map_congr_left fun c hc => ?_).trans (List.map_id text)
  exact if_neg fun heq : c = '$' => h (heq ▸ hc)

theorem dollar_not_mem_marked (text : Text) : '$' ∉ marked text := by
  intro hmem
  obtain ⟨c, -, hc⟩ := List.mem_map.mp hmem
  split_ifs at hc with hdollar
  · exact absurd hc (by decide)
  · exact hdollar hc

theorem len_doubled (text : Text) : len (doubled text) = len text + text.count '$' := by
  induction text with
  | nil => rfl
  | cons c text ih =>
    rw [doubled, List.flatMap_cons, ← doubled, len_append, ih, len_cons]
    by_cases hc : c = '$'
    · subst hc
      rw [if_pos rfl, List.count_cons_self]
      have hsize : len ['$', '$'] = 2 ∧ '$'.utf8Size = 1 := by decide
      omega
    · rw [if_neg hc, List.count_cons_of_ne hc, len_cons, len_nil]
      omega

theorem len_marked (text : Text) : len (marked text) = len text + 2 * text.count '$' := by
  induction text with
  | nil => rfl
  | cons c text ih =>
    rw [marked, List.map_cons, ← marked, len_cons, ih, len_cons]
    by_cases hc : c = '$'
    · subst hc
      rw [if_pos rfl, List.count_cons_self, utf8Size_escapedDollar]
      have hsize : '$'.utf8Size = 1 := by decide
      omega
    · rw [if_neg hc, List.count_cons_of_ne hc]
      omega

theorem rtakeWhile_dollar (plain after : Text) :
    (plain ++ '$' :: after).rtakeWhile (· ≠ '$') = after.rtakeWhile (· ≠ '$') := by
  rw [List.rtakeWhile, List.rtakeWhile, List.reverse_append, List.reverse_cons, List.append_assoc]
  congr 1
  by_cases hmem : '$' ∈ after.reverse
  · obtain ⟨a, b, hab, ha⟩ := List.eq_append_cons_of_mem hmem
    rw [hab, List.append_assoc, List.cons_append, (takeWhile_ne_append ha _).1,
      (takeWhile_ne_append ha b).1]
  · have hall : after.reverse.takeWhile (· ≠ '$') = after.reverse := by
      rw [List.takeWhile_eq_self_iff]
      intro c hc
      simpa using fun heq : c = '$' => hmem (heq ▸ hc)
    rw [hall]
    exact (takeWhile_ne_append hmem plain.reverse).1

/-- The charges of `append_output` and `append_char`. -/
def appendCharges (output : ℕ) (size : ℕ) : List Charge :=
  [.valueSize (output + size), .work 1, .emitted size]

theorem appendOutput_eq (out piece : Text) :
    appendOutput out piece = .payAll (appendCharges (len out) (len piece)) (.ret (out ++ piece)) :=
  rfl

/-- What the charges of an expansion come to. -/
structure ExpansionCost (cs : List Charge) (out text : Text) : Prop where
  scanned : (cs.map Charge.scannedBytes).sum = 0
  emitted : (cs.map Charge.emittedBytes).sum = len (marked text)
  work : (cs.map Charge.workUnits).sum = 2 * text.count '$' + lastPiece text
  items : (cs.map Charge.listItems).sum = 0
  sizes : ∀ n, .valueSize n ∈ cs → n ≤ len out + len (marked text)
  whole : text ≠ [] → .valueSize (len out + len (marked text)) ∈ cs

variable {reference : Text → Eval Text}

/-- **Expanding doubled dollars** only charges, and comes to the text with its dollars marked. -/
theorem expandAll_doubled (text out : Text) :
    ∃ cs, expandAll reference (doubled text) out = .payAll cs (.ret (out ++ marked text)) ∧
      ExpansionCost cs out text := by
  induction hn : text.length using Nat.strong_induction_on generalizing text out with
  | _ n ih =>
    by_cases hmem : '$' ∈ text
    · obtain ⟨plain, after, rfl, hplain⟩ := List.eq_append_cons_of_mem hmem
      obtain ⟨cs, hcs, hcost⟩ := ih after.length (by
        rw [← hn, List.length_append, List.length_cons]
        omega) after (out ++ plain ++ [escapedDollar]) rfl
      have hdoubled : doubled (plain ++ '$' :: after) = plain ++ '$' :: '$' :: doubled after := by
        rw [doubled_append, doubled_plain hplain]
        rfl
      have hmarked : marked (plain ++ '$' :: after) = plain ++ escapedDollar :: marked after := by
        rw [marked_append, marked_plain hplain]
        rfl
      have hcount : (plain ++ '$' :: after).count '$' = after.count '$' + 1 := by
        rw [List.count_append, List.count_eq_zero_of_not_mem hplain, List.count_cons_self]
        omega
      have hlast : lastPiece (plain ++ '$' :: after) = lastPiece after := by
        rw [lastPiece, rtakeWhile_dollar, lastPiece]
      refine ⟨appendCharges (len out) (len plain) ++
        (appendCharges (len (out ++ plain)) 3 ++ cs), ?_, ?_, ?_, ?_, ?_, ?_, ?_⟩
      · rw [hdoubled, expandAll_dollar hplain, appendOutput_eq, payAll_bind, ret_bind, payAll_append]
        congr 1
        have hafter : expandAfter reference ('$' :: doubled after) (out ++ plain) =
            .payAll (appendCharges (len (out ++ plain)) 3)
              (.ret (doubled after, out ++ plain ++ [escapedDollar])) := rfl
        rw [hafter, payAll_bind, ret_bind, payAll_append]
        congr 1
        simp only
        rw [hcs, hmarked]
        simp
      · simp [appendCharges, Charge.scannedBytes, hcost.scanned]
      · rw [hmarked]
        simp [appendCharges, Charge.emittedBytes, hcost.emitted, utf8Size_escapedDollar]
      · rw [hcount, hlast]
        simp only [appendCharges, List.cons_append, List.nil_append, List.map_cons,
          List.sum_cons, Charge.workUnits, hcost.work]
        omega
      · simp [appendCharges, Charge.listItems, hcost.items]
      · have hsizes := hcost.sizes
        intro n hmem
        rw [hmarked]
        simp only [appendCharges, List.cons_append, List.nil_append, List.mem_cons,
          Charge.valueSize.injEq, reduceCtorEq, false_or, len_append, len_cons, len_nil,
          utf8Size_escapedDollar] at hmem hsizes ⊢
        rcases hmem with rfl | rfl | hmem
        · omega
        · omega
        · have := hsizes n hmem
          omega
      · intro _
        rw [hmarked]
        by_cases hafter : after = []
        · subst hafter
          refine List.mem_append_right _ (List.mem_append_left _ ?_)
          have hsum : len out + len (plain ++ escapedDollar :: marked []) = len (out ++ plain) + 3 := by
            simp only [len_append, len_cons, len_nil, utf8Size_escapedDollar, marked, List.map_nil]
            omega
          rw [hsum]
          exact .head _
        · have := hcost.whole hafter
          simp only [List.mem_append]
          refine .inr (.inr ?_)
          have hsum : len out + len (plain ++ escapedDollar :: marked after) =
              len (out ++ plain ++ [escapedDollar]) + len (marked after) := by
            simp only [len_append, len_cons, len_nil]
            omega
          rw [hsum]
          exact this
    · have hplain : '$' ∉ text := hmem
      have hcount : text.count '$' = 0 := List.count_eq_zero_of_not_mem hplain
      by_cases hnil : text = []
      · subst hnil
        refine ⟨[], by simp [doubled, marked, payAll], rfl, rfl, rfl, rfl, ?_, fun h => absurd rfl h⟩
        intro n hmem
        cases hmem
      · have hlast : lastPiece text = 1 := by
          have hall : text.rtakeWhile (· ≠ '$') = text := by
            rw [List.rtakeWhile_eq_self_iff]
            intro c hc
            simpa using fun heq : c = '$' => hplain (heq ▸ hc)
          rw [lastPiece, hall, if_neg hnil]
        refine ⟨appendCharges (len out) (len text), ?_, rfl, ?_, ?_, rfl, ?_, ?_⟩
        · rw [doubled_plain hplain, marked_plain hplain, expandAll_plain hplain hnil]
          rfl
        · rw [marked_plain hplain]
          simp [appendCharges, Charge.emittedBytes]
        · rw [hcount, hlast]
          rfl
        · intro n hmem
          rw [marked_plain hplain]
          simp only [appendCharges, List.mem_cons, Charge.valueSize.injEq, reduceCtorEq,
            List.not_mem_nil, or_false] at hmem
          omega
        · intro _
          rw [marked_plain hplain]
          exact .head _

/-! ### Evaluating doubled dollars -/

theorem unescape_marked (text : Text) :
    unescape (marked text) = text ↔ escapedDollar ∉ text := by
  induction text with
  | nil => simp [unescape, marked]
  | cons c text ih =>
    rw [marked, List.map_cons, ← marked, unescape, List.map_cons, ← unescape, List.cons.injEq, ih,
      List.mem_cons, not_or]
    refine and_congr ?_ Iff.rfl
    by_cases hc : c = '$'
    · subst hc
      simp only [if_true]
      exact ⟨fun _ => by decide, fun _ => trivial⟩
    · rw [if_neg hc]
      refine ⟨fun h heq => ?_, fun h => if_neg (Ne.symm h)⟩
      rw [if_pos heq.symm] at h
      exact hc h.symm

theorem count_escapedDollar_marked {text : Text} (h : escapedDollar ∉ text) :
    (marked text).count escapedDollar = text.count '$' := by
  induction text with
  | nil => rfl
  | cons c text ih =>
    have hrest := ih fun hmem => h (.tail _ hmem)
    rw [marked, List.map_cons, ← marked]
    by_cases hc : c = '$'
    · subst hc
      rw [if_pos rfl, List.count_cons_self, List.count_cons_self, hrest]
    · have hne : c ≠ escapedDollar := fun heq => h (heq ▸ .head _)
      rw [if_neg hc, List.count_cons_of_ne hne, List.count_cons_of_ne hc, hrest]

/-- The charges of `finish_value`. -/
def finishCharges (value : Text) : List Charge :=
  .scanned (len value) ::
    if escapedDollar ∈ value then
      [.valueSize (len (unescape value)), .emitted (len (unescape value)),
        .work (value.count escapedDollar)]
    else []

theorem finishValue_eq {value : Text} (h : Accepted value) :
    finishValue value = .payAll (finishCharges value) (.ret (unescape value)) := by
  have hlen := (len_unescape value).1
  rw [finishValue, rejectUnsupportedReferences_accepted h, finishCharges]
  by_cases hmem : escapedDollar ∈ value
  · have hrestore : restoreDollars value =
        .payAll [.valueSize (len (unescape value)), .emitted (len (unescape value)),
          .work (value.count escapedDollar)] (.ret (unescape value)) := by
      rw [restoreDollars, if_neg (by simpa using hmem), hlen]
      rfl
    rw [hrestore, if_pos hmem]
    rfl
  · have hrestore : restoreDollars value = .ret (unescape value) := by
      rw [restoreDollars, if_pos (by simpa using hmem), unescape_eq_self hmem]
      rfl
    rw [hrestore, if_neg hmem]
    rfl

/-- A frame for the depth changes no result of a program that only charges. -/
theorem run_scope_payAll {α β : Type} {cs : List Charge} {a : α} {k : α → Eval β} {b : β}
    {s : Interp.State Frames EvaluationBudget} :
    (evaluator.run (.scope .text (.payAll cs (.ret a)) k) s).1 = .ok b ↔
      (evaluator.run (.payAll cs (k a)) s).1 = .ok b := by
  rw [Interp.run]
  cases hspend : evaluator.spendAll cs s.budget with
  | some budget =>
    rw [@Interp.run_payAll_some _ _ _ _ _ _ _ evaluator cs
      { s with env := evaluator.push .text s.env } budget hspend,
      evaluator.run_payAll_some hspend]
    have hpop := evaluator.pop_push .text s.env
    simp only [Interp.run_ret, hpop]
  | none =>
    obtain ⟨c, hc⟩ := @Interp.run_payAll_none _ _ _ _ _ _ _ evaluator cs
      { s with env := evaluator.push .text s.env } hspend (.ret a)
    obtain ⟨c', hc'⟩ := evaluator.run_payAll_none hspend (k a)
    rw [hc']
    cases hrun : evaluator.run (.payAll cs (.ret a))
        { s with env := evaluator.push .text s.env } with
    | mk r t =>
      rw [hrun] at hc
      obtain rfl : r = _ := hc
      exact ⟨fun h => (by cases h), fun h => (by cases h)⟩

variable {ev : Evaluator} {files : Filesystem}

/-- The text fits the budget with its dollars doubled. -/
structure FitsDoubled (text : Text) : Prop where
  size : len text + 2 * text.count '$' ≤ maxValueBytes
  work : 3 * text.count '$' + lastPiece text ≤ maxWorkUnits

/-- The run of an evaluation of doubled dollars. -/
theorem run_doubled (text : Text) :
    ∃ cs, ExpansionCost cs [] text ∧ ∀ value,
      (evaluator.run (expressionProgram ev files (doubled text)) start).1 = .ok value ↔
        unescape (marked text) = value ∧
          Fits start.budget
            (.scanned (len (doubled text)) :: (cs ++ finishCharges (marked text))) := by
  obtain ⟨cs, hcs, hcost⟩ := @expandAll_doubled
    (evaluateReference ev files (expandText ev files 31)) text []
  refine ⟨cs, hcost, fun value => ?_⟩
  have hprogram : expressionProgram ev files (doubled text) =
      .scope .text (.payAll (.scanned (len (doubled text)) :: cs) (.ret (marked text)))
        finishValue := by
    have hexpand := expandText_succ ev files 31 (doubled text)
    rw [hcs, List.nil_append] at hexpand
    rw [expressionProgram, maxExpansionDepth, hexpand]
    rfl
  rw [hprogram, run_scope_payAll, finishValue_eq (accepted_plain (dollar_not_mem_marked text)),
    ← payAll_append, List.cons_append, run_payAll_ret start_within]

/-- What doubled dollars cost fits exactly if the marked text and the work do. -/
theorem fits_doubled_iff {text : Text} (hescaped : escapedDollar ∉ text) {cs : List Charge}
    (hcost : ExpansionCost cs [] text) :
    Fits start.budget (.scanned (len (doubled text)) :: (cs ++ finishCharges (marked text))) ↔
      FitsDoubled text := by
  have hmarked := len_marked text
  have hdoubled := len_doubled text
  have hunescape : unescape (marked text) = text := (unescape_marked text).mpr hescaped
  have hcount := count_escapedDollar_marked hescaped
  have hcountle : text.count '$' ≤ len text :=
    Nat.le_trans List.count_le_length (length_le_len text)
  have hmax : maxValueBytes = 4194304 ∧ maxScannedBytes = 67108864 ∧ maxEmittedBytes = 16777216 :=
    ⟨rfl, rfl, rfl⟩
  -- What `finish_value` adds, by whether there is a dollar.
  have hfinish : ((finishCharges (marked text)).map Charge.scannedBytes).sum = len (marked text) ∧
      ((finishCharges (marked text)).map Charge.emittedBytes).sum ≤ len text ∧
      ((finishCharges (marked text)).map Charge.workUnits).sum = text.count '$' ∧
      ((finishCharges (marked text)).map Charge.listItems).sum = 0 ∧
      ∀ n, .valueSize n ∈ finishCharges (marked text) → n = len text := by
    unfold finishCharges
    by_cases hmem : escapedDollar ∈ marked text
    · rw [if_pos hmem, hunescape, hcount]
      refine ⟨by simp [Charge.scannedBytes], by simp [Charge.emittedBytes],
        by simp [Charge.workUnits], rfl, fun n hn => ?_⟩
      simpa using hn
    · have hzero : text.count '$' = 0 := by
        rw [← hcount]
        exact List.count_eq_zero_of_not_mem hmem
      rw [if_neg hmem, hzero]
      refine ⟨by simp [Charge.scannedBytes], by simp [Charge.emittedBytes], rfl, rfl,
        fun n hn => ?_⟩
      simp at hn
  obtain ⟨hscanned, hemitted, hwork, hitems, hsizes⟩ := hfinish
  have hstart : start.budget.scannedBytes = 0 ∧ start.budget.emittedBytes = 0 ∧
      start.budget.workUnits = 0 ∧ start.budget.listItems = 0 := ⟨rfl, rfl, rfl, rfl⟩
  refine ⟨fun hf => ⟨?_, ?_⟩, fun hf => ⟨?_, ?_, ?_, ?_, ?_⟩⟩
  · by_cases hnil : text = []
    · subst hnil
      exact Nat.zero_le _
    · have := hf.sizes _ (.tail _ (List.mem_append_left _ (hcost.whole hnil)))
      rw [len_nil] at this
      omega
  · have := hf.work
    simp only [List.map_cons, List.map_append, List.sum_cons, List.sum_append, hcost.work, hwork,
      Charge.workUnits] at this
    omega
  · have := hf.size
    simp only [List.map_cons, List.map_append, List.sum_cons, List.sum_append, hcost.scanned,
      hscanned, Charge.scannedBytes]
    omega
  · have := hf.size
    simp only [List.map_cons, List.map_append, List.sum_cons, List.sum_append, hcost.emitted,
      Charge.emittedBytes]
    omega
  · have := hf.work
    simp only [List.map_cons, List.map_append, List.sum_cons, List.sum_append, hcost.work, hwork,
      Charge.workUnits]
    omega
  · simp only [List.map_cons, List.map_append, List.sum_cons, List.sum_append, hcost.items, hitems,
      Charge.listItems]
    exact Nat.zero_le _
  · intro n hn
    have := hf.size
    rcases List.mem_append.mp (List.mem_of_ne_of_mem (by simp) hn) with hn | hn
    · have := hcost.sizes n hn
      rw [len_nil] at this
      omega
    · rw [hsizes n hn]
      omega

/-- A text with its dollars doubled evaluates to itself exactly if the evaluator accepts the
context, the text does not hold the private-use character, and it fits the budget. -/
theorem evaluate_doubled_iff (files : Filesystem) (context : MakeExprContext) (text : Text) :
    evaluateMakeExpr files (doubled text) context = .ok text ↔
      (∃ ev, Evaluator.new context = .ok ev) ∧ escapedDollar ∉ text ∧ FitsDoubled text := by
  refine ⟨fun h => ?_, fun ⟨⟨ev, hnew⟩, hescaped, hfits⟩ => ?_⟩
  · obtain ⟨ev, hnew, hrun⟩ := evaluate_ok h
    obtain ⟨cs, hcost, hiff⟩ := @run_doubled ev files text
    obtain ⟨hsame, hfits⟩ := (hiff text).mp hrun
    have hescaped := (unescape_marked text).mp hsame
    exact ⟨⟨ev, hnew⟩, hescaped, (fits_doubled_iff hescaped hcost).mp hfits⟩
  · obtain ⟨cs, hcost, hiff⟩ := @run_doubled ev files text
    rw [evaluateMakeExpr, evaluate, hnew, Except.ok_bind]
    exact (hiff text).mpr ⟨(unescape_marked text).mpr hescaped,
      (fits_doubled_iff hescaped hcost).mpr hfits⟩

end MakeExpr

end ArosTools
