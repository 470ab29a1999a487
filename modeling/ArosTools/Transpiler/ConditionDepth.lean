import ArosTools.Transpiler.VarCollect
import ArosTools.Verify.Coverage
import Mathlib.Logic.Relation

/-!
# The depth of condition operands

The transpiler and the verifier expand the operands of a condition with three functions that call
each other and pass a depth. All three lower it, and only `expand_condition_operand` looks at it. A
value may refer to its own variable, so the depth is all that ends the recursion, and lowering it at
zero would panic.

Here the expansion also gives the calls it makes, and a depth lowered at zero ends it.

* `ConditionDepth.conditionOperand_runs` : at an even depth no call lowers a depth at zero. An
  operand is expanded at an even depth and a reference at an odd one.
* `ConditionDepth.lt_of_cycle` : along calls from a function back to itself the depth gets smaller.
* `ConditionDepth.condition_depth_descends` : both, for both programs.
* `ConditionDepth.conditionOperand_transpiler` : the values are those of `expandConditionOperand`.
-/

namespace ArosTools

namespace ConditionDepth

open Str MakeVars

/-! ### Calls -/

/-- The functions that call each other. -/
inductive Function where
  /-- `expand_condition_operand` -/
  | operand
  /-- `expand_condition_reference` -/
  | reference
  /-- `expand_condition_function` -/
  | function
  deriving DecidableEq, Repr

/-- A call with the text it expands and its `depth`. -/
structure Call where
  callee : Function
  text : Text
  depth : ℕ
  deriving DecidableEq, Repr

/-- An expansion: its value and the calls made so far with the call that made each. The call that
lowers its depth at zero ends it instead. -/
abbrev Run : Type → Type := OptionT (StateT (List (Call × Call)) (Except Call))

/-- A call is made. -/
def enter (caller call : Call) : Run Unit := OptionT.lift (modify (· ++ [(caller, call)]))

/-- `depth - 1` at zero. -/
def underflow (caller : Call) : Run Text := OptionT.mk fun _ => .error caller

/-! ### The two programs -/

/-- What `expand_condition_reference` finds for a variable. -/
inductive Lookup where
  /-- nothing that is known -/
  | unknown
  /-- a value that is expanded in turn -/
  | raw (value : Text)
  /-- a value that is taken as it is -/
  | known (value : Text)
  deriving DecidableEq, Repr

/-- In what the programs differ. -/
structure Dialect where
  lookup : Text → Lookup
  /-- What is done to an expanded operand. -/
  finish : Text → Text

/-- The lookup after the values of the makefile: the target, then the names that are local. -/
def Lookup.ofTarget (value : Option Text) (isLocal : Bool) : Lookup :=
  match value with
  | some value => .known value
  | none => if isLocal then .known [] else .unknown

/-- The expansion of `make_vars.rs`. -/
def transpiler (s : VarScope) (context : TargetContext) (line : ℕ) : Dialect where
  lookup body :=
    if s.pathIsConditionalAt body line then .unknown
    else match s.rawAt body line with
      | some value => .raw value
      | none => .ofTarget (context.value body) (body ∈ s.localNames)
  finish := trim

/-- `MakeConditionScope`. -/
structure MakeConditionScope where
  values : BTreeMap Text (Option Text) := .new
  localNames : BTreeSet Text := .new

/-- `ArchitectureScope::make_value`. -/
def makeValue (target : Verify.ArchitectureScope) (name : Text) : Option Text :=
  if name = lit "AROS_TARGET_CPU" || name = lit "CPU" then some target.cpu
  else if name = lit "AROS_TARGET_ARCH" || name = lit "ARCH" then some target.platform
  else if name = lit "AROS_TARGET_PLATFORM" then some (target.platform ++ '-' :: target.cpu)
  else if name = lit "AROS_TOOLCHAIN" then some target.toolchain
  else if name = lit "AROS_TARGET_BOOTLOADER" then some target.bootloader
  else if name = lit "AROS_TARGET_CPU32" then
    some (if target.cpu = lit "x86_64" then lit "i386" else [])
  else none

/-- The expansion of `aros-verify`. -/
def verifier (scope : MakeConditionScope) (target : Verify.ArchitectureScope) : Dialect where
  lookup body :=
    match scope.values.get body with
    | some (some value) => .raw value
    | some none => .unknown
    | none => .ofTarget (makeValue target body) (body ∈ scope.localNames.elems)
  finish value := unquoteConditionValue (trim value)

/-- `MAX_EXPANSION_DEPTH`. -/
def maxExpansionDepth : ℕ := 16

/-! ### The expansion -/

/-- `expand_condition_function`; `operand` expands a text at `depth - 1` for the call given. -/
def conditionFunction (operand : Call → Text → Run Text) (depth : ℕ) (body : Text) : Run Text :=
  let operand := operand ⟨.function, body, depth⟩
  if body.any isWhitespace then
    let name := body.takeWhile fun c => !isWhitespace c
    let args := trim (body.dropWhile fun c => !isWhitespace c)
    let words (text : Text) : Text := [' '].intercalate (splitWhitespace text)
    if name = lit "strip" then words <$> operand args
    else if name = lit "findstring" then do
      let parts ← OptionT.mk (pure (splitTopLevelComma args))
      let needle ← operand parts.1
      let haystack ← operand parts.2
      pure (if (cutAt needle haystack).isSome then needle else [])
    else if name = lit "filter" || name = lit "filter-out" then do
      let parts ← OptionT.mk (pure (splitTopLevelComma args))
      let patterns ← operand parts.1
      let text ← operand parts.2
      pure ([' '].intercalate ((splitWhitespace text).filter fun word =>
        (splitWhitespace patterns).any (conditionPatternMatches · word) == (name = lit "filter")))
    else failure
  else failure

section Dialect

variable (p : Dialect)

/-- `expand_condition_reference`. -/
def conditionReference (operand : Call → Text → Run Text) (depth : ℕ) (raw : Text) : Run Text :=
  let body := trim raw
  if isScopedVariableName body then
    match p.lookup body with
    | .unknown => failure
    | .raw value => operand ⟨.reference, raw, depth⟩ value
    | .known value => pure value
  else do
    enter ⟨.reference, raw, depth⟩ ⟨.function, body, depth⟩
    conditionFunction operand depth body

/-- What a piece of an operand contributes; `depth` is that of the references in it. -/
def conditionPart (operand : Call → Text → Run Text) (caller : Call) (depth : ℕ) : Piece → Run Text
  | .char c => pure [c]
  | .escape => pure ['$']
  | .stray => failure
  | .unclosed _ => failure
  | .reference _ body => do
    enter caller ⟨.reference, body, depth⟩
    conditionReference p operand depth body

/-- `expand_condition_operand`. The references in an operand lower their own depth, which is zero
when that of the operand is one. -/
def conditionOperand : ℕ → Text → Run Text
  | 0, _ => failure
  | 1, raw => do
    let parts ← (pieces raw).mapM
      (conditionPart p (fun caller _ => underflow caller) ⟨.operand, raw, 1⟩ 0)
    pure (p.finish parts.flatten)
  | depth + 2, raw => do
    let parts ← (pieces raw).mapM (conditionPart p (fun caller text => do
      enter caller ⟨.operand, text, depth⟩
      conditionOperand depth text) ⟨.operand, raw, depth + 2⟩ (depth + 1))
    pure (p.finish parts.flatten)

end Dialect

/-- The expansion of a text from the outside. -/
def expand (p : Dialect) (depth : ℕ) (raw : Text) : Except Call (Option Text × List (Call × Call)) :=
  (conditionOperand p depth raw).run.run []

example : expand ⟨fun _ => .raw (lit "$(A)"), trim⟩ 3 (lit "$(A)") =
    .error ⟨.reference, lit "A", 0⟩ := by decide

example : expand ⟨fun _ => .raw (lit "$(A)"), trim⟩ 4 (lit "$(A)") =
    .ok (none, [(⟨.operand, lit "$(A)", 4⟩, ⟨.reference, lit "A", 3⟩),
      (⟨.reference, lit "A", 3⟩, ⟨.operand, lit "$(A)", 2⟩),
      (⟨.operand, lit "$(A)", 2⟩, ⟨.reference, lit "A", 1⟩),
      (⟨.reference, lit "A", 1⟩, ⟨.operand, lit "$(A)", 0⟩)]) := by decide

/-! ### Expansions that lower no depth at zero -/

/-- The step from a call to one it makes. -/
inductive Step : Call → Call → Prop
  /-- A reference in an operand. -/
  | reference {raw body : Text} {depth : ℕ} :
      Step ⟨.operand, raw, depth + 1⟩ ⟨.reference, body, depth⟩
  /-- The value of a variable. -/
  | value {body raw : Text} {depth : ℕ} : Step ⟨.reference, body, depth + 1⟩ ⟨.operand, raw, depth⟩
  /-- A reference that is no variable. -/
  | function {raw body : Text} {depth : ℕ} :
      Step ⟨.reference, raw, depth⟩ ⟨.function, body, depth⟩
  /-- An argument of a function. -/
  | argument {body raw : Text} {depth : ℕ} :
      Step ⟨.function, body, depth + 1⟩ ⟨.operand, raw, depth⟩

section Runs

variable {α β : Type}

/-- The expansion ends with this value, and every call in it is a step. -/
def Runs (x : Run α) (value : Option α) : Prop :=
  ∀ log, ∃ made, x.run.run log = .ok (value, log ++ made) ∧ ∀ e ∈ made, Step e.1 e.2

theorem runs_option (value : Option α) : Runs (OptionT.mk (pure value)) value := fun log =>
  ⟨[], by rw [List.append_nil]; rfl, by simp⟩

theorem runs_pure (a : α) : Runs (pure a) (some a) := runs_option (some a)

theorem runs_failure : Runs (failure : Run α) none := runs_option none

theorem runs_enter {caller call : Call} (h : Step caller call) : Runs (enter caller call) (some ()) :=
  fun _ => ⟨[(caller, call)], rfl, by simpa using h⟩

theorem runs_bind {x : Run α} {f : α → Run β} {value : Option α} {next : α → Option β}
    (hx : Runs x value) (hf : ∀ a, Runs (f a) (next a)) : Runs (x >>= f) (value.bind next) := by
  intro log
  obtain ⟨made, hrun, hmade⟩ := hx log
  cases value with
  | none =>
    refine ⟨made, ?_, hmade⟩
    rw [OptionT.run_bind, Option.elimM, StateT.run_bind, hrun]
    rfl
  | some a =>
    obtain ⟨more, hnext, hmore⟩ := hf a (log ++ made)
    refine ⟨made ++ more, ?_, ?_⟩
    · rw [OptionT.run_bind, Option.elimM, StateT.run_bind, hrun, ← List.append_assoc]
      exact hnext
    · intro e he
      rcases List.mem_append.mp he with he | he
      · exact hmade e he
      · exact hmore e he

theorem runs_map {x : Run α} {value : Option α} (hx : Runs x value) (f : α → β) :
    Runs (f <$> x) (value.map f) := by
  rw [map_eq_pure_bind, Option.map_eq_bind]
  exact runs_bind hx fun a => runs_pure (f a)

theorem runs_mapM {f : α → Run β} {value : α → Option β} {l : List α}
    (h : ∀ a, Runs (f a) (value a)) : Runs (l.mapM f) (l.mapM value) := by
  induction l with
  | nil => exact runs_pure []
  | cons a l ih =>
    rw [List.mapM_cons, List.mapM_cons]
    exact runs_bind (h a) fun b => runs_bind ih fun bs => runs_pure (b :: bs)

end Runs

/-! ### Values -/

section Values

variable (p : Dialect) (operand : Text → Option Text)

/-- The value of a reference, for the values of operands. -/
def referenceValue (raw : Text) : Option Text :=
  if isScopedVariableName (trim raw) then
    match p.lookup (trim raw) with
    | .unknown => none
    | .raw value => operand value
    | .known value => some value
  else expandConditionFunction operand (trim raw)

/-- The value of a piece. -/
def partValue : Piece → Option Text
  | .char c => some [c]
  | .escape => some ['$']
  | .stray => none
  | .unclosed _ => none
  | .reference _ body => referenceValue p operand body

/-- The value of an operand after so many references into one another. -/
def operandValue : ℕ → Text → Option Text
  | 0, _ => none
  | n + 1, raw => ((pieces raw).mapM (partValue p (operandValue n))).map
      fun parts => p.finish parts.flatten

variable {p operand}

theorem conditionFunction_runs {run : Call → Text → Run Text} {depth : ℕ} {body : Text}
    (h : ∀ text, Runs (run ⟨.function, body, depth⟩ text) (operand text)) :
    Runs (conditionFunction run depth body) (expandConditionFunction operand body) := by
  simp only [conditionFunction, expandConditionFunction]
  split_ifs
  · exact runs_map (h _) _
  · exact runs_bind (runs_option _) fun parts => runs_bind (h parts.1) fun needle =>
      runs_bind (h parts.2) fun haystack => runs_pure _
  · exact runs_bind (runs_option _) fun parts => runs_bind (h parts.1) fun patterns =>
      runs_bind (h parts.2) fun text => runs_pure _
  · exact runs_failure
  · exact runs_failure

theorem conditionReference_runs {run : Call → Text → Run Text} {depth : ℕ} {raw : Text}
    (h : ∀ callee body text, callee ≠ .operand → Runs (run ⟨callee, body, depth⟩ text) (operand text)) :
    Runs (conditionReference p run depth raw) (referenceValue p operand raw) := by
  simp only [conditionReference, referenceValue]
  split_ifs
  · cases p.lookup (trim raw) with
    | unknown => exact runs_failure
    | raw value => exact h _ _ value (by decide)
    | known value => exact runs_pure value
  · exact runs_bind (runs_enter .function) fun _ =>
      conditionFunction_runs fun text => h _ _ text (by decide)

/-- At an even depth the expansion ends with its value, without a depth lowered at zero. -/
theorem conditionOperand_runs (p : Dialect) (n : ℕ) (raw : Text) :
    Runs (conditionOperand p (2 * n) raw) (operandValue p n raw) := by
  induction n generalizing raw with
  | zero => exact runs_failure
  | succ n ih =>
    have hpart : ∀ piece, Runs (conditionPart p (fun caller text => do
        enter caller ⟨.operand, text, 2 * n⟩
        conditionOperand p (2 * n) text) ⟨.operand, raw, 2 * n + 2⟩ (2 * n + 1) piece)
        (partValue p (operandValue p n) piece) := by
      intro piece
      cases piece with
      | char c => exact runs_pure [c]
      | escape => exact runs_pure ['$']
      | stray => exact runs_failure
      | unclosed rest => exact runs_failure
      | reference opener body =>
        refine runs_bind (runs_enter .reference) fun _ => conditionReference_runs ?_
        intro callee inner text hcallee
        have hstep : Step ⟨callee, inner, 2 * n + 1⟩ ⟨.operand, text, 2 * n⟩ := by
          cases callee with
          | operand => exact absurd rfl hcallee
          | reference => exact .value
          | function => exact .argument
        exact runs_bind (runs_enter hstep) fun _ => ih text
    have hparts := runs_map (runs_mapM (l := pieces raw) hpart) fun parts => p.finish parts.flatten
    rw [map_eq_pure_bind] at hparts
    exact hparts

end Values

theorem conditionPart_transpiler (s : VarScope) (context : TargetContext) (line : ℕ)
    (operand : Text → Option Text) (piece : Piece) :
    partValue (transpiler s context line) operand piece = conditionPiece s context line operand piece := by
  cases piece with
  | reference opener body =>
    simp only [partValue, conditionPiece, referenceValue, expandConditionReference, transpiler]
    by_cases hname : isScopedVariableName (trim body) = true
    · rw [if_pos hname, if_pos hname]
      by_cases hunknown : s.pathIsConditionalAt (trim body) line = true
      · rw [if_pos hunknown, if_pos hunknown]
      · rw [if_neg hunknown, if_neg hunknown]
        cases s.rawAt (trim body) line with
        | some value => rfl
        | none =>
          cases context.value (trim body) with
          | some value => rfl
          | none => by_cases hlocal : trim body ∈ s.localNames <;> simp [Lookup.ofTarget, hlocal]
    · rw [if_neg hname, if_neg hname]
  | _ => rfl

/-- The values of the transpiler are those of the expansion without the calls. -/
theorem conditionOperand_transpiler (s : VarScope) (context : TargetContext) (line n : ℕ)
    (raw : Text) :
    operandValue (transpiler s context line) n raw =
      expandConditionOperand s context line (2 * n) raw := by
  induction n generalizing raw with
  | zero => rfl
  | succ n ih =>
    have hvalues : operandValue (transpiler s context line) n =
        expandConditionOperand s context line (2 * n) := funext ih
    have hparts : partValue (transpiler s context line)
        (expandConditionOperand s context line (2 * n)) =
        conditionPiece s context line (expandConditionOperand s context line (2 * n)) :=
      funext fun piece => conditionPart_transpiler s context line _ piece
    rw [operandValue, hvalues, hparts]
    rfl

/-! ### Cycles -/

/-- Along calls the depth gets smaller, or a reference has called a function at its own depth. -/
theorem depth_of_calls {made : List (Call × Call)} (hmade : ∀ e ∈ made, Step e.1 e.2) {a b : Call}
    (h : Relation.TransGen (fun caller call => (caller, call) ∈ made) a b) :
    b.depth < a.depth ∨ b.depth = a.depth ∧ a.callee = .reference ∧ b.callee = .function := by
  induction h with
  | single h =>
    cases hmade _ h with
    | reference => exact .inl (Nat.lt_succ_self _)
    | value => exact .inl (Nat.lt_succ_self _)
    | function => exact .inr ⟨rfl, rfl, rfl⟩
    | argument => exact .inl (Nat.lt_succ_self _)
  | tail _ hlast ih =>
    left
    cases hmade _ hlast with
    | reference =>
      rcases ih with hlt | ⟨heq, -, hcallee⟩
      · exact (Nat.lt_succ_self _).trans hlt
      · cases hcallee
    | value =>
      rcases ih with hlt | ⟨heq, -, hcallee⟩
      · exact (Nat.lt_succ_self _).trans hlt
      · cases hcallee
    | function =>
      -- A function is called by a reference alone, and the call before it ended in one.
      rcases ih with hlt | ⟨heq, -, hcallee⟩
      · exact hlt
      · cases hcallee
    | argument =>
      rcases ih with hlt | ⟨heq, -, -⟩
      · exact (Nat.lt_succ_self _).trans hlt
      · exact heq ▸ Nat.lt_succ_self _

theorem lt_of_cycle {made : List (Call × Call)} (hmade : ∀ e ∈ made, Step e.1 e.2) {a b : Call}
    (h : Relation.TransGen (fun caller call => (caller, call) ∈ made) a b)
    (hsame : a.callee = b.callee) : b.depth < a.depth := by
  rcases depth_of_calls hmade h with hlt | ⟨-, ha, hb⟩
  · exact hlt
  · rw [ha, hb] at hsame
    cases hsame

/-- The expansion ends without a depth lowered at zero, and every way from a call to another call
of the same function lowers the depth. -/
def Descends (p : Dialect) (depth : ℕ) (raw : Text) : Prop :=
  ∃ value made, expand p depth raw = .ok (value, made) ∧ ∀ a b : Call,
    Relation.TransGen (fun caller call => (caller, call) ∈ made) a b → a.callee = b.callee →
      b.depth < a.depth

theorem descends_even (p : Dialect) (n : ℕ) (raw : Text) : Descends p (2 * n) raw := by
  obtain ⟨made, hrun, hmade⟩ := conditionOperand_runs p n raw []
  exact ⟨operandValue p n raw, made, hrun, fun _ _ h hsame => lt_of_cycle hmade h hsame⟩

/-- **The expansion of conditions is well founded.** From the depth at which either program starts,
in every scope and for every operand, no depth is lowered at zero and every recursive cycle lowers
it. -/
theorem condition_depth_descends :
    (∀ (s : VarScope) (context : TargetContext) (line : ℕ) (raw : Text),
      Descends (transpiler s context line) maxDepthForImmediateExpansion raw) ∧
    ∀ (scope : MakeConditionScope) (target : Verify.ArchitectureScope) (raw : Text),
      Descends (verifier scope target) maxExpansionDepth raw :=
  ⟨fun s context line raw => descends_even (transpiler s context line) 8 raw,
    fun scope target raw => descends_even (verifier scope target) 8 raw⟩

end ConditionDepth

end ArosTools
