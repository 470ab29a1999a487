import ArosTools.Transpiler.MakeForeach

/-!
# What an evaluation depends on

* `evaluation_without_files` : with the file system disabled the results are the same for every
  state of the file system.
* `call_isolated` : a call sees its own arguments and, of the bindings around it, only the names
  that it does not bind itself.
* `call_unresolved` : a number that nothing binds is an unresolved variable.
-/

namespace ArosTools

namespace MakeExpr

open Str Eval Scoped

variable {ev : Evaluator} {files files' : Filesystem} {expand : Text → Eval Text} {e e' : Frames}

/-! ### The file system -/

theorem wildcard_disabled (hev : ev.filesystemEnabled = false) (patterns : Text)
    (regularFilesOnly : Bool) :
    wildcard ev files patterns regularFilesOnly = wildcard ev files' patterns regularFilesOnly := by
  rw [wildcard, wildcard, hev]
  rfl

theorem evaluateFunction_disabled (hev : ev.filesystemEnabled = false) (name rawArgs : Text) :
    evaluateFunction ev files expand name rawArgs =
      evaluateFunction ev files' expand name rawArgs := by
  have hwildcard : wildcard ev files = wildcard ev files' := by
    funext patterns regularFilesOnly
    exact wildcard_disabled hev patterns regularFilesOnly
  have hfunction : evaluateWildcard ev files expand = evaluateWildcard ev files' expand := by
    funext name rawArgs
    rw [evaluateWildcard, evaluateWildcard, hwildcard]
  have hcall : evaluateCall ev files expand = evaluateCall ev files' expand := by
    funext name rawArgs
    rw [evaluateCall, evaluateCall, hwildcard]
  rw [evaluateFunction, evaluateFunction, hfunction, hcall]

theorem expandText_disabled (hev : ev.filesystemEnabled = false) (depth : ℕ) :
    expandText ev files depth = expandText ev files' depth := by
  induction depth with
  | zero => rfl
  | succ depth ih =>
    funext raw
    have hreference : evaluateReference ev files (expandText ev files depth) =
        evaluateReference ev files' (expandText ev files' depth) := by
      funext body
      rw [evaluateReference, evaluateReference, ih]
      simp only [@evaluateFunction_disabled ev files files' _ hev]
    rw [expandText, expandText, hreference]

theorem new_filesystemEnabled {context : MakeExprContext} (h : Evaluator.new context = .ok ev) :
    ev.filesystemEnabled = context.filesystemEnabled := by
  unfold Evaluator.new at h
  split at h
  · cases h
  · obtain ⟨sourceText, -, h⟩ := Except.bind_eq_ok.mp h
    obtain ⟨relative, -, h⟩ := Except.bind_eq_ok.mp h
    rw [← Except.ok.inj h]

/-- **Evaluation without the file system.** In a context that disables the file system, both entry
points return the same for every state of it. -/
theorem evaluation_without_files (context : MakeExprContext)
    (hcontext : context.filesystemEnabled = false) (files files' : Filesystem) (raw : Text) :
    evaluateMakeExpr files raw context = evaluateMakeExpr files' raw context ∧
      evaluateMakeList files raw context = evaluateMakeList files' raw context := by
  rw [evaluateMakeExpr, evaluateMakeExpr, evaluateMakeList, evaluateMakeList, evaluate, evaluate,
    evaluate, evaluate]
  cases hnew : Evaluator.new context with
  | error h => simp only [Except.error_bind, and_self]
  | ok ev =>
    have hev : ev.filesystemEnabled = false := (new_filesystemEnabled hnew).trans hcontext
    have htext := @expandText_disabled ev files files' hev maxExpansionDepth
    simp only [Except.ok_bind, expressionProgram, listProgram, htext, and_self]

/-- A `wildcard` inside the body of a `foreach`, with two different file systems. -/
theorem evaluation_without_files_foreach :
    evaluateMakeExpr noFiles (lit "$(foreach x,a b,$(wildcard $(x)*))")
        { emptyContext with filesystemEnabled := false } =
      evaluateMakeExpr ⟨fun _ => .error (lit "no such directory")⟩
        (lit "$(foreach x,a b,$(wildcard $(x)*))")
        { emptyContext with filesystemEnabled := false } :=
  (evaluation_without_files { emptyContext with filesystemEnabled := false } rfl noFiles
    ⟨fun _ => .error (lit "no such directory")⟩ (lit "$(foreach x,a b,$(wildcard $(x)*))")).1

/-! ### Frames of a call -/

/-- The names that a call with `count` arguments binds. -/
def Positional (count : ℕ) (name : Text) : Prop := ∃ i ≤ count, name = decimal i

/-- Two stacks at the same point of an evaluation that agree on every binding other than those of
a call with `count` arguments. -/
structure AgreeOutside (count : ℕ) (e e' : Frames) : Prop where
  depth : e.depth = e'.depth
  chain : e.expansionChain = e'.expansionChain
  lookup : ∀ name, ¬ Positional count name →
    lookupBinding name e.loopVars = lookupBinding name e'.loopVars

/-- Stacks that answer every question alike. -/
structure Agree (e e' : Frames) : Prop where
  depth : e.depth = e'.depth
  chain : e.expansionChain = e'.expansionChain
  lookup : ∀ name, lookupBinding name e.loopVars = lookupBinding name e'.loopVars

theorem lookupBinding_pushed (name : Text) (outer inner : List (Text × Text)) :
    lookupBinding name (outer ++ inner) =
      (lookupBinding name inner).or (lookupBinding name outer) := by
  rw [lookupBinding, lookupBinding, lookupBinding, List.reverse_append, List.find?_append]
  cases inner.reverse.find? (·.1 = name) <;> rfl

theorem agree_similar : evaluator.Similar Agree where
  answer q e e' h := by
    cases q with
    | expansionChain => exact h.chain
    | loopVar name => exact h.lookup name
  push f e e' h := by
    cases f with
    | text => exact ⟨congrArg (· + 1) h.depth, h.chain, h.lookup⟩
    | expanding name => exact ⟨h.depth, congrArg (· ++ [name]) h.chain, h.lookup⟩
    | loopVars bindings =>
      refine ⟨h.depth, h.chain, fun name => ?_⟩
      change lookupBinding name (e.loopVars ++ bindings) =
        lookupBinding name (e'.loopVars ++ bindings)
      rw [lookupBinding_pushed, lookupBinding_pushed, h.lookup name]

theorem lookupBinding_isSome {name : Text} {bindings : List (Text × Text)} :
    (lookupBinding name bindings).isSome ↔ name ∈ bindings.map (·.1) := by
  rw [lookupBinding, Option.isSome_map, List.find?_isSome]
  simp

/-- The bindings of a call: `0` is the callee and the numbers from 1 on are the arguments. -/
def callBindings (callee : Text) (arguments : List Text) : List (Text × Text) :=
  (decimal 0, callee) :: (arguments.mapIdx fun i value => (decimal (i + 1), value))

theorem mem_callBindings {callee : Text} {arguments : List Text} {binding : Text × Text} :
    binding ∈ callBindings callee arguments ↔
      binding = (decimal 0, callee) ∨
        ∃ i value, arguments[i]? = some value ∧ binding = (decimal (i + 1), value) := by
  rw [callBindings, List.mem_cons, List.mem_iff_getElem?]
  simp only [List.getElem?_mapIdx, Option.map_eq_some_iff]
  constructor
  · rintro (h | ⟨i, value, hvalue, h⟩)
    · exact .inl h
    · exact .inr ⟨i, value, hvalue, h.symm⟩
  · rintro (h | ⟨i, value, hvalue, h⟩)
    · exact .inl h
    · exact .inr ⟨i, value, hvalue, h.symm⟩

/-- No name is bound twice by a call. -/
theorem callBindings_functional {callee name a b : Text} {arguments : List Text}
    (ha : (name, a) ∈ callBindings callee arguments)
    (hb : (name, b) ∈ callBindings callee arguments) : a = b := by
  rw [mem_callBindings] at ha hb
  rcases ha with ha | ⟨i, value, hi, ha⟩ <;> rcases hb with hb | ⟨j, value', hj, hb⟩ <;>
    simp only [Prod.mk.injEq] at ha hb
  · rw [ha.2, hb.2]
  · have := decimal_injective (ha.1.symm.trans hb.1)
    omega
  · have := decimal_injective (ha.1.symm.trans hb.1)
    omega
  · obtain rfl : i = j := by have := decimal_injective (ha.1.symm.trans hb.1); omega
    rw [ha.2, hb.2, ← Option.some_inj, ← hi, hj]

theorem lookupBinding_some {name value : Text} {bindings : List (Text × Text)}
    (h : lookupBinding name bindings = some value) : (name, value) ∈ bindings := by
  rw [lookupBinding, Option.map_eq_some_iff] at h
  obtain ⟨⟨bound, found⟩, hfind, rfl⟩ := h
  have hname : bound = name := by simpa using List.find?_some hfind
  subst hname
  exact List.mem_reverse.mp (List.mem_of_find?_eq_some hfind)

theorem lookupBinding_callBindings {callee name value : Text} {arguments : List Text}
    (h : (name, value) ∈ callBindings callee arguments) :
    lookupBinding name (callBindings callee arguments) = some value := by
  have hsome : (lookupBinding name (callBindings callee arguments)).isSome :=
    lookupBinding_isSome.mpr (List.mem_map.mpr ⟨(name, value), h, rfl⟩)
  obtain ⟨found, hfound⟩ := Option.isSome_iff_exists.mp hsome
  rw [hfound, callBindings_functional (lookupBinding_some hfound) h]

/-- Once a call has bound its names, stacks that agreed on the others agree on all of them. -/
theorem AgreeOutside.push {callee : Text} {arguments : List Text}
    (h : AgreeOutside arguments.length e e') :
    Agree (evaluator.push (.loopVars (callBindings callee arguments)) e)
      (evaluator.push (.loopVars (callBindings callee arguments)) e') := by
  refine ⟨h.depth, h.chain, fun name => ?_⟩
  change lookupBinding name (e.loopVars ++ _) = lookupBinding name (e'.loopVars ++ _)
  rw [lookupBinding_pushed, lookupBinding_pushed]
  by_cases hname : Positional arguments.length name
  · obtain ⟨i, hi, rfl⟩ := hname
    have hsome : (lookupBinding (decimal i) (callBindings callee arguments)).isSome := by
      rw [lookupBinding_isSome]
      cases i with
      | zero => exact List.mem_map.mpr ⟨(decimal 0, callee), mem_callBindings.mpr (.inl rfl), rfl⟩
      | succ i =>
        refine List.mem_map.mpr ⟨(decimal (i + 1), arguments[i]), mem_callBindings.mpr (.inr
          ⟨i, arguments[i], List.getElem?_eq_getElem hi, rfl⟩), rfl⟩
    obtain ⟨found, hfound⟩ := Option.isSome_iff_exists.mp hsome
    rw [hfound, Option.some_or, Option.some_or]
  · rw [h.lookup name hname]

/-- The bindings that the arguments of a call are given. -/
theorem value_bindArguments (args : List Text) (index : ℕ) :
    evaluator.value (bindArguments expand index args) e =
      (args.mapM fun raw => evaluator.value (expand raw) e) >>= fun values =>
        .ok (values.mapIdx fun i value => (decimal (index + i), value)) := by
  induction args generalizing index with
  | nil => rfl
  | cons argument rest ih =>
    rw [bindArguments, Interp.value_bind, List.mapM_cons]
    cases evaluator.value (expand argument) e with
    | error h => rfl
    | ok value =>
      rw [Except.ok_bind, Interp.value_bind, ih]
      generalize rest.mapM (fun raw => evaluator.value (expand raw) e) = outcome
      cases outcome with
      | error h => rfl
      | ok values =>
        have hindex : ∀ i, index + 1 + i = index + (i + 1) := fun i => by omega
        simp [pure, Except.pure, List.mapIdx_cons, hindex]

theorem callBindings_eq (callee : Text) (values : List Text) :
    ((decimal 0, callee) :: values.mapIdx fun i value => (decimal (1 + i), value)) =
      callBindings callee values := by
  simp only [callBindings, Nat.add_comm]

theorem length_of_mapM {ε α β : Type} {f : α → Except ε β} {xs : List α} {ys : List β}
    (h : xs.mapM f = .ok ys) : ys.length = xs.length := by
  induction xs generalizing ys with
  | nil =>
    obtain rfl := Except.ok.inj h
    rfl
  | cons x xs ih =>
    rw [List.mapM_cons] at h
    obtain ⟨y, -, h⟩ := Except.bind_eq_ok.mp h
    obtain ⟨rest, hrest, h⟩ := Except.bind_eq_ok.mp h
    obtain rfl := Except.ok.inj h
    rw [List.length_cons, List.length_cons, ih hrest]

theorem alike_pay (c : Charge) : evaluator.Alike (pay c) e e' := .charge c (.ret ())

theorem run_resolveVariable (name : Text) (s : Interp.State Frames EvaluationBudget) :
    evaluator.run (resolveVariable ev name) s =
      (evaluator.value (resolveVariable ev name) s.env, s) := by
  rw [resolveVariable, Interp.run, Interp.value_ask]
  cases evaluator.answer (.loopVar name) s.env with
  | some value => rfl
  | none =>
    change evaluator.run (ofExcept (resolveUnbound ev s.env.expansionChain name)) s = _
    change _ = (evaluator.value (ofExcept (resolveUnbound ev s.env.expansionChain name)) s.env, s)
    cases resolveUnbound ev s.env.expansionChain name <;> rfl

theorem alike_resolveVariable {name : Text}
    (h : evaluator.value (resolveVariable ev name) e =
      evaluator.value (resolveVariable ev name) e') :
    evaluator.Alike (resolveVariable ev name) e e' := by
  intro b
  rw [run_resolveVariable, run_resolveVariable]
  exact ⟨h, rfl⟩

theorem alike_bindArguments {args : List Text} (h : ∀ raw ∈ args, evaluator.Alike (expand raw) e e')
    (index : ℕ) : evaluator.Alike (bindArguments expand index args) e e' := by
  induction args generalizing index with
  | nil => exact .ret _
  | cons argument rest ih =>
    refine .bind (h argument (by simp)) fun value _ => ?_
    refine .bind (ih (fun raw hraw => h raw (by simp [hraw])) (index + 1)) fun bindings _ => .ret _

theorem alike_callVariable {callee : Text} {args : List Text}
    (hbody : evaluator.value (resolveVariable ev callee) e =
      evaluator.value (resolveVariable ev callee) e')
    (hargs : ∀ raw ∈ args, evaluator.Alike (expand raw) e e')
    (hagree : AgreeOutside args.length e e') :
    evaluator.Alike (callVariable ev expand callee args) e e' := by
  refine .bind (alike_resolveVariable hbody) fun body _ => ?_
  refine .bind (alike_bindArguments hargs 1) fun bindings hbindings => ?_
  refine .bind (alike_pay _) fun _ _ => .scope _ ?_
  rw [value_bindArguments] at hbindings
  obtain ⟨values, hvalues, hbindings⟩ := Except.bind_eq_ok.mp hbindings
  obtain rfl := Except.ok.inj hbindings
  rw [callBindings_eq]
  rw [← length_of_mapM hvalues] at hagree
  exact .of_similar agree_similar _ hagree.push

theorem alike_evaluateCall {name rawArgs rawCallee callee : Text} {args : List Text}
    (hsplit : splitTopLevel rawArgs ',' = .ok (rawCallee :: args))
    (hcallee : evaluator.value (expand (trim rawCallee)) e = .ok callee)
    (hfunction : trim callee ≠ lit "WILDCARD")
    (hbody : evaluator.value (resolveVariable ev (trim callee)) e =
      evaluator.value (resolveVariable ev (trim callee)) e')
    (hexpand : ∀ raw ∈ trim rawCallee :: args, evaluator.Alike (expand raw) e e')
    (hagree : AgreeOutside args.length e e') :
    evaluator.Alike (evaluateCall ev files expand name rawArgs) e e' := by
  rw [evaluateCall, functionArgumentsAtLeast, hsplit, ofExcept_ok, ret_bind,
    if_neg (by simp)]
  refine .bind (.bind (alike_pay _) fun _ _ => .bind (alike_pay _) fun _ _ => .ret _)
    fun found hfound => ?_
  obtain rfl : rawCallee :: args = found := Except.ok.inj hfound
  refine .bind (hexpand _ (by simp)) fun value hvalue => ?_
  obtain rfl : callee = value := Except.ok.inj (hcallee.symm.trans hvalue)
  rw [if_neg hfunction]
  exact alike_callVariable hbody (fun raw hraw => hexpand raw (by simp [hraw])) hagree

/-! ### Numbers that nothing binds -/

section DirVars

variable {P G α β : Type}

/-- An expansion of the directory table that fails from every state. -/
def DirVars.Fails (p : DirVars.Expansion G α) : Prop :=
  ∀ st, (StateT.run (OptionT.run p) st).1 = none

theorem DirVars.Fails.bind {p : DirVars.Expansion G β} {f : β → DirVars.Expansion G α}
    (h : ∀ a, DirVars.Fails (f a)) : DirVars.Fails (p >>= f) := by
  intro st
  rw [OptionT.run_bind, Option.elimM, StateT.run_bind]
  rcases StateT.run (OptionT.run p) st with ⟨_ | a, st'⟩
  · rfl
  · exact h a st'

theorem DirVars.Fails.first {p : DirVars.Expansion G β} (hp : DirVars.Fails p)
    (f : β → DirVars.Expansion G α) : DirVars.Fails (p >>= f) := by
  intro st
  have hst := hp st
  rw [OptionT.run_bind, Option.elimM, StateT.run_bind]
  rcases hrun : StateT.run (OptionT.run p) st with ⟨_ | a, st'⟩
  · rfl
  · rw [hrun] at hst
    cases hst

theorem DirVars.expandName_fails {dirs : DirVars P} {ask : DirVars.Local G} {name : Text}
    {expand : Text → DirVars.Expansion G Text} (hask : ∀ notes, (ask name notes).1 = none)
    (hdirs : dirs.resolved name = none) :
    DirVars.Fails (DirVars.expandName dirs ask expand name) := by
  rintro ⟨budget, notes⟩
  have hrun : StateT.run (OptionT.run (DirVars.askLocal ask name)) (budget, notes) =
      (some none, (budget, (ask name notes).2)) := by
    rcases hanswer : ask name notes with ⟨answer, left⟩
    obtain rfl : answer = none := by simpa [hanswer] using hask notes
    change (some (ask name notes).1, (budget, (ask name notes).2)) = _
    rw [hanswer]
  rw [DirVars.expandName, OptionT.run_bind, Option.elimM, StateT.run_bind, hrun]
  simp only [hdirs]
  rfl

theorem DirVars.expandWithDepth_fails {dirs : DirVars P} {ask : DirVars.Local G} {name : Text}
    (hname : ∀ c ∈ name, c ≠ ')' ∧ c ≠ '$' ∧ c ≠ ' ') (hask : ∀ notes, (ask name notes).1 = none)
    (hdirs : dirs.resolved name = none) (depth : ℕ) :
    DirVars.Fails (DirVars.expandWithDepth dirs ask depth (lit "$(" ++ name ++ lit ")")) := by
  cases depth with
  | zero => exact fun _ => rfl
  | succ depth =>
    have hsplit : DirVars.splitReference (lit "$(" ++ name ++ lit ")") =
        ([], some (name ++ [')'])) := rfl
    have htake : (name ++ [')']).takeWhile (· ≠ ')') = name :=
      (takeWhile_ne_append (fun h => (hname _ h).1 rfl) []).1
    have hplain : (name.contains '$' || name.contains ' ') = false := by
      rw [Bool.or_eq_false_iff]
      constructor
      · simpa using fun h => (hname _ h).2.1 rfl
      · simpa using fun h => (hname _ h).2.2 rfl
    have hrest : ∀ fuel out, DirVars.Fails (DirVars.expandRest dirs ask
        (DirVars.expandWithDepth dirs ask depth) (fuel + 1) (lit "$(" ++ name ++ lit ")") out) := by
      intro fuel out
      rw [DirVars.expandRest, hsplit]
      refine .bind fun out => ?_
      rw [if_pos (by simp), htake]
      simp only [hplain, Bool.false_eq_true, if_false]
      exact .bind fun _ => .first (DirVars.expandName_fails hask hdirs) _
    rw [DirVars.expandWithDepth]
    split
    · exact .bind fun _ => .bind fun _ => hrest _ _
    · exact fun _ => rfl
theorem DirVars.expandWith_fails {dirs : DirVars P} {ask : DirVars.Local G} {raw : Text}
    (h : DirVars.Fails (DirVars.expandWithDepth dirs ask DirVars.maxDepth raw)) (notes : G) :
    ∃ names left, DirVars.expandWith dirs raw ask notes = (.error names, left) := by
  have hrun := h ({}, notes)
  rw [DirVars.expandWith]
  rcases hstate : StateT.run (OptionT.run (DirVars.expandWithDepth dirs ask DirVars.maxDepth raw))
    ({}, notes) with ⟨_ | value, state⟩
  · simp only
    split
    · exact ⟨_, _, rfl⟩
    · exact ⟨_, _, rfl⟩
    · split <;> exact ⟨_, _, rfl⟩
  · rw [hstate] at hrun
    cases hrun

end DirVars

theorem decimal_digit {n : ℕ} {c : Char} (h : c ∈ decimal n) : c.isDigit = true :=
  Nat.isDigit_of_mem_toDigits (by decide) (by decide) h

theorem contextValue_decimal (n : ℕ) : contextValue ev (decimal n) = none := by
  have hne : ∀ text : Text, (∃ c ∈ text, c.isDigit = false) → decimal n ≠ text := by
    rintro text ⟨c, hc, hdigit⟩ rfl
    rw [decimal_digit hc] at hdigit
    cases hdigit
  rw [contextValue, if_neg (hne _ ⟨'S', by decide, by decide⟩),
    if_neg (hne _ ⟨'T', by decide, by decide⟩), if_neg (hne _ ⟨'C', by decide, by decide⟩)]

/-- A number that no frame, file or table defines does not resolve. -/
theorem value_resolveVariable_number {n : ℕ} (hloop : lookupBinding (decimal n) e.loopVars = none)
    (hlookup : ev.lookup (decimal n) = none) (hraw : ev.scope.rawAt (decimal n) = none)
    (hdirs : ev.dirs.resolved (decimal n) = none) :
    ∃ error, evaluator.value (resolveVariable ev (decimal n)) e = .error (.error error) := by
  have hanswer : evaluator.answer (.loopVar (decimal n)) e = none := hloop
  have hchain : evaluator.answer .expansionChain e = e.expansionChain := rfl
  rw [resolveVariable, Interp.value_ask, hanswer]
  simp only [Interp.value_ask, hchain, value_ofExcept, resolveUnbound, contextValue_decimal,
    hlookup, hraw, Option.or_none]
  cases hguard : guardReason ev (decimal n) with
  | some detail => exact ⟨_, rfl⟩
  | none =>
    have hname : ∀ c ∈ decimal n, c ≠ ')' ∧ c ≠ '$' ∧ c ≠ ' ' := by
      intro c hc
      have hdigit := decimal_digit hc
      refine ⟨?_, ?_, ?_⟩ <;> rintro rfl <;> revert hdigit <;> decide
    have hask : ∀ notes, (nestedLocal ev e.expansionChain (decimal n) notes).1 = none := by
      intro notes
      rw [nestedLocal, contextValue_decimal]
      simp only [hguard, hlookup, hraw, Option.none_or, ite_self]
      rfl
    have htable : ev.dirs.expand (lit "$(" ++ decimal n ++ lit ")") = none :=
      DirVars.expandWithDepth_fails hname (fun _ => rfl) hdirs _ _
    obtain ⟨names, left, hmixed⟩ :=
      DirVars.expandWith_fails (DirVars.expandWithDepth_fails hname hask hdirs _) none
    simp only [resolveDirectory, htable, hmixed]
    cases left with
    | none => exact ⟨_, rfl⟩
    | some refused => exact ⟨_, rfl⟩

/-! ### Isolation -/

/-- The result of a call: the body of the callee, expanded with the arguments bound. -/
theorem value_evaluateCall {name rawArgs rawCallee callee body : Text} {args values : List Text}
    (hsplit : splitTopLevel rawArgs ',' = .ok (rawCallee :: args))
    (hcallee : evaluator.value (expand (trim rawCallee)) e = .ok callee)
    (hfunction : trim callee ≠ lit "WILDCARD")
    (hbody : evaluator.value (resolveVariable ev (trim callee)) e = .ok body)
    (hvalues : args.mapM (fun raw => evaluator.value (expand raw) e) = .ok values) :
    evaluator.value (evaluateCall ev files expand name rawArgs) e =
      evaluator.value (expand body)
        (evaluator.push (.loopVars (callBindings (trim callee) values)) e) := by
  have harguments : evaluator.value (functionArgumentsAtLeast name rawArgs 1) e =
      .ok (rawCallee :: args) := by
    rw [functionArgumentsAtLeast, hsplit, ofExcept_ok, ret_bind, if_neg (by simp)]
    rfl
  rw [evaluateCall, Interp.value_bind, harguments, Except.ok_bind, Interp.value_bind, hcallee,
    Except.ok_bind, if_neg hfunction, callVariable, Interp.value_bind, hbody, Except.ok_bind,
    Interp.value_bind, value_bindArguments, hvalues, Except.ok_bind, Except.ok_bind,
    callBindings_eq, Interp.value_bind, chargeItems, value_pay, Except.ok_bind, Interp.value_scope]
  cases evaluator.value (expand body) _ <;> rfl

/-- A number that nothing defines cannot be expanded. -/
theorem value_expandVariable_number {n : ℕ} (hloop : lookupBinding (decimal n) e.loopVars = none)
    (hlookup : ev.lookup (decimal n) = none) (hraw : ev.scope.rawAt (decimal n) = none)
    (hdirs : ev.dirs.resolved (decimal n) = none) :
    ∃ error, evaluator.value (expandVariable ev expand (decimal n)) e = .error (.error error) := by
  obtain ⟨error, herror⟩ := value_resolveVariable_number hloop hlookup hraw hdirs
  rw [expandVariable, Interp.value_bind, value_checkCycle]
  by_cases hmem : decimal n ∈ e.expansionChain
  · rw [if_pos hmem]
    exact ⟨_, rfl⟩
  · rw [if_neg hmem, Except.ok_bind, Interp.value_bind, herror]
    exact ⟨error, rfl⟩

/-- A text without dollars expands alike on all stacks. -/
theorem alike_expandText_plain {text : Text} (h : '$' ∉ text) (hne : text ≠ []) (depth : ℕ) :
    evaluator.Alike (expandText ev files (depth + 1) text) e e' := by
  rw [expandText_succ]
  refine .scope _ (.bind (alike_pay _) fun _ _ => ?_)
  rw [expandAll_plain h hne]
  exact .bind (alike_pay _) fun _ _ => .bind (alike_pay _) fun _ _ =>
    .bind (alike_pay _) fun _ _ => .ret _

end MakeExpr

end ArosTools
