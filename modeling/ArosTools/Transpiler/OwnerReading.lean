import ArosTools.Program.Except
import ArosTools.Transpiler.OwnerParse

/-!
# What a makefile declares

`parse_file_lines` charges budgets all along. Without them, reading is a function of the lines and
the project globals alone: `readLine` reads the directive at a line, if there is one, as a `Rule`,
and `readLines` reads a file.

* `parseLine_reads`, `parseLines_reads` — an accepted file was read that way, and its declarations
  are those of its rules;
* `readLine_append`, `rulesOf_append` — what is complete is read alike whatever follows.
-/

namespace ArosTools

namespace Transpiler

namespace OwnerGraph

/-! ### Rules -/

/-- A directive: its marker, and its target and dependency tokens with their identities. -/
structure Rule where
  virtualTarget : Bool
  bareMarker : Bool
  targets : List (Bytes × Bytes)
  dependencies : List (Bytes × Bytes)
  deriving DecidableEq

namespace Rule

/-- The targets of a rule claim their makefile unless they are virtual; those of a bare marker
always do. -/
def claimsMakeOwner (r : Rule) : Bool := r.bareMarker || !r.virtualTarget

/-- The declarations of a rule, one for every target token. -/
def declarations (path : Bytes) (expandedLine : ℕ) (r : Rule) : List TargetDeclarationProvenance :=
  r.targets.map fun token => {
    expandedLine := expandedLine, file := path, rawTarget := token.1, target := token.2
    virtualTarget := r.virtualTarget, bareMarker := r.bareMarker
    claimsMakeOwner := r.claimsMakeOwner
    dependencies := r.dependencies.map fun d => ⟨d.1, d.2⟩ }

end Rule

/-- The logical line that starts with `logical`, and how many of the lines it takes. -/
def joined : List Bytes → Bytes → ℕ → Option (Bytes × ℕ)
  | [], logical, taken => if continued logical then none else some (logical, taken)
  | next :: lines, logical, taken =>
    if !continued logical then some (logical, taken)
    else if startsWith next "##M" then
      joined lines (logical.dropLast ++ next.getLast?.toList) (taken + 1)
    else if !startsWith next "#MM" || next.length < 4 then none
    else joined lines (logical.dropLast ++ next.drop 4) (taken + 1)

section

variable (globals : BTreeMap Bytes Bytes) (path : Bytes)

/-- The identity of a token. -/
def identity (token : Bytes) : Option Bytes :=
  (expandedBytes globals path token token.length token).toOption

/-- A token with its identity. -/
def resolved (token : Bytes) : Option (Bytes × Bytes) :=
  (identity globals path token).map fun name => (token, name)

/-- The tokens of a text. -/
def tokensOf (text : Bytes) : Option (List Bytes) := (tokenizeMakeArgs text path).toOption

/-- The directive at `line`, if there is one, and how many of the following `lines` it takes. -/
def readLine (line : Bytes) (lines : List Bytes) : Option (Option Rule × ℕ) :=
  if !startsWith line "#MM" then some (none, 0)
  else do
    let (logical, taken) ← joined lines line 0
    let (virtualTarget, rest) := marker logical
    if rest = [] then
      let next ← (lines.drop taken).head?
      let tokens ← tokensOf path (beforeColon next)
      let targets ← tokens.mapM (resolved globals path)
      pure (some ⟨virtualTarget, true, targets, []⟩, taken + 1)
    else
      let rawTargets ← tokensOf path (beforeColon rest)
      let rawDependencies ← tokensOf path (afterColon rest)
      let targets ← rawTargets.mapM (resolved globals path)
      let dependencies ← rawDependencies.mapM (resolved globals path)
      pure (some ⟨virtualTarget, false, targets, dependencies⟩, taken)

/-- The rules of a file with their lines; the next `skip` lines belong to a rule already read. -/
def readLines : ℕ → ℕ → List Bytes → Option (List (ℕ × Rule))
  | _, _, [] => some []
  | index, skip + 1, _ :: lines => readLines (index + 1) skip lines
  | index, 0, line :: lines => do
    let (rule, used) ← readLine globals path line lines
    let rules ← readLines (index + 1) used lines
    pure (rule.toList.map (fun r => (index + 1, r)) ++ rules)

end

/-! ### Parsing follows the reading -/

variable {globals : BTreeMap Bytes Bytes} {path : Bytes} {limits : Limits}

theorem joinContinuations_joined {lines : List Bytes} {logical : Bytes} {taken : ℕ} {spent : Spent}
    {c : Collected} (h : joinContinuations path limits lines logical taken spent = .ok c) :
    joined lines logical taken = some (c.logical, c.taken) := by
  induction lines generalizing logical taken spent with
  | nil =>
    rw [joinContinuations] at h
    obtain ⟨spent', -, h⟩ := Except.bind_ok h
    rw [joined]
    cases hc : continued logical with
    | false =>
      simp only [hc, Bool.not_false, if_true] at h
      cases h
      rfl
    | true =>
      simp only [hc, Bool.not_true, Bool.false_eq_true, if_false] at h
      split_ifs at h
      · cases h
      · cases h
  | cons next lines ih =>
    rw [joinContinuations] at h
    obtain ⟨spent', -, h⟩ := Except.bind_ok h
    rw [joined]
    cases hc : continued logical with
    | false =>
      simp only [hc, Bool.not_false, if_true] at h ⊢
      cases h
      rfl
    | true =>
      simp only [hc, Bool.not_true, Bool.false_eq_true, if_false] at h ⊢
      obtain ⟨-, h⟩ := ite_error_ok h
      by_cases hdisabled : startsWith next "##M" = true
      · rw [if_pos hdisabled] at h ⊢
        exact ih h
      · rw [if_neg hdisabled] at h ⊢
        obtain ⟨hmarked, h⟩ := ite_error_ok h
        obtain ⟨-, h⟩ := ite_error_ok h
        rw [if_neg hmarked]
        exact ih h

theorem substituteIdentity_resolved {token name : Bytes} {spent spent' : Spent}
    (h : substituteIdentity token globals path limits spent = .ok (name, spent')) :
    resolved globals path token = some (token, name) := by
  obtain ⟨length, -, h⟩ := Except.bind_ok h
  obtain ⟨-, h⟩ := ite_error_ok h
  obtain ⟨spent₁, -, h⟩ := Except.bind_ok h
  obtain ⟨result, hresult, h⟩ := Except.bind_ok h
  obtain ⟨-, h⟩ := ite_error_ok h
  obtain ⟨-, h⟩ := ite_error_ok h
  cases h
  rw [resolved, identity, hresult]
  rfl

theorem mapM_snoc {α β : Type} {f : α → Option β} {as : List α} {bs : List β} {a : α} {b : β}
    (has : as.mapM f = some bs) (ha : f a = some b) : (as ++ [a]).mapM f = some (bs ++ [b]) := by
  rw [List.mapM_append, has]
  simp [ha]

theorem substituteTargets_resolved {tokens : List Bytes} {spent spent' : Spent}
    {targets : List (Bytes × Bytes)}
    (h : substituteTargets globals path limits tokens spent = .ok (targets, spent')) :
    tokens.mapM (resolved globals path) = some targets := by
  refine Except.foldlM_ok (motive := fun done s =>
    done.mapM (resolved globals path) = some s.1) h rfl ?_
  rintro done raw ⟨targets, spent⟩ ⟨targets', spent'⟩ hdone hstep
  obtain ⟨⟨name, spent₁⟩, hname, ⟨⟩⟩ := Except.bind_ok hstep
  exact mapM_snoc hdone (substituteIdentity_resolved hname)

theorem substituteDependencies_resolved {tokens : List Bytes} {spent spent' : Spent}
    {dependencies : List (Bytes × Bytes)}
    (h : substituteDependencies globals path limits tokens spent = .ok (dependencies, spent')) :
    tokens.mapM (resolved globals path) = some dependencies := by
  refine Except.foldlM_ok (motive := fun done s =>
    done.mapM (resolved globals path) = some s.1) h rfl ?_
  rintro done raw ⟨dependencies, spent⟩ ⟨dependencies', spent'⟩ hdone hstep
  obtain ⟨⟨name, spent₁⟩, hname, hstep⟩ := Except.bind_ok hstep
  obtain ⟨spent₂, -, ⟨⟩⟩ := Except.bind_ok hstep
  exact mapM_snoc hdone (substituteIdentity_resolved hname)

theorem copyDependencies_ok {tokens : List (Bytes × Bytes)} {spent spent' : Spent}
    {copied : List DependencyProvenance}
    (h : copyDependencies limits tokens spent = .ok (copied, spent')) :
    copied = tokens.map fun d => ⟨d.1, d.2⟩ := by
  refine Except.foldlM_ok (motive := fun done s => s.1 = done.map fun d => ⟨d.1, d.2⟩) h rfl ?_
  rintro done ⟨raw, concrete⟩ ⟨copied, spent⟩ ⟨copied', spent'⟩ hdone hstep
  obtain ⟨spent₁, -, hstep⟩ := Except.bind_ok hstep
  obtain ⟨spent₂, -, ⟨⟩⟩ := Except.bind_ok hstep
  rw [List.map_append, ← hdone]
  rfl

/-! ### The targets of a file and its declarations -/

section Facts

variable (ds : List TargetDeclarationProvenance)

/-- Some declaration names the target. -/
def Declares (name : Bytes) : Prop := ∃ d ∈ ds, d.target = name

/-- Some declaration of the target in the file claims it. -/
def Claims (name file : Bytes) : Prop :=
  ∃ d ∈ ds, d.target = name ∧ d.file = file ∧ d.claimsMakeOwner = true

/-- Some declaration of the target lists the endpoint. -/
def Needs (name endpoint : Bytes) : Prop :=
  ∃ d ∈ ds, d.target = name ∧ ∃ p ∈ d.dependencies, p.concrete = endpoint

end Facts

section Facts

variable {ds ds' : List TargetDeclarationProvenance} {n f e : Bytes}

@[simp] theorem declares_append : Declares (ds ++ ds') n ↔ Declares ds n ∨ Declares ds' n := by
  simp only [Declares, List.mem_append, or_and_right, exists_or]

@[simp] theorem claims_append : Claims (ds ++ ds') n f ↔ Claims ds n f ∨ Claims ds' n f := by
  simp only [Claims, List.mem_append, or_and_right, exists_or]

@[simp] theorem needs_append : Needs (ds ++ ds') n e ↔ Needs ds n e ∨ Needs ds' n e := by
  simp only [Needs, List.mem_append, or_and_right, exists_or]

@[simp] theorem declares_singleton {d : TargetDeclarationProvenance} :
    Declares [d] n ↔ d.target = n := by simp [Declares]

@[simp] theorem claims_singleton {d : TargetDeclarationProvenance} :
    Claims [d] n f ↔ d.target = n ∧ d.file = f ∧ d.claimsMakeOwner = true := by simp [Claims]

@[simp] theorem needs_singleton {d : TargetDeclarationProvenance} :
    Needs [d] n e ↔ d.target = n ∧ ∃ p ∈ d.dependencies, p.concrete = e := by simp [Needs]

end Facts

/-- The targets of a file are those its declarations name, virtual if no declaration claims them,
with the endpoints the declarations list. -/
structure Recorded (path : Bytes) (targets : BTreeMap Bytes LocalTarget)
    (ds : List TargetDeclarationProvenance) : Prop where
  file : ∀ d ∈ ds, d.file = path
  known : ∀ n, n ∈ targets.keys ↔ Declares ds n
  claims : ∀ n t, targets.get n = some t → (t.virtualTarget = false ↔ Claims ds n path)
  needs : ∀ n t, targets.get n = some t → ∀ e, e ∈ t.dependencies ↔ Needs ds n e

theorem Recorded.empty : Recorded path .new [] :=
  ⟨nofun, fun n => by simp [BTreeMap.keys, BTreeMap.new, Declares], nofun, nofun⟩

theorem mergeLocalTarget_ok {targets targets' : BTreeMap Bytes LocalTarget} {name : Bytes}
    {virtualTarget : Bool} {dependencies : BTreeSet Bytes}
    (h : mergeLocalTarget targets name virtualTarget dependencies limits = .ok targets') :
    ∃ t, targets' = targets.insert name t ∧
      (t.virtualTarget = false ↔ virtualTarget = false ∨
        ∃ t₀, targets.get name = some t₀ ∧ t₀.virtualTarget = false) ∧
      ∀ e, e ∈ t.dependencies ↔ e ∈ dependencies ∨
        ∃ t₀, targets.get name = some t₀ ∧ e ∈ t₀.dependencies := by
  obtain ⟨-, h⟩ := ite_error_ok h
  cases hget : targets.get name with
  | none =>
    rw [hget] at h
    obtain ⟨-, ⟨⟩⟩ := ite_error_ok h
    exact ⟨_, rfl, by simp, by simp⟩
  | some t₀ =>
    rw [hget] at h
    obtain ⟨-, ⟨⟩⟩ := ite_error_ok h
    refine ⟨_, rfl, ?_, fun e => ?_⟩
    · simp only [Option.some.injEq, exists_eq_left', Bool.and_eq_false_iff]
      exact or_comm
    · simp only [BTreeSet.mem_extend, Option.some.injEq, exists_eq_left']
      exact or_comm

/-- **A declaration and the merge of its target keep each other's record.** -/
theorem Recorded.declare {targets targets' : BTreeMap Bytes LocalTarget}
    {ds : List TargetDeclarationProvenance} {d : TargetDeclarationProvenance}
    {virtualTarget : Bool} {dependencies : BTreeSet Bytes} (h : Recorded path targets ds)
    (hmerge : mergeLocalTarget targets d.target virtualTarget dependencies limits = .ok targets')
    (hfile : d.file = path) (hclaims : d.claimsMakeOwner = !virtualTarget)
    (hdependencies : ∀ e, e ∈ dependencies ↔ ∃ p ∈ d.dependencies, p.concrete = e) :
    Recorded path targets' (ds ++ [d]) := by
  obtain ⟨t, rfl, hvirtual, hneeds⟩ := mergeLocalTarget_ok hmerge
  -- what the declarations so far say of a target without an entry: nothing
  have habsent : ∀ n, targets.get n = none → ¬ Declares ds n := fun n hn hd =>
    BTreeMap.get_eq_none.mp hn ((h.known n).mpr hd)
  refine ⟨fun d' hd' => ?_, fun n => ?_, fun n t' ht' => ?_, fun n t' ht' e => ?_⟩
  · rcases List.mem_append.mp hd' with hd' | hd'
    · exact h.file d' hd'
    · exact (List.mem_singleton.mp hd') ▸ hfile
  · rw [BTreeMap.mem_keys, declares_append, declares_singleton, ← h.known, BTreeMap.mem_keys]
    by_cases hn : n = d.target
    · simp [hn]
    · simp [hn, Ne.symm hn]
  · rw [BTreeMap.get_insert] at ht'
    rw [claims_append, claims_singleton, hclaims]
    by_cases hn : n = d.target
    · rw [if_pos hn] at ht'
      cases ht'
      subst hn
      rw [hvirtual]
      cases hget : targets.get d.target with
      | none =>
        have hnone : ¬ Claims ds d.target path := fun ⟨d', hd', ht, _⟩ =>
          habsent _ hget ⟨d', hd', ht⟩
        simp [hnone, hfile]
      | some t₀ =>
        simp only [Option.some.injEq, exists_eq_left', h.claims _ _ hget, hfile, true_and,
          Bool.not_eq_true']
        exact or_comm
    · rw [if_neg hn] at ht'
      rw [h.claims n t' ht']
      simp [Ne.symm hn]
  · rw [BTreeMap.get_insert] at ht'
    rw [needs_append, needs_singleton]
    by_cases hn : n = d.target
    · rw [if_pos hn] at ht'
      cases ht'
      subst hn
      rw [hneeds, hdependencies]
      cases hget : targets.get d.target with
      | none =>
        have hnone : ¬ Needs ds d.target e := fun ⟨d', hd', ht, _⟩ =>
          habsent _ hget ⟨d', hd', ht⟩
        simp [hnone]
      | some t₀ =>
        simp only [Option.some.injEq, exists_eq_left', h.needs _ _ hget, true_and]
        exact or_comm
    · rw [if_neg hn] at ht'
      rw [h.needs n t' ht']
      simp [Ne.symm hn]

/-! ### One directive -/

variable {expandedLine : ℕ} {s s' : FileParse}

/-- A step of the parser that has read `ds`. -/
structure Adds (path : Bytes) (s : FileParse) (ds : List TargetDeclarationProvenance)
    (s' : FileParse) : Prop where
  declarations : s'.declarations = s.declarations ++ ds
  recorded : Recorded path s.targets s.declarations → Recorded path s'.targets s'.declarations

theorem parseBare_ok {virtualTarget : Bool} {next : Bytes}
    (h : parseBare globals path limits expandedLine virtualTarget next s = .ok s') :
    ∃ tokens targets, tokensOf path (beforeColon next) = some tokens ∧
      tokens.mapM (resolved globals path) = some targets ∧
      Adds path s (Rule.declarations path expandedLine ⟨virtualTarget, true, targets, []⟩) s' := by
  obtain ⟨tokens, htokens, h⟩ := Except.bind_ok h
  obtain ⟨seen, -, h⟩ := Except.bind_ok h
  have hread : tokensOf path (beforeColon next) = some tokens := by
    rw [tokensOf, htokens]
    rfl
  refine ⟨tokens, ?_⟩
  match tokens, h with
  | [raw], h =>
    obtain ⟨⟨name, spent⟩, hname, h⟩ := Except.bind_ok h
    obtain ⟨_, -, h⟩ := Except.bind_ok h
    obtain ⟨_, -, h⟩ := Except.bind_ok h
    obtain ⟨_, -, h⟩ := Except.bind_ok h
    obtain ⟨_, -, h⟩ := Except.bind_ok h
    obtain ⟨targets', hmerge, ⟨⟩⟩ := Except.bind_ok h
    have hresolved := substituteIdentity_resolved hname
    refine ⟨[(raw, name)], hread, by simp [hresolved], rfl, fun hrecorded => ?_⟩
    refine hrecorded.declare hmerge rfl rfl fun e => ?_
    simp

theorem declareTarget_ok {virtualTarget : Bool} {dependencyTokens : List (Bytes × Bytes)}
    {token : Bytes × Bytes}
    (h : declareTarget path limits expandedLine virtualTarget dependencyTokens
      (.collect (dependencyTokens.map Prod.snd)) s token = .ok s') :
    Adds path s (Rule.declarations path expandedLine
      ⟨virtualTarget, false, [token], dependencyTokens⟩) s' := by
  obtain ⟨raw, name⟩ := token
  obtain ⟨_, -, h⟩ := Except.bind_ok h
  obtain ⟨⟨dependencies, _⟩, hcopied, h⟩ := Except.bind_ok h
  obtain ⟨_, -, h⟩ := Except.bind_ok h
  obtain ⟨_, -, h⟩ := Except.bind_ok h
  obtain ⟨_, -, h⟩ := Except.bind_ok h
  obtain ⟨targets', hmerge, ⟨⟩⟩ := Except.bind_ok h
  cases copyDependencies_ok hcopied
  refine ⟨rfl, fun hrecorded => ?_⟩
  refine hrecorded.declare hmerge rfl rfl fun e => ?_
  simp

theorem parseRule_ok {logical rest : Bytes} {virtualTarget : Bool}
    (h : parseRule globals path limits expandedLine logical virtualTarget rest s = .ok s') :
    ∃ rawTargets rawDependencies targets dependencies,
      tokensOf path (beforeColon rest) = some rawTargets ∧
      tokensOf path (afterColon rest) = some rawDependencies ∧
      rawTargets.mapM (resolved globals path) = some targets ∧
      rawDependencies.mapM (resolved globals path) = some dependencies ∧
      Adds path s (Rule.declarations path expandedLine
        ⟨virtualTarget, false, targets, dependencies⟩) s' := by
  obtain ⟨rawTargets, htargets, h⟩ := Except.bind_ok h
  obtain ⟨rawDependencies, hdependencies, h⟩ := Except.bind_ok h
  obtain ⟨seen, -, h⟩ := Except.bind_ok h
  obtain ⟨-, h⟩ := ite_error_ok h
  obtain ⟨⟨targets, _⟩, hnames, h⟩ := Except.bind_ok h
  obtain ⟨⟨dependencies, _⟩, hendpoints, h⟩ := Except.bind_ok h
  obtain ⟨-, h⟩ := ite_error_ok h
  obtain ⟨-, h⟩ := ite_error_ok h
  obtain ⟨-, h⟩ := ite_error_ok h
  obtain ⟨pairs, -, h⟩ := Except.bind_ok h
  obtain ⟨provenance, -, h⟩ := Except.bind_ok h
  obtain ⟨_, -, h⟩ := Except.bind_ok h
  obtain ⟨_, -, h⟩ := Except.bind_ok h
  obtain ⟨_, -, h⟩ := Except.bind_ok h
  refine ⟨rawTargets, rawDependencies, targets, dependencies, ?_, ?_,
    substituteTargets_resolved hnames, substituteDependencies_resolved hendpoints, ?_⟩
  · rw [tokensOf, htargets]
    rfl
  · rw [tokensOf, hdependencies]
    rfl
  · refine Except.foldlM_ok (motive := fun done t => Adds path s (Rule.declarations path
      expandedLine ⟨virtualTarget, false, done, dependencies⟩) t) h ⟨?_, id⟩ ?_
    · simp [Rule.declarations]
    · intro done token t t' ht hstep
      have hstep := declareTarget_ok hstep
      refine ⟨?_, hstep.recorded ∘ ht.recorded⟩
      rw [hstep.declarations, ht.declarations, List.append_assoc]
      simp [Rule.declarations, Rule.claimsMakeOwner]

/-- **A round of the parser reads its line.** -/
theorem parseLine_reads {line : Bytes} {lines : List Bytes} {used : ℕ}
    (h : parseLine globals path limits expandedLine line lines s = .ok (s', used)) :
    ∃ rule, readLine globals path line lines = some (rule, used) ∧
      Adds path s (rule.elim [] (Rule.declarations path expandedLine)) s' := by
  obtain ⟨spent, -, h⟩ := Except.bind_ok h
  dsimp only at h
  by_cases hmm : startsWith line "#MM" = true
  · simp only [hmm, Bool.not_true, Bool.false_eq_true, if_false] at h
    obtain ⟨c, hcollected, h⟩ := Except.bind_ok h
    obtain ⟨c', hjoined, hcollected⟩ := Except.bind_ok hcollected
    obtain ⟨-, ⟨⟩⟩ := ite_error_ok hcollected
    have hjoined := joinContinuations_joined hjoined
    obtain ⟨-, h⟩ := ite_error_ok h
    obtain ⟨-, h⟩ := ite_error_ok h
    by_cases hbare : (marker c.logical).2 = []
    · rw [if_pos hbare] at h
      split at h
      · cases h
      · next next lines' hnext =>
        obtain ⟨s₁, hbareOk, ⟨⟩⟩ := Except.bind_ok h
        obtain ⟨tokens, targets, htokens, htargets, hadds⟩ := parseBare_ok hbareOk
        have hhead : (lines.drop c.taken).head? = some next := by rw [hnext, List.head?_cons]
        refine ⟨some _, ?_, hadds.declarations, hadds.recorded⟩
        simp [readLine, hmm, hjoined, hbare, hhead, htokens, htargets, -List.head?_drop]
    · rw [if_neg hbare] at h
      obtain ⟨s₁, hrule, ⟨⟩⟩ := Except.bind_ok h
      obtain ⟨rawTargets, rawDependencies, targets, dependencies, h₁, h₂, h₃, h₄, hadds⟩ :=
        parseRule_ok hrule
      refine ⟨some _, ?_, hadds.declarations, hadds.recorded⟩
      simp [readLine, hmm, hjoined, hbare, h₁, h₂, h₃, h₄]
  · have hmm' : startsWith line "#MM" = false := by simpa using hmm
    simp only [hmm', Bool.not_false, if_true] at h
    cases h
    refine ⟨none, ?_, ?_, id⟩
    · simp [readLine, hmm']
    · simp

/-- **An accepted file was read, and its declarations are those of its rules.** -/
theorem parseLines_reads {index skip : ℕ} {lines : List Bytes}
    (h : parseLines globals path limits index skip lines s = .ok s') :
    ∃ rules, readLines globals path index skip lines = some rules ∧
      Adds path s (rules.flatMap fun r => r.2.declarations path r.1) s' := by
  induction lines generalizing index skip s with
  | nil =>
    rw [parseLines] at h
    cases h
    exact ⟨[], by rw [readLines], by simp, id⟩
  | cons line lines ih =>
    cases skip with
    | succ skip =>
      rw [parseLines] at h
      obtain ⟨rules, hrules, hadds⟩ := ih h
      exact ⟨rules, by rw [readLines]; exact hrules, hadds⟩
    | zero =>
      rw [parseLines] at h
      obtain ⟨⟨s₁, used⟩, hline, h⟩ := Except.bind_ok h
      obtain ⟨rule, hread, hadds₁⟩ := parseLine_reads hline
      obtain ⟨rules, hrules, hadds₂⟩ := ih h
      refine ⟨rule.toList.map (fun r => (index + 1, r)) ++ rules, ?_, ?_,
        hadds₂.recorded ∘ hadds₁.recorded⟩
      · rw [readLines, hread]
        simp [hrules]
      · rw [hadds₂.declarations, hadds₁.declarations, List.append_assoc]
        cases rule <;> simp

/-! ### What is complete is read alike whatever follows -/

theorem joined_append {lines : List Bytes} {logical : Bytes} {taken : ℕ} {r : Bytes × ℕ}
    (h : joined lines logical taken = some r) (more : List Bytes) :
    joined (lines ++ more) logical taken = some r ∧ r.2 ≤ taken + lines.length := by
  induction lines generalizing logical taken with
  | nil =>
    rw [joined] at h
    split_ifs at h with hc
    cases h
    refine ⟨?_, by simp⟩
    -- a line that is not continued takes nothing
    cases more with
    | nil => simp [joined, hc]
    | cons next more => simp [joined, hc]
  | cons next lines ih =>
    rw [joined] at h
    rw [List.cons_append, joined, List.length_cons]
    split_ifs at h ⊢ with hc hdisabled hmarked
    · cases h
      exact ⟨rfl, by simp⟩
    · obtain ⟨hsame, hle⟩ := ih h
      exact ⟨hsame, by omega⟩
    · obtain ⟨hsame, hle⟩ := ih h
      exact ⟨hsame, by omega⟩

theorem readLine_append {line : Bytes} {lines : List Bytes} {rule : Option Rule} {used : ℕ}
    (h : readLine globals path line lines = some (rule, used)) (more : List Bytes) :
    readLine globals path line (lines ++ more) = some (rule, used) ∧ used ≤ lines.length := by
  unfold readLine at h ⊢
  by_cases hmm : (!startsWith line "#MM") = true
  · rw [if_pos hmm] at h ⊢
    cases h
    exact ⟨rfl, Nat.zero_le _⟩
  · rw [if_neg hmm] at h ⊢
    obtain ⟨⟨logical, taken⟩, hjoined, h⟩ := Option.bind_eq_some_iff.mp h
    obtain ⟨hsame, hle⟩ := joined_append hjoined more
    simp only [hsame, Option.bind_eq_bind, Option.bind_some]
    by_cases hbare : (marker logical).2 = []
    · simp only [hbare, if_true] at h ⊢
      obtain ⟨next, hnext, h⟩ := Option.bind_eq_some_iff.mp h
      have hlt : taken < lines.length := by
        by_contra hge
        rw [List.drop_of_length_le (by omega)] at hnext
        cases hnext
      have hnext' : ((lines ++ more).drop taken).head? = some next := by
        rw [List.drop_append_of_le_length (by omega)]
        rw [List.head?_append, hnext]
        rfl
      simp only [hnext', Option.bind_some]
      refine ⟨h, ?_⟩
      obtain ⟨_, -, h⟩ := Option.bind_eq_some_iff.mp h
      obtain ⟨_, -, ⟨⟩⟩ := Option.bind_eq_some_iff.mp h
      exact hlt
    · simp only [hbare, if_false] at h ⊢
      refine ⟨h, ?_⟩
      obtain ⟨_, -, h⟩ := Option.bind_eq_some_iff.mp h
      obtain ⟨_, -, h⟩ := Option.bind_eq_some_iff.mp h
      obtain ⟨_, -, h⟩ := Option.bind_eq_some_iff.mp h
      obtain ⟨_, -, ⟨⟩⟩ := Option.bind_eq_some_iff.mp h
      simpa using hle

/-- The rules of complete lines, without their places. -/
def rulesOf (globals : BTreeMap Bytes Bytes) (path : Bytes) (index skip : ℕ) (lines : List Bytes) :
    Option (List Rule) :=
  (readLines globals path index skip lines).map (List.map Prod.snd)

theorem rulesOf_nil (index skip : ℕ) : rulesOf globals path index skip [] = some [] := by
  cases skip <;> simp [rulesOf, readLines]

theorem rulesOf_skip (index skip : ℕ) (line : Bytes) (lines : List Bytes) :
    rulesOf globals path index (skip + 1) (line :: lines) =
      rulesOf globals path (index + 1) skip lines := rfl

theorem rulesOf_cons (index : ℕ) (line : Bytes) (lines : List Bytes) :
    rulesOf globals path index 0 (line :: lines) =
      (readLine globals path line lines).bind fun (rule, used) =>
        (rulesOf globals path (index + 1) used lines).map (rule.toList ++ ·) := by
  rw [rulesOf, readLines]
  cases readLine globals path line lines with
  | none => rfl
  | some r =>
    simp only [Option.bind_eq_bind, Option.bind_some, rulesOf]
    cases readLines globals path (index + 1) r.2 lines with
    | none => rfl
    | some rules => cases r.1 <;> simp

theorem rulesOf_index (index index' skip : ℕ) (lines : List Bytes) :
    rulesOf globals path index skip lines = rulesOf globals path index' skip lines := by
  induction lines generalizing index index' skip with
  | nil => rw [rulesOf_nil, rulesOf_nil]
  | cons line lines ih =>
    cases skip with
    | succ skip => rw [rulesOf_skip, rulesOf_skip, ih _ (index' + 1)]
    | zero =>
      rw [rulesOf_cons, rulesOf_cons]
      simp only [ih (index + 1) (index' + 1)]

/-- **What is complete is read alike whatever follows.** -/
theorem rulesOf_append {index skip : ℕ} {before after : List Bytes} {rules : List Rule}
    (h : rulesOf globals path index skip before = some rules) (hskip : skip ≤ before.length) :
    rulesOf globals path index skip (before ++ after) =
      (rulesOf globals path (index + before.length) 0 after).map (rules ++ ·) := by
  induction before generalizing index skip rules with
  | nil =>
    cases Nat.le_zero.mp hskip
    rw [rulesOf_nil] at h
    cases h
    simp
  | cons line before ih =>
    rw [List.cons_append]
    cases skip with
    | succ skip =>
      rw [rulesOf_skip] at h ⊢
      rw [ih h (Nat.le_of_succ_le_succ hskip), rulesOf_index _ (index + (line :: before).length)]
    | zero =>
      rw [rulesOf_cons] at h
      obtain ⟨⟨rule, used⟩, hread, h⟩ := Option.bind_eq_some_iff.mp h
      obtain ⟨rest, hrest, rfl⟩ := Option.map_eq_some_iff.mp h
      obtain ⟨hsame, hused⟩ := readLine_append hread after
      rw [rulesOf_cons, hsame, Option.bind_some]
      dsimp only
      rw [ih hrest hused, Option.map_map, rulesOf_index _ (index + (line :: before).length)]
      congr 1
      funext more
      exact (List.append_assoc ..).symm

end OwnerGraph

end Transpiler

end ArosTools
