import ArosTools.Transpiler.OwnerReading
import ArosTools.Transpiler.OwnerSelect

/-!
# The owner graph and its declarations agree

The merge of the files keeps `Agrees`: the known targets, the dependencies and the owners are what
the declarations merged so far say.

* `parseExpandedFiles_ok` — an accepted map of files was read file by file, and its graph agrees
  with the declarations of the rules;
* `parse_provenance` — so the graph can be rebuilt from the declarations, and splitting a rule over
  several lines changes nothing else.
-/

namespace ArosTools

namespace Transpiler

open OwnerGraph

namespace MetaMakeOwnerGraph

/-! ### A graph and what is said of it -/

/-- The graph knows the targets of `K`, has the owners `C` gives and the dependencies `N` gives,
and no others. -/
structure Agrees (K : Bytes → Prop) (C N : Bytes → Bytes → Prop) (g : MetaMakeOwnerGraph) :
    Prop where
  known : ∀ n, n ∈ g.knownTargets ↔ K n
  keyed : ∀ n, n ∈ g.dependencies.keys ↔ K n
  needs : ∀ n e, e ∈ g.dependenciesOf n ↔ N n e
  owned : ∀ n, n ∈ g.owners.keys ↔ ∃ f, C n f
  owners : ∀ n f, f ∈ g.ownersOf n ↔ C n f

variable {K K' : Bytes → Prop} {C C' N N' : Bytes → Bytes → Prop} {g g' : MetaMakeOwnerGraph}

theorem Agrees.empty : Agrees (fun _ => False) (fun _ _ => False) (fun _ _ => False) empty where
  known n := by simp [MetaMakeOwnerGraph.empty]
  keyed n := by simp [MetaMakeOwnerGraph.empty, BTreeMap.keys, BTreeMap.new]
  needs n e := by simp [MetaMakeOwnerGraph.empty, dependenciesOf]
  owned n := by simp [MetaMakeOwnerGraph.empty, BTreeMap.keys, BTreeMap.new]
  owners n f := by simp [MetaMakeOwnerGraph.empty, ownersOf]

theorem Agrees.congr (h : Agrees K C N g) (hknown : ∀ n, K n ↔ K' n)
    (hclaims : ∀ n f, C n f ↔ C' n f) (hneeds : ∀ n e, N n e ↔ N' n e) :
    Agrees K' C' N' g where
  known n := (h.known n).trans (hknown n)
  keyed n := (h.keyed n).trans (hknown n)
  needs n e := (h.needs n e).trans (hneeds n e)
  owned n := (h.owned n).trans (exists_congr fun f => hclaims n f)
  owners n f := (h.owners n f).trans (hclaims n f)

/-- Maps to sets with the same keys and the same elements under every key are equal. -/
theorem setMap_ext {m m' : BTreeMap Bytes (BTreeSet Bytes)}
    (hkeys : ∀ n, n ∈ m.keys ↔ n ∈ m'.keys)
    (helems : ∀ n e, e ∈ (m.get n).elim [] BTreeSet.elems ↔ e ∈ (m'.get n).elim [] BTreeSet.elems) :
    m = m' := by
  refine BTreeMap.ext fun n => ?_
  have hn := helems n
  cases hm : m.get n with
  | none =>
    have hkey : n ∉ m'.keys := fun h => BTreeMap.get_eq_none.mp hm ((hkeys n).mpr h)
    exact (BTreeMap.get_eq_none.mpr hkey).symm
  | some s =>
    obtain ⟨s', hs'⟩ := BTreeMap.mem_keys.mp ((hkeys n).mp (BTreeMap.mem_keys.mpr ⟨s, hm⟩))
    rw [hm, hs'] at hn
    rw [hs']
    exact congrArg some (BTreeSet.ext hn)

/-- **What is said of a graph determines its targets, dependencies and owners.** -/
theorem Agrees.unique (h : Agrees K C N g) (h' : Agrees K C N g') :
    g.knownTargets = g'.knownTargets ∧ g.dependencies = g'.dependencies ∧ g.owners = g'.owners := by
  refine ⟨BTreeSet.ext fun n => ?_, setMap_ext (fun n => ?_) fun n e => ?_,
    setMap_ext (fun n => ?_) fun n f => ?_⟩
  · rw [h.known, h'.known]
  · rw [h.keyed, h'.keyed]
  · exact (h.needs n e).trans (h'.needs n e).symm
  · rw [h.owned, h'.owned]
  · exact (h.owners n f).trans (h'.owners n f).symm

/-- The graph agrees with a list of declarations. -/
def AgreesWith (ds : List TargetDeclarationProvenance) (g : MetaMakeOwnerGraph) : Prop :=
  Agrees (Declares ds) (Claims ds) (OwnerGraph.Needs ds) g

/-! ### Rebuilding -/

/-- A target of which nothing but its name, the endpoints it needs and the file that claims it, if
one does, is known, put into a graph. -/
def addTarget (g : MetaMakeOwnerGraph) (name : Bytes) (endpoints : List Bytes)
    (owner : Option Bytes) : MetaMakeOwnerGraph :=
  let edges := ((g.dependencies.get name).getD .new).extend endpoints
  { g with
    knownTargets := g.knownTargets.insert name
    dependencies := g.dependencies.insert name edges
    owners := owner.elim g.owners fun file =>
      g.owners.alter name fun owners => (owners.getD .new).insert file }

/-- The graph of a list of declarations. -/
def rebuild (ds : List TargetDeclarationProvenance) : MetaMakeOwnerGraph :=
  { ds.foldl (fun g d => g.addTarget d.target (d.dependencies.map DependencyProvenance.concrete)
      (if d.claimsMakeOwner then some d.file else none)) empty with
    declarations := ds }

theorem mem_elim_getD {s : Option (BTreeSet Bytes)} {a : Bytes} :
    a ∈ s.getD .new ↔ a ∈ s.elim [] BTreeSet.elems := by
  cases s with
  | none => exact ⟨fun h => absurd h BTreeSet.notMem_new, nofun⟩
  | some s => exact Iff.rfl

theorem Agrees.addTarget (h : Agrees K C N g) (name : Bytes) (endpoints : List Bytes)
    (owner : Option Bytes) :
    Agrees (fun n => K n ∨ n = name) (fun n f => C n f ∨ n = name ∧ owner = some f)
      (fun n e => N n e ∨ n = name ∧ e ∈ endpoints) (g.addTarget name endpoints owner) where
  known n := by rw [← h.known]; exact BTreeSet.mem_insert
  keyed n := by
    rw [← h.keyed, MetaMakeOwnerGraph.addTarget]
    simp only [BTreeMap.mem_keys, BTreeMap.get_insert]
    by_cases hn : n = name
    · simp [hn]
    · simp [hn]
  needs n e := by
    rw [← h.needs, MetaMakeOwnerGraph.addTarget, dependenciesOf, dependenciesOf]
    simp only [BTreeMap.get_insert]
    by_cases hn : n = name
    · subst hn
      simp only [if_true, true_and, Option.elim_some]
      rw [← BTreeSet.mem_def, BTreeSet.mem_extend, mem_elim_getD]
    · simp [hn]
  owned n := by
    cases owner with
    | none =>
      have howned := h.owned n
      simpa [MetaMakeOwnerGraph.addTarget] using howned
    | some file =>
      have howned := h.owned n
      rw [BTreeMap.mem_keys] at howned
      simp only [MetaMakeOwnerGraph.addTarget, Option.elim_some, BTreeMap.mem_keys,
        BTreeMap.get_alter]
      by_cases hn : n = name
      · simp only [hn, if_true, Option.some.injEq, exists_eq', true_iff]
        exact ⟨file, .inr ⟨trivial, rfl⟩⟩
      · simp [hn, howned]
  owners n f := by
    rw [← h.owners]
    cases owner with
    | none => simp [MetaMakeOwnerGraph.addTarget, ownersOf]
    | some file =>
      simp only [MetaMakeOwnerGraph.addTarget, Option.elim_some, ownersOf, BTreeMap.get_alter]
      by_cases hn : n = name
      · subst hn
        simp only [if_true, true_and, Option.elim_some, Option.some.injEq]
        rw [← BTreeSet.mem_def, BTreeSet.mem_insert, mem_elim_getD, eq_comm]
      · simp [hn]

theorem AgreesWith.addDeclaration {ds : List TargetDeclarationProvenance} (h : AgreesWith ds g)
    (d : TargetDeclarationProvenance) :
    AgreesWith (ds ++ [d]) (g.addTarget d.target (d.dependencies.map DependencyProvenance.concrete)
      (if d.claimsMakeOwner then some d.file else none)) := by
  refine (Agrees.addTarget h _ _ _).congr (fun n => ?_) (fun n f => ?_) fun n e => ?_
  · rw [declares_append, declares_singleton, eq_comm]
  · rw [claims_append, claims_singleton, eq_comm (a := n)]
    cases d.claimsMakeOwner with
    | false => simp
    | true => simp
  · rw [needs_append, needs_singleton, eq_comm (a := n), List.mem_map]

theorem agreesWith_rebuild (ds : List TargetDeclarationProvenance) :
    AgreesWith ds (rebuild ds) := by
  suffices hmain : AgreesWith ds (ds.foldl (fun g d => g.addTarget d.target
      (d.dependencies.map DependencyProvenance.concrete)
      (if d.claimsMakeOwner then some d.file else none)) empty) from
    ⟨hmain.known, hmain.keyed, hmain.needs, hmain.owned, hmain.owners⟩
  induction ds using List.reverseRecOn with
  | nil =>
    refine Agrees.empty.congr (fun n => ?_) (fun n f => ?_) fun n e => ?_
    · simp [Declares]
    · simp [Claims]
    · simp [OwnerGraph.Needs]
  | append_singleton ds d ih =>
    rw [List.foldl_append]
    exact ih.addDeclaration d

/-- **A graph that agrees with its declarations is rebuilt from them.** -/
theorem AgreesWith.eq_rebuild (h : AgreesWith g.declarations g) : g = rebuild g.declarations := by
  obtain ⟨hknown, hdependencies, howners⟩ := Agrees.unique h (agreesWith_rebuild g.declarations)
  have hdeclarations : g.declarations = (rebuild g.declarations).declarations := rfl
  generalize rebuild g.declarations = g' at *
  obtain ⟨_, _, _, _⟩ := g
  obtain ⟨_, _, _, _⟩ := g'
  cases hknown
  cases hdependencies
  cases howners
  cases hdeclarations
  rfl

/-! ### Merging -/

variable {globals : BTreeMap Bytes Bytes} {limits : Limits} {path : Bytes}

theorem mergeEdge_ok {edges edges' : BTreeSet Bytes} {count count' : ℕ} {spent spent' : Spent}
    {e : Bytes} (h : mergeEdge limits (edges, count, spent) e = .ok (edges', count', spent')) :
    edges' = edges.insert e := by
  obtain ⟨_, -, h⟩ := Except.bind_ok h
  by_cases he : e ∈ edges
  · rw [if_pos he] at h
    cases h
    exact BTreeSet.ext fun a => ⟨fun ha => BTreeSet.mem_insert.mpr (.inl ha),
      fun ha => (BTreeSet.mem_insert.mp ha).elim id fun hae => hae ▸ he⟩
  · rw [if_neg he] at h
    obtain ⟨_, -, ⟨⟩⟩ := Except.bind_ok h
    rfl

theorem mergeEdges_ok {edges edges' : BTreeSet Bytes} {count count' : ℕ} {spent spent' : Spent}
    {es : List Bytes} (h : es.foldlM (mergeEdge limits) (edges, count, spent) =
      .ok (edges', count', spent')) : edges' = edges.extend es := by
  refine Except.foldlM_ok (motive := fun done s => s.1 = edges.extend done) h rfl ?_
  rintro done e ⟨edges₁, count₁, spent₁⟩ ⟨edges₂, count₂, spent₂⟩ hdone hstep
  rw [BTreeSet.extend, List.foldl_append]
  exact (mergeEdge_ok hstep).trans (congrArg (BTreeSet.insert · e) hdone)

theorem mergeTarget_ok {s s' : Merge} {name : Bytes} {target : LocalTarget}
    (h : mergeTarget path limits s (name, target) = .ok s') :
    s'.graph = s.graph.addTarget name target.dependencies.elems
      (if target.virtualTarget then none else some path) := by
  obtain ⟨_, -, h⟩ := Except.bind_ok h
  obtain ⟨_, -, h⟩ := Except.bind_ok h
  obtain ⟨-, h⟩ := ite_error_ok h
  obtain ⟨_, -, h⟩ := Except.bind_ok h
  obtain ⟨⟨edges, count, _⟩, hedges, h⟩ := Except.bind_ok h
  cases mergeEdges_ok hedges
  dsimp only at h
  cases hvirtual : target.virtualTarget with
  | true =>
    rw [if_pos hvirtual] at h
    cases h
    rfl
  | false =>
    rw [if_neg (by rw [hvirtual]; exact Bool.false_ne_true)] at h
    obtain ⟨_, -, h⟩ := Except.bind_ok h
    obtain ⟨_, -, ⟨⟩⟩ := Except.bind_ok h
    rfl

/-- The targets of a file merged so far. -/
theorem mergeTargets_ok {s s' : Merge} {entries : List (Bytes × LocalTarget)}
    (hagrees : Agrees K C N s.graph)
    (h : entries.foldlM (mergeTarget path limits) s = .ok s') :
    s'.graph.declarations = s.graph.declarations ∧
    Agrees (fun n => K n ∨ ∃ t, (n, t) ∈ entries)
      (fun n f => C n f ∨ ∃ t, (n, t) ∈ entries ∧ t.virtualTarget = false ∧ f = path)
      (fun n e => N n e ∨ ∃ t, (n, t) ∈ entries ∧ e ∈ t.dependencies) s'.graph := by
  refine Except.foldlM_ok (motive := fun done t => t.graph.declarations = s.graph.declarations ∧
    Agrees (fun n => K n ∨ ∃ t, (n, t) ∈ done)
      (fun n f => C n f ∨ ∃ t, (n, t) ∈ done ∧ t.virtualTarget = false ∧ f = path)
      (fun n e => N n e ∨ ∃ t, (n, t) ∈ done ∧ e ∈ t.dependencies) t.graph) h ⟨rfl, ?_⟩ ?_
  · exact hagrees.congr (by simp) (by simp) (by simp)
  · rintro done ⟨name, target⟩ t t' ⟨hdeclarations, ht⟩ hstep
    rw [mergeTarget_ok hstep]
    refine ⟨hdeclarations, (ht.addTarget name target.dependencies.elems _).congr (fun n => ?_)
      (fun n f => ?_) fun n e => ?_⟩
    · simp [or_assoc, exists_or]
    · cases hvirtual : target.virtualTarget with
      | true => simp [or_and_right, exists_or, hvirtual]
      | false => simp [or_and_right, exists_or, or_assoc, and_assoc, hvirtual, eq_comm (a := path)]
    · simp [or_and_right, exists_or, or_assoc, and_assoc, BTreeSet.mem_def]

theorem mergeFile_ok {s s' : Merge} {parsed : FileParse} {ds : List TargetDeclarationProvenance}
    (hrecorded : Recorded path parsed.targets parsed.declarations)
    (hagrees : AgreesWith ds s.graph) (h : mergeFile limits s (path, parsed) = .ok s') :
    s'.graph.declarations = s.graph.declarations ++ parsed.declarations ∧
    AgreesWith (ds ++ parsed.declarations) s'.graph := by
  obtain ⟨spent, -, h⟩ := Except.bind_ok h
  let s₁ : Merge := { s with
    graph := { s.graph with declarations := s.graph.declarations ++ parsed.declarations }
    spent := spent }
  have hagrees₁ : Agrees (Declares ds) (Claims ds) (OwnerGraph.Needs ds) s₁.graph :=
    ⟨hagrees.known, hagrees.keyed, hagrees.needs, hagrees.owned, hagrees.owners⟩
  obtain ⟨hdeclarations, hmerged⟩ := mergeTargets_ok hagrees₁ h
  have hmem : ∀ n t, (n, t) ∈ parsed.targets.entries ↔ parsed.targets.get n = some t :=
    fun n t => BTreeMap.get_eq_some.symm
  have hentry : ∀ n, Declares parsed.declarations n → ∃ t, parsed.targets.get n = some t :=
    fun n hn => BTreeMap.mem_keys.mp ((hrecorded.known n).mpr hn)
  refine ⟨hdeclarations, hmerged.congr (fun n => ?_) (fun n f => ?_) fun n e => ?_⟩
  · rw [declares_append, ← hrecorded.known, BTreeMap.mem_keys]
    simp only [hmem]
  · rw [claims_append]
    refine or_congr_right ⟨?_, ?_⟩
    · rintro ⟨t, ht, hvirtual, rfl⟩
      exact (hrecorded.claims n t ((hmem n t).mp ht)).mp hvirtual
    · intro hclaims
      obtain ⟨d, hd, htarget, hfile, -⟩ := id hclaims
      obtain ⟨t, ht⟩ := hentry n ⟨d, hd, htarget⟩
      have hpath : f = path := hfile.symm.trans (hrecorded.file d hd)
      exact ⟨t, (hmem n t).mpr ht, (hrecorded.claims n t ht).mpr (hpath ▸ hclaims), hpath⟩
  · rw [needs_append]
    refine or_congr_right ⟨?_, ?_⟩
    · rintro ⟨t, ht, he⟩
      exact (hrecorded.needs n t ((hmem n t).mp ht) e).mp he
    · intro hneeds
      obtain ⟨d, hd, htarget, -⟩ := id hneeds
      obtain ⟨t, ht⟩ := hentry n ⟨d, hd, htarget⟩
      exact ⟨t, (hmem n t).mpr ht, (hrecorded.needs n t ht e).mpr hneeds⟩

/-! ### All files -/

/-- The rules of a makefile with their lines. -/
def fileRules (globals : BTreeMap Bytes Bytes) (file : Bytes × Bytes) : Option (List (ℕ × Rule)) :=
  readLines globals file.1 0 0 (splitTerminator file.2)

/-- The declarations of the rules of a makefile. -/
def fileDeclarations (file : Bytes) (rules : List (ℕ × Rule)) : List TargetDeclarationProvenance :=
  rules.flatMap fun r => r.2.declarations file r.1

/-- A parsed makefile was read, and what it holds is what its rules declare. -/
def FileRead (globals : BTreeMap Bytes Bytes) (file : Bytes × Bytes)
    (parsed : Bytes × FileParse) : Prop :=
  parsed.1 = file.1 ∧ Recorded file.1 parsed.2.targets parsed.2.declarations ∧
    ∃ rules, fileRules globals file = some rules ∧
      parsed.2.declarations = fileDeclarations file.1 rules

theorem parseFile_ok {s s' : FilesParse} {file : Bytes × Bytes}
    (h : parseFile globals limits s file = .ok s') :
    ∃ parsed, s'.parsedFiles = s.parsedFiles ++ [parsed] ∧ FileRead globals file parsed := by
  obtain ⟨path, contents⟩ := file
  obtain ⟨-, h⟩ := ite_error_ok h
  obtain ⟨_, -, h⟩ := Except.bind_ok h
  obtain ⟨-, h⟩ := ite_error_ok h
  obtain ⟨_, -, h⟩ := Except.bind_ok h
  obtain ⟨parsed, hparsed, h⟩ := Except.bind_ok h
  obtain ⟨_, -, ⟨⟩⟩ := Except.bind_ok h
  obtain ⟨rules, hrules, hadds⟩ := parseLines_reads hparsed
  exact ⟨_, rfl, rfl, hadds.recorded Recorded.empty, rules, hrules, hadds.declarations⟩

theorem parseFiles_ok {s s' : FilesParse} {files : List (Bytes × Bytes)}
    (hs : s.parsedFiles = []) (h : files.foldlM (parseFile globals limits) s = .ok s') :
    List.Forall₂ (FileRead globals) files s'.parsedFiles := by
  refine Except.foldlM_ok (motive := fun done t =>
    List.Forall₂ (FileRead globals) done t.parsedFiles) h (hs ▸ List.Forall₂.nil) ?_
  intro done file t t' hdone hstep
  obtain ⟨parsed, hparsed, hread⟩ := parseFile_ok hstep
  rw [hparsed]
  exact List.rel_append hdone (.cons hread .nil)

theorem mergeFiles_ok {s s' : Merge} {files : List (Bytes × FileParse)}
    (hrecorded : ∀ f ∈ files, Recorded f.1 f.2.targets f.2.declarations)
    (hs : s.graph = empty) (h : files.foldlM (mergeFile limits) s = .ok s') :
    s'.graph.declarations = files.flatMap (fun f => f.2.declarations) ∧
      AgreesWith (files.flatMap fun f => f.2.declarations) s'.graph := by
  refine Except.foldlM_ok (motive := fun done t =>
    (∀ f ∈ done, Recorded f.1 f.2.targets f.2.declarations) →
      t.graph.declarations = done.flatMap (fun f => f.2.declarations) ∧
      AgreesWith (done.flatMap fun f => f.2.declarations) t.graph) h (fun _ => ?_) ?_ hrecorded
  · rw [hs]
    exact ⟨rfl, agreesWith_rebuild []⟩
  · rintro done ⟨path, parsed⟩ t t' ht hstep hall
    rw [List.forall_mem_append] at hall
    obtain ⟨hdeclarations, hagrees⟩ := ht hall.1
    obtain ⟨hmore, hagrees'⟩ :=
      mergeFile_ok (hall.2 _ (List.mem_singleton_self _)) hagrees hstep
    rw [List.flatMap_append]
    simp only [List.flatMap_singleton]
    exact ⟨by rw [hmore, hdeclarations], hagrees'⟩

theorem files_read {files : List (Bytes × Bytes)} {parsed : List (Bytes × FileParse)}
    (h : List.Forall₂ (FileRead globals) files parsed) :
    (∀ f ∈ parsed, Recorded f.1 f.2.targets f.2.declarations) ∧
    (∀ file ∈ files, (fileRules globals file).isSome) ∧
    parsed.flatMap (fun f => f.2.declarations) = files.flatMap fun file =>
      fileDeclarations file.1 ((fileRules globals file).getD []) := by
  induction h with
  | nil => exact ⟨nofun, nofun, rfl⟩
  | cons hfile _ ih =>
    obtain ⟨hpath, hrecorded, rules, hrules, hdeclarations⟩ := hfile
    rw [← hpath] at hrecorded
    rw [List.forall_mem_cons, List.forall_mem_cons, List.flatMap_cons, List.flatMap_cons, hrules,
      ih.2.2]
    exact ⟨⟨hrecorded, ih.1⟩, ⟨rfl, ih.2.1⟩, congrArg (· ++ _) hdeclarations⟩

/-- **An accepted map of files was read file by file, and its graph agrees with the declarations
of the rules.** -/
theorem parseExpandedFiles_ok {files : BTreeMap Bytes Bytes}
    (h : parseExpandedFiles files globals limits = .ok g) :
    AgreesWith g.declarations g ∧
    (∀ file ∈ files.entries, (fileRules globals file).isSome) ∧
    g.declarations = files.entries.flatMap fun file =>
      fileDeclarations file.1 ((fileRules globals file).getD []) := by
  obtain ⟨-, h⟩ := ite_error_ok h
  obtain ⟨_, -, h⟩ := Except.bind_ok h
  obtain ⟨parsed, hparsed, h⟩ := Except.bind_ok h
  obtain ⟨merged, hmerged, ⟨⟩⟩ := Except.bind_ok h
  obtain ⟨hrecorded, hread, hsame⟩ := files_read (parseFiles_ok rfl hparsed)
  obtain ⟨hdeclarations, hagrees⟩ := mergeFiles_ok hrecorded rfl hmerged
  exact ⟨hdeclarations ▸ hagrees, hread, hdeclarations.trans hsame⟩

/-! ### Facts about files -/

/-- Some rule of some file has the property. -/
def SomeRule (globals files : BTreeMap Bytes Bytes) (P : Bytes → Rule → Prop) : Prop :=
  ∃ file contents, files.get file = some contents ∧
    ∃ r ∈ ((fileRules globals (file, contents)).getD []).map Prod.snd, P file r

/-- The declarations of the files, by the rules they come from. -/
theorem exists_declaration {files : BTreeMap Bytes Bytes} {P : TargetDeclarationProvenance → Prop}
    {Q : Bytes → Rule → Prop}
    (hPQ : ∀ file line r, (∃ d ∈ r.declarations file line, P d) ↔ Q file r) :
    (∃ d ∈ files.entries.flatMap (fun file =>
        fileDeclarations file.1 ((fileRules globals file).getD [])), P d) ↔
      SomeRule globals files Q := by
  simp only [SomeRule, List.mem_flatMap, fileDeclarations, BTreeMap.get_eq_some, Prod.exists,
    List.mem_map, ← hPQ _ 0]
  constructor
  · rintro ⟨d, ⟨file, contents, hfile, line, r, hr, hd⟩, hP⟩
    refine ⟨file, contents, hfile, r, ⟨line, r, hr, rfl⟩, ?_⟩
    exact (hPQ file 0 r).mpr ((hPQ file line r).mp ⟨d, hd, hP⟩)
  · rintro ⟨file, contents, hfile, _, ⟨line, r, hr, rfl⟩, hd⟩
    obtain ⟨d, hd, hP⟩ := (hPQ file line r).mpr ((hPQ file 0 r).mp hd)
    exact ⟨d, ⟨file, contents, hfile, line, r, hr, hd⟩, hP⟩

end MetaMakeOwnerGraph

namespace OwnerGraph.Rule

/-- The rule has the target. -/
def Names (r : Rule) (name : Bytes) : Prop := ∃ token ∈ r.targets, token.2 = name

/-- The rule lists the endpoint. -/
def Lists (r : Rule) (endpoint : Bytes) : Prop := ∃ token ∈ r.dependencies, token.2 = endpoint

/-- The rules say of every target what the rule says of it. -/
structure Splits (r : Rule) (rs : List Rule) : Prop where
  marker : ∀ r' ∈ rs, r'.claimsMakeOwner = r.claimsMakeOwner
  targets : ∀ n, r.Names n ↔ ∃ r' ∈ rs, r'.Names n
  edges : ∀ n e, r.Names n ∧ r.Lists e ↔ ∃ r' ∈ rs, r'.Names n ∧ r'.Lists e

end OwnerGraph.Rule

namespace MetaMakeOwnerGraph

/-- One rule among the lines of a makefile is split over other lines: what stands before it is
complete, and so are the rule and its parts. -/
def SplitsRule (globals : BTreeMap Bytes Bytes) (path : Bytes) (lines lines' : List Bytes) : Prop :=
  ∃ before block parts after rules r rs,
    lines = before ++ block ++ after ∧ lines' = before ++ parts ++ after ∧
    rulesOf globals path 0 0 before = some rules ∧ rulesOf globals path 0 0 block = some [r] ∧
    rulesOf globals path 0 0 parts = some rs ∧ r.Splits rs

theorem SplitsRule.rules {lines lines' : List Bytes} (h : SplitsRule globals path lines lines') :
    ∃ rules r rs, r.Splits rs ∧ ∀ all all', rulesOf globals path 0 0 lines = some all →
      rulesOf globals path 0 0 lines' = some all' →
      ∃ more, all = rules ++ ([r] ++ more) ∧ all' = rules ++ (rs ++ more) := by
  obtain ⟨before, block, parts, after, rules, r, rs, rfl, rfl, hbefore, hblock, hparts, hsplits⟩ := h
  refine ⟨rules, r, rs, hsplits, fun all all' hall hall' => ?_⟩
  rw [List.append_assoc, rulesOf_append hbefore (Nat.zero_le _), rulesOf_index _ 0,
    rulesOf_append hblock (Nat.zero_le _), rulesOf_index _ 0] at hall
  rw [List.append_assoc, rulesOf_append hbefore (Nat.zero_le _), rulesOf_index _ 0,
    rulesOf_append hparts (Nat.zero_le _), rulesOf_index _ 0] at hall'
  cases hmore : rulesOf globals path 0 0 after with
  | none =>
    rw [hmore] at hall
    cases hall
  | some more =>
    rw [hmore] at hall hall'
    cases hall
    cases hall'
    exact ⟨more, rfl, rfl⟩

theorem rulesOf_file {file contents : Bytes} (h : (fileRules globals (file, contents)).isSome) :
    rulesOf globals file 0 0 (splitTerminator contents) =
      some (((fileRules globals (file, contents)).getD []).map Prod.snd) := by
  obtain ⟨rules, hrules⟩ := Option.isSome_iff_exists.mp h
  rw [hrules]
  exact congrArg (Option.map (List.map Prod.snd)) hrules

/-- Splitting a rule keeps what can be said of a rule and its parts alike. -/
theorem someRule_split {files : BTreeMap Bytes Bytes} {contents contents' : Bytes}
    {P : Bytes → Rule → Prop} (hfile : files.get path = some contents)
    (hread : (fileRules globals (path, contents)).isSome)
    (hread' : (fileRules globals (path, contents')).isSome) {rules : List Rule} {r : Rule}
    {rs : List Rule}
    (hrules : ∀ all all', rulesOf globals path 0 0 (splitTerminator contents) = some all →
      rulesOf globals path 0 0 (splitTerminator contents') = some all' →
      ∃ more, all = rules ++ ([r] ++ more) ∧ all' = rules ++ (rs ++ more))
    (hP : P path r ↔ ∃ r' ∈ rs, P path r') :
    SomeRule globals files P ↔ SomeRule globals (files.insert path contents') P := by
  obtain ⟨more, hall, hall'⟩ := hrules _ _ (rulesOf_file hread) (rulesOf_file hread')
  have hsame : (∃ r ∈ ((fileRules globals (path, contents)).getD []).map Prod.snd, P path r) ↔
      ∃ r ∈ ((fileRules globals (path, contents')).getD []).map Prod.snd, P path r := by
    rw [hall, hall']
    simp only [List.mem_append, or_and_right, exists_or, List.mem_singleton, exists_eq_left, hP]
  constructor
  · rintro ⟨file, c, hc, hr⟩
    by_cases hpath : file = path
    · subst hpath
      cases hfile.symm.trans hc
      exact ⟨file, contents', by rw [BTreeMap.get_insert, if_pos rfl], hsame.mp hr⟩
    · exact ⟨file, c, by rw [BTreeMap.get_insert, if_neg hpath]; exact hc, hr⟩
  · rintro ⟨file, c, hc, hr⟩
    rw [BTreeMap.get_insert] at hc
    by_cases hpath : file = path
    · subst hpath
      rw [if_pos rfl] at hc
      cases hc
      exact ⟨file, contents, hfile, hsame.mpr hr⟩
    · rw [if_neg hpath] at hc
      exact ⟨file, c, hc, hr⟩

/-- What the declarations of accepted files say, by their rules. -/
theorem facts_of_parse {files : BTreeMap Bytes Bytes}
    (h : parseExpandedFiles files globals limits = .ok g) :
    (∀ n, Declares g.declarations n ↔ SomeRule globals files fun _ r => r.Names n) ∧
    (∀ n f, Claims g.declarations n f ↔ SomeRule globals files fun file r =>
      r.Names n ∧ file = f ∧ r.claimsMakeOwner = true) ∧
    ∀ n e, OwnerGraph.Needs g.declarations n e ↔
      SomeRule globals files fun _ r => r.Names n ∧ r.Lists e := by
  obtain ⟨-, -, hdeclarations⟩ := parseExpandedFiles_ok h
  rw [hdeclarations]
  refine ⟨fun n => exists_declaration fun file line r => ?_,
    fun n f => exists_declaration fun file line r => ?_,
    fun n e => exists_declaration fun file line r => ?_⟩
  · simp [Rule.declarations, Rule.Names]
  · simp only [Rule.declarations, Rule.Names, List.mem_map]
    constructor
    · rintro ⟨_, ⟨token, htoken, rfl⟩, hname, hfile, hclaims⟩
      exact ⟨⟨token, htoken, hname⟩, hfile, hclaims⟩
    · rintro ⟨⟨token, htoken, hname⟩, hfile, hclaims⟩
      exact ⟨_, ⟨token, htoken, rfl⟩, hname, hfile, hclaims⟩
  · simp only [Rule.declarations, Rule.Names, Rule.Lists, List.mem_map]
    constructor
    · rintro ⟨_, ⟨token, htoken, rfl⟩, hname, _, hp, rfl⟩
      obtain ⟨d, hd, rfl⟩ := List.mem_map.mp hp
      exact ⟨⟨token, htoken, hname⟩, d, hd, rfl⟩
    · rintro ⟨⟨token, htoken, hname⟩, d, hd, rfl⟩
      exact ⟨_, ⟨token, htoken, rfl⟩, hname, _, List.mem_map_of_mem hd, rfl⟩

/-- **Splitting a rule over several lines changes no target, dependency or owner.** -/
theorem parse_split {files : BTreeMap Bytes Bytes} {contents contents' : Bytes} {limits' : Limits}
    (h : parseExpandedFiles files globals limits = .ok g) (hfile : files.get path = some contents)
    (hsplit : SplitsRule globals path (splitTerminator contents) (splitTerminator contents'))
    (h' : parseExpandedFiles (files.insert path contents') globals limits' = .ok g') :
    g'.knownTargets = g.knownTargets ∧ g'.dependencies = g.dependencies ∧ g'.owners = g.owners := by
  obtain ⟨hagrees, hread, -⟩ := parseExpandedFiles_ok h
  obtain ⟨hagrees', hread', -⟩ := parseExpandedFiles_ok h'
  obtain ⟨hdeclares, hclaims, hneeds⟩ := facts_of_parse h
  obtain ⟨hdeclares', hclaims', hneeds'⟩ := facts_of_parse h'
  obtain ⟨rules, r, rs, hsplits, hrules⟩ := hsplit.rules
  have hsome := hread (path, contents) (BTreeMap.get_eq_some.mp hfile)
  have hsome' := hread' (path, contents')
    (BTreeMap.get_eq_some.mp (by rw [BTreeMap.get_insert, if_pos rfl]))
  have hkeep : ∀ {P : Bytes → Rule → Prop}, (P path r ↔ ∃ r' ∈ rs, P path r') →
      (SomeRule globals files P ↔ SomeRule globals (files.insert path contents') P) :=
    fun hP => someRule_split hfile hsome hsome' hrules hP
  refine Agrees.unique hagrees' (hagrees.congr (fun n => ?_) (fun n f => ?_) fun n e => ?_)
  · rw [hdeclares, hdeclares']
    exact hkeep (hsplits.targets n)
  · rw [hclaims, hclaims']
    refine hkeep ⟨?_, ?_⟩
    · rintro ⟨hn, hf, hc⟩
      obtain ⟨r', hr', hn'⟩ := (hsplits.targets n).mp hn
      exact ⟨r', hr', hn', hf, (hsplits.marker r' hr').trans hc⟩
    · rintro ⟨r', hr', hn', hf, hc⟩
      exact ⟨(hsplits.targets n).mpr ⟨r', hr', hn'⟩, hf, (hsplits.marker r' hr').symm.trans hc⟩
  · rw [hneeds, hneeds']
    exact hkeep (hsplits.edges n e)

/-! ### Both entry points -/

/-- Parsing with or without explicitly absent variables. -/
def parse (files globals : BTreeMap Bytes Bytes) (absent : Option (BTreeSet Bytes))
    (limits : Limits) : ParseResult MetaMakeOwnerGraph :=
  match absent with
  | none => parseExpandedFiles files globals limits
  | some names => parseWithDeclaredAbsence files globals names limits

/-- The project globals with the absent variables bound to their markers. -/
def closedGlobals (globals : BTreeMap Bytes Bytes) (absent : Option (BTreeSet Bytes)) :
    ParseResult (BTreeMap Bytes Bytes) :=
  match absent with
  | none => .ok globals
  | some names => names.elems.foldlM closeAbsent globals

theorem parse_ok {files : BTreeMap Bytes Bytes} {absent : Option (BTreeSet Bytes)}
    (h : parse files globals absent limits = .ok g) :
    ∃ closed, closedGlobals globals absent = .ok closed ∧
      parseExpandedFiles files closed limits = .ok g := by
  cases absent with
  | none => exact ⟨globals, rfl, h⟩
  | some names =>
    obtain ⟨-, h⟩ := ite_error_ok h
    obtain ⟨_, -, h⟩ := Except.bind_ok h
    exact Except.bind_ok h

/-- **The owner graph and its declarations agree.** A name is known if a declaration names it, a
file owns it if a declaration of it in that file claims it, and its dependencies are those its
declarations list; the graph is rebuilt from the declarations; and splitting a rule over several
lines of its file changes none of the three. -/
theorem parse_provenance (files globals : BTreeMap Bytes Bytes) (absent : Option (BTreeSet Bytes))
    (limits : Limits) (g : MetaMakeOwnerGraph) (h : parse files globals absent limits = .ok g) :
    (∀ n, n ∈ g.knownTargets ↔ ∃ d ∈ g.declarations, d.target = n) ∧
    (∀ n f, (∃ owners, g.owners.get n = some owners ∧ f ∈ owners) ↔
      ∃ d ∈ g.declarations, d.target = n ∧ d.file = f ∧ d.claimsMakeOwner = true) ∧
    (∀ n, n ∈ g.knownTargets ↔ (g.dependencies.get n).isSome) ∧
    (∀ n dependencies, g.dependencies.get n = some dependencies → ∀ e, e ∈ dependencies ↔
      ∃ d ∈ g.declarations, d.target = n ∧ ∃ p ∈ d.dependencies, p.concrete = e) ∧
    g = rebuild g.declarations ∧
    ∀ closed path contents contents' limits' g', closedGlobals globals absent = .ok closed →
      files.get path = some contents →
      SplitsRule closed path (splitTerminator contents) (splitTerminator contents') →
      parse (files.insert path contents') globals absent limits' = .ok g' →
      g'.knownTargets = g.knownTargets ∧ g'.dependencies = g.dependencies ∧
        g'.owners = g.owners := by
  obtain ⟨closed, hclosed, hparse⟩ := parse_ok h
  obtain ⟨hagrees, -, -⟩ := parseExpandedFiles_ok hparse
  refine ⟨hagrees.known, fun n f => ?_, fun n => ?_, fun n dependencies hn e => ?_,
    AgreesWith.eq_rebuild hagrees, ?_⟩
  · refine Iff.trans ?_ (hagrees.owners n f)
    rw [ownersOf]
    cases g.owners.get n with
    | none => simp
    | some owners => simp [BTreeSet.mem_def]
  · rw [hagrees.known, ← hagrees.keyed, BTreeMap.mem_keys, Option.isSome_iff_exists]
  · have hneeds := hagrees.needs n e
    rw [dependenciesOf, hn] at hneeds
    exact hneeds
  · intro closed' path contents contents' limits' g' hclosed' hfile hsplit hparse'
    obtain ⟨closed'', hclosed'', hparse'⟩ := parse_ok hparse'
    cases Except.ok.inj (hclosed.symm.trans hclosed')
    cases Except.ok.inj (hclosed.symm.trans hclosed'')
    exact parse_split hparse hfile hsplit hparse'

/-- A makefile with a bare marker, and a rule with two targets that is continued. -/
def demoLines : List Bytes :=
  [ascii "#MM-", ascii "tools : ignored", ascii "#MM kernel boot : hal \\", ascii "#MM  exec",
    ascii "all:"]

/-- The same makefile with the rule split. -/
def demoSplit : List Bytes :=
  [ascii "#MM-", ascii "tools : ignored", ascii "#MM kernel : hal", ascii "#MM boot kernel : exec",
    ascii "#MM boot : hal", ascii "all:"]

/-- The contents of a file, by its lines. -/
def contentsOf (lines : List Bytes) : Bytes := lines.flatMap fun line => line ++ [0x0a]

/-- A map with one makefile. -/
def demoFiles (lines : List Bytes) : BTreeMap Bytes Bytes :=
  BTreeMap.new.insert (ascii "mmakefile") (contentsOf lines)

theorem demo_splitsRule : SplitsRule .new (ascii "mmakefile") demoLines demoSplit := by
  refine ⟨demoLines.take 2, (demoLines.drop 2).take 2, (demoSplit.drop 2).take 3, [ascii "all:"],
    ((rulesOf .new (ascii "mmakefile") 0 0 (demoLines.take 2)).getD []),
    ⟨false, false, [(ascii "kernel", ascii "kernel"), (ascii "boot", ascii "boot")],
      [(ascii "hal", ascii "hal"), (ascii "exec", ascii "exec")]⟩,
    [⟨false, false, [(ascii "kernel", ascii "kernel")], [(ascii "hal", ascii "hal")]⟩,
      ⟨false, false, [(ascii "boot", ascii "boot"), (ascii "kernel", ascii "kernel")],
        [(ascii "exec", ascii "exec")]⟩,
      ⟨false, false, [(ascii "boot", ascii "boot")], [(ascii "hal", ascii "hal")]⟩],
    by decide, by decide, by decide, by decide, by decide, ?_⟩
  refine ⟨by decide, fun n => ?_, fun n e => ?_⟩
  · simp only [Rule.Names, List.mem_cons, List.not_mem_nil, or_false, or_and_right, exists_or,
      exists_eq_left]
    tauto
  · simp only [Rule.Names, Rule.Lists, List.mem_cons, List.not_mem_nil, or_false, or_and_right,
      exists_or, exists_eq_left]
    tauto

theorem parse_provenance_demo :
    ∃ g g', parse (demoFiles demoLines) .new none .default = .ok g ∧
      parse (demoFiles demoSplit) .new none .default = .ok g' ∧
      g.declarations.length = 3 ∧ g'.declarations.length = 5 ∧ g = rebuild g.declarations ∧
      g'.knownTargets = g.knownTargets ∧ g'.dependencies = g.dependencies ∧
      g'.owners = g.owners := by
  have hparses : ∀ lines ∈ [demoLines, demoSplit],
      (parse (demoFiles lines) .new none .default).isOk = true := by decide
  obtain ⟨g, hg⟩ := Except.exists_of_isOk (hparses demoLines (by simp))
  obtain ⟨g', hg'⟩ := Except.exists_of_isOk (hparses demoSplit (by simp))
  obtain ⟨-, -, -, -, hrebuild, hsplit⟩ := parse_provenance (demoFiles demoLines) .new none .default g hg
  have hcount : (parse (demoFiles demoLines) .new none .default).map
      (fun g => g.declarations.length) = .ok 3 := by decide
  have hcount' : (parse (demoFiles demoSplit) .new none .default).map
      (fun g => g.declarations.length) = .ok 5 := by decide
  rw [hg] at hcount
  rw [hg'] at hcount'
  refine ⟨g, g', hg, hg', Except.ok.inj hcount, Except.ok.inj hcount', hrebuild, ?_⟩
  refine hsplit .new (ascii "mmakefile") (contentsOf demoLines) (contentsOf demoSplit) .default g' rfl
    (by decide) ?_ ?_
  · have hlines : splitTerminator (contentsOf demoLines) = demoLines := by decide
    have hlines' : splitTerminator (contentsOf demoSplit) = demoSplit := by decide
    rw [hlines, hlines']
    exact demo_splitsRule
  · have hinsert : (demoFiles demoLines).insert (ascii "mmakefile") (contentsOf demoSplit) =
        demoFiles demoSplit := by decide
    rw [hinsert]
    exact hg'

end MetaMakeOwnerGraph

end Transpiler

end ArosTools
