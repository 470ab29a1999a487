import ArosTools.Genmodule.Vectors

/-!
# The directives of a function list

A line of a function list that begins with a dot is about declarations: `.private`, `.novararg` and
`.alias` about the one in front of it, `.version` about those behind it. The parser keeps every
declaration except those of the skeleton's vectors, and a directive changes the one it has kept
last.

* `listed` : the functions of a list, each with the directives up to the next one.
* `functionLine_directive` : what one line of a list does.
* `conf_directives` : **the functions of a module are those of its lists**, vectors apart.
-/

namespace ArosTools

namespace Genmodule

open Str

/-! ### The functions of a list -/

/-- The declaration that a line adds to the module. -/
def added (line : Text) : Option Function :=
  (declared line).filter fun f => !isStandardVector f.name

/-- What a line does to the declaration that was kept last. -/
def directive (line : Text) (f : Function) : Function :=
  if codeLine line = lit ".private" then { f with isPrivate := true }
  else if codeLine line = lit ".novararg" then { f with novararg := true }
  else match stripPrefix (lit ".alias") (codeLine line) with
    | some rest => if trim rest = [] then f else { f with aliases := f.aliases ++ [trim rest] }
    | none => f

/-- The version of the declarations after a line. -/
def versionAfter (version : Option ℕ) (line : Text) : Option ℕ :=
  match stripPrefix (lit ".version") (codeLine line) with
  | some rest => (parseU32 (trim rest)).or version
  | none => version

/-- A declaration changed by the lines behind it, up to the next one that is kept. -/
def directed (rest : List Text) (f : Function) : Function :=
  (rest.takeWhile fun line => (added line).isNone).foldl (fun f line => directive line f) f

/-- The functions of a list, without their vectors. -/
def listed (version : Option ℕ) : List Text → List Function
  | [] => []
  | line :: rest =>
    match added line with
    | some f => directed rest { f with lvo := 0, declaredVersion := version } :: listed version rest
    | none => listed (versionAfter version line) rest

/-- A function without its vector. -/
def Function.unplaced (f : Function) : Function := { f with lvo := 0 }

/-! ### One line -/

theorem modifyLast_append (g : Function → Function) (fs : List Function) (f : Function) :
    modifyLast g (fs ++ [f]) = fs ++ [g f] := by
  simp [modifyLast]

theorem modifyLast_id (fs : List Function) : modifyLast id fs = fs := by
  induction fs using List.reverseRecOn with
  | nil => rfl
  | append_singleton fs f _ => exact modifyLast_append id fs f

theorem modifyLast_comp (g g' : Function → Function) (fs : List Function) :
    modifyLast g (modifyLast g' fs) = modifyLast (g ∘ g') fs := by
  induction fs using List.reverseRecOn with
  | nil => rfl
  | append_singleton fs f _ => simp only [modifyLast_append, Function.comp_apply]

theorem map_modifyLast {g : Function → Function} (hg : ∀ f, (g f).unplaced = g f.unplaced)
    (fs : List Function) :
    (modifyLast g fs).map Function.unplaced = modifyLast g (fs.map Function.unplaced) := by
  induction fs using List.reverseRecOn with
  | nil => rfl
  | append_singleton fs f _ =>
    rw [modifyLast_append, List.map_append, List.map_append, List.map_singleton, List.map_singleton,
      modifyLast_append, hg]

theorem directive_unplaced (line : Text) (f : Function) :
    (directive line f).unplaced = directive line f.unplaced := by
  unfold directive
  split_ifs
  · rfl
  · rfl
  · split
    · split_ifs <;> rfl
    · rfl

theorem directive_plain {line : Text} (hprivate : codeLine line ≠ lit ".private")
    (hnovararg : codeLine line ≠ lit ".novararg")
    (halias : stripPrefix (lit ".alias") (codeLine line) = none) : directive line = id := by
  funext f
  rw [directive, if_neg hprivate, if_neg hnovararg, halias]
  rfl

/-- A line that declares a function is no directive. -/
theorem not_directive {line : Text} {f : Function} (h : declared line = some f) :
    codeLine line ≠ lit ".private" ∧ codeLine line ≠ lit ".novararg" ∧
      stripPrefix (lit ".version") (codeLine line) = none ∧
      stripPrefix (lit ".alias") (codeLine line) = none := by
  have hnone : ∀ start : String, stripPrefix (lit ("." ++ start)) (codeLine line) = none := by
    intro start
    by_contra hne
    rw [@declared_directive line start hne] at h
    cases h
  have hne : ∀ start : String, codeLine line ≠ lit ("." ++ start) := by
    intro start heq
    have happend := stripPrefix_append (lit ("." ++ start)) []
    have hstrip := hnone start
    rw [heq] at hstrip
    rw [List.append_nil, hstrip] at happend
    cases happend
  exact ⟨hne "private", hne "novararg", hnone "version", hnone "alias"⟩

/-- What one line does. -/
theorem functionLine_directive (s : ConfScan) (line : Text) :
    (functionLine s line).pendingVersion = versionAfter s.pendingVersion line ∧
      (functionLine s line).conf.functions.map Function.unplaced =
        match added line with
        | some f => s.conf.functions.map Function.unplaced ++
            [{ f with lvo := 0, declaredVersion := s.pendingVersion }]
        | none => modifyLast (directive line) (s.conf.functions.map Function.unplaced) := by
  cases hdeclared : declared line with
  | some f =>
    obtain ⟨hprivate, hnovararg, hversion, halias⟩ := not_directive hdeclared
    have hdirective := directive_plain hprivate hnovararg halias
    unfold functionLine
    simp only [if_neg hprivate, if_neg hnovararg, versionAfter, hversion, halias, added, hdeclared,
      hdirective, modifyLast_id, declare]
    by_cases hname : isStandardVector f.name = true
    · simp [hname, Option.filter]
    · simp [hname, Option.filter, Function.unplaced]
  | none =>
    -- the branches of the source: each directive in turn, and then any other line
    rw [added, hdeclared, Option.filter_none, ← map_modifyLast (directive_unplaced line)]
    unfold functionLine
    by_cases hprivate : codeLine line = lit ".private"
    · have hdirective : directive line = fun f => { f with isPrivate := true } :=
        funext fun f => if_pos hprivate
      rw [if_pos hprivate, hdirective, versionAfter, hprivate]
      exact ⟨rfl, rfl⟩
    by_cases hnovararg : codeLine line = lit ".novararg"
    · have hdirective : directive line = fun f => { f with novararg := true } :=
        funext fun f => (if_neg hprivate).trans (if_pos hnovararg)
      rw [if_neg hprivate, if_pos hnovararg, hdirective, versionAfter, hnovararg]
      exact ⟨rfl, rfl⟩
    rw [if_neg hprivate, if_neg hnovararg]
    cases hversion : stripPrefix (lit ".version") (codeLine line) with
    | some rest =>
      have hcode := stripPrefix_some hversion
      have halias : stripPrefix (lit ".alias") (codeLine line) = none := by
        rw [hcode]
        rfl
      rw [directive_plain hprivate hnovararg halias, modifyLast_id, versionAfter, hversion]
      cases hparse : parseU32 (trim rest) <;> simp [hparse]
    | none =>
      cases halias : stripPrefix (lit ".alias") (codeLine line) with
      | some rest =>
        by_cases hempty : trim rest = []
        · have hdirective : directive line = id := by
            funext f
            rw [directive, if_neg hprivate, if_neg hnovararg, halias]
            exact if_pos hempty
          rw [hdirective, modifyLast_id, versionAfter, hversion]
          simp [hempty]
        · have hdirective : directive line = fun f => { f with aliases := f.aliases ++ [trim rest] } := by
            funext f
            rw [directive, if_neg hprivate, if_neg hnovararg, halias]
            exact if_neg hempty
          rw [hdirective, versionAfter, hversion]
          simp [hempty, ConfScan.modifyLast]
      | none =>
        rw [directive_plain hprivate hnovararg halias, modifyLast_id, versionAfter, hversion]
        simp [hdeclared]

theorem versionAfter_some {line : Text} {f : Function} (h : added line = some f)
    (version : Option ℕ) : versionAfter version line = version := by
  rw [versionAfter, (not_directive (Option.filter_eq_some_iff.mp h).1).2.2.1]

theorem directed_some {line : Text} {f : Function} (h : added line = some f) (rest : List Text) :
    directed (line :: rest) = id := by
  funext g
  simp [directed, h]

theorem directed_none {line : Text} (h : added line = none) (rest : List Text) :
    directed (line :: rest) = directed rest ∘ directive line := by
  funext g
  simp [directed, h]

/-- A line outside of the function lists leaves the version alone. -/
theorem scanLine_version {s s' : ConfScan} {line : Text} (h : scanLine s line = .ok s')
    (hlisted : ¬ s.track.Listed line) : s'.pendingVersion = s.pendingVersion := by
  unfold scanLine at h
  cases hread : reading (trim line) with
  | opens nested =>
    rw [hread] at h
    cases h
    rfl
  | closes =>
    rw [hread] at h
    cases h
    rfl
  | enter current =>
    rw [hread] at h
    refine ite_ok_elim h (fun h => ?_) fun h => ?_
    · cases h
      rfl
    · cases h
      unfold enterSection
      split_ifs <;> rfl
  | other =>
    rw [hread] at h
    by_cases hnest : s.nesting > 0
    · simp only [hnest, if_true] at h
      cases h
      rfl
    simp only [hnest, if_false] at h
    unfold contentLine at h
    cases hcurrent : s.current with
    | functions => exact absurd ⟨hread, Nat.eq_zero_of_not_pos hnest, hcurrent⟩ hlisted
    | config =>
      rw [hcurrent] at h
      obtain ⟨conf, -, h⟩ := Except.bind_ok h
      cases h
      rfl
    | _ =>
      rw [hcurrent] at h
      cases h
      rfl

/-! ### The whole text -/

theorem run_listed {list : List Text} {s s' : ConfScan} (h : list.foldlM scanLine s = .ok s') :
    s'.conf.functions.map Function.unplaced =
      modifyLast (directed (functionList s.track list)) (s.conf.functions.map Function.unplaced) ++
        listed s.pendingVersion (functionList s.track list) := by
  induction list generalizing s with
  | nil =>
    cases h
    exact ((List.append_nil _).trans (modifyLast_id _)).symm
  | cons line rest ih =>
    obtain ⟨s₁, h₁, h₂⟩ := Except.bind_ok h
    obtain ⟨heffect, htrack, -⟩ := scanLine_effect h₁
    rw [ih h₂, htrack]
    by_cases hlisted : s.track.Listed line
    · have hs : s₁ = functionLine s (trim line) := by
        cases heffect with
        | listed _ hs => exact hs
        | opened ho => exact absurd (hlisted.1.symm.trans ho.1) nofun
        | aside hnot => exact absurd hlisted hnot
      obtain ⟨hversion, hfunctions⟩ := functionLine_directive s (trim line)
      rw [functionList, if_pos hlisted, hs, hversion, hfunctions]
      cases hadded : added (trim line) with
      | some f =>
        simp only [listed, hadded, directed_some hadded, modifyLast_id, modifyLast_append,
          versionAfter_some hadded, List.append_assoc, List.singleton_append]
      | none => simp only [listed, hadded, directed_none hadded, modifyLast_comp]
    · have hfunctions : s₁.conf.functions = s.conf.functions := by
        cases heffect with
        | listed h => exact absurd h hlisted
        | opened _ _ hs => rw [hs]
        | aside _ _ _ _ _ hfunctions => exact hfunctions
      rw [functionList, if_neg hlisted, hfunctions, scanLine_version h₁ hlisted]

section Variant

variable {measureRegularFile : PathBuf → Except IoError (Option Bytes)}
  {toUppercase : Char → Text} {path root : PathBuf} {declaration : Option ModuleDeclaration}
  {content : Text} {m : ConfModule}

/-- **The functions of a module.**  Each function carries the directives of its own lines, those up to
the next declaration that is kept, and the version that was the last one stated before it. -/
theorem conf_directives (hcontent : confContent measureRegularFile path declaration = .ok content)
    (h : parseConfVariant measureRegularFile toUppercase path root declaration = .ok (some m)) :
    m.functions.map Function.unplaced = listed none (functionList ⟨.none, 0⟩ (lines content)) := by
  obtain ⟨s, hrun, rfl, -⟩ := parseConfVariant_run hcontent h
  exact run_listed hrun

end Variant

/-- A library with directives behind a function and behind a vector of the skeleton. -/
def directedLibrary : String :=
  "##begin functionlist\nvoid A()\n.private\n.version 2\nvoid B()\n.alias C\nvoid open()\n" ++
    ".novararg\n##end functionlist\n"

/-- What the directives of a function list change, and the names. -/
def Function.marks (f : Function) : (Bool × Bool × Option ℕ) × List Text :=
  ((f.isPrivate, f.novararg, f.declaredVersion), f.name :: f.aliases)

/-- The directive behind the vector is about the function in front of it. -/
theorem conf_directives_library : ∃ m, libraryOf directedLibrary = .ok (some m) ∧
    m.functions.map Function.marks =
      [((true, false, none), [lit "A"]), ((false, true, some 2), [lit "B", lit "C"])] := by
  have hcontent : confContent (oneFile directedLibrary) exampleConf
      (some ⟨lit "example", lit "library", none⟩) = .ok (lit directedLibrary) := by decide +kernel
  have hlisted : (listed none (functionList ⟨.none, 0⟩ (lines (lit directedLibrary)))).map
      Function.marks =
        [((true, false, none), [lit "A"]), ((false, true, some 2), [lit "B", lit "C"])] := by
    decide +kernel
  have hsome : ofLibrary directedLibrary (fun _ => ()) = some () := by decide +kernel
  obtain ⟨m, hm, -⟩ := of_ofLibrary hsome
  refine ⟨m, hm, ?_⟩
  rw [← hlisted, ← conf_directives hcontent hm, List.map_map]
  rfl

end Genmodule

end ArosTools
