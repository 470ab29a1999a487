import ArosTools.Collect.Engine
import ArosTools.Collect.ArgumentTokens

/-!
# The collector's run is atomic

Whatever fails, and whatever the tools do to the file each of them is given, a run that fails leaves
the output as it was, a run that succeeds leaves one, and only scratch files change besides.

* `step_follows` : what one call can do.
* `Steps` : the calls of a part of the run, each of which has one lemma.
* `Writes` : the files that a run may write before it publishes.
* `publish_spec` : the one step that changes the output.
* `runWith_atomic` : **the run is atomic**.
-/

namespace ArosTools

namespace Engine

/-! ### Places -/

theorem follow_append {suffix : Bytes} (hs : slash ∉ suffix) (dir : Path) (component : Name)
    (path : OsString) :
    follow dir component (path ++ suffix) =
      ((follow dir component path).1, (follow dir component path).2 ++ suffix) := by
  induction path generalizing dir component with
  | nil =>
    induction suffix generalizing component with
    | nil => simp [follow]
    | cons b suffix ih =>
      rw [List.mem_cons, not_or] at hs
      rw [List.nil_append] at ih ⊢
      have hstep : follow dir component (b :: suffix) = follow dir (component ++ [b]) suffix :=
        if_neg (Ne.symm hs.1)
      rw [hstep, ih hs.2]
      simp [follow]
  | cons b path ih =>
    rw [List.cons_append, follow, follow]
    by_cases hb : b = slash
    · rw [if_pos hb, if_pos hb, ih]
    · rw [if_neg hb, if_neg hb, ih]

/-- The ends that are appended to the output's path. -/
def suffixes : List String := [".collect-pre", ".collect-final", ".collect-sets.ld"]

theorem suffixes_facts : ∀ suffix ∈ suffixes, slash ∉ ascii suffix ∧ 2 < (ascii suffix).length ∧
    (ascii suffix).head? ≠ some slash := by
  decide

/-- A staging path lies beside the output, under a longer name. -/
theorem locate_adjacent {suffix : String} (hs : suffix ∈ suffixes) (cwd : Path) (p : OsString) :
    locate cwd (adjacent p suffix) =
      (follow (start cwd p) [] p).1 ++ [(follow (start cwd p) [] p).2 ++ ascii suffix] := by
  obtain ⟨hslash, hlength, hhead⟩ := suffixes_facts suffix hs
  have hstart : start cwd (p ++ ascii suffix) = start cwd p := by
    cases p with
    | nil => rw [List.nil_append, start, if_neg hhead, start, List.head?_nil, if_neg (by simp)]
    | cons b p => rfl
  have hlong : ∀ short : Bytes, short.length ≤ 2 →
      (follow (start cwd p) [] p).2 ++ ascii suffix ≠ short := by
    rintro short hshort rfl
    rw [List.length_append] at hshort
    omega
  rw [locate, adjacent, hstart, follow_append hslash, enter,
    if_neg (not_or.mpr ⟨hlong [] (by simp), hlong _ (by decide)⟩),
    if_neg (hlong _ (by decide))]

theorem locate_adjacent_ne {suffix : String} (hs : suffix ∈ suffixes) (cwd : Path) (p : OsString) :
    locate cwd (adjacent p suffix) ≠ locate cwd p := by
  obtain ⟨-, hlength, -⟩ := suffixes_facts suffix hs
  rw [locate_adjacent hs, locate]
  generalize (follow (start cwd p) [] p).1 = dir
  generalize (follow (start cwd p) [] p).2 = component
  rw [enter]
  split_ifs
  · -- the output is the directory itself
    intro h
    simpa using congrArg List.length h
  · intro h
    have := congrArg List.length h
    rw [List.length_append, List.length_dropLast, List.length_singleton] at this
    omega
  · intro h
    have := List.append_cancel_left h
    simp only [List.cons.injEq, and_true] at this
    have hlen := congrArg List.length this
    rw [List.length_append] at hlen
    omega

/-! ### What one call can do -/

/-- The places a call may change, apart from a rename. -/
def Host.touches (w : World) : {β : Type} → Host β → List Path
  | _, removeFile path => [w.locate path]
  | _, writeFile path _ => [w.locate path]
  | _, writeAt path _ _ => [w.locate path]
  | _, setPermissions path _ => [w.locate path]
  | _, log _ _ => (w.logFile.map w.locate).toList
  | _, execute _ args => [w.locate (toolTarget args)]
  | _, _ => []

/-- A call that is not a rename. -/
def Host.Local : {β : Type} → Host β → Prop
  | _, rename _ _ => False
  | _, _ => True

/-- How one world follows another when only the places of `touched` may change: files come and go
there, and directories do not appear. -/
structure Continues (w w' : World) (touched : List Path) : Prop where
  cwd : w'.fs.cwd = w.fs.cwd
  logFile : w'.logFile = w.logFile
  frame : ∀ q, q ∉ touched → w'.fs.get q = w.fs.get q
  nodir : ∀ q i, w'.fs.get q = some (.dir i) → w.fs.get q = some (.dir i)

theorem Continues.refl (w : World) (touched : List Path) : Continues w w touched :=
  ⟨rfl, rfl, fun _ _ => rfl, fun _ _ h => h⟩

theorem Continues.set (w : World) (path : OsString) (f : File) :
    Continues w (w.set path (.file f)) [w.locate path] := by
  refine ⟨rfl, rfl, fun q hq => ?_, fun q i h => ?_⟩
  · exact Fs.get_set_of_ne (by simpa using hq)
  · rw [World.set, Fs.get_set] at h
    split_ifs at h
    · cases h
    · exact h

theorem Continues.del (w : World) (path : OsString) : Continues w (w.del path) [w.locate path] := by
  refine ⟨rfl, rfl, fun q hq => ?_, fun q i h => ?_⟩
  · exact Fs.get_del_of_ne (by simpa using hq)
  · rw [World.del, Fs.get_del] at h
    split_ifs at h
    exact h

theorem Continues.store {w w' : World} {c : Event} {path : OsString} {bytes : Bytes}
    (h : w.store c path bytes = .ok w') : Continues w w' [w.locate path] := by
  unfold World.store at h
  split at h
  · cases h
    exact Continues.set w path _
  · cases h
  · split_ifs at h
    cases h
    exact Continues.set w path _

theorem Continues.onFile {w w' : World} {path : OsString} {f : File → File}
    (h : Host.onFile w path (fun file => w.set path (.file (f file))) = .ok w') :
    Continues w w' [w.locate path] := by
  unfold Host.onFile at h
  split at h
  · cases h
    exact Continues.set w path _
  · cases h
  · cases h

theorem Continues.alter {c : Event} {w : World} {r partly : Except Errno World} {touched : List Path}
    (hr : ∀ w', r = .ok w' → Continues w w' touched)
    (hpartly : ∀ w', partly = .ok w' → Continues w w' touched) :
    Continues w (Host.alter c w r partly).2 touched := by
  unfold Host.alter
  split_ifs
  · cases partly with
    | error e => exact Continues.refl w touched
    | ok w' => exact hpartly w' rfl
  · cases r with
    | error e => exact Continues.refl w touched
    | ok w' => exact hr w' rfl

theorem Continues.apply (w : World) (path : OsString) (effect : Effect) :
    Continues w (w.apply path effect) [w.locate path] := by
  cases effect with
  | none => exact Continues.refl w _
  | remove => exact Continues.del w path
  | leave f => exact Continues.set w path f

/-- **What one call can do.** -/
theorem step_follows {β : Type} {op : Host β} (hop : op.Local) (c : Event) (w : World) :
    Continues w (Host.step op c w).2 (op.touches w) := by
  cases op with
  | rename source target => exact hop.elim
  | removeFile path =>
    simp only [Host.step, Host.touches]
    split_ifs
    · exact Continues.refl w _
    · split
      · exact Continues.refl w _
      · exact Continues.del w path
      · exact Continues.refl w _
  | writeFile path bytes =>
    refine Continues.alter (fun w' h => Continues.store h) fun w' h => ?_
    split_ifs at h
    · cases h
      exact Continues.refl w _
    · exact Continues.store h
  | writeAt path offset bytes =>
    exact Continues.alter (fun w' h => Continues.onFile h) fun w' h => Continues.onFile h
  | setPermissions path mode =>
    refine Continues.alter (fun w' h => Continues.onFile h) fun w' h => ?_
    cases h
    exact Continues.refl w _
  | log level message =>
    simp only [Host.step, Host.touches]
    cases hlog : w.logFile with
    | none => exact Continues.refl w _
    | some path =>
      dsimp only
      split_ifs
      · exact Continues.refl w _
      · exact Continues.alter (fun w' h => Continues.onFile h) fun w' h => Continues.onFile h
  | execute tool args =>
    have h := Continues.apply w (toolTarget args) c.effect
    exact ⟨h.cwd, h.logFile, h.frame, h.nodir⟩
  | readFile path => exact Continues.refl w _
  | openFile path => exact Continues.refl w _
  | readExact path count => exact Continues.refl w _
  | seek path => exact Continues.refl w _
  | isFile path => exact Continues.refl w _

/-- The file a call may write, apart from the log, is one of `P`. -/
def Host.Allowed (P : OsString → Prop) : {β : Type} → Host β → Prop
  | _, removeFile path => P path
  | _, writeFile path _ => P path
  | _, writeAt path _ _ => P path
  | _, setPermissions path _ => P path
  | _, execute _ args => P (toolTarget args)
  | _, rename _ _ => False
  | _, _ => True

/-! ### Programs by their calls -/

/-- Every call of `p` satisfies `G`, whatever it is answered, and a value it returns satisfies
`Q`. -/
def Steps (A : Event → Prop) (G : ∀ ⦃β : Type⦄, Host β → Prop) {α : Type} (p : Collector α)
    (Q : α → Prop) : Prop :=
  ∀ w, Host.machine.Safe A (fun _ => False) (fun _ op _ => G op) (fun r _ => ∀ a, r = .ok a → Q a)
    p.run w

section
variable {A : Event → Prop} {G : ∀ ⦃β : Type⦄, Host β → Prop} {α β : Type} {Q : α → Prop}

namespace Steps

theorem pure {a : α} (h : Q a) : Steps A G (pure a) Q :=
  fun _ => Machine.Safe.ret fun _ ha => Except.ok.inj ha ▸ h

theorem throw (failure : Failure) : Steps A G (throw failure : Collector α) Q :=
  fun _ => Machine.Safe.ret fun _ ha => nomatch ha

theorem bind {p : Collector β} {f : β → Collector α} {R : β → Prop} (hp : Steps A G p R)
    (hf : ∀ b, R b → Steps A G (f b) Q) : Steps A G (p >>= f) Q := by
  intro w
  refine Machine.Safe.bindE ((hp w).weaken ?_)
  rintro (e | b) w' h
  · exact fun _ ha => nomatch ha
  · exact hf b (h b rfl) w'

theorem call {op : Host α} (h : G op) : Steps A G (call op) fun _ => True :=
  fun _ => Machine.Safe.bind (Machine.Safe.perform h fun _ _ =>
    Machine.Safe.ret fun _ _ => True.intro)

theorem attempt {code : DiagnosticCode} {message : Bytes} {op : Host (Except Errno α)} (h : G op) :
    Steps A G (attempt code message op) fun _ => True := by
  refine .bind (.call h) fun r _ => ?_
  cases r with
  | ok a => exact .pure True.intro
  | error e => exact .throw _

theorem ite {b : Prop} [Decidable b] {p q : Collector α} (hp : b → Steps A G p Q)
    (hq : ¬ b → Steps A G q Q) : Steps A G (if b then p else q) Q := by
  by_cases h : b
  · rw [if_pos h]
    exact hp h
  · rw [if_neg h]
    exact hq h

end Steps

end

/-! ### The steps of the run -/

section
variable {A : Event → Prop} {P : OsString → Prop} {path : OsString}

theorem removeIfExists_steps (code : DiagnosticCode) (h : P path) :
    Steps A (fun _ op => op.Allowed P) (removeIfExists code path) fun _ => True := by
  refine .bind (.call h) fun r _ => ?_
  rcases r with (_ | _) | _
  all_goals first | exact .pure True.intro | exact .throw _

theorem logEvent_steps (level : LogLevel) (message : Bytes) :
    Steps A (fun _ op => op.Allowed P) (logEvent level message) fun _ => True :=
  .attempt True.intro

theorem runTool_steps (code : DiagnosticCode) (failed : String) (tool : OsString)
    {args : List OsString} (h : P (toolTarget args)) :
    Steps A (fun _ op => op.Allowed P) (runTool code failed tool args) fun _ => True := by
  refine .bind (.attempt h) fun status _ => ?_
  exact .ite (fun _ => .throw _) fun _ => .pure True.intro

theorem setArosAbi_steps (h : P path) :
    Steps A (fun _ op => op.Allowed P) (setArosAbi path) fun _ => True := by
  refine .bind (.attempt True.intro) fun _ _ => .bind (.attempt True.intro) fun ident _ => ?_
  refine .ite (fun _ => .bind (R := fun _ => False) (.throw _) fun _ h => h.elim) fun _ => ?_
  exact .bind (.attempt True.intro) fun _ _ => .attempt h

theorem writeReport_steps {report : Option OsString} (h : ∀ p, report = some p → P p)
    (lines : List Bytes) :
    Steps A (fun _ op => op.Allowed P) (writeReport report lines) fun _ => True := by
  cases report with
  | none => exact .pure True.intro
  | some p => exact .ite (fun _ => removeIfExists_steps _ (h p rfl)) fun _ => .attempt (h p rfl)

theorem readObject_steps (elfRead : Bytes → Option Object) (path : OsString) :
    Steps A (fun _ op => op.Allowed P) (readObject elfRead path) fun _ => True := by
  refine .bind (.attempt True.intro) fun bytes _ => ?_
  cases elfRead bytes with
  | none => exact .throw _
  | some object => exact .pure True.intro

theorem logEvents_steps (lines : List Bytes) :
    Steps A (fun _ op => op.Allowed P) (forIn lines PUnit.unit fun line _ => do
      logEvent .warn line
      pure (ForInStep.yield PUnit.unit)) fun _ => True := by
  induction lines with
  | nil => exact .pure True.intro
  | cons line lines ih =>
    rw [List.forIn_cons]
    refine .bind (R := fun r => r = .yield ⟨⟩) (.bind (logEvent_steps _ _) fun _ _ => .pure rfl) ?_
    rintro _ rfl
    exact ih

end

/-! ### What a run writes -/

section
variable (request : Request)

/-- The arguments of the first link. -/
def firstArgs (args : List OsString) : List OsString :=
  if request.frontend = .driver && !args.contains (ascii "-r") then ascii "-r" :: args else args

/-- A library of the sysroot. -/
def sysrootLibrary (name : String) : OsString :=
  request.sysroot.getD [] ++
    (if request.name = ascii "collect-aros32" then ascii "/lib32/" else ascii "/lib/") ++ ascii name

/-- The inputs of the second link that the object asks for. -/
def extras (object : Object) : List OsString :=
  if request.frontend ≠ .driver then [] else
    (if (Extra.discover object.symbols).cxxPureVirtual
      then [sysrootLibrary request "static-cxx-cxa-pure-virtual.o"] else []) ++
    (if (Extra.discover object.symbols).pthread
      then [sysrootLibrary request "libpthread.a"] else []) ++
    if hasUndefined object then resuppliedLibraries request.args else []

/-- The arguments of the second link. -/
def secondArgs (inputs : List OsString) : List OsString :=
  [ascii "-r"] ++ (match request.emulation with
    | some emulation => [ascii "-m", emulation]
    | none => []) ++ [ascii "-o", request.finalStaged, request.staged] ++ inputs ++
    [ascii "-T", request.script]

/-- The files that a run may write before it publishes: the staged ones, the script, the report,
the log, and what the command lines of the tools name. -/
inductive Writes (w₀ : World) : OsString → Prop
  | staged {p : OsString} : p ∈ request.cleanupPaths → Writes w₀ p
  | script : Writes w₀ request.script
  | report {p : OsString} : request.report = some p → Writes w₀ p
  | log {p : OsString} : w₀.logFile = some p → Writes w₀ p
  | first {args : List OsString} : replaceOutput request.staged request.args = .ok args →
    Writes w₀ (toolTarget (firstArgs request args))
  | second (object : Object) : Writes w₀ (toolTarget (secondArgs request (extras request object)))
  | strip : Writes w₀ (toolTarget [ascii "--strip-unneeded", request.finalStaged])

end

section
variable {A : Event → Prop} {request : Request} {w₀ : World}

theorem Request.staged_mem (request : Request) : request.staged ∈ request.cleanupPaths := by
  simp [Request.cleanupPaths]

theorem Request.finalStaged_mem (request : Request) :
    request.finalStaged ∈ request.cleanupPaths := by
  simp [Request.cleanupPaths]

theorem firstLink_steps :
    Steps A (fun _ op => op.Allowed (Writes request w₀)) (firstLink request) fun _ => True := by
  unfold firstLink
  cases h : replaceOutput request.staged request.args with
  | error message => exact .bind (R := fun _ => False) (.throw _) fun _ h => h.elim
  | ok args =>
    refine .bind (R := fun first => first = args) (.pure rfl) ?_
    rintro _ rfl
    exact .bind (logEvent_steps _ _) fun _ _ => runTool_steps _ _ _ (.first h)

theorem reportSkipped_steps (reported : List Bytes) :
    Steps A (fun _ op => op.Allowed (Writes request w₀)) (reportSkipped request reported)
      fun _ => True := by
  have hreport := writeReport_steps (A := A) (P := Writes request w₀) (fun p => .report) reported
  refine .ite (fun _ => .bind (logEvents_steps _) fun _ _ => ?_) fun _ => hreport
  exact .bind (logEvent_steps _ _) fun _ _ => hreport

theorem requireSysrootLibrary_steps (name : String) {P : OsString → Prop} :
    Steps A (fun _ op => op.Allowed P) (requireSysrootLibrary request name)
      fun path => path = sysrootLibrary request name := by
  unfold requireSysrootLibrary sysrootLibrary
  cases request.sysroot with
  | none => exact .throw _
  | some root => exact .bind (.call True.intro) fun _ _ => .ite (fun _ => .pure rfl) fun _ => .throw _

theorem extraInputs_steps (object : Object) {P : OsString → Prop} :
    Steps A (fun _ op => op.Allowed P) (extraInputs request object)
      fun inputs => inputs = extras request object := by
  unfold extraInputs extras
  refine .ite (fun h => ?_) fun h => ?_
  · rw [if_pos h]
    exact .pure rfl
  rw [if_neg h]
  have hpthread : ∀ cxx : List OsString, Steps A (fun _ op => op.Allowed P) (do
      let pthread ← if (Extra.discover object.symbols).pthread
        then do pure [← requireSysrootLibrary request "libpthread.a"] else pure []
      pure (cxx ++ pthread ++
        if hasUndefined object then resuppliedLibraries request.args else []))
      fun inputs => inputs = cxx ++ (if (Extra.discover object.symbols).pthread
        then [sysrootLibrary request "libpthread.a"] else []) ++
        if hasUndefined object then resuppliedLibraries request.args else [] := by
    intro cxx
    refine .ite (fun h => ?_) fun h => ?_
    · rw [if_pos h]
      refine .bind (requireSysrootLibrary_steps _) ?_
      rintro _ rfl
      exact .pure rfl
    · rw [if_neg h]
      exact .pure rfl
  refine .ite (fun h => ?_) fun h => ?_
  · rw [if_pos h]
    refine .bind (requireSysrootLibrary_steps _) ?_
    rintro _ rfl
    exact hpthread _
  · rw [if_neg h]
    exact hpthread []

theorem secondLink_steps (object : Object) :
    Steps A (fun _ op => op.Allowed (Writes request w₀)) (secondLink request object)
      fun _ => True := by
  refine .bind (extraInputs_steps object) ?_
  rintro _ rfl
  exact .bind (logEvent_steps _ _) fun _ _ => runTool_steps _ _ _ (.second object)

theorem auditUndefined_steps (elfRead : Bytes → Option Object) {P : OsString → Prop} :
    Steps A (fun _ op => op.Allowed P) (auditUndefined elfRead request) fun _ => True := by
  refine .ite (fun _ => .bind (readObject_steps _ _) fun output _ => ?_) fun _ => .pure True.intro
  exact .ite (fun _ => .throw _) fun _ => .pure True.intro

theorem stripFinal_steps :
    Steps A (fun _ op => op.Allowed (Writes request w₀)) (stripFinal request) fun _ => True := by
  refine .ite (fun _ => ?_) fun _ => .pure True.intro
  cases request.strip with
  | none => exact .throw _
  | some strip => exact runTool_steps _ _ _ .strip

theorem markFinal_steps :
    Steps A (fun _ op => op.Allowed (Writes request w₀)) (markFinal request) fun _ => True := by
  have hfinal : Writes request w₀ request.finalStaged := .staged request.finalStaged_mem
  refine .ite (fun _ => ?_) fun _ => .pure True.intro
  exact .bind (setArosAbi_steps hfinal) fun _ _ => .attempt hfinal

end

/-! ### Worlds of a run -/

section
variable (request : Request) (w₀ : World)

/-- The places that a run may write before it publishes. -/
def Scratch (q : Path) : Prop := ∃ p, Writes request w₀ p ∧ q = w₀.locate p

/-- A world in which only places of `T` have changed, and hold no new directory. -/
structure Within (T : Path → Prop) (w : World) : Prop where
  cwd : w.fs.cwd = w₀.fs.cwd
  logFile : w.logFile = w₀.logFile
  frame : ∀ q, ¬ T q → w.fs.get q = w₀.fs.get q
  nodir : ∀ q i, w.fs.get q = some (.dir i) → w₀.fs.get q = some (.dir i)

/-- A world in which the output has been published. -/
structure Published (w : World) : Prop extends
    Within w₀ (fun q => Scratch request w₀ q ∨ q = w₀.locate request.output) w where
  output : ∃ n, w.fs.get (w₀.locate request.output) = some n

/-- A world in which nothing has been published. -/
abbrev Kept (w : World) : Prop := Within w₀ (Scratch request w₀) w

/-- What a run leaves: without an error the output has been published, with one nothing. -/
def Ends (r : Except Failure Unit) (w : World) : Prop :=
  match r with
  | .ok () => Published request w₀ w
  | .error _ => Kept request w₀ w

/-- Every run of `p` from `w` ends as `Q` says. -/
abbrev Runs (A : Event → Prop) {β : Type} (Q : β → World → Prop) (p : Prog Host β) (w : World) :
    Prop := Host.machine.Safe A (fun _ => False) (fun _ _ _ => True) Q p w

variable {request w₀} {T : Path → Prop} {w : World}

theorem Within.locate (h : Within w₀ T w) (p : OsString) : w.locate p = w₀.locate p := by
  rw [World.locate, h.cwd, World.locate]

/-- What a call does that may write only scratch files. -/
theorem Within.continues {β : Type} {op : Host β} (h : Within w₀ T w)
    (hop : op.Allowed (Writes request w₀)) (c : Event) :
    ∃ touched, (∀ q ∈ touched, Scratch request w₀ q) ∧
      Continues w (Host.step op c w).2 touched := by
  have hpath : ∀ p, Writes request w₀ p → ∀ q ∈ [w.locate p], Scratch request w₀ q :=
    fun p hp q hq => ⟨p, hp, (List.mem_singleton.mp hq).trans (h.locate p)⟩
  refine ⟨op.touches w, ?_, step_follows (by cases op <;> first | exact hop.elim | trivial) c w⟩
  cases op
  case removeFile p => exact hpath p hop
  case writeFile p _ => exact hpath p hop
  case writeAt p _ _ => exact hpath p hop
  case setPermissions p _ => exact hpath p hop
  case execute _ args => exact hpath _ hop
  case log =>
    intro q hq
    obtain ⟨p, hp, rfl⟩ := List.mem_map.mp (by simpa [Host.touches] using hq :
      q ∈ w.logFile.toList.map w.locate)
    rw [h.logFile] at hp
    exact ⟨p, .log (by simpa using hp), h.locate p⟩
  all_goals exact fun q hq => nomatch hq

theorem Within.step {β : Type} {op : Host β} (h : Within w₀ T w)
    (hT : ∀ q, Scratch request w₀ q → T q) (hop : op.Allowed (Writes request w₀)) (c : Event) :
    Within w₀ T (Host.step op c w).2 := by
  obtain ⟨touched, hscratch, hc⟩ := h.continues hop c
  exact ⟨hc.cwd.trans h.cwd, hc.logFile.trans h.logFile,
    fun q hq => (hc.frame q fun hmem => hq (hT q (hscratch q hmem))).trans (h.frame q hq),
    fun q i hdir => h.nodir q i (hc.nodir q i hdir)⟩

theorem Ends.locate {r : Except Failure Unit} (h : Ends request w₀ r w) (p : OsString) :
    w.locate p = w₀.locate p := by
  cases r with
  | error e => exact Within.locate h p
  | ok u => exact h.toWithin.locate p

theorem Ends.nodir {r : Except Failure Unit} (h : Ends request w₀ r w) (p : OsString)
    (i : FileIdentity) (hi : w.get p = some (.dir i)) : w₀.get p = some (.dir i) := by
  rw [World.get, h.locate] at hi
  cases r with
  | error e => exact Within.nodir h _ i hi
  | ok u => exact h.toWithin.nodir _ i hi

theorem Ends.step {β : Type} {op : Host β} {r : Except Failure Unit} (h : Ends request w₀ r w)
    (houtput : ¬ Scratch request w₀ (w₀.locate request.output))
    (hop : op.Allowed (Writes request w₀)) (c : Event) :
    Ends request w₀ r (Host.step op c w).2 := by
  cases r with
  | error e => exact Within.step h (fun _ => id) hop c
  | ok u =>
    obtain ⟨touched, hscratch, hc⟩ := h.toWithin.continues hop c
    refine ⟨h.toWithin.step (fun _ => .inl) hop c, ?_⟩
    rw [hc.frame _ fun hmem => houtput (hscratch _ hmem)]
    exact h.output

/-- A step before the output is published. -/
theorem Steps.followed {A : Event → Prop} {β : Type} {p : Collector β} {f : β → Collector Unit}
    {R : β → Prop} (hp : Steps A (fun _ op => op.Allowed (Writes request w₀)) p R)
    (hf : ∀ b, R b → ∀ w, Kept request w₀ w → Runs A (Ends request w₀) (f b).run w)
    (hw : Kept request w₀ w) : Runs A (Ends request w₀) (p >>= f).run w := by
  have h := (hp w).invariant (I := Kept request w₀)
    (fun _ op w c hG hI => hI.step (fun _ => id) hG c) hw
  refine Machine.Safe.bindE (h.mono (fun _ _ _ _ => True.intro) ?_)
  rintro (e | b) w' ⟨hQ, hI⟩
  · exact hI
  · exact hf b (hQ b rfl) w' hI

theorem rename_cases (c : Event) (w : World) (source target : OsString) :
    (∃ e, Host.machine.step (.rename source target) c w = (.error e, w)) ∨
      ∃ n, w.get source = some n ∧ Host.machine.step (.rename source target) c w =
        (.ok (), { w with fs := w.fs.move (w.locate source) (w.locate target) n }) := by
  simp only [Host.machine, Host.step, Host.alter]
  by_cases hfail : c.fail = true
  · rw [if_pos hfail]
    exact .inl ⟨.io, rfl⟩
  rw [if_neg hfail]
  cases w.get source with
  | none => exact .inl ⟨.noent, rfl⟩
  | some n =>
    cases w.fs.isDir (w.locate target).dropLast <;>
      rcases w.get target with _ | (_ | _ | _) <;>
      first | exact .inl ⟨_, rfl⟩ | exact .inr ⟨n, rfl, rfl⟩

/-- A staged file is published as the output. -/
theorem publish_spec {A : Event → Prop} {staged : OsString} (hstaged : Writes request w₀ staged)
    (hdir : ∀ i, w₀.get staged ≠ some (.dir i)) (hw : Kept request w₀ w) :
    Runs A (Ends request w₀) (publish staged request.output).run w := by
  refine Machine.Safe.bindE (Machine.Safe.bind (Machine.Safe.perform True.intro fun c _ => ?_))
  refine Machine.Safe.ret ?_
  -- the rename either fails and changes nothing, or moves the staged file as a whole
  rcases rename_cases c w staged request.output with ⟨e, h⟩ | ⟨n, hn, h⟩
  · rw [h]
    exact Machine.Safe.ret hw
  rw [h]
  have hfile : ∀ i, n ≠ .dir i := fun i hi => hdir i (by
    rw [World.get, ← hw.locate]
    exact hw.nodir _ i (hi ▸ hn))
  have hmove : w.fs.move (w.locate staged) (w.locate request.output) n =
      (w.fs.del (w₀.locate staged)).set (w₀.locate request.output) n := by
    rw [hw.locate, hw.locate]
    cases n with
    | dir i => exact absurd rfl (hfile i)
    | _ => rfl
  rw [hmove]
  refine Machine.Safe.ret ⟨⟨hw.cwd, hw.logFile, fun q hq => ?_, fun q i hi => ?_⟩, n,
    Fs.get_set_self _ _ _⟩
  · rw [not_or] at hq
    rw [Fs.get_set_of_ne hq.2, Fs.get_del_of_ne fun h => hq.1 ⟨staged, hstaged, h⟩]
    exact hw.frame q hq.1
  · dsimp only at hi
    rw [Fs.get_set] at hi
    split_ifs at hi
    · exact absurd (Option.some.inj hi) (hfile i)
    · rw [Fs.get_del] at hi
      split_ifs at hi
      exact hw.nodir q i hi

variable {A : Event → Prop} {elfRead : Bytes → Option Object}

theorem secondPass_spec (hdir : ∀ i, w₀.get request.finalStaged ≠ some (.dir i)) (object : Object)
    (found : List Sets.SymbolSet) (requirements : List Sets.Requirement)
    (hw : Kept request w₀ w) :
    Runs A (Ends request w₀) (secondPass elfRead request object found requirements).run w := by
  refine Steps.followed (.attempt .script) (fun _ _ _ hw => ?_) hw
  refine Steps.followed (secondLink_steps object) (fun _ _ _ hw => ?_) hw
  refine Steps.followed (auditUndefined_steps elfRead) (fun _ _ _ hw => ?_) hw
  refine Steps.followed stripFinal_steps (fun _ _ _ hw => ?_) hw
  refine Steps.followed markFinal_steps (fun _ _ _ hw => ?_) hw
  exact publish_spec (.staged request.finalStaged_mem) hdir hw

theorem link_spec (hdir : ∀ p ∈ request.cleanupPaths, ∀ i, w₀.get p ≠ some (.dir i))
    (hw : Kept request w₀ w) : Runs A (Ends request w₀) (link elfRead request).run w := by
  have hstaged := request.staged_mem
  have hpublish : ∀ w, Kept request w₀ w →
      Runs A (Ends request w₀) (publish request.staged request.output).run w :=
    fun w hw => publish_spec (.staged hstaged) (hdir _ hstaged) hw
  refine Steps.followed firstLink_steps (fun _ _ w hw => ?_) hw
  -- an incremental link is published after its first pass
  by_cases hmode : request.mode = .incremental
  · rw [if_pos hmode]
    by_cases hdriver : request.frontend = .driver
    · rw [if_pos hdriver]
      exact Steps.followed (setArosAbi_steps (.staged hstaged)) (fun _ _ w hw => hpublish w hw) hw
    · rw [if_neg hdriver]
      exact hpublish w hw
  rw [if_neg hmode]
  refine Steps.followed (readObject_steps elfRead _) (fun object _ w hw => ?_) hw
  refine Steps.followed (reportSkipped_steps _) (fun _ _ w hw => ?_) hw
  split
  · exact hpublish w hw
  · exact secondPass_spec (hdir _ request.finalStaged_mem) object _ _ hw

/-! ### Removing the staged files -/

/-- Removals do not fail. -/
def Removes (A : Event → Prop) : Prop := ∀ c, A c → c.failRemove = false

/-- Nothing is left at these paths. -/
def Gone (w₀ : World) (paths : List OsString) (w : World) : Prop :=
  ∀ p ∈ paths, w.fs.get (w₀.locate p) = none

theorem removeFile_gone {c : Event} {path : OsString} (hc : c.failRemove = false)
    (hdir : ∀ i, w.get path ≠ some (.dir i)) :
    ((Host.machine.step (.removeFile path) c w).1 = .ok () ∨
      (Host.machine.step (.removeFile path) c w).1 = .error .noent) ∧
      (Host.machine.step (.removeFile path) c w).2.fs.get (w.locate path) = none := by
  simp only [Host.machine, Host.step, hc, Bool.false_eq_true, if_false]
  cases h : w.get path with
  | none => exact ⟨.inr rfl, h⟩
  | some n =>
    cases n with
    | dir i => exact absurd h (hdir i)
    | _ => exact ⟨.inl rfl, Fs.get_del_self _ _⟩

theorem removeFile_none (c : Event) (path : OsString) {q : Path} (h : w.fs.get q = none) :
    (Host.machine.step (.removeFile path) c w).2.fs.get q = none := by
  simp only [Host.machine, Host.step]
  split
  · exact h
  · split
    · exact h
    · change (w.fs.del _).get q = none
      rw [Fs.get_del, h, ite_self]
    · exact h

theorem removeIfExists_spec {code : DiagnosticCode} {path : OsString} {f : Unit → Collector Unit}
    {Q : Except Failure Unit → World → Prop} (hpath : Writes request w₀ path)
    (hdir : ∀ i, w₀.get path ≠ some (.dir i))
    (herror : ∀ e w, Kept request w₀ w → ¬ Removes A → Q (.error e) w)
    (hf : ∀ w, Kept request w₀ w → Runs A Q (f ()).run w) (hw : Kept request w₀ w) :
    Runs A Q (removeIfExists code path >>= f).run w := by
  refine Machine.Safe.bindE (Machine.Safe.bindE (Machine.Safe.bind
    (Machine.Safe.perform True.intro fun c hc => Machine.Safe.ret ?_)))
  have hstep : Kept request w₀ (Host.machine.step (.removeFile path) c w).2 :=
    hw.step (fun _ => id) (show (Host.removeFile path).Allowed _ from hpath) c
  have hgone : Removes A → (Host.machine.step (.removeFile path) c w).1 = .ok () ∨
      (Host.machine.step (.removeFile path) c w).1 = .error .noent :=
    fun h => (removeFile_gone (h c hc) fun i hi =>
      hdir i (by rw [World.get, ← hw.locate]; exact hw.nodir _ i hi)).1
  generalize Host.machine.step (.removeFile path) c w = r at hstep hgone
  obtain ⟨r, w'⟩ := r
  rcases r with e | u
  · cases e
    case noent => exact Machine.Safe.ret (hf _ hstep)
    all_goals
      refine Machine.Safe.ret (herror _ _ hstep fun h => ?_)
      rcases hgone h with h | h <;> cases h
  · exact Machine.Safe.ret (hf _ hstep)

theorem cleanup_spec (houtput : ¬ Scratch request w₀ (w₀.locate request.output))
    {r : Except Failure Unit} {paths : List OsString}
    (hpaths : ∀ p ∈ paths, Writes request w₀ p ∧ ∀ i, w₀.get p ≠ some (.dir i))
    (hw : Ends request w₀ r w) :
    Runs A (fun _ w' => Ends request w₀ r w' ∧ (Removes A → Gone w₀ paths w') ∧
      ∀ q, w.fs.get q = none → w'.fs.get q = none) (cleanup paths) w := by
  induction paths generalizing w with
  | nil => exact Machine.Safe.ret ⟨hw, fun _ p hp => (List.not_mem_nil hp).elim, fun _ => id⟩
  | cons path paths ih =>
    refine Machine.Safe.bind (Machine.Safe.perform True.intro fun c hc => ?_)
    obtain ⟨hpath, hdir⟩ := hpaths path List.mem_cons_self
    have hstep : Ends request w₀ r (Host.machine.step (.removeFile path) c w).2 :=
      hw.step houtput (show (Host.removeFile path).Allowed _ from hpath) c
    refine (ih (fun p hp => hpaths p (List.mem_cons_of_mem _ hp)) hstep).weaken ?_
    rintro _ w' ⟨hends, hgone, hnone⟩
    refine ⟨hends, fun h => List.forall_mem_cons.mpr ⟨hnone _ ?_, hgone h⟩, fun q hq =>
      hnone q (removeFile_none c path hq)⟩
    rw [← hw.locate]
    exact (removeFile_gone (h c hc) fun i hi => hdir i (hw.nodir path i hi)).2

/-! ### The whole run -/

variable (A elfRead) in
theorem runWith_spec (houtput : ¬ Scratch request w₀ (w₀.locate request.output))
    (hdir : ∀ p ∈ request.cleanupPaths, ∀ i, w₀.get p ≠ some (.dir i)) (debug : Bool) :
    Runs A (fun r w => Ends request w₀ r w ∧
        (debug = false → Removes A → Gone w₀ request.cleanupPaths w))
      (runWith elfRead request debug).run w₀ := by
  have hwrites : ∀ p ∈ request.cleanupPaths, Writes request w₀ p := fun p hp => .staged hp
  have herror : ∀ (e : Failure) w, Kept request w₀ w → ¬ Removes A → Ends request w₀ (.error e) w ∧
      (debug = false → Removes A → Gone w₀ request.cleanupPaths w) :=
    fun e w hw h => ⟨hw, fun _ h' => absurd h' h⟩
  have hguarded : ∀ w, Kept request w₀ w → Runs A (fun r w => Ends request w₀ r w ∧
        (debug = false → Removes A → Gone w₀ request.cleanupPaths w)) (do
      let result ← ExceptT.lift (link elfRead request).run
      if !debug then ExceptT.lift (cleanup request.cleanupPaths)
      ExceptT.mk (pure result) : Collector Unit).run w := by
    intro w hw
    refine Machine.Safe.bindE (Machine.Safe.bind ((link_spec hdir hw).weaken fun r w hends => ?_))
    refine Machine.Safe.ret ?_
    cases debug with
    | true => exact Machine.Safe.ret ⟨hends, nofun⟩
    | false =>
      refine Machine.Safe.bindE (Machine.Safe.bind ((cleanup_spec houtput
        (fun p hp => ⟨hwrites p hp, hdir p hp⟩) hends).weaken fun _ w' h => ?_))
      exact Machine.Safe.ret (Machine.Safe.ret ⟨h.1, fun _ => h.2.1⟩)
  -- the files of an earlier run go first; a removal that fails ends the run before it has begun
  have hstart : Kept request w₀ w₀ := ⟨rfl, rfl, fun _ _ => rfl, fun _ _ => id⟩
  have hstaged := request.staged_mem
  have hfinal := request.finalStaged_mem
  refine removeIfExists_spec (hwrites _ hstaged) (hdir _ hstaged) herror (fun w hw => ?_) hstart
  refine removeIfExists_spec (hwrites _ hfinal) (hdir _ hfinal) herror (fun w hw => ?_) hw
  by_cases hkeep : request.keepScript = none
  · have hscript : request.script ∈ request.cleanupPaths := by simp [Request.cleanupPaths, hkeep]
    rw [if_pos hkeep]
    exact removeIfExists_spec (hwrites _ hscript) (hdir _ hscript) herror hguarded hw
  · rw [if_neg hkeep]
    exact hguarded w hw

/-- **A run is atomic.**  Whatever fails and whatever the tools leave, a run that fails has not
touched the output, a run that succeeds leaves one, and neither has changed anything but its
scratch files, which are gone unless they are kept for debugging or a removal fails. -/
theorem runWith_atomic (elfRead : Bytes → Option Object) (request : Request) (w₀ : World)
    (houtput : ∀ p, Writes request w₀ p → (∀ suffix ∈ suffixes, p ≠ adjacent request.output suffix) →
      w₀.locate p ≠ w₀.locate request.output)
    (hdir : ∀ p ∈ request.cleanupPaths, ∀ i, w₀.get p ≠ some (.dir i)) (debug : Bool)
    (env : ℕ → Event) {r : Except Failure Unit} {w : World}
    (h : Host.machine.exec (runWith elfRead request debug).run env w₀ = (r, w)) :
    (∀ e, r = .error e → w.fs.get (w₀.locate request.output) = w₀.get request.output) ∧
      (r = .ok () → ∃ n, w.fs.get (w₀.locate request.output) = some n) ∧
      (∀ q, ¬ Scratch request w₀ q → q ≠ w₀.locate request.output →
        w.fs.get q = w₀.fs.get q) ∧
      (debug = false → (∀ n, (env n).failRemove = false) → Gone w₀ request.cleanupPaths w) := by
  have hscratch : ¬ Scratch request w₀ (w₀.locate request.output) := by
    rintro ⟨p, hp, heq⟩
    refine houtput p hp (fun suffix hsuffix h => ?_) heq.symm
    exact locate_adjacent_ne hsuffix w₀.fs.cwd request.output (h ▸ heq.symm)
  have hends : Ends request w₀ r w := by
    have := (runWith_spec (fun c => ∃ n, c = env n) elfRead hscratch hdir debug).exec
      fun n => ⟨n, rfl⟩
    rw [h] at this
    exact this.1
  refine ⟨?_, ?_, fun q hq hne => ?_, fun hdebug hremove => ?_⟩
  · rintro e rfl
    exact Within.frame hends _ hscratch
  · rintro rfl
    exact hends.output
  · cases r with
    | error e => exact Within.frame hends q hq
    | ok u => exact hends.toWithin.frame q (not_or.mpr ⟨hq, hne⟩)
  · have := (runWith_spec (fun c => c.failRemove = false) elfRead hscratch hdir debug).exec hremove
    rw [h] at this
    exact this.2 hdebug fun _ => id

end

/-- A request for a link of `/o`. -/
def demoRequest : Request where
  name := ascii "collect-aros"
  linker := ascii "/ld"
  strip := none
  emulation := none
  args := [ascii "-o", ascii "/o"]
  output := ascii "/o"
  sysroot := none
  mode := .final
  stripOutput := false
  ignoreUndefined := false
  report := none
  keepScript := none
  frontend := .direct

/-- A file of an earlier run at `/o`. -/
def demoWorld : World where
  fs := ((⟨∅, []⟩ : Fs).set [] (.dir ⟨0, 0⟩)).set [ascii "o"] (.file ⟨⟨0, 1⟩, [], 0o644⟩)
  logLevel := .off
  logFile := none
  passes := []

/-- Every call succeeds, and every tool fails. -/
def demoEvent : Event := ⟨false, false, 0, ⟨0, 0⟩, 0, .none, ⟨some 1⟩⟩

theorem runWith_atomic_failedLink : ∃ r w,
    Host.machine.exec (runWith (fun _ => none) demoRequest false).run (fun _ => demoEvent) demoWorld =
      (r, w) ∧ (∃ e, r = .error e) ∧ w.fs.get [ascii "o"] = some (.file ⟨⟨0, 1⟩, [], 0o644⟩) := by
  refine ⟨_, _, rfl, ⟨_, rfl⟩, ?_⟩
  refine (runWith_atomic (fun _ => none) demoRequest demoWorld ?_ ?_ false (fun _ => demoEvent)
    rfl).1 _ rfl
  · intro p hp hsuffix
    cases hp with
    | staged h =>
      rcases List.mem_cons.mp h with rfl | h
      · exact absurd rfl (hsuffix ".collect-pre" (by decide))
      rcases List.mem_cons.mp h with rfl | h
      · exact absurd rfl (hsuffix ".collect-final" (by decide))
      · obtain rfl := List.mem_singleton.mp h
        exact absurd rfl (hsuffix ".collect-sets.ld" (by decide))
    | script => exact absurd rfl (hsuffix ".collect-sets.ld" (by decide))
    | report h => cases h
    | log h => cases h
    | first h =>
      have hargs : replaceOutput demoRequest.staged demoRequest.args =
        .ok [ascii "-o", demoRequest.staged] := by decide +kernel
      obtain rfl := Except.ok.inj (hargs.symm.trans h)
      decide +kernel
    | second object =>
      change demoWorld.locate (toolTarget (secondArgs demoRequest [])) ≠ _
      decide +kernel
    | strip => decide +kernel
  · intro p hp i
    have hfree : ∀ p ∈ demoRequest.cleanupPaths, demoWorld.get p = none := by decide +kernel
    rw [hfree p hp]
    exact Option.some_ne_none _ ∘ Eq.symm

end Engine

end ArosTools
