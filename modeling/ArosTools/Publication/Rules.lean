import ArosTools.Publication.Filesystem

/-!
# Rules for the file operations

`IoSafe fail U G Q p fs` is `Machine.Safe` for a program that may throw: `fail` says whether
primitives may fail, `G` holds whenever a primitive is issued, and `Q` of the result.  There is
one rule for each helper of `Publication/Filesystem.lean`; it says what the helper returns in
terms of the filesystem it was started in, and nothing later looks inside the helper again.
-/

namespace ArosTools

open Sys

/-- Safety of a program that may throw. -/
def IoSafe {α : Type} (fail : Bool) (U : Fs → Prop) (G : ∀ ⦃β : Type⦄, Sys β → Fs → Prop)
    (Q : Except IoError α → Fs → Prop) (p : Io α) (fs : Fs) : Prop :=
  Sys.machine.Safe (permits fail) U G Q p.run fs

variable {α β γ : Type} {fail : Bool} {U : Fs → Prop} {G : ∀ ⦃β : Type⦄, Sys β → Fs → Prop}
  {Q Q' : Except IoError α → Fs → Prop} {fs : Fs}

namespace IoSafe

/-- What the first of two programs has to achieve. -/
abbrev Then (fail : Bool) (U : Fs → Prop) (G : ∀ ⦃β : Type⦄, Sys β → Fs → Prop)
    (Q : Except IoError α → Fs → Prop) (f : β → Io α) (r : Except IoError β) (fs : Fs) : Prop :=
  match r with
  | .ok b => IoSafe fail U G Q (f b) fs
  | .error e => Q (.error e) fs

theorem bind {p : Io β} {f : β → Io α} (h : IoSafe fail U G (Then fail U G Q f) p fs) :
    IoSafe fail U G Q (p >>= f) fs := by
  refine Machine.Safe.bindE (Machine.Safe.weaken h ?_)
  rintro (e | b) s h
  · exact h
  · exact h

theorem pure {a : α} (h : Q (.ok a) fs) : IoSafe fail U G Q (Pure.pure a) fs := .inr h

theorem throw {e : IoError} (h : Q (.error e) fs) :
    IoSafe fail U G Q (MonadExcept.throw e) fs := .inr h

theorem weaken {p : Io α} (h : IoSafe fail U G Q p fs) (hQ : ∀ r s, Q r s → Q' r s) :
    IoSafe fail U G Q' p fs := Machine.Safe.weaken h hQ

theorem mono {p : Io α} {G' : ∀ ⦃β : Type⦄, Sys β → Fs → Prop} (h : IoSafe fail U G Q p fs)
    (hG : ∀ ⦃β : Type⦄ (op : Sys β) s, G op s → G' op s) (hQ : ∀ r s, Q r s → Q' r s) :
    IoSafe fail U G' Q' p fs := Machine.Safe.mono h hG hQ

theorem of_until {p : Io α} (h : U fs) : IoSafe fail U G Q p fs := Machine.Safe.of_until h

theorem attempt {p : Io α} {Q : Except IoError (Except IoError α) → Fs → Prop}
    (h : IoSafe fail U G (fun r s => Q (.ok r) s) p fs) :
    IoSafe fail U G Q (ArosTools.attempt p) fs :=
  Machine.Safe.bind (Machine.Safe.weaken h fun _ _ h => .inr h)

theorem mapErr {p : Io α} {f : IoError → IoError} (h : IoSafe fail U G (fun r s =>
      match r with
      | .ok a => Q (.ok a) s
      | .error e => Q (.error (f e)) s) p fs) :
    IoSafe fail U G Q (ArosTools.mapErr f p) fs := by
  refine Machine.Safe.bind (Machine.Safe.weaken h ?_)
  rintro (e | a) s h
  · exact .inr h
  · exact .inr h

theorem okOr {o : Option α} {e : IoError} (hok : ∀ a, o = some a → Q (.ok a) fs)
    (herr : o = none → Q (.error e) fs) : IoSafe fail U G Q (ArosTools.okOr o e) fs := by
  cases o with
  | none => exact throw (herr rfl)
  | some a => exact pure (hok a rfl)

theorem ite {c : Prop} [Decidable c] {p q : Io α} (hp : c → IoSafe fail U G Q p fs)
    (hq : ¬ c → IoSafe fail U G Q q fs) : IoSafe fail U G Q (if c then p else q) fs := by
  split
  · exact hp ‹_›
  · exact hq ‹_›

theorem liftExcept {r : Except IoError α} (h : Q r fs) :
    IoSafe fail U G Q (ArosTools.liftExcept r) fs := by
  cases r with
  | error e => exact throw h
  | ok a => exact pure h

/-! ### Primitives -/

theorem sysResult_peek {op : Sys (Except Errno γ)} {r : Except Errno γ}
    {Q : Except IoError (Except Errno γ) → Fs → Prop} (hstep : ∀ c, Sys.step op c fs = peek c fs r)
    (hG : G op fs) (h : Q (.ok r) fs) (hf : fail = true → Q (.ok (.error .io)) fs) :
    IoSafe fail U G Q (sysResult op) fs := by
  refine Machine.Safe.call hG fun c hc => ?_
  have hs : Sys.machine.step op c fs = peek c fs r := hstep c
  rw [hs]
  rcases peek_cases hc fs r with h' | ⟨hfail, h'⟩
  · rw [h']; exact .inr h
  · rw [h']; exact .inr (hf hfail)

theorem sys_peek {op : Sys (Except Errno α)} {r : Except Errno α}
    (hstep : ∀ c, Sys.step op c fs = peek c fs r) (hG : G op fs)
    (hok : ∀ a, r = .ok a → Q (.ok a) fs) (herr : ∀ e, r = .error e → Q (.error (.ofErrno e)) fs)
    (hf : fail = true → Q (.error (.ofErrno .io)) fs) :
    IoSafe fail U G Q (sys op) fs := by
  refine Machine.Safe.call hG fun c hc => ?_
  have hs : Sys.machine.step op c fs = peek c fs r := hstep c
  rw [hs]
  rcases peek_cases hc fs r with h' | ⟨hfail, h'⟩
  · rw [h']
    rcases r with e | a
    · exact .inr (herr e rfl)
    · exact .inr (hok a rfl)
  · rw [h']; exact .inr (hf hfail)

theorem sys_alter {op : Sys (Except Errno α)} {r : Choice → Except Errno (α × Fs)}
    (hstep : ∀ c, Sys.step op c fs = alter c fs (r c)) (hG : G op fs)
    (hok : ∀ c a fs', r c = .ok (a, fs') → Q (.ok a) fs')
    (herr : ∀ c e, r c = .error e → Q (.error (.ofErrno e)) fs)
    (hf : fail = true → Q (.error (.ofErrno .io)) fs) :
    IoSafe fail U G Q (sys op) fs := by
  refine Machine.Safe.call hG fun c hc => ?_
  have hs : Sys.machine.step op c fs = alter c fs (r c) := hstep c
  rw [hs]
  rcases alter_cases hc fs (r c) with ⟨a, fs', hr, h'⟩ | ⟨e, hr, h'⟩ | ⟨hfail, h'⟩
  · rw [h']; exact .inr (hok c a fs' hr)
  · rw [h']; exact .inr (herr c e hr)
  · rw [h']; exact .inr (hf hfail)

theorem sysResult_alter {op : Sys (Except Errno γ)} {r : Choice → Except Errno (γ × Fs)}
    {Q : Except IoError (Except Errno γ) → Fs → Prop}
    (hstep : ∀ c, Sys.step op c fs = alter c fs (r c)) (hG : G op fs)
    (hok : ∀ c a fs', r c = .ok (a, fs') → Q (.ok (.ok a)) fs')
    (herr : ∀ c e, r c = .error e → Q (.ok (.error e)) fs)
    (hf : fail = true → Q (.ok (.error .io)) fs) :
    IoSafe fail U G Q (sysResult op) fs := by
  refine Machine.Safe.call hG fun c hc => ?_
  have hs : Sys.machine.step op c fs = alter c fs (r c) := hstep c
  rw [hs]
  rcases alter_cases hc fs (r c) with ⟨a, fs', hr, h'⟩ | ⟨e, hr, h'⟩ | ⟨hfail, h'⟩
  · rw [h']; exact .inr (hok c a fs' hr)
  · rw [h']; exact .inr (herr c e hr)
  · rw [h']; exact .inr (hf hfail)

end IoSafe

/-- Every call that changes nothing is allowed in `fs`. -/
def QuietOk (G : ∀ ⦃β : Type⦄, Sys β → Fs → Prop) (fs : Fs) : Prop :=
  ∀ ⦃β : Type⦄ (op : Sys β), op.Quiet → G op fs

theorem fsync_safe {p : Path} {Q : Except IoError Unit → Fs → Prop} (hG : QuietOk G fs)
    (hok : Q (.ok ()) fs) (hf : fail = true → Q (.error (.ofErrno .io)) fs) :
    IoSafe fail U G Q (sys (.fsync p)) fs :=
  IoSafe.sys_peek (fun _ => rfl) (hG _ trivial) (fun _ _ => hok) (fun _ h => nomatch h) hf

theorem fstat_safe {fd : FileIdentity} {Q : Except IoError FileIdentity → Fs → Prop}
    (hG : QuietOk G fs) (hok : Q (.ok fd) fs) (hf : fail = true → Q (.error (.ofErrno .io)) fs) :
    IoSafe fail U G Q (sys (.fstat fd)) fs :=
  IoSafe.sys_peek (fun _ => rfl) (hG _ trivial) (fun _ h => Except.ok.inj h ▸ hok)
    (fun _ h => nomatch h) hf

theorem openDir_safe {p : Path} {Q : Except IoError FileIdentity → Fs → Prop}
    (hG : QuietOk G fs) (hok : ∀ i, fs.get p = some (.dir i) → Q (.ok i) fs)
    (herr : fs.isDir p = false → ∀ e, Q (.error (.ofErrno e)) fs)
    (hf : fail = true → Q (.error (.ofErrno .io)) fs) :
    IoSafe fail U G Q (sys (.openDir p)) fs :=
  IoSafe.sys_peek (fun _ => rfl) (hG _ trivial) (fun i h => hok i (directory_ok.1 h))
    (fun e h => herr (directory_error h).1 e) hf

/-! ### Walking to a parent directory -/

namespace PathBuf

/-- The names a written path stands for below the current directory `cwd`. -/
def resolve (cwd : Path) (path : PathBuf) : Option Path := ((ofPath cwd).joinPath path).names?

theorem names?_eq_some {path : PathBuf} {p : Path} :
    path.names? = some p ↔ path.components = p.map .normal := by
  unfold names?
  generalize path.components = l
  induction l generalizing p with
  | nil => cases p <;> simp
  | cons c l ih =>
    rw [List.mapM_cons]
    cases c with
    | normal n =>
      cases p with
      | nil => simp [Option.bind_eq_some_iff]
      | cons m p =>
        have := ih (p := p)
        simp only [Option.pure_def, Option.bind_eq_bind, Option.bind_some, Option.bind_eq_some_iff,
          Option.some.injEq, List.cons.injEq, List.map_cons, Component.normal.injEq] at this ⊢
        grind
    | parentDir => cases p <;> simp
    | curDir => cases p <;> simp

@[simp] theorem names?_ofPath (p : Path) : (ofPath p).names? = some p := names?_eq_some.2 rfl

@[simp] theorem resolve_ofPath (cwd p : Path) : (ofPath p).resolve cwd = some p := by
  simp [resolve, joinPath]

end PathBuf

/-- `h` is the open parent of `path`. -/
structure Opened (fs : Fs) (path : PathBuf) (h : ParentHandle) : Prop where
  resolve : path.resolve fs.cwd = some h.file
  dir : fs.get h.dir = some (.dir h.fd)
  dirs : fs.Dirs h.dir

theorem Opened.file_eq {p : Path} {h : ParentHandle} (ho : Opened fs (.ofPath p) h) :
    h.file = p := by
  have := ho.resolve
  rw [PathBuf.resolve_ofPath, Option.some.injEq] at this
  exact this.symm

theorem Opened.dir_eq {p : Path} {h : ParentHandle} (ho : Opened fs (.ofPath p) h) :
    h.dir = p.dropLast := by
  rw [← ho.file_eq]
  simp [ParentHandle.file]

theorem opened_of_dirs {p : Path} (hne : p ≠ []) (hd : fs.Dirs p.dropLast) :
    ∃ h, Opened fs (.ofPath p) h := by
  obtain ⟨i, hi⟩ := Fs.isDir_iff.1 hd.isDir
  refine ⟨⟨i, p.getLast hne, p.dropLast⟩, ?_, hi, hd⟩
  rw [PathBuf.resolve_ofPath, ParentHandle.file, List.dropLast_append_getLast]

theorem not_dirs_of_not_isDir {p q : Path} (h : fs.isDir q = false) (hq : q <+: p) :
    ¬ fs.Dirs p := by
  intro hd
  rw [hd q hq] at h
  cases h

theorem Fs.Dirs.snoc {d : Path} {n : Name} (hd : fs.Dirs d) (h : fs.isDir (d ++ [n]) = true) :
    fs.Dirs (d ++ [n]) := by
  intro q hq
  rcases List.prefix_concat_iff.1 hq with rfl | hq
  · exact h
  · exact hd q hq

theorem openComponent_safe {create : Bool} {traversed : Path} {name : Name}
    {Q : Except IoError FileIdentity → Fs → Prop} (hG : QuietOk G fs)
    (hc : create = true → fs.isDir (traversed ++ [name]) = true)
    (hok : ∀ i, fs.get (traversed ++ [name]) = some (.dir i) → Q (.ok i) fs)
    (herr : fs.isDir (traversed ++ [name]) = false → ∀ e, Q (.error e) fs)
    (hf : fail = true → ∀ e : IoError, e.kind = .other → Q (.error e) fs) :
    IoSafe fail U G Q (openComponent create traversed name) fs := by
  unfold openComponent
  refine IoSafe.bind (IoSafe.sysResult_peek (fun _ => rfl) (hG _ trivial) ?_ fun hfail => ?_)
  · cases hr : directory fs (traversed ++ [name]) with
    | ok i => exact IoSafe.pure (hok i (directory_ok.1 hr))
    | error e =>
      have hd := (directory_error hr).1
      have hcreate : create = false := by
        cases create with
        | false => rfl
        | true => rw [hc rfl] at hd; cases hd
      subst hcreate
      cases e <;> exact IoSafe.throw (herr hd _)
  · exact IoSafe.throw (hf hfail _ rfl)

theorem openComponents_safe {create : Bool} {absolute : PathBuf} {traversed : Path}
    {fd : FileIdentity} {cs : List Component}
    {Q : Except IoError (Path × FileIdentity) → Fs → Prop} (hG : QuietOk G fs)
    (hc : create = true → ∃ names, cs = names.map .normal ∧ fs.Dirs (traversed ++ names))
    (hd : fs.Dirs traversed) (hfd : fs.get traversed = some (.dir fd))
    (hok : ∀ names i, cs = names.map .normal → fs.Dirs (traversed ++ names) →
      fs.get (traversed ++ names) = some (.dir i) → Q (.ok (traversed ++ names, i)) fs)
    (herr : (∀ names, cs = names.map .normal → ¬ fs.Dirs (traversed ++ names)) →
      ∀ e, Q (.error e) fs)
    (hf : fail = true → ∀ e : IoError, e.kind = .other → Q (.error e) fs) :
    IoSafe fail U G Q (openComponents create absolute traversed fd cs) fs := by
  induction cs generalizing traversed fd with
  | nil =>
    refine IoSafe.pure ?_
    have := hok [] fd rfl
    simp only [List.append_nil] at this
    exact this hd hfd
  | cons c cs ih =>
    cases c with
    | normal name =>
      -- the walk creates nothing: the component it would create is a directory
      have hc' : create = true → ∃ names, cs = names.map .normal ∧
          fs.Dirs (traversed ++ [name] ++ names) := by
        intro h
        obtain ⟨names, hcs, hds⟩ := hc h
        cases names with
        | nil => cases hcs
        | cons m names =>
          simp only [List.map_cons, List.cons.injEq, Component.normal.injEq] at hcs
          obtain ⟨rfl, rfl⟩ := hcs
          exact ⟨names, rfl, by simpa using hds⟩
      have hcd : create = true → fs.isDir (traversed ++ [name]) = true := by
        intro h
        obtain ⟨names, -, hds⟩ := hc' h
        exact hds _ (List.prefix_append _ _)
      refine IoSafe.bind (openComponent_safe hG hcd (fun i hi => ?_) (fun hnd e => ?_) hf)
      · have hd' : fs.Dirs (traversed ++ [name]) := hd.snoc (Fs.isDir_iff.2 ⟨i, hi⟩)
        refine ih hc' hd' hi (fun names j hcs hds hj => ?_) (fun hno e => herr (fun names hcs => ?_) e)
        · have := hok (name :: names) j (by simp [hcs])
          simp only [List.append_assoc, List.singleton_append] at hds hj ⊢
          exact this hds hj
        · cases names with
          | nil => cases hcs
          | cons m names =>
            simp only [List.map_cons, List.cons.injEq, Component.normal.injEq] at hcs
            obtain ⟨rfl, rfl⟩ := hcs
            have := hno names rfl
            simpa using this
      · refine herr (fun names hcs => ?_) e
        cases names with
        | nil => cases hcs
        | cons m names =>
          simp only [List.map_cons, List.cons.injEq, Component.normal.injEq] at hcs
          obtain ⟨rfl, -⟩ := hcs
          exact not_dirs_of_not_isDir hnd (by simp)
    | parentDir => exact IoSafe.throw (herr (fun names h => by cases names <;> cases h) _)
    | curDir => exact IoSafe.throw (herr (fun names h => by cases names <;> cases h) _)

theorem absolutePath_safe {path : PathBuf} {Q : Except IoError PathBuf → Fs → Prop}
    (hG : QuietOk G fs) (hok : Q (.ok ((PathBuf.ofPath fs.cwd).joinPath path)) fs)
    (hf : fail = true → Q (.error (.ofErrno .io)) fs) :
    IoSafe fail U G Q (absolutePath path) fs := by
  unfold absolutePath
  by_cases ha : path.absolute = true
  · rw [if_pos ha]
    refine IoSafe.pure ?_
    rwa [PathBuf.joinPath, if_pos ha] at hok
  · rw [if_neg ha]
    refine IoSafe.bind (IoSafe.sys_peek (fun _ => rfl) (hG _ trivial) (fun cwd h => ?_)
      (fun _ h => nomatch h) hf)
    cases h
    exact IoSafe.pure hok

theorem components_eq_of_parent {path parent : PathBuf} {leaf : Name} {names : Path}
    (hl : path.fileName = some leaf) (hp : path.parent = some parent)
    (hc : parent.components = names.map .normal) : path.names? = some (names ++ [leaf]) := by
  rw [PathBuf.names?_eq_some, List.map_append, ← hc]
  unfold PathBuf.parent at hp
  split at hp
  · cases hp
  · cases hp
    unfold PathBuf.fileName at hl
    rename_i hne
    rw [List.getLast?_eq_some_getLast hne] at hl
    have hlast : path.components.getLast hne = .normal leaf := by
      cases hcl : path.components.getLast hne <;> simp_all
    simp only [List.map_cons, List.map_nil, ← hlast, List.dropLast_append_getLast]

/-- Walking to a parent changes nothing if nothing is to be created; it succeeds exactly at an
existing parent. -/
theorem openParent_safe {create : Bool} {path : PathBuf}
    {Q : Except IoError ParentHandle → Fs → Prop} (hG : QuietOk G fs)
    (hc : create = true → ∃ h, Opened fs path h) (hok : ∀ h, Opened fs path h → Q (.ok h) fs)
    (herr : (∀ h, ¬ Opened fs path h) → ∀ e, Q (.error e) fs)
    (hf : fail = true → ∀ e : IoError, e.kind = .other → Q (.error e) fs) :
    IoSafe fail U G Q (openParent path create) fs := by
  unfold openParent
  refine IoSafe.bind (absolutePath_safe hG ?_ fun h => hf h _ rfl)
  have hfile : ∀ h, Opened fs path h → ∃ leaf parent,
      ((PathBuf.ofPath fs.cwd).joinPath path).fileName = some leaf ∧
      ((PathBuf.ofPath fs.cwd).joinPath path).parent = some parent ∧
      parent.components = h.dir.map .normal := by
    intro h ho
    have hc := PathBuf.names?_eq_some.1 ho.resolve
    refine ⟨h.leaf, ⟨((PathBuf.ofPath fs.cwd).joinPath path).absolute, h.dir.map .normal⟩, ?_, ?_,
      rfl⟩
    · simp [PathBuf.fileName, hc, ParentHandle.file]
    · simp [PathBuf.parent, hc, ParentHandle.file]
  refine IoSafe.bind (IoSafe.okOr (fun leaf hleaf => ?_) fun hl => herr (fun h ho => ?_) _)
  · refine IoSafe.bind (IoSafe.okOr (fun parent hparent => ?_) fun hp => herr (fun h ho => ?_) _)
    · refine IoSafe.bind (openDir_safe hG (fun root hroot => ?_) (fun hnd e => herr (fun h ho => ?_) _)
        fun h => hf h _ rfl)
      · have hd : fs.Dirs [] := by
          intro q hq
          rw [List.prefix_nil.1 hq]
          exact Fs.isDir_iff.2 ⟨root, hroot⟩
        have hc' : create = true → ∃ names, parent.components = names.map .normal ∧
            fs.Dirs ([] ++ names) := by
          intro h
          obtain ⟨h, ho⟩ := hc h
          obtain ⟨_, parent', -, hp', hcs⟩ := hfile h ho
          rw [hparent, Option.some.injEq] at hp'
          subst hp'
          exact ⟨h.dir, hcs, ho.dirs⟩
        refine IoSafe.bind (openComponents_safe hG hc' hd hroot (fun names i hcs hds hi => ?_)
          (fun hno' e => herr (fun h ho => ?_) e) hf)
        · rw [List.nil_append] at hds hi
          have ho : Opened fs path ⟨i, leaf, names⟩ :=
            ⟨components_eq_of_parent hleaf hparent hcs, hi, hds⟩
          refine IoSafe.bind (fstat_safe hG ?_ fun h => hf h _ rfl)
          refine IoSafe.bind (openDir_safe hG (fun j hj => ?_) (fun hnd e => ?_)
            fun h => hf h _ rfl)
          · rw [List.nil_append, hi, Option.some.injEq, Node.dir.injEq] at hj
            subst hj
            refine IoSafe.bind (fstat_safe hG ?_ fun h => hf h _ rfl)
            refine IoSafe.ite (fun h => absurd rfl h) fun _ => ?_
            rw [List.nil_append]
            exact IoSafe.pure (hok _ ho)
          · exact absurd hds.isDir (by rw [List.nil_append] at hnd; simp [hnd])
        · obtain ⟨leaf', parent', -, hp', hc'⟩ := hfile h ho
          rw [hparent, Option.some.injEq] at hp'
          subst hp'
          exact hno' h.dir hc' ho.dirs
      · exact not_dirs_of_not_isDir hnd List.nil_prefix ho.dirs
    · obtain ⟨_, _, -, hp', -⟩ := hfile h ho
      rw [hp] at hp'
      cases hp'
  · obtain ⟨_, _, hl', -, -⟩ := hfile h ho
    rw [hl] at hl'
    cases hl'

/-! ### Creating directories on the way -/

/-- Nothing was done but creating directories, each at a name satisfying `D`. -/
structure Grown (D : Path → Prop) (fs fs' : Fs) : Prop where
  cwd : fs'.cwd = fs.cwd
  get : ∀ q, fs'.get q = fs.get q ∨ D q ∧ fs.get q = none ∧ fs'.isDir q = true

namespace Grown

variable {D : Path → Prop} {fs₁ fs₂ : Fs}

theorem refl (D : Path → Prop) (fs : Fs) : Grown D fs fs := ⟨rfl, fun _ => .inl rfl⟩

theorem trans (h₁ : Grown D fs fs₁) (h₂ : Grown D fs₁ fs₂) : Grown D fs fs₂ := by
  refine ⟨h₂.cwd.trans h₁.cwd, fun q => ?_⟩
  rcases h₁.get q with h | ⟨hD, hn, hd⟩
  · rcases h₂.get q with h' | ⟨hD', hn', hd'⟩
    · exact .inl (h'.trans h)
    · exact .inr ⟨hD', h ▸ hn', hd'⟩
  · rcases h₂.get q with h' | ⟨-, hn', -⟩
    · exact .inr ⟨hD, hn, by rwa [Fs.isDir, h']⟩
    · obtain ⟨i, hi⟩ := Fs.isDir_iff.1 hd
      rw [hi] at hn'
      cases hn'

theorem set {p : Path} {i : FileIdentity} (hD : D p) (hp : fs.get p = none) :
    Grown D fs (fs.set p (.dir i)) := by
  refine ⟨rfl, fun q => ?_⟩
  by_cases hq : q = p
  · subst hq
    exact .inr ⟨hD, hp, Fs.isDir_iff.2 ⟨i, by simp⟩⟩
  · exact .inl (Fs.get_set_of_ne hq)

theorem get_of_some (h : Grown D fs fs₁) {q : Path} {n : Node} (hq : fs.get q = some n) :
    fs₁.get q = some n := by
  rcases h.get q with h | ⟨-, hn, -⟩
  · rw [h, hq]
  · rw [hn] at hq; cases hq

theorem dirs (h : Grown D fs fs₁) {d : Path} (hd : fs.Dirs d) : fs₁.Dirs d := by
  intro q hq
  obtain ⟨i, hi⟩ := Fs.isDir_iff.1 (hd q hq)
  exact Fs.isDir_iff.2 ⟨i, h.get_of_some hi⟩

theorem get_of_not (h : Grown D fs fs₁) {q : Path} (hq : ¬ D q) : fs₁.get q = fs.get q :=
  (h.get q).resolve_right fun h => hq h.1

end Grown

/-- Every call that changes nothing and every `mkdir` is allowed in `fs`. -/
def WalkOk (G : ∀ ⦃β : Type⦄, Sys β → Fs → Prop) (fs : Fs) : Prop :=
  QuietOk G fs ∧ ∀ p, G (.mkdir p) fs

theorem openComponent_create_safe {D : Path → Prop} {traversed : Path} {name : Name}
    {Q : Except IoError FileIdentity → Fs → Prop} (hD : D (traversed ++ [name]))
    (hG : ∀ s, Grown D fs s → WalkOk G s)
    (hok : ∀ i s, Grown D fs s → s.get (traversed ++ [name]) = some (.dir i) → Q (.ok i) s)
    (herr : ∀ e s, Grown D fs s → Q (.error e) s) :
    IoSafe fail U G Q (openComponent true traversed name) fs := by
  have hrefl := Grown.refl D fs
  have hq := fun s hs => (hG s hs).1
  unfold openComponent
  refine IoSafe.bind (IoSafe.sysResult_peek (fun _ => rfl) (hq fs hrefl _ trivial) ?_
    fun hfail => IoSafe.throw (herr _ _ hrefl))
  -- the two ways on after a missing component: created here, or by somebody else
  have hopen : ∀ s, Grown D fs s → IoSafe fail U G Q (sys (.openDir (traversed ++ [name]))) s :=
    fun s hs => openDir_safe (hq s hs) (fun i hi => hok i s hs hi) (fun _ e => herr _ _ hs)
      fun _ => herr _ _ hs
  cases hr : directory fs (traversed ++ [name]) with
  | ok i => exact IoSafe.pure (hok i fs hrefl (directory_ok.1 hr))
  | error e =>
    cases e with
    | noent =>
      have hnone := (directory_error hr).2.1 rfl
      refine IoSafe.bind (IoSafe.sysResult_alter (fun _ => rfl) ((hG fs hrefl).2 _)
        (fun c a fs' h => ?_) (fun c e h => ?_) fun _ => ?_)
      · have hfs' : fs' = fs.set (traversed ++ [name]) (.dir (fs.fresh c.identity)) := by
          cases hv : vacant fs (traversed ++ [name]) with
          | error e => rw [hv] at h; cases h
          | ok u => rw [hv] at h; cases h; rfl
        have hs : Grown D fs fs' := hfs' ▸ Grown.set hD hnone
        exact IoSafe.bind (fsync_safe (hq fs' hs) (hopen fs' hs) fun _ => herr _ _ hs)
      · cases e with
        | exist => exact IoSafe.bind (IoSafe.pure (hopen fs hrefl))
        | _ => exact IoSafe.bind (IoSafe.throw (herr _ _ hrefl))
      · exact IoSafe.bind (IoSafe.throw (herr _ _ hrefl))
    | _ => exact IoSafe.throw (herr _ _ hrefl)

theorem openComponents_create_safe {D : Path → Prop} {absolute : PathBuf} {traversed : Path}
    {fd : FileIdentity} {cs : List Component}
    {Q : Except IoError (Path × FileIdentity) → Fs → Prop}
    (hD : ∀ names, names ≠ [] → names.map .normal <+: cs → D (traversed ++ names))
    (hG : ∀ s, Grown D fs s → WalkOk G s)
    (hd : fs.Dirs traversed) (hfd : fs.get traversed = some (.dir fd))
    (hok : ∀ names i s, Grown D fs s → cs = names.map .normal → s.Dirs (traversed ++ names) →
      s.get (traversed ++ names) = some (.dir i) → Q (.ok (traversed ++ names, i)) s)
    (herr : ∀ e s, Grown D fs s → Q (.error e) s) :
    IoSafe fail U G Q (openComponents true absolute traversed fd cs) fs := by
  have hrefl := Grown.refl D fs
  induction cs generalizing traversed fd fs with
  | nil =>
    refine IoSafe.pure ?_
    have := hok [] fd fs hrefl rfl
    simp only [List.append_nil] at this
    exact this hd hfd
  | cons c cs ih =>
    cases c with
    | normal name =>
      have hname : D (traversed ++ [name]) := hD [name] (by simp) (by simp)
      refine IoSafe.bind (openComponent_create_safe hname hG (fun i s hs hi => ?_) herr)
      have hds : s.Dirs (traversed ++ [name]) := (hs.dirs hd).snoc (Fs.isDir_iff.2 ⟨i, hi⟩)
      refine ih (fun names hne hp => ?_) (fun s' hs' => hG s' (hs.trans hs')) hds hi
        (fun names j s' hs' hcs hd' hj => ?_) (fun e s' hs' => herr e s' (hs.trans hs'))
        (Grown.refl D s)
      · have := hD (name :: names) (by simp) (by simpa using hp)
        simpa using this
      · have := hok (name :: names) j s' (hs.trans hs') (by simp [hcs])
        simp only [List.append_assoc, List.singleton_append] at hd' hj ⊢
        exact this hd' hj
    | parentDir => exact IoSafe.throw (herr _ _ hrefl)
    | curDir => exact IoSafe.throw (herr _ _ hrefl)

/-- Walking to a parent may create its directories and does nothing else. -/
theorem openParent_create_safe {D : Path → Prop} {path : PathBuf}
    {Q : Except IoError ParentHandle → Fs → Prop}
    (hD : ∀ names, names ≠ [] →
      names.map .normal <+: ((PathBuf.ofPath fs.cwd).joinPath path).components.dropLast → D names)
    (hG : ∀ s, Grown D fs s → WalkOk G s)
    (hok : ∀ h s, Grown D fs s → Opened s path h → Q (.ok h) s)
    (herr : ∀ e s, Grown D fs s → Q (.error e) s) :
    IoSafe fail U G Q (openParent path true) fs := by
  have hrefl := Grown.refl D fs
  have hq := fun s hs => (hG s hs).1
  unfold openParent
  refine IoSafe.bind (absolutePath_safe (hq _ hrefl) ?_ fun _ => herr _ _ hrefl)
  refine IoSafe.bind (IoSafe.okOr (fun leaf hleaf => ?_) fun _ => herr _ _ hrefl)
  refine IoSafe.bind (IoSafe.okOr (fun parent hparent => ?_) fun _ => herr _ _ hrefl)
  have hpc : parent.components =
      ((PathBuf.ofPath fs.cwd).joinPath path).components.dropLast := by
    unfold PathBuf.parent at hparent
    split at hparent
    · cases hparent
    · cases hparent; rfl
  refine IoSafe.bind (openDir_safe (hq _ hrefl) (fun root hroot => ?_) (fun _ e => herr _ _ hrefl)
    fun _ => herr _ _ hrefl)
  have hd : fs.Dirs [] := by
    intro q hq
    rw [List.prefix_nil.1 hq]
    exact Fs.isDir_iff.2 ⟨root, hroot⟩
  refine IoSafe.bind (openComponents_create_safe (fun names hne hp => ?_) hG hd hroot
    (fun names i s hs hcs hds hi => ?_) herr)
  · rw [List.nil_append]
    exact hD names hne (hpc ▸ hp)
  · simp only [List.nil_append] at hds hi ⊢
    have ho : Opened s path ⟨i, leaf, names⟩ := by
      refine ⟨?_, hi, hds⟩
      rw [PathBuf.resolve, hs.cwd]
      exact components_eq_of_parent hleaf hparent hcs
    refine IoSafe.bind (fstat_safe (hq s hs) ?_ fun _ => herr _ _ hs)
    refine IoSafe.bind (openDir_safe (hq s hs) (fun j hj => ?_) (fun _ e => herr _ _ hs)
      fun _ => herr _ _ hs)
    rw [hi, Option.some.injEq, Node.dir.injEq] at hj
    subst hj
    refine IoSafe.bind (fstat_safe (hq s hs) ?_ fun _ => herr _ _ hs)
    exact IoSafe.ite (fun h => absurd rfl h) fun _ => IoSafe.pure (hok _ s hs ho)

/-! ### Reading -/

/-- `p` is a name in an existing directory. -/
structure Located (fs : Fs) (p : Path) : Prop where
  ne_nil : p ≠ []
  dirs : fs.Dirs p.dropLast

/-- `p` is a name in an existing directory, bound to the file `o` or unbound. -/
structure Holds (fs : Fs) (p : Path) (o : Option File) : Prop extends Located fs p where
  get : fs.get p = o.map .file

theorem Located.opened {p : Path} (h : Located fs p) :
    ∃ h, Opened fs (.ofPath p) h := opened_of_dirs h.ne_nil h.dirs

theorem Holds.isDir {p : Path} {o : Option File} (h : Holds fs p o) : fs.isDir p = false := by
  cases o <;> simp [Fs.isDir, h.get]

theorem Holds.sameOff {X : List Path} {fs₁ : Fs} {p : Path} {o o' : Option File}
    (h : Holds fs p o) (hs : Fs.SameOff X fs fs₁) (hX : ∀ q, q <+: p.dropLast → q ∉ X)
    (hp : fs₁.get p = o'.map .file) : Holds fs₁ p o' :=
  ⟨⟨h.ne_nil, hs.dirs h.dirs hX⟩, hp⟩

theorem openParent_located {create : Bool} {p : Path}
    {Q : Except IoError ParentHandle → Fs → Prop} (hp : Located fs p) (hG : QuietOk G fs)
    (hok : ∀ h, Opened fs (.ofPath p) h → h.file = p → h.dir = p.dropLast → Q (.ok h) fs)
    (hf : fail = true → ∀ e, Q (.error e) fs) :
    IoSafe fail U G Q (openParent (.ofPath p) create) fs :=
  openParent_safe hG (fun _ => hp.opened) (fun h ho => hok h ho ho.file_eq ho.dir_eq)
    (fun hno _ => absurd hp.opened fun ⟨h, ho⟩ => hno h ho) (fun h e _ => hf h e)

/-- Reading a name, whatever it is bound to. -/
theorem readRegularWithMode_located {p : Path} {Q : Except IoError (Option File) → Fs → Prop}
    (hp : Located fs p) (hG : QuietOk G fs) (hnone : fs.get p = none → Q (.ok none) fs)
    (hfile : ∀ f, fs.get p = some (.file f) → Q (.ok (some f)) fs)
    (hother : ∀ n, fs.get p = some n → (∀ f, n ≠ .file f) → ∀ e, Q (.error e) fs)
    (hf : fail = true → ∀ e, Q (.error e) fs) :
    IoSafe fail U G Q (readRegularWithMode (.ofPath p)) fs := by
  unfold readRegularWithMode
  refine IoSafe.bind (IoSafe.attempt (openParent_safe hG (fun _ => hp.opened) (fun h ho => ?_)
    (fun hno _ => absurd hp.opened fun ⟨h, ho⟩ => hno h ho) fun hfail e he => ?_))
  · have hpath := ho.file_eq
    refine IoSafe.bind (IoSafe.sysResult_peek (fun _ => rfl) (hG _ trivial) ?_ fun hfail => ?_)
    · rw [hpath]
      cases hr : fs.get p with
      | none =>
        rw [present, hr]
        exact IoSafe.pure (hnone hr)
      | some n =>
        rw [present_ok.2 hr]
        cases n with
        | file f => exact IoSafe.pure (hfile f hr)
        | dir i => exact IoSafe.throw (hother _ hr (fun _ h => nomatch h) _)
        | other i => exact IoSafe.throw (hother _ hr (fun _ h => nomatch h) _)
    · exact IoSafe.throw (hf hfail _)
  · exact IoSafe.ite (fun h => absurd (he.symm.trans h) (by decide))
      fun _ => IoSafe.throw (hf hfail _)

/-- Reading a name that holds a regular file or nothing. -/
theorem readRegularWithMode_holds {p : Path} {o : Option File}
    {Q : Except IoError (Option File) → Fs → Prop} (hp : Holds fs p o) (hG : QuietOk G fs)
    (hok : Q (.ok o) fs) (hf : fail = true → ∀ e, Q (.error e) fs) :
    IoSafe fail U G Q (readRegularWithMode (.ofPath p)) fs := by
  refine readRegularWithMode_located hp.toLocated hG (fun h => ?_) (fun f h => ?_)
    (fun n h hn e => ?_) hf
  · rw [hp.get, Option.map_eq_none_iff] at h
    exact h ▸ hok
  · rw [hp.get, Option.map_eq_some_iff] at h
    obtain ⟨g, rfl, hg⟩ := h
    cases hg
    exact hok
  · rw [hp.get, Option.map_eq_some_iff] at h
    obtain ⟨g, rfl, rfl⟩ := h
    exact absurd rfl (hn g)

theorem readRegular_holds {p : Path} {o : Option File}
    {Q : Except IoError (Option (FileIdentity × Bytes)) → Fs → Prop} (hp : Holds fs p o)
    (hG : QuietOk G fs) (hok : Q (.ok (o.map fun f => (f.identity, f.bytes))) fs)
    (hf : fail = true → ∀ e, Q (.error e) fs) :
    IoSafe fail U G Q (readRegular (.ofPath p)) fs :=
  IoSafe.bind (readRegularWithMode_holds hp hG (IoSafe.pure hok) hf)

/-- Reading any path: a file that is returned is there. -/
theorem readRegularWithMode_safe {path : PathBuf} {Q : Except IoError (Option File) → Fs → Prop}
    (hG : QuietOk G fs)
    (hok : ∀ f p, path.resolve fs.cwd = some p → fs.get p = some (.file f) → Q (.ok (some f)) fs)
    (hnone : Q (.ok none) fs) (herr : ∀ e, Q (.error e) fs) :
    IoSafe fail U G Q (readRegularWithMode path) fs := by
  unfold readRegularWithMode
  refine IoSafe.bind (IoSafe.attempt (openParent_safe hG (fun h => nomatch h) (fun h ho => ?_)
    (fun _ e => ?_) fun _ e _ => ?_))
  · refine IoSafe.bind (IoSafe.sysResult_peek (fun _ => rfl) (hG _ trivial) ?_
      fun _ => IoSafe.throw (herr _))
    cases hr : present fs h.file with
    | error e =>
      rw [(present_error hr).1]
      exact IoSafe.pure hnone
    | ok n =>
      cases n with
      | file f => exact IoSafe.pure (hok f _ ho.resolve (present_ok.1 hr))
      | dir i => exact IoSafe.throw (herr _)
      | other i => exact IoSafe.throw (herr _)
  · exact IoSafe.ite (fun _ => IoSafe.pure hnone) fun _ => IoSafe.throw (herr _)
  · exact IoSafe.ite (fun _ => IoSafe.pure hnone) fun _ => IoSafe.throw (herr _)

theorem readRegular_safe {path : PathBuf}
    {Q : Except IoError (Option (FileIdentity × Bytes)) → Fs → Prop} (hG : QuietOk G fs)
    (hok : ∀ f p, path.resolve fs.cwd = some p → fs.get p = some (.file f) →
      Q (.ok (some (f.identity, f.bytes))) fs)
    (hnone : Q (.ok none) fs) (herr : ∀ e, Q (.error e) fs) :
    IoSafe fail U G Q (readRegular path) fs :=
  IoSafe.bind (readRegularWithMode_safe hG (fun f p hr hp => IoSafe.pure (hok f p hr hp))
    (IoSafe.pure hnone) herr)

theorem identityAt_holds {parent : ParentHandle} {leaf : Name} {o : Option File}
    {Q : Except IoError (Option FileIdentity) → Fs → Prop}
    (hp : fs.get (parent.dir ++ [leaf]) = o.map .file) (hG : QuietOk G fs)
    (hok : Q (.ok (o.map File.identity)) fs) (hf : fail = true → ∀ e, Q (.error e) fs) :
    IoSafe fail U G Q (identityAt parent leaf) fs := by
  unfold identityAt
  refine IoSafe.bind (IoSafe.sysResult_peek (fun _ => rfl) (hG _ trivial) ?_
    fun hfail => IoSafe.throw (hf hfail _))
  rw [present, hp]
  cases o with
  | none => exact IoSafe.pure hok
  | some f => exact IoSafe.pure hok

theorem syncParent_holds {p : Path} {o : Option File} {Q : Except IoError Unit → Fs → Prop}
    (hp : Holds fs p o) (hG : QuietOk G fs) (hok : Q (.ok ()) fs)
    (hf : fail = true → ∀ e, Q (.error e) fs) :
    IoSafe fail U G Q (syncParent (.ofPath p)) fs :=
  IoSafe.bind (openParent_located hp.toLocated hG (fun _ _ _ _ => fsync_safe hG hok fun h => hf h _)
    hf)

theorem syncParent_safe {path : PathBuf} {Q : Except IoError Unit → Fs → Prop}
    (hG : QuietOk G fs) (hQ : ∀ r, Q r fs) : IoSafe fail U G Q (syncParent path) fs :=
  IoSafe.bind (openParent_safe hG (fun h => nomatch h)
    (fun _ _ => fsync_safe hG (hQ _) fun _ => hQ _) (fun _ _ => hQ _) fun _ _ _ => hQ _)

/-! ### Removing and renaming -/

theorem unlink_safe {p : Path} {f : File} {Q : Except IoError Unit → Fs → Prop}
    (hp : fs.get p = some (.file f)) (hG : G (.unlink p) fs) (hok : Q (.ok ()) (fs.del p))
    (hf : fail = true → ∀ e, Q (.error e) fs) : IoSafe fail U G Q (sys (.unlink p)) fs := by
  refine IoSafe.sys_alter (fun _ => rfl) hG (fun c a fs' h => ?_) (fun c e h => ?_)
    fun h => hf h _
  · rw [hp] at h; cases h; exact hok
  · rw [hp] at h; cases h

theorem renameNoReplace_located {src dst : Path} {f : File} {Q : Except IoError Unit → Fs → Prop}
    (hsrc : fs.get src = some (.file f)) (hdst : Located fs dst)
    (hG : G (.renameNoReplace src dst) fs)
    (hok : fs.get dst = none → Q (.ok ()) ((fs.del src).set dst (.file f)))
    (hexist : fs.get dst ≠ none → ∀ e, Q (.error e) fs)
    (hf : fail = true → ∀ e, Q (.error e) fs) :
    IoSafe fail U G Q (sys (.renameNoReplace src dst)) fs := by
  refine IoSafe.sys_alter (r := fun _ => do
    let n ← present fs src
    vacant fs dst
    pure ((), fs.move src dst n)) (fun _ => rfl) hG (fun c a fs' h => ?_) (fun c e h => ?_)
    fun h => hf h _
  · rw [present_ok.2 hsrc] at h
    cases hv : Sys.vacant fs dst with
    | error e => rw [hv] at h; cases h
    | ok u => rw [hv] at h; cases h; exact hok (vacant_ok hv).2
  · rw [present_ok.2 hsrc] at h
    refine hexist (fun hnone => ?_) _
    rw [vacant_of hdst.dirs.isDir hnone] at h
    cases h

theorem renameNoReplace_safe {src dst : Path} {f : File} {Q : Except IoError Unit → Fs → Prop}
    (hsrc : fs.get src = some (.file f)) (hdst : Holds fs dst none)
    (hG : G (.renameNoReplace src dst) fs)
    (hok : Q (.ok ()) ((fs.del src).set dst (.file f)))
    (hf : fail = true → ∀ e, Q (.error e) fs) :
    IoSafe fail U G Q (sys (.renameNoReplace src dst)) fs :=
  renameNoReplace_located hsrc hdst.toLocated hG (fun _ => hok) (fun h => absurd hdst.get h) hf

/-- The measured file is the expected one. -/
def ExactFile (sha256Bytes : Bytes → Sha256Digest) (f : File) (expected : FileIdentity)
    (expectedDigest : Sha256Digest) (expectedMode : Option ℕ) : Prop :=
  f.identity = expected ∧ sha256Bytes f.bytes = expectedDigest ∧ ∀ m ∈ expectedMode, m = f.mode

variable {sha256Bytes : Bytes → Sha256Digest}

theorem exactFile_iff {f : File} {expected : FileIdentity} {digest : Sha256Digest}
    {mode : Option ℕ} : ExactFile sha256Bytes f expected digest mode ↔
      ¬ (f.identity ≠ expected ∨ sha256Bytes f.bytes ≠ digest ∨ mode.any (· ≠ f.mode)) := by
  unfold ExactFile
  cases mode <;> simp [not_or]

theorem removeAtExactMode_holds {parent : ParentHandle} {expected : FileIdentity}
    {digest : Sha256Digest} {mode : Option ℕ} {o : Option File}
    {Q : Except IoError Unit → Fs → Prop} (hp : Holds fs parent.file o) (hG : QuietOk G fs)
    (hnone : o = none → Q (.ok ()) fs)
    (hdel : ∀ f, o = some f → ExactFile sha256Bytes f expected digest mode →
      G (.unlink parent.file) fs ∧ QuietOk G (fs.del parent.file) ∧
        Q (.ok ()) (fs.del parent.file) ∧
        (fail = true → ∀ e, Q (.error e) (fs.del parent.file)))
    (hmis : ∀ f, o = some f → ¬ ExactFile sha256Bytes f expected digest mode →
      ∀ e, Q (.error e) fs)
    (hf : fail = true → ∀ e, Q (.error e) fs) :
    IoSafe fail U G Q (removeAtExactMode sha256Bytes parent expected digest mode) fs := by
  unfold removeAtExactMode
  refine IoSafe.bind (readRegularWithMode_holds hp hG ?_ hf)
  cases ho : o with
  | none => exact IoSafe.pure (hnone ho)
  | some f =>
    refine IoSafe.ite (fun hbad => ?_) fun hgood => ?_
    · exact IoSafe.throw (hmis f ho (fun h => exactFile_iff.1 h hbad) _)
    · obtain ⟨hu, hq, hk, he⟩ := hdel f ho (exactFile_iff.2 hgood)
      have hget : fs.get parent.file = some (.file f) := by rw [hp.get, ho]; rfl
      exact IoSafe.bind (unlink_safe hget hu (fsync_safe hq hk fun h => he h _) hf)

theorem removeAt_holds {parent : ParentHandle} {expected : FileIdentity} {o : Option File}
    {Q : Except IoError Unit → Fs → Prop} (hp : fs.get parent.file = o.map .file)
    (hG : QuietOk G fs) (hnone : o = none → Q (.ok ()) fs)
    (hdel : ∀ f, o = some f → f.identity = expected →
      G (.unlink parent.file) fs ∧ QuietOk G (fs.del parent.file) ∧
        Q (.ok ()) (fs.del parent.file) ∧
        (fail = true → ∀ e, Q (.error e) (fs.del parent.file)))
    (hmis : ∀ f, o = some f → f.identity ≠ expected → ∀ e, Q (.error e) fs)
    (hf : fail = true → ∀ e, Q (.error e) fs) :
    IoSafe fail U G Q (removeAt parent (some expected)) fs := by
  unfold removeAt
  refine IoSafe.bind (identityAt_holds hp hG ?_ hf)
  cases ho : o with
  | none => exact IoSafe.pure (hnone ho)
  | some f =>
    refine IoSafe.ite (fun hbad => ?_) fun hgood => ?_
    · exact IoSafe.throw (hmis f ho (fun h => hbad.2 (congrArg some h)) _)
    · have hi : f.identity = expected := by simpa using hgood
      obtain ⟨hu, hq, hk, he⟩ := hdel f ho hi
      have hget : fs.get parent.file = some (.file f) := by rw [hp, ho]; rfl
      exact IoSafe.bind (unlink_safe hget hu (fsync_safe hq hk fun h => he h _) hf)

/-! ### Creating a file -/

/-- Every call is allowed in `fs`. -/
def AllOk (G : ∀ ⦃β : Type⦄, Sys β → Fs → Prop) (fs : Fs) : Prop :=
  ∀ ⦃β : Type⦄ (op : Sys β), G op fs

theorem AllOk.quiet (h : AllOk G fs) : QuietOk G fs := fun _ op _ => h op

/-- `s` is `fs` with nothing or a new file at `p` that holds a part of `contents`. -/
structure Writing (fs : Fs) (p : Path) (contents : Bytes) (s : Fs) : Prop where
  same : Fs.SameOff [p] fs s
  get : s.get p = none ∨
    ∃ f, s.get p = some (.file f) ∧ fs.Unused f.identity ∧ f.bytes <+: contents

/-- `s` is `fs` with a new file at `p`. -/
structure Written (fs : Fs) (p : Path) (f : File) (s : Fs) : Prop where
  same : Fs.SameOff [p] fs s
  get : s.get p = some (.file f)
  unused : fs.Unused f.identity

theorem Written.writing {p : Path} {f : File} {s : Fs} {contents : Bytes} (h : Written fs p f s)
    (hb : f.bytes <+: contents) : Writing fs p contents s :=
  ⟨h.same, .inr ⟨f, h.get, h.unused, hb⟩⟩

theorem Written.set {p : Path} {f f' : File} {s : Fs} (h : Written fs p f s)
    (hi : f'.identity = f.identity) : Written fs p f' (s.set p (.file f')) :=
  ⟨h.same.trans (.set _ (List.mem_singleton.2 rfl)), by simp, hi ▸ h.unused⟩

theorem Written.del {p : Path} {f : File} {s : Fs} {contents : Bytes} (h : Written fs p f s) :
    Writing fs p contents (s.del p) :=
  ⟨h.same.trans (.del (List.mem_singleton.2 rfl)), .inl (by simp)⟩

theorem Written.holds {p : Path} {f : File} {s : Fs} (h : Written fs p f s)
    (hp : Located fs p) : Holds s p (some f) := by
  refine ⟨⟨hp.ne_nil, h.same.dirs hp.dirs fun q hq hqp => ?_⟩, by rw [h.get]; rfl⟩
  rw [List.mem_singleton] at hqp
  subst hqp
  exact absurd hq.length_le (by
    have := List.length_pos_iff.2 hp.ne_nil
    simp only [List.length_dropLast]
    omega)

theorem writeRest_safe {p : Path} {f : File} {s : Fs} {contents rest done : Bytes} {fuel : ℕ}
    {Q : Except IoError Unit → Fs → Prop} (hw : Written fs p { f with bytes := done } s)
    (hc : done ++ rest = contents) (hfuel : rest.length ≤ fuel)
    (hG : ∀ s, Writing fs p contents s → AllOk G s)
    (hok : ∀ s, Written fs p { f with bytes := contents } s → Q (.ok ()) s)
    (herr : fail = true → ∀ e f' s, f'.identity = f.identity → f'.bytes <+: contents →
      Written fs p f' s → Q (.error e) s) :
    IoSafe fail U G Q (writeRest p fuel rest) s := by
  have hdone : rest = [] → IoSafe fail U G Q (pure () : Io Unit) s := by
    rintro rfl
    rw [List.append_nil] at hc
    subst hc
    exact IoSafe.pure (hok s hw)
  induction fuel generalizing s done rest with
  | zero => exact hdone (List.length_eq_zero_iff.1 (Nat.le_zero.1 hfuel))
  | succ fuel ih =>
    cases rest with
    | nil => exact hdone rfl
    | cons b bs =>
      have hpre : done <+: contents := ⟨b :: bs, hc⟩
      refine IoSafe.bind (IoSafe.sys_alter (fun _ => rfl) (hG s (hw.writing hpre) _)
        (fun c n fs' h => ?_) (fun c e h => ?_)
        fun hfail => herr hfail _ { f with bytes := done } s rfl hpre hw)
      · rw [hw.get] at h
        cases h
        -- what was written and what is left make up the contents
        have hsplit : done ++ (b :: bs).take (c.count + 1) ++
            (b :: bs).drop (min (c.count + 1) (b :: bs).length) = contents := by
          rw [← hc, List.append_assoc, List.take_eq_take_min, List.take_append_drop]
        have hw' : Written fs p { f with bytes := done ++ (b :: bs).take (c.count + 1) } _ :=
          hw.set rfl
        have hlen : ((b :: bs).drop (min (c.count + 1) (b :: bs).length)).length ≤ fuel := by
          rw [List.length_cons] at hfuel
          rw [List.length_drop, List.length_cons]
          omega
        refine ih hw' hsplit hlen fun hnil => ?_
        rw [hnil, List.append_nil] at hsplit
        exact IoSafe.pure (hok _ (hsplit ▸ hw'))
      · rw [hw.get] at h
        cases h

theorem writeAll_safe {p : Path} {f : File} {s : Fs} {contents : Bytes}
    {Q : Except IoError Unit → Fs → Prop} (hw : Written fs p { f with bytes := [] } s)
    (hG : ∀ s, Writing fs p contents s → AllOk G s)
    (hok : ∀ s, Written fs p { f with bytes := contents } s → Q (.ok ()) s)
    (herr : fail = true → ∀ e f' s, f'.identity = f.identity → f'.bytes <+: contents →
      Written fs p f' s → Q (.error e) s) :
    IoSafe fail U G Q (writeAll p contents) s :=
  writeRest_safe hw (List.nil_append contents) (Nat.le_refl _) hG hok herr

theorem fillNewFile_safe {p : Path} {f : File} {s : Fs}
    {parent : ParentHandle} {contents : Bytes} {mode : ℕ} {Q : Except IoError Unit → Fs → Prop}
    (hp : Located fs p) (hfile : parent.file = p) (hw : Written fs p f s) (hempty : f.bytes = [])
    (hG : ∀ s, Writing fs p contents s → AllOk G s)
    (hok : ∀ s, Written fs p ⟨f.identity, contents, mode⟩ s → Q (.ok ()) s)
    (herr : fail = true → ∀ e f' s, f'.identity = f.identity → f'.bytes <+: contents →
      Written fs p f' s → Q (.error e) s) :
    IoSafe fail U G Q
      (fillNewFile sha256Bytes (.ofPath p) parent f.identity contents mode) s := by
  unfold fillNewFile
  rw [hfile]
  have hnil : f.bytes <+: contents := by rw [hempty]; exact List.nil_prefix
  refine IoSafe.bind (IoSafe.sys_alter (fun _ => rfl) (hG s (hw.writing hnil) _)
    (fun c a fs' h => ?_) (fun c e h => ?_) fun hfail => herr hfail _ f s rfl hnil hw)
  · rw [hw.get] at h
    cases h
    have hw' : Written fs p ({ f with bytes := [], mode := mode } : File)
        (s.set p (.file { f with mode := mode })) := by
      have : Written fs p { f with mode := mode } _ := hw.set rfl
      rwa [show ({ f with bytes := [], mode := mode } : File) = { f with mode := mode } by
        rw [← hempty]]
    refine IoSafe.bind (writeAll_safe (f := { f with mode := mode }) hw' hG
      (fun s hs => ?_) herr)
    have hfull := fun hfail e =>
      herr hfail e { f with bytes := contents, mode := mode } s rfl (List.prefix_refl _) hs
    have hq := (hG s (hs.writing (List.prefix_refl _))).quiet
    refine IoSafe.bind (fsync_safe hq ?_ fun h => hfull h _)
    refine IoSafe.bind (fstat_safe hq ?_ fun h => hfull h _)
    refine IoSafe.ite (fun h => absurd rfl h) fun _ => ?_
    refine IoSafe.bind (fsync_safe hq ?_ fun h => hfull h _)
    refine IoSafe.bind (readRegularWithMode_holds (hs.holds hp) hq ?_ hfull)
    exact IoSafe.ite (fun _ => IoSafe.pure (hok s hs)) fun h => absurd (by simp) h
  · rw [hw.get] at h
    cases h

theorem finishNewFile_safe {p : Path} {f : File} {s : Fs}
    {parent : ParentHandle} {contents : Bytes} {mode : ℕ}
    {Q : Except IoError FileIdentity → Fs → Prop}
    (hp : Located fs p) (hfile : parent.file = p) (hw : Written fs p f s) (hempty : f.bytes = [])
    (hG : ∀ s, Writing fs p contents s → AllOk G s)
    (hok : ∀ s, Written fs p ⟨f.identity, contents, mode⟩ s → Q (.ok f.identity) s)
    (herr : fail = true → ∀ e s, Writing fs p contents s → Q (.error e) s) :
    IoSafe fail U G Q
      (finishNewFile sha256Bytes (.ofPath p) parent f.identity contents mode) s := by
  unfold finishNewFile
  refine IoSafe.bind (IoSafe.attempt (fillNewFile_safe hp hfile hw hempty hG
    (fun s hs => IoSafe.pure (hok s hs)) fun hfail e f' s hi hb hs => ?_))
  -- the new file is removed again, as far as that succeeds
  have hq := (hG s (hs.writing hb)).quiet
  have hfin : ∀ e', IoSafe fail U G Q (throw e' : Io FileIdentity) s := fun e' =>
    IoSafe.throw (herr hfail e' s (hs.writing hb))
  refine IoSafe.bind (IoSafe.attempt (removeAt_holds (o := some f')
    (by rw [hfile, hs.get]; rfl) hq (fun h => nomatch h) (fun g hg _ => ?_)
    (fun g hg hne => fun e => hfin _) fun _ e => hfin _))
  cases hg
  have hdel : Writing fs p contents (s.del p) := hs.del
  rw [hfile]
  exact ⟨hG s (hs.writing hb) _, (hG _ hdel).quiet, IoSafe.throw (herr hfail _ _ hdel),
    fun _ _ => IoSafe.throw (herr hfail _ _ hdel)⟩

/-- **Creating a file** at an unbound name: at every moment the name is unbound or holds a part of
the contents under a new identity; without failures the file ends up complete. -/
theorem writeNewFileMode_located {p : Path} {contents : Bytes} {mode : ℕ}
    {Q : Except IoError FileIdentity → Fs → Prop} (hp : Located fs p) (hG₀ : AllOk G fs)
    (hG : fs.get p = none → ∀ s, Writing fs p contents s → AllOk G s)
    (hok : fs.get p = none → ∀ i s, Written fs p ⟨i, contents, mode⟩ s → Q (.ok i) s)
    (herr : fs.get p = none → fail = true → ∀ e s, Writing fs p contents s → Q (.error e) s)
    (hexist : ∀ e, fs.get p ≠ none ∨ fail = true → Q (.error e) fs) :
    IoSafe fail U G Q (writeNewFileMode sha256Bytes (.ofPath p) contents mode) fs := by
  unfold writeNewFileMode
  refine IoSafe.bind (openParent_located hp hG₀.quiet (fun parent ho hfile _ => ?_)
    fun hfail e => hexist e (.inr hfail))
  subst hfile
  refine IoSafe.bind (IoSafe.sys_alter (fun _ => rfl) (hG₀ _) (fun c i fs' h => ?_)
    (fun c e h => ?_) fun hfail => hexist _ (.inr hfail))
  · cases hv : Sys.vacant fs parent.file with
    | error e => rw [hv] at h; cases h
    | ok u =>
      rw [hv] at h
      cases h
      have hnone := (vacant_ok hv).2
      have hw : Written fs parent.file ⟨fs.fresh c.identity, [], createMode c mode⟩
          (fs.set parent.file (.file ⟨fs.fresh c.identity, [], createMode c mode⟩)) :=
        ⟨.set _ (List.mem_singleton.2 rfl), by simp, fs.unused_fresh _⟩
      have hq := (hG hnone _ (hw.writing List.nil_prefix)).quiet
      refine IoSafe.bind (fstat_safe hq ?_ fun hfail =>
        herr hnone hfail _ _ (hw.writing List.nil_prefix))
      exact finishNewFile_safe (f := ⟨fs.fresh c.identity, [], createMode c mode⟩) hp rfl hw rfl
        (hG hnone) (fun s hs => hok hnone _ s hs) fun hfail e s hs => herr hnone hfail e s hs
  · cases hv : Sys.vacant fs parent.file with
    | error e' =>
      refine hexist _ (.inl fun hnone => ?_)
      rw [vacant_of hp.dirs.isDir hnone] at hv
      cases hv
    | ok u => rw [hv] at h; cases h

/-! ### Auxiliary files of an operation -/

section Auxiliary

variable {operation : JournalOperation} {p : Path} {o : Option File}
  {Q : Except IoError Unit → Fs → Prop}

theorem openAuxParent_located {Q : Except IoError ParentHandle → Fs → Prop} (hp : Located fs p)
    (hid : fs.get p.dropLast = some (.dir operation.parentIdentity)) (hG : QuietOk G fs)
    (hok : ∀ h, h.file = p → Q (.ok h) fs) (hf : fail = true → ∀ e, Q (.error e) fs) :
    IoSafe fail U G Q (openAuxParent operation (.ofPath p)) fs := by
  refine IoSafe.bind (openParent_located hp hG (fun h ho hfile hdir => ?_) hf)
  refine IoSafe.bind (fstat_safe hG ?_ fun h => hf h _)
  refine IoSafe.ite (fun hne => absurd ?_ hne) fun _ => IoSafe.pure (hok h hfile)
  have := ho.dir
  rw [hdir, hid, Option.some.injEq, Node.dir.injEq] at this
  exact this.symm

theorem removeOperationAuxExact_holds {expected : FileIdentity} {digest : Sha256Digest}
    {mode : Option ℕ} (hp : Holds fs p o)
    (hid : fs.get p.dropLast = some (.dir operation.parentIdentity)) (hG : QuietOk G fs)
    (hnone : o = none → Q (.ok ()) fs)
    (hdel : ∀ f, o = some f → ExactFile sha256Bytes f expected digest mode →
      G (.unlink p) fs ∧ QuietOk G (fs.del p) ∧ Q (.ok ()) (fs.del p) ∧
        (fail = true → ∀ e, Q (.error e) (fs.del p)))
    (hmis : ∀ f, o = some f → ¬ ExactFile sha256Bytes f expected digest mode →
      ∀ e, Q (.error e) fs)
    (hf : fail = true → ∀ e, Q (.error e) fs) :
    IoSafe fail U G Q
      (removeOperationAuxExact sha256Bytes operation (.ofPath p) expected digest mode) fs := by
  refine IoSafe.bind (openAuxParent_located hp.toLocated hid hG (fun h hfile => ?_) hf)
  subst hfile
  exact removeAtExactMode_holds hp hG hnone hdel hmis hf

theorem removeOperationAuxUnidentified_located (hp : Located fs p)
    (hid : fs.get p.dropLast = some (.dir operation.parentIdentity)) (hG : QuietOk G fs)
    (hnone : fs.get p = none → Q (.ok ()) fs)
    (hdel : ∀ f, fs.get p = some (.file f) → G (.unlink p) fs ∧ QuietOk G (fs.del p) ∧
      Q (.ok ()) (fs.del p) ∧ (fail = true → ∀ e, Q (.error e) (fs.del p)))
    (hother : ∀ n, fs.get p = some n → (∀ f, n ≠ .file f) → ∀ e, Q (.error e) fs)
    (hf : fail = true → ∀ e, Q (.error e) fs) :
    IoSafe fail U G Q
      (removeOperationAuxUnidentified sha256Bytes operation (.ofPath p)) fs := by
  refine IoSafe.bind (openAuxParent_located hp hid hG (fun h hfile => ?_) hf)
  subst hfile
  refine IoSafe.bind (IoSafe.bind (readRegularWithMode_located hp hG
    (fun h => IoSafe.pure (IoSafe.pure (hnone h))) (fun f hfile => IoSafe.pure ?_)
    (fun n h hn e => hother n h hn e) hf))
  refine removeAtExactMode_holds (o := some f) ⟨hp, by rw [hfile]; rfl⟩ hG (fun h => nomatch h)
    (fun g hg _ => hdel f hfile) (fun g hg hne => ?_) hf
  cases hg
  exact absurd ⟨rfl, rfl, fun m hm => nomatch hm⟩ hne

end Auxiliary

end ArosTools
