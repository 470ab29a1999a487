import ArosTools.Program.Basic
import ArosTools.Fs.Basic

/-!
# Filesystem primitives

`Sys` lists the system calls the programs use and `Sys.machine` says what each does to an `Fs`.
Directories are never renamed or removed under a program's feet here, so a directory descriptor is
named by the path it was opened at.

A choice decides what the program cannot: whether the call fails (with an input/output error and
without effect), the identity of a file it creates (any identity not in use), and the process
umask.  Contents are written byte by byte, so that stopping a run inside a `write` leaves every
possible prefix.

The lemmas `step_*` describe one primitive each; a program's specification is assembled from
them and never unfolds `Sys.step`.
-/

namespace ArosTools

/-- Error numbers. -/
inductive Errno where
  | noent
  | exist
  | notdir
  | isdir
  | notempty
  | io
  deriving DecidableEq, Repr

/-- System calls, indexed by their answers. -/
inductive Sys : Type → Type
  /-- The current directory. -/
  | currentDir : Sys (Except Errno Path)
  /-- Open a directory without following links; answers its identity. -/
  | openDir (p : Path) : Sys (Except Errno FileIdentity)
  /-- The identity of an open descriptor. -/
  | fstat (fd : FileIdentity) : Sys (Except Errno FileIdentity)
  /-- Look at a name without following links. -/
  | statAt (p : Path) : Sys (Except Errno Node)
  /-- Open a name without following links and read it to its end. -/
  | openRead (p : Path) : Sys (Except Errno Node)
  /-- The names in a directory. -/
  | readDir (p : Path) : Sys (Except Errno (List Name))
  /-- Create a directory. -/
  | mkdir (p : Path) : Sys (Except Errno Unit)
  /-- Make a file or a directory durable. -/
  | fsync (p : Path) : Sys (Except Errno Unit)
  /-- Create a file that must not exist; answers its identity. -/
  | createExcl (p : Path) (mode : ℕ) : Sys (Except Errno FileIdentity)
  /-- Open a file, creating it if it does not exist. -/
  | openCreate (p : Path) (mode : ℕ) : Sys (Except Errno Unit)
  /-- Take the advisory lock of an open file. -/
  | flock (p : Path) : Sys (Except Errno Unit)
  /-- Set the permission bits of an open file. -/
  | fchmod (p : Path) (mode : ℕ) : Sys (Except Errno Unit)
  /-- Append to an open file; answers how many bytes were written. -/
  | write (p : Path) (bytes : Bytes) : Sys (Except Errno ℕ)
  /-- Remove a name that is not a directory. -/
  | unlink (p : Path) : Sys (Except Errno Unit)
  /-- Remove an empty directory. -/
  | rmdir (p : Path) : Sys (Except Errno Unit)
  /-- Rename, refusing to replace. -/
  | renameNoReplace (src dst : Path) : Sys (Except Errno Unit)
  /-- Rename, replacing a file. -/
  | rename (src dst : Path) : Sys (Except Errno Unit)

/-- What a system call's caller does not control. -/
structure Choice where
  /-- The call fails. -/
  fail : Bool
  /-- The identity proposed for a file created by the call. -/
  identity : FileIdentity
  /-- The umask of the process. -/
  umask : ℕ
  /-- How many bytes a call writes, if it is given more. -/
  count : ℕ

namespace Fs

/-- `src` is `dst` or one of its ancestors. -/
def under (src p : Path) : Bool := src.isPrefixOf p

/-- Move the node at `src`, with everything below it, to `dst`. -/
def moveTree (fs : Fs) (src dst : Path) : Fs :=
  { fs with
    entries := ((fs.entries.entries.filter fun e => !under dst e.1).map fun e =>
      (⟨if under src e.1 then dst ++ e.1.drop src.length else e.1, e.2⟩ :
        (_ : Path) × Node)).toAList }

/-- Move the node `n` from `src` to `dst`. -/
def move (fs : Fs) (src dst : Path) (n : Node) : Fs :=
  match n with
  | .dir _ => fs.moveTree src dst
  | n => (fs.del src).set dst n

end Fs

namespace Sys

open Fs

/-- The permission bits of a file created with `mode`. -/
def createMode (c : Choice) (mode : ℕ) : ℕ := mode &&& (0o7777 ^^^ (c.umask &&& 0o7777))

/-- The result of a call that only reads. -/
def peek {γ : Type} (c : Choice) (fs : Fs) (r : Except Errno γ) : Except Errno γ × Fs :=
  (if c.fail then .error .io else r, fs)

/-- The result of a call that changes the filesystem if it succeeds. -/
def alter {γ : Type} (c : Choice) (fs : Fs) (r : Except Errno (γ × Fs)) : Except Errno γ × Fs :=
  if c.fail then (.error .io, fs) else
    match r with
    | .ok (a, fs') => (.ok a, fs')
    | .error e => (.error e, fs)

/-- A name can be created at `p`: its parent is a directory and it is unbound. -/
def vacant (fs : Fs) (p : Path) : Except Errno Unit :=
  if fs.isDir p.dropLast then
    match fs.get p with
    | none => .ok ()
    | some _ => .error .exist
  else .error .noent

/-- The node at `p`. -/
def present (fs : Fs) (p : Path) : Except Errno Node :=
  match fs.get p with
  | some n => .ok n
  | none => .error .noent

/-- The directory at `p`. -/
def directory (fs : Fs) (p : Path) : Except Errno FileIdentity :=
  match fs.get p with
  | some (.dir i) => .ok i
  | some _ => .error .notdir
  | none => .error .noent

/-- The semantics of the system calls. -/
def step : {β : Type} → Sys β → Choice → Fs → β × Fs
  | _, currentDir, c, fs => peek c fs (.ok fs.cwd)
  | _, openDir p, c, fs => peek c fs (directory fs p)
  | _, fstat fd, c, fs => peek c fs (.ok fd)
  | _, statAt p, c, fs => peek c fs (present fs p)
  | _, openRead p, c, fs => peek c fs (present fs p)
  | _, readDir p, c, fs => peek c fs <|
    if fs.isDir p then .ok (fs.children p) else .error .notdir
  | _, mkdir p, c, fs => alter c fs do
    vacant fs p
    pure ((), fs.set p (.dir (fs.fresh c.identity)))
  | _, fsync _, c, fs => peek c fs (.ok ())
  | _, createExcl p mode, c, fs => alter c fs do
    vacant fs p
    pure (fs.fresh c.identity,
      fs.set p (.file ⟨fs.fresh c.identity, [], createMode c mode⟩))
  | _, openCreate p mode, c, fs => alter c fs <|
    match fs.get p with
    | some (.file _) => .ok ((), fs)
    | some _ => .error .isdir
    | none => do
      vacant fs p
      pure ((), fs.set p (.file ⟨fs.fresh c.identity, [], createMode c mode⟩))
  | _, flock _, c, fs => peek c fs (.ok ())
  | _, fchmod p mode, c, fs => alter c fs <|
    match fs.get p with
    | some (.file f) => .ok ((), fs.set p (.file { f with mode := mode }))
    | _ => .error .noent
  | _, write p bytes, c, fs => alter c fs <|
    match fs.get p with
    | some (.file f) => .ok (min (c.count + 1) bytes.length,
        fs.set p (.file { f with bytes := f.bytes ++ bytes.take (c.count + 1) }))
    | _ => .error .noent
  | _, unlink p, c, fs => alter c fs <|
    match fs.get p with
    | some (.dir _) => .error .isdir
    | some _ => .ok ((), fs.del p)
    | none => .error .noent
  | _, rmdir p, c, fs => alter c fs <|
    match fs.get p with
    | some (.dir _) => if fs.children p = [] then .ok ((), fs.del p) else .error .notempty
    | some _ => .error .notdir
    | none => .error .noent
  | _, renameNoReplace src dst, c, fs => alter c fs do
    let n ← present fs src
    vacant fs dst
    pure ((), fs.move src dst n)
  | _, rename src dst, c, fs => alter c fs do
    let n ← present fs src
    match fs.get dst with
    | some (.dir _) => .error .isdir
    | _ => if fs.isDir dst.dropLast then pure ((), fs.move src dst n) else .error .noent

/-- The filesystem machine. -/
def machine : Machine Sys Fs Choice where
  step := step

/-! ### What one primitive can do

A choice is permitted if the call fails only where failures are allowed. -/

/-- The call fails only if failures are allowed. -/
def permits (fail : Bool) (c : Choice) : Prop := c.fail = true → fail = true

theorem permits_true (c : Choice) : permits true c := fun _ => rfl

/-- The calls that never change the filesystem. -/
def Quiet : {β : Type} → Sys β → Prop
  | _, currentDir | _, openDir _ | _, fstat _ | _, statAt _ | _, openRead _ | _, readDir _
  | _, fsync _ | _, flock _ => True
  | _, _ => False

theorem step_quiet {β : Type} {op : Sys β} (h : op.Quiet) (c : Choice) (fs : Fs) :
    (step op c fs).2 = fs := by
  cases op <;> first | rfl | exact h.elim

theorem peek_cases {γ : Type} {fail : Bool} {c : Choice} (hc : permits fail c) (fs : Fs)
    (r : Except Errno γ) :
    peek c fs r = (r, fs) ∨ fail = true ∧ peek c fs r = (.error .io, fs) := by
  unfold peek
  cases h : c.fail with
  | false => exact .inl rfl
  | true => exact .inr ⟨hc h, rfl⟩

theorem alter_cases {γ : Type} {fail : Bool} {c : Choice} (hc : permits fail c) (fs : Fs)
    (r : Except Errno (γ × Fs)) :
    (∃ a fs', r = .ok (a, fs') ∧ alter c fs r = (.ok a, fs')) ∨
      (∃ e, r = .error e ∧ alter c fs r = (.error e, fs)) ∨
      fail = true ∧ alter c fs r = (.error .io, fs) := by
  unfold alter
  cases h : c.fail with
  | true => exact .inr (.inr ⟨hc h, rfl⟩)
  | false =>
    rcases r with e | ⟨a, fs'⟩
    · exact .inr (.inl ⟨e, rfl, rfl⟩)
    · exact .inl ⟨a, fs', rfl, rfl⟩

theorem vacant_ok {fs : Fs} {p : Path} (h : vacant fs p = .ok ()) :
    fs.isDir p.dropLast = true ∧ fs.get p = none := by
  unfold vacant at h
  split at h
  · split at h
    · exact ⟨‹_›, ‹_›⟩
    · cases h
  · cases h

theorem vacant_of {fs : Fs} {p : Path} (hd : fs.isDir p.dropLast = true) (hp : fs.get p = none) :
    vacant fs p = .ok () := by
  unfold vacant
  rw [if_pos hd, hp]

theorem present_ok {fs : Fs} {p : Path} {n : Node} : present fs p = .ok n ↔ fs.get p = some n := by
  unfold present
  split <;> simp_all

theorem present_error {fs : Fs} {p : Path} {e : Errno} (h : present fs p = .error e) :
    e = .noent ∧ fs.get p = none := by
  unfold present at h
  split at h
  · cases h
  · exact ⟨(Except.error.inj h).symm, ‹_›⟩

theorem directory_ok {fs : Fs} {p : Path} {i : FileIdentity} :
    directory fs p = .ok i ↔ fs.get p = some (.dir i) := by
  unfold directory
  split <;> simp_all

theorem directory_error {fs : Fs} {p : Path} {e : Errno} (h : directory fs p = .error e) :
    fs.isDir p = false ∧ (e = .noent → fs.get p = none) ∧ e ≠ .io := by
  unfold directory at h
  cases hp : fs.get p with
  | none =>
    rw [hp] at h
    cases h
    simp [Fs.isDir, hp]
  | some n =>
    rw [hp] at h
    cases n with
    | dir i => cases h
    | file f => cases h; simp [Fs.isDir, hp]
    | other i => cases h; simp [Fs.isDir, hp]

end Sys

end ArosTools
