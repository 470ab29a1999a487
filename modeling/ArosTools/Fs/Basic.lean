import Mathlib.Data.List.AList
import Mathlib.Data.List.Infix
import Mathlib.Tactic.Common

/-!
# A Unix filesystem namespace

`Fs` is a finite map from absolute paths to nodes: regular files with their identity, bytes and
permission bits, directories, and everything else (links and special files) by identity alone.
Paths are lists of components, the root being `[]`, and a component is a byte string.

`Fs.get`, `Fs.set` and `Fs.del` are the only accessors; `get_set` and `get_del` say what they do
and everything later rests on these two.
-/

namespace ArosTools

/-- File contents and names are byte strings. -/
abbrev Bytes := List UInt8

instance UInt8.instLawfulBEq : LawfulBEq UInt8 := inferInstance

instance Bytes.instLawfulBEq : LawfulBEq Bytes := inferInstance

instance Bytes.instLawfulBEqProd : LawfulBEq (Bytes × Bytes) := inferInstance

/-- One component of a path. -/
abbrev Name := Bytes

/-- An absolute path without `.` and `..`, the root being `[]`. -/
abbrev Path := List Name

theorem not_snoc_prefix {d : Path} {n : Name} : ¬ d ++ [n] <+: d := by
  intro h
  have := h.length_le
  rw [List.length_append, List.length_singleton] at this
  omega

/-- The bytes of an ASCII literal. -/
def ascii (s : String) : Bytes := s.toByteArray.data.toList

/-- Device and inode number. -/
structure FileIdentity where
  device : ℕ
  inode : ℕ
  deriving DecidableEq, Repr

/-- A regular file: its identity, contents and permission bits. -/
structure File where
  identity : FileIdentity
  bytes : Bytes
  mode : ℕ
  deriving DecidableEq, Repr

/-- What a name is bound to. -/
inductive Node where
  /-- A regular file. -/
  | file (f : File)
  /-- A directory. -/
  | dir (identity : FileIdentity)
  /-- A symbolic link or a special file. -/
  | other (identity : FileIdentity)
  deriving DecidableEq, Repr

namespace Node

/-- The identity of a node. -/
def identity : Node → FileIdentity
  | file f => f.identity
  | dir i => i
  | other i => i

@[simp] theorem identity_file (f : File) : (file f).identity = f.identity := rfl
@[simp] theorem identity_dir (i : FileIdentity) : (dir i).identity = i := rfl

end Node

/-- The filesystem a process sees. -/
structure Fs where
  /-- The bindings. -/
  entries : AList (fun _ : Path => Node)
  /-- The current directory of the process. -/
  cwd : Path

namespace Fs

/-- The node at a path. -/
def get (fs : Fs) (p : Path) : Option Node := fs.entries.lookup p

/-- Bind `p` to `n`. -/
def set (fs : Fs) (p : Path) (n : Node) : Fs := { fs with entries := fs.entries.insert p n }

/-- Remove the binding of `p`. -/
def del (fs : Fs) (p : Path) : Fs := { fs with entries := fs.entries.erase p }

theorem get_set (fs : Fs) (p q : Path) (n : Node) :
    (fs.set p n).get q = if q = p then some n else fs.get q := by
  by_cases h : q = p
  · subst h; simp [get, set]
  · simp [get, set, h, AList.lookup_insert_ne h]

theorem get_del (fs : Fs) (p q : Path) :
    (fs.del p).get q = if q = p then none else fs.get q := by
  by_cases h : q = p
  · subst h; simp [get, del]
  · simp [get, del, h, AList.lookup_erase_ne h]

@[simp] theorem get_set_self (fs : Fs) (p : Path) (n : Node) : (fs.set p n).get p = some n := by
  simp [get_set]

@[simp] theorem get_del_self (fs : Fs) (p : Path) : (fs.del p).get p = none := by simp [get_del]

theorem get_set_of_ne {fs : Fs} {p q : Path} {n : Node} (h : q ≠ p) :
    (fs.set p n).get q = fs.get q := by simp [get_set, h]

theorem get_del_of_ne {fs : Fs} {p q : Path} (h : q ≠ p) : (fs.del p).get q = fs.get q := by
  simp [get_del, h]

/-- The regular file at a path. -/
def file? (fs : Fs) (p : Path) : Option File :=
  match fs.get p with
  | some (.file f) => some f
  | _ => none

theorem file?_eq_some {fs : Fs} {p : Path} {f : File} :
    fs.file? p = some f ↔ fs.get p = some (.file f) := by
  unfold file?; split <;> simp_all

/-- `p` is a directory. -/
def isDir (fs : Fs) (p : Path) : Bool :=
  match fs.get p with
  | some (.dir _) => true
  | _ => false

theorem isDir_iff {fs : Fs} {p : Path} : fs.isDir p = true ↔ ∃ i, fs.get p = some (.dir i) := by
  unfold isDir; split <;> simp_all

/-- `p` and all its ancestors are directories. -/
def Dirs (fs : Fs) (p : Path) : Prop := ∀ q, q <+: p → fs.isDir q = true

theorem Dirs.isDir {fs : Fs} {p : Path} (h : fs.Dirs p) : fs.isDir p = true :=
  h p (List.prefix_refl p)

/-- Every directory of `fs` is the same directory in `fs'`. -/
def DirsLe (fs fs' : Fs) : Prop := ∀ q i, fs.get q = some (.dir i) → fs'.get q = some (.dir i)

theorem DirsLe.refl (fs : Fs) : fs.DirsLe fs := fun _ _ h => h

theorem DirsLe.trans {fs₁ fs₂ fs₃ : Fs} (h : fs₁.DirsLe fs₂) (h' : fs₂.DirsLe fs₃) :
    fs₁.DirsLe fs₃ := fun q i hq => h' q i (h q i hq)

theorem DirsLe.dirs {fs fs' : Fs} (h : fs.DirsLe fs') {p : Path} (hp : fs.Dirs p) :
    fs'.Dirs p := by
  intro q hq
  obtain ⟨i, hi⟩ := isDir_iff.1 (hp q hq)
  exact isDir_iff.2 ⟨i, h q i hi⟩

theorem dirsLe_set {fs : Fs} {p : Path} {n : Node} (h : fs.isDir p = false) :
    fs.DirsLe (fs.set p n) := by
  intro q i hq
  rw [get_set_of_ne]
  · exact hq
  · rintro rfl
    simp [isDir, hq] at h

theorem dirsLe_del {fs : Fs} {p : Path} (h : fs.isDir p = false) : fs.DirsLe (fs.del p) := by
  intro q i hq
  rw [get_del_of_ne]
  · exact hq
  · rintro rfl
    simp [isDir, hq] at h

/-- The names in the directory `d`. -/
def children (fs : Fs) (d : Path) : List Name :=
  fs.entries.keys.filterMap fun p => if p ≠ [] ∧ p.dropLast = d then p.getLast? else none

/-- The largest inode number in use. -/
def maxInode (fs : Fs) : ℕ := fs.entries.entries.foldr (fun e m => max e.2.identity.inode m) 0

theorem inode_le_maxInode {fs : Fs} {p : Path} {n : Node} (h : fs.get p = some n) :
    n.identity.inode ≤ fs.maxInode := by
  have hmem : (⟨p, n⟩ : (_ : Path) × Node) ∈ fs.entries.entries := AList.mem_lookup_iff.1 h
  unfold maxInode
  generalize fs.entries.entries = l at hmem
  induction l with
  | nil => cases hmem
  | cons e l ih =>
    rcases List.mem_cons.1 hmem with rfl | h'
    · exact Nat.le_max_left _ _
    · exact Nat.le_trans (ih h') (Nat.le_max_right _ _)

/-- Some name is bound to a node with identity `i`. -/
def uses (fs : Fs) (i : FileIdentity) : Bool :=
  fs.entries.entries.any fun e => decide (e.2.identity = i)

theorem uses_of_get {fs : Fs} {p : Path} {n : Node} (h : fs.get p = some n) :
    fs.uses n.identity = true := by
  have hmem : (⟨p, n⟩ : (_ : Path) × Node) ∈ fs.entries.entries := AList.mem_lookup_iff.1 h
  exact List.any_eq_true.2 ⟨_, hmem, by simp⟩

/-- An identity that no node has: the proposed one if it is unused. -/
def fresh (fs : Fs) (hint : FileIdentity) : FileIdentity :=
  if fs.uses hint then ⟨hint.device, fs.maxInode + 1⟩ else hint

theorem identity_ne_fresh {fs : Fs} {p : Path} {n : Node} (h : fs.get p = some n)
    (hint : FileIdentity) : n.identity ≠ fs.fresh hint := by
  intro he
  have hle := inode_le_maxInode h
  have hu := uses_of_get h
  unfold fresh at he
  split at he
  · rw [he] at hle
    exact absurd hle (Nat.not_succ_le_self _)
  · rw [he] at hu; contradiction

/-! ### Frames -/

/-- Nothing but the names in `X` differs between the two filesystems. -/
structure SameOff (X : List Path) (fs fs' : Fs) : Prop where
  cwd : fs'.cwd = fs.cwd
  get : ∀ q ∉ X, fs'.get q = fs.get q

namespace SameOff

variable {X Y : List Path} {fs fs₁ fs₂ : Fs}

theorem refl (X : List Path) (fs : Fs) : SameOff X fs fs := ⟨rfl, fun _ _ => rfl⟩

theorem trans (h₁ : SameOff X fs fs₁) (h₂ : SameOff X fs₁ fs₂) : SameOff X fs fs₂ :=
  ⟨h₂.cwd.trans h₁.cwd, fun q hq => (h₂.get q hq).trans (h₁.get q hq)⟩

theorem symm (h : SameOff X fs fs₁) : SameOff X fs₁ fs :=
  ⟨h.cwd.symm, fun q hq => (h.get q hq).symm⟩

theorem mono (h : SameOff X fs fs₁) (hXY : ∀ q ∈ X, q ∈ Y) : SameOff Y fs fs₁ :=
  ⟨h.cwd, fun q hq => h.get q fun hx => hq (hXY q hx)⟩

theorem set {p : Path} (n : Node) (hp : p ∈ X) : SameOff X fs (fs.set p n) := by
  refine ⟨rfl, fun q hq => get_set_of_ne ?_⟩
  rintro rfl
  exact hq hp

theorem del {p : Path} (hp : p ∈ X) : SameOff X fs (fs.del p) := by
  refine ⟨rfl, fun q hq => get_del_of_ne ?_⟩
  rintro rfl
  exact hq hp

/-- Directories outside `X` survive. -/
theorem dirs (h : SameOff X fs fs₁) {d : Path} (hd : fs.Dirs d) (hX : ∀ q, q <+: d → q ∉ X) :
    fs₁.Dirs d := by
  intro q hq
  obtain ⟨i, hi⟩ := isDir_iff.1 (hd q hq)
  exact isDir_iff.2 ⟨i, (h.get q (hX q hq)).trans hi⟩

end SameOff

/-- No node has the identity `i`. -/
def Unused (fs : Fs) (i : FileIdentity) : Prop := ∀ p n, fs.get p = some n → n.identity ≠ i

theorem unused_fresh (fs : Fs) (hint : FileIdentity) : fs.Unused (fs.fresh hint) :=
  fun _ _ h => identity_ne_fresh h hint

end Fs

end ArosTools
