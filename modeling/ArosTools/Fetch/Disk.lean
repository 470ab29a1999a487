import ArosTools.Fs.LinkTarget

/-!
# A filesystem with symbolic links

What an extraction does to the filesystem: directories, files and links are created at places where
nothing stands, and paths are resolved through the links that are there. A `Disk` is closed under
parents by construction, and it counts the bytes written to files.

* `lstat`, `mkdir`, `createNew`, `symlink`, `createDirAll`, `canonicalize` — the operations;
* `Adds` — what creating files and directories below a directory can do, with `createAt_spec` and
  `createDirAll_adds`.

A link with an absolute target is one whose target first climbs to the root. An operation that
fails for a reason that is not modelled ends an extraction with an error.
-/

namespace ArosTools

namespace Fetch

open Links

/-- The links that the resolution of one path may follow. -/
def maxSymlinks : ℕ := 40

/-- What stands at each place, the contents of the files, and the bytes written so far. -/
structure Disk where
  tree : Links.Tree Name
  contents : Path → Bytes
  written : ℕ
  root : tree [] = some .dir
  /-- What stands somewhere stands in a directory. -/
  closed : ∀ dir name, tree (dir ++ [name]) ≠ none → tree dir = some .dir

namespace Disk

/-- Creates a node in a directory, if nothing stands there. -/
def create (d : Disk) (dir : Path) (name : Name) (node : Links.Node Name) (bytes : Bytes) :
    Option Disk :=
  if h : d.tree (dir ++ [name]) = none ∧ d.tree dir = some .dir then
    some
      { tree := Function.update d.tree (dir ++ [name]) (some node)
        contents := Function.update d.contents (dir ++ [name]) bytes
        written := d.written + bytes.length
        root := by
          rw [Function.update_of_ne (by simp)]
          exact d.root
        closed := by
          intro dir' name' hne
          -- a directory that stands is not the place something is created at
          have hdir' : d.tree dir' = some .dir := by
            by_cases hsame : dir' ++ [name'] = dir ++ [name]
            · obtain ⟨rfl, -⟩ := List.append_inj' hsame rfl
              exact h.2
            · rw [Function.update_of_ne hsame] at hne
              exact d.closed dir' name' hne
          rw [Function.update_of_ne, hdir']
          rintro rfl
          rw [h.1] at hdir'
          cases hdir' }
  else none

/-- Where a path leads. -/
def canonicalize (d : Disk) (path : Path) : Place Name :=
  realpath d.tree maxSymlinks [] (path.map .down)

/-- What stands at a path, its last component not followed. -/
def lstat (d : Disk) (path : Path) : Option (Links.Node Name) :=
  match path.getLast? with
  | none => some .dir
  | some name =>
    match d.canonicalize path.dropLast with
    | .found dir => d.tree (dir ++ [name])
    | _ => none

/-- Creates a node at a path, its last component not followed. -/
def createAt (d : Disk) (path : Path) (node : Links.Node Name) (bytes : Bytes) : Option Disk :=
  match path.getLast? with
  | none => none
  | some name =>
    match d.canonicalize path.dropLast with
    | .found dir => d.create dir name node bytes
    | _ => none

/-- `create_dir`. -/
def mkdir (d : Disk) (path : Path) : Option Disk := d.createAt path .dir []

/-- A new file with the given contents. -/
def createNew (d : Disk) (path : Path) (bytes : Bytes) : Option Disk := d.createAt path .file bytes

/-- `symlink`. -/
def symlink (d : Disk) (target : PathBuf) (path : Path) : Option Disk :=
  d.createAt path (.link target.steps) []

/-- The path leads to a directory. -/
def isDir (d : Disk) (path : Path) : Bool :=
  match d.canonicalize path with
  | .found place => d.tree place = some .dir
  | _ => false

/-- Every directory of the list that is missing. -/
def createDirs (d : Disk) : List Path → Option Disk
  | [] => some d
  | path :: paths =>
    if d.isDir path then d.createDirs paths else (d.mkdir path).bind fun d => d.createDirs paths

/-- `create_dir_all`: every directory on the way that is missing. -/
def createDirAll (d : Disk) (path : Path) : Option Disk := d.createDirs path.inits

/-! ### Places without links -/

variable {d d' d'' : Disk} {root path : Path} {node : Links.Node Name} {bytes : Bytes}

/-- No link stands on the path. -/
def Plain (d : Disk) (path : Path) : Prop :=
  ∀ p, p <+: path → ∀ target, d.tree p ≠ some (.link target)

/-- No link stands below the directory. -/
def NoLinks (root : Path) (d : Disk) : Prop :=
  ∀ p, root <+: p → ∀ target, d.tree p ≠ some (.link target)

/-- The directories above something that stands are directories. -/
theorem dir_of_prefix {p : Path} (h : d.tree path ≠ none) (hp : p <+: path) (hne : p ≠ path) :
    d.tree p = some .dir := by
  induction path using List.reverseRecOn with
  | nil => exact absurd (List.prefix_nil.mp hp) hne
  | append_singleton dir name ih =>
    have hdir := d.closed dir name h
    rcases List.prefix_concat_iff.mp hp with heq | hp
    · exact absurd heq hne
    · by_cases heq : p = dir
      · rw [heq]
        exact hdir
      · exact ih (by rw [hdir]; simp) hp heq

theorem dir_of_prefix_dir {p : Path} (h : d.tree path = some .dir) (hp : p <+: path) :
    d.tree p = some .dir := by
  by_cases heq : p = path
  · rw [heq]
    exact h
  · exact dir_of_prefix (by rw [h]; simp) hp heq

theorem Plain.of_dir (h : d.tree path = some .dir) : d.Plain path := by
  intro p hp target
  rw [dir_of_prefix_dir h hp]
  simp

theorem NoLinks.plain (h : d.NoLinks root) (hroot : d.tree root = some .dir)
    (hpath : root <+: path) : d.Plain path := by
  intro p hp target
  rcases List.prefix_or_prefix_of_prefix hpath hp with hbelow | habove
  · exact h p hbelow target
  · rw [dir_of_prefix_dir hroot habove]
    simp

theorem canonicalize_dir (h : d.tree path = some .dir) : d.canonicalize path = .found path := by
  have hdirs : ∀ p, p <+: path → p ≠ [] → d.tree ([] ++ p) = some .dir :=
    fun p hp _ => dir_of_prefix_dir h hp
  have hwalk := walkAll_dirs (realpath d.tree 39) [] hdirs
  rw [List.append_nil] at hwalk
  exact hwalk

theorem canonicalize_plain (h : d.Plain path) {place : Path}
    (hplace : d.canonicalize path = .found place) : place = path :=
  realpath_plain h hplace

theorem isDir_of_dir (h : d.tree path = some .dir) : d.isDir path = true := by
  simp [isDir, canonicalize_dir h, h]

theorem dir_of_isDir (hplain : d.Plain path) (h : d.isDir path = true) :
    d.tree path = some .dir := by
  unfold isDir at h
  split at h
  · next place hplace =>
    rw [canonicalize_plain hplain hplace] at h
    exact of_decide_eq_true h
  · cases h

theorem lstat_of_tree (h : d.tree path = some node) : d.lstat path = some node := by
  rcases List.eq_nil_or_concat' path with rfl | ⟨dir, name, rfl⟩
  · rw [d.root] at h
    exact h
  · have hdir : d.tree dir = some .dir := d.closed dir name (by rw [h]; simp)
    unfold lstat
    rw [List.getLast?_concat, List.dropLast_concat]
    dsimp only
    rw [canonicalize_dir hdir]
    exact h

theorem lstat_concat {dir : Path} {name : Name} (hplain : d.Plain dir)
    (h : d.lstat (dir ++ [name]) = some node) : d.tree (dir ++ [name]) = some node := by
  unfold lstat at h
  rw [List.getLast?_concat, List.dropLast_concat] at h
  dsimp only at h
  split at h
  · next place hplace =>
    rw [canonicalize_plain hplain hplace] at h
    exact h
  · cases h

/-! ### What creating does -/

/-- What creating files and directories below `root` can do. -/
structure Adds (root : Path) (d d' : Disk) : Prop where
  outside : ∀ p, ¬ root <+: p → d'.tree p = d.tree p
  kept : ∀ p, d.tree p ≠ none → d'.tree p = d.tree p ∧ d'.contents p = d.contents p
  plain : ∀ p target, d'.tree p = some (.link target) → d.tree p = some (.link target)

theorem Adds.refl (root : Path) (d : Disk) : Adds root d d :=
  ⟨fun _ _ => rfl, fun _ _ => ⟨rfl, rfl⟩, fun _ _ h => h⟩

theorem Adds.trans (h : Adds root d d') (h' : Adds root d' d'') : Adds root d d'' := by
  refine ⟨fun p hp => (h'.outside p hp).trans (h.outside p hp), fun p hp => ?_,
    fun p target hlink => h.plain p target (h'.plain p target hlink)⟩
  obtain ⟨htree, hcontents⟩ := h.kept p hp
  obtain ⟨htree', hcontents'⟩ := h'.kept p (by rw [htree]; exact hp)
  exact ⟨htree'.trans htree, hcontents'.trans hcontents⟩

theorem Adds.dir (h : Adds root d d') (hdir : d.tree path = some .dir) :
    d'.tree path = some .dir := by
  rw [(h.kept path (by rw [hdir]; simp)).1, hdir]

theorem Adds.noLinks (h : Adds root d d') (hlinks : d.NoLinks root) : d'.NoLinks root :=
  fun p hp target hlink => hlinks p hp target (h.plain p target hlink)

theorem Adds.plainPath (h : Adds root d d') (hplain : d.Plain path) : d'.Plain path :=
  fun p hp target hlink => hplain p hp target (h.plain p target hlink)

/-- What creating a node at a path did. -/
structure Created (d : Disk) (path : Path) (node : Links.Node Name) (bytes : Bytes) (d' : Disk) :
    Prop where
  named : path ≠ []
  absent : d.tree path = none
  parent : d.tree path.dropLast = some .dir
  tree : d'.tree = Function.update d.tree path (some node)
  contents : d'.contents = Function.update d.contents path bytes
  written : d'.written = d.written + bytes.length

theorem create_spec {dir : Path} {name : Name} (h : d.create dir name node bytes = some d') :
    Created d (dir ++ [name]) node bytes d' := by
  unfold create at h
  split_ifs at h with hfree
  cases h
  exact ⟨by simp, hfree.1, by rw [List.dropLast_concat]; exact hfree.2, rfl, rfl, rfl⟩

/-- A node that is created at a path without links stands at that path. -/
theorem createAt_spec (hplain : d.Plain path.dropLast) (h : d.createAt path node bytes = some d') :
    Created d path node bytes d' := by
  unfold createAt at h
  rcases List.eq_nil_or_concat' path with rfl | ⟨dir, name, rfl⟩
  · cases h
  · rw [List.getLast?_concat] at h
    rw [List.dropLast_concat] at h hplain
    dsimp only at h
    split at h
    · next place hplace =>
      rw [canonicalize_plain hplain hplace] at h
      exact create_spec h
    · cases h

theorem Created.at_path (h : Created d path node bytes d') : d'.tree path = some node := by
  rw [h.tree, Function.update_self]

theorem Created.kept (h : Created d path node bytes d') {p : Path} (hp : d.tree p ≠ none) :
    d'.tree p = d.tree p ∧ d'.contents p = d.contents p := by
  have hne : p ≠ path := by
    rintro rfl
    exact hp h.absent
  rw [h.tree, h.contents, Function.update_of_ne hne, Function.update_of_ne hne]
  exact ⟨rfl, rfl⟩

theorem Created.outside (h : Created d path node bytes d') (hpath : root <+: path) {p : Path}
    (hp : ¬ root <+: p) : d'.tree p = d.tree p := by
  have hne : p ≠ path := by
    rintro rfl
    exact hp hpath
  rw [h.tree, Function.update_of_ne hne]

theorem Created.adds (h : Created d path node bytes d') (hpath : root <+: path)
    (hnode : ∀ target, node ≠ .link target) : Adds root d d' := by
  refine ⟨fun p hp => h.outside hpath hp, fun p hp => h.kept hp, fun p target hlink => ?_⟩
  by_cases hp : p = path
  · rw [hp, h.at_path] at hlink
    exact absurd (Option.some.inj hlink) (hnode target)
  · rw [h.tree, Function.update_of_ne hp] at hlink
    exact hlink

theorem createDirs_adds {paths : List Path} (hroot : d.tree root = some .dir)
    (hlinks : d.NoLinks root) (hpaths : ∀ p ∈ paths, p <+: root ∨ root <+: p)
    (h : d.createDirs paths = some d') :
    Adds root d d' ∧ d'.written = d.written ∧ ∀ p ∈ paths, d'.tree p = some .dir := by
  induction paths generalizing d with
  | nil =>
    cases h
    exact ⟨.refl root _, rfl, nofun⟩
  | cons path paths ih =>
    have hrest : ∀ p ∈ paths, p <+: root ∨ root <+: p := fun p hp => hpaths p (.tail _ hp)
    rw [createDirs] at h
    by_cases hdir : d.isDir path = true
    · rw [if_pos hdir] at h
      obtain ⟨hadds, hwritten, hdirs⟩ := ih hroot hlinks hrest h
      have hpath : d.tree path = some .dir := by
        rcases hpaths path (.head _) with habove | hbelow
        · exact dir_of_prefix_dir hroot habove
        · exact dir_of_isDir (hlinks.plain hroot hbelow) hdir
      refine ⟨hadds, hwritten, fun p hp => ?_⟩
      rcases List.mem_cons.mp hp with rfl | hp
      · exact hadds.dir hpath
      · exact hdirs p hp
    · rw [if_neg hdir] at h
      obtain ⟨d₁, hd₁, h⟩ := Option.bind_eq_some_iff.mp h
      have hbelow : root <+: path := by
        rcases hpaths path (.head _) with habove | hbelow
        · exact absurd (isDir_of_dir (dir_of_prefix_dir hroot habove)) hdir
        · exact hbelow
      have hplain : d.Plain path.dropLast := fun p hp target =>
        hlinks.plain hroot hbelow p (hp.trans (List.dropLast_prefix path)) target
      have hcreated := createAt_spec hplain hd₁
      have hadds₁ := hcreated.adds hbelow nofun
      obtain ⟨hadds, hwritten, hdirs⟩ := ih (hadds₁.dir hroot) (hadds₁.noLinks hlinks) hrest h
      refine ⟨hadds₁.trans hadds, hwritten.trans hcreated.written, fun p hp => ?_⟩
      rcases List.mem_cons.mp hp with rfl | hp
      · exact hadds.dir hcreated.at_path
      · exact hdirs p hp

/-- **Making a directory and its parents below a directory without links adds directories there.** -/
theorem createDirAll_adds (hroot : d.tree root = some .dir) (hlinks : d.NoLinks root)
    (hpath : path <+: root ∨ root <+: path) (h : d.createDirAll path = some d') :
    Adds root d d' ∧ d'.written = d.written ∧ d'.tree path = some .dir := by
  have hpaths : ∀ p ∈ path.inits, p <+: root ∨ root <+: p := by
    intro p hp
    have hp : p <+: path := (List.mem_inits p path).mp hp
    rcases hpath with habove | hbelow
    · exact .inl (hp.trans habove)
    · exact (List.prefix_or_prefix_of_prefix hbelow hp).symm
  obtain ⟨hadds, hwritten, hdirs⟩ := createDirs_adds hroot hlinks hpaths h
  exact ⟨hadds, hwritten, hdirs path ((List.mem_inits path path).mpr (List.prefix_refl path))⟩

end Disk

end Fetch

end ArosTools
