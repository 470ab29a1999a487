import ArosTools.Fs.Prospect
import ArosTools.Program.Except
import ArosTools.Publication.Rules

/-!
# Overlapping paths

`filesystemPathsOverlap` compares two absolute paths before one is written and the other read. It
looks for the last directory on the left path that is also on the right path, and compares the names
that follow it on both, without regard to ASCII case.

A path spells directories: those its ancestors lead to. A link leads a path into a directory whose
parents the path does not spell, and there the comparison does not see what contains what.

* `Sound` : the comparison is symmetric and does not miss an overlap.
* `paths_overlap_iff` : when it is.
-/

namespace ArosTools

namespace PathOverlap

open Links (Prospect prospect)

/-- The links that the resolution of one path may follow. -/
def linkLimit : ℕ := 40

/-- A filesystem: what stands at each place, and the device and inode number of it. -/
structure Host where
  tree : Links.Tree Name
  identity : Path → FileIdentity
  root : tree [] = some .dir
  /-- What stands somewhere stands in a directory. -/
  closed : ∀ dir name, tree (dir ++ [name]) ≠ none → tree dir = some .dir
  /-- A directory stands at one place. -/
  distinct : ∀ p q, tree p = some .dir → tree q = some .dir → identity p = identity q → p = q

/-- `Metadata`, as far as it is read. -/
structure Metadata where
  isDir : Bool
  identity : FileIdentity

namespace Host

variable (h : Host)

/-- Where an absolute path leads. -/
def leads (path : Path) : Prospect Name := prospect h.tree linkLimit [] (path.map .down)

/-- `std::fs::metadata`. -/
def metadata (path : Path) : Except IoError Metadata :=
  match h.leads path with
  | .dir place => .ok ⟨true, h.identity place⟩
  | .file dir name => .ok ⟨false, h.identity (dir ++ [name])⟩
  | .absent _ _ _ => .error (.new .notFound "No such file or directory (os error 2)")
  | .dead .missing => .error (.new .notFound "No such file or directory (os error 2)")
  | .dead .belowFile => .error (.new .notADirectory "Not a directory (os error 20)")
  | .dead .loop => .error (.ofMessage "Too many levels of symbolic links (os error 40)")

end Host

/-- `Path::ancestors`: the path itself first. -/
def ancestorPaths (path : Path) : List Path := path.inits.reverse

/-- One round of the loop in `ancestors`. -/
def observe (h : Host) (existing : List (PathBuf × FileIdentity)) (ancestor : Path) :
    Except IoError (List (PathBuf × FileIdentity)) :=
  match h.metadata ancestor with
  | .ok metadata =>
    if metadata.isDir then .ok (existing ++ [(.ofPath ancestor, metadata.identity)])
    else .ok existing
  | .error e => if e.kind = .notFound then .ok existing else .error e

/-- `ancestors`: the existing directories among the ancestors of a path. -/
def ancestors (h : Host) (path : PathBuf) : Except IoError (List (PathBuf × FileIdentity)) :=
  match if path.absolute then path.names? else none with
  | none => .error (.new .invalidInput "path overlap requires normalized absolute paths")
  | some names => (ancestorPaths names).foldlM (observe h) []

/-- `as_os_str().as_encoded_bytes()`. -/
def componentBytes : Component → Bytes
  | .normal name => name
  | .parentDir => ascii ".."
  | .curDir => ascii "."

/-- `eq_ignore_ascii_case`. -/
def eqIgnoreAsciiCase (a b : Bytes) : Bool := a.map asciiLower = b.map asciiLower

/-- The components of two suffixes agree as far as both go. -/
def suffixesAgree (left right : List Component) : Bool :=
  (left.zip right).all fun pair => eqIgnoreAsciiCase (componentBytes pair.1) (componentBytes pair.2)

/-- `filesystem_paths_overlap`. -/
def filesystemPathsOverlap (h : Host) (left right : PathBuf) : Except IoError Bool := do
  let leftAncestors ← ancestors h left
  let rightAncestors ← ancestors h right
  let common := leftAncestors.findSome? fun entry =>
    (rightAncestors.find? fun other => other.2 = entry.2).map fun other => (entry.1, other.1)
  match common with
  | none => .error (.ofMessage "cannot establish path ancestry")
  | some (leftParent, rightParent) =>
    let leftSuffix ← (left.stripPrefix leftParent).elim
      (.error (.ofMessage "prefix not found")) .ok
    let rightSuffix ← (right.stripPrefix rightParent).elim
      (.error (.ofMessage "prefix not found")) .ok
    .ok (suffixesAgree leftSuffix.components rightSuffix.components)

/-! ### What the comparison is for -/

/-- The directory a path leads into and the names in it. -/
def location : Prospect Name → Option (Path × Path)
  | .dir place => some (place, [])
  | .file dir name => some (dir, [name])
  | .absent dir name rest => some (dir, name :: rest)
  | .dead _ => none

/-- The names of two paths agree up to ASCII case as far as both go. -/
def agree (left right : Path) : Bool :=
  (left.zip right).all fun pair => eqIgnoreAsciiCase pair.1 pair.2

/-- One path leads to a place at or inside the place the other leads to; names in one directory are
compared without ASCII case. -/
def Overlap (h : Host) (a b : Path) : Prop :=
  ∃ dir tail dir' tail', location (h.leads a) = some (dir, tail) ∧
    location (h.leads b) = some (dir', tail') ∧
    (dir ++ tail <+: dir' ++ tail' ∨ dir' ++ tail' <+: dir ++ tail ∨
      dir = dir' ∧ agree tail tail' = true)

/-- The comparison gives the same answer both ways, and it does not deny an overlap. -/
def Sound (h : Host) (left right : PathBuf) : Prop :=
  (filesystemPathsOverlap h left right).toOption =
    (filesystemPathsOverlap h right left).toOption ∧
  ∀ a b, left = .ofPath a → right = .ofPath b → Overlap h a b →
    filesystemPathsOverlap h left right ≠ .ok false

/-! ### The directories a path spells -/

/-- The directories that the ancestors of a path lead to, with the ancestors, the longest first. -/
def spelled (h : Host) (path : Path) : List (Path × Path) :=
  (ancestorPaths path).filterMap fun ancestor =>
    match h.leads ancestor with
    | .dir place => some (ancestor, place)
    | _ => none

/-- The first directory of one list that is in another. -/
def meet (left right : List (Path × Path)) : Option (Path × Path) :=
  left.find? fun entry => right.any fun other => other.2 = entry.2

/-- The last directory `a` spells that `b` spells is the last directory `b` spells that `a` does. -/
def SameMeet (h : Host) (a b : Path) : Prop :=
  (meet (spelled h a) (spelled h b)).map Prod.snd = (meet (spelled h b) (spelled h a)).map Prod.snd

/-- The path `a` is a directory, and `b` spells it. -/
def Through (h : Host) (a b : Path) : Prop :=
  ∃ place, h.leads a = .dir place ∧ ∃ ancestor, (ancestor, place) ∈ spelled h b

/-- The last directory is the same on both paths, and the names after it agree. -/
def SameEnd (h : Host) (a b : Path) : Prop :=
  ∃ p q place, (spelled h a).head? = some (p, place) ∧ (spelled h b).head? = some (q, place) ∧
    agree (a.drop p.length) (b.drop q.length) = true

/-- No ancestor of the path is below a file or goes round in circles. -/
def Examined (h : Host) (path : PathBuf) (names : Path) : Prop :=
  path = .ofPath names ∧ ∀ p, p <+: names → h.leads p ≠ .dead .belowFile ∧ h.leads p ≠ .dead .loop

section Observe

variable {h : Host} {path : PathBuf} {names p place : Path}

theorem eq_ofPath (habsolute : path.absolute = true) (hnames : path.names? = some names) :
    path = .ofPath names := by
  have hcomponents := PathBuf.names?_eq_some.mp hnames
  obtain ⟨absolute, components⟩ := path
  cases habsolute
  cases hcomponents
  rfl

theorem mem_ancestorPaths : p ∈ ancestorPaths names ↔ p <+: names := by
  rw [ancestorPaths, List.mem_reverse, List.mem_inits]

theorem mem_spelled : (p, place) ∈ spelled h names ↔ p <+: names ∧ h.leads p = .dir place := by
  rw [spelled, List.mem_filterMap]
  constructor
  · rintro ⟨ancestor, hmem, hsome⟩
    split at hsome
    · rename_i place' hdir
      cases hsome
      exact ⟨mem_ancestorPaths.mp hmem, hdir⟩
    · cases hsome
  · rintro ⟨hpre, hdir⟩
    refine ⟨p, mem_ancestorPaths.mpr hpre, ?_⟩
    rw [hdir]

/-- What the loop keeps. -/
def kept (h : Host) (entries : List (Path × Path)) : List (PathBuf × FileIdentity) :=
  entries.map fun entry => (.ofPath entry.1, h.identity entry.2)

theorem observe_eq (existing : List (PathBuf × FileIdentity))
    (hleads : h.leads p ≠ .dead .belowFile ∧ h.leads p ≠ .dead .loop) :
    observe h existing p = .ok (existing ++ kept h (match h.leads p with
      | .dir place => [(p, place)]
      | _ => [])) := by
  unfold observe Host.metadata
  cases hcase : h.leads p with
  | dir place => rfl
  | file dir name => simp [kept]
  | absent dir name rest => simp [kept, IoError.new]
  | dead why =>
    cases why with
    | missing => simp [kept, IoError.new]
    | belowFile => exact absurd hcase hleads.1
    | loop => exact absurd hcase hleads.2

theorem observe_error (existing : List (PathBuf × FileIdentity))
    (hleads : ¬ (h.leads p ≠ .dead .belowFile ∧ h.leads p ≠ .dead .loop)) :
    ∃ e, observe h existing p = .error e := by
  unfold observe Host.metadata
  rw [not_and_or, not_not, not_not] at hleads
  rcases hleads with hfile | hloop
  · rw [hfile]
    exact ⟨_, rfl⟩
  · rw [hloop]
    exact ⟨_, rfl⟩

theorem foldlM_observe (paths : List Path) (existing : List (PathBuf × FileIdentity))
    (hleads : ∀ p ∈ paths, h.leads p ≠ .dead .belowFile ∧ h.leads p ≠ .dead .loop) :
    paths.foldlM (observe h) existing = .ok (existing ++ kept h (paths.filterMap fun ancestor =>
      match h.leads ancestor with
      | .dir place => some (ancestor, place)
      | _ => none)) := by
  induction paths generalizing existing with
  | nil => simp [kept]; rfl
  | cons p paths ih =>
    rw [List.foldlM_cons, observe_eq existing (hleads p (by simp))]
    refine (ih _ fun q hq => hleads q (List.mem_cons_of_mem p hq)).trans ?_
    rw [List.append_assoc]
    cases hcase : h.leads p with
    | dir place => simp [kept, hcase]
    | file dir name => simp [kept, hcase]
    | absent dir name rest => simp [kept, hcase]
    | dead why => simp [kept, hcase]

theorem foldlM_observe_error (paths : List Path) (existing : List (PathBuf × FileIdentity))
    (hleads : ¬ ∀ p ∈ paths, h.leads p ≠ .dead .belowFile ∧ h.leads p ≠ .dead .loop) :
    ∃ e, paths.foldlM (observe h) existing = .error e := by
  induction paths generalizing existing with
  | nil => exact absurd (fun p hp => absurd hp List.not_mem_nil) hleads
  | cons p paths ih =>
    rw [List.foldlM_cons]
    by_cases hp : h.leads p ≠ .dead .belowFile ∧ h.leads p ≠ .dead .loop
    · rw [observe_eq existing hp]
      exact ih _ fun hrest => hleads (List.forall_mem_cons.mpr ⟨hp, hrest⟩)
    · obtain ⟨e, he⟩ := observe_error existing hp
      rw [he]
      exact ⟨e, rfl⟩

theorem ancestors_ok (hexamined : Examined h path names) :
    ancestors h path = .ok (kept h (spelled h names)) := by
  obtain ⟨rfl, hleads⟩ := hexamined
  rw [ancestors, PathBuf.ofPath_absolute, if_pos rfl, PathBuf.names?_ofPath]
  exact foldlM_observe _ [] fun p hp => hleads p (mem_ancestorPaths.mp hp)

/-- A path is either examined or refused. -/
theorem examined_or_refused (h : Host) (path : PathBuf) :
    (∃ names, Examined h path names) ∨ ∃ e, ancestors h path = .error e := by
  unfold ancestors
  split
  · exact .inr ⟨_, rfl⟩
  · rename_i names hnames
    split at hnames
    · rename_i habsolute
      by_cases hleads : ∀ p ∈ ancestorPaths names,
          h.leads p ≠ .dead .belowFile ∧ h.leads p ≠ .dead .loop
      · exact .inl ⟨names, eq_ofPath habsolute hnames,
          fun p hp => hleads p (mem_ancestorPaths.mpr hp)⟩
      · exact .inr (foldlM_observe_error _ [] hleads)
    · cases hnames

theorem tree_of_leads (hdir : h.leads p = .dir place) : h.tree place = some .dir := by
  refine Links.tree_of_prospect_dir h.root (fun dir hdir => ?_) hdir
  by_cases hne : dir = []
  · rw [hne]
    exact h.root
  · rw [← List.dropLast_append_getLast hne] at hdir
    exact h.closed dir.dropLast (dir.getLast hne) (by rw [hdir]; nofun)

theorem leads_nil : h.leads [] = .dir [] := rfl

theorem root_mem_spelled : ([], []) ∈ spelled h names :=
  mem_spelled.mpr ⟨List.nil_prefix, leads_nil⟩

end Observe

/-! ### The answer -/

section Answer

variable {h : Host} {left right : PathBuf} {a b p q place : Path}

/-- The names after the first directory of `a` that `b` spells agree. -/
structure Compares (h : Host) (a b p q place : Path) : Prop where
  left : meet (spelled h a) (spelled h b) = some (p, place)
  right : ((spelled h b).find? fun entry => entry.2 = place) = some (q, place)

theorem find?_congr_mem {α : Type} {l : List α} {f g : α → Bool} (hfg : ∀ x ∈ l, f x = g x) :
    l.find? f = l.find? g := by
  induction l with
  | nil => rfl
  | cons x l ih =>
    obtain ⟨hx, hl⟩ := List.forall_mem_cons.mp hfg
    rw [List.find?_cons, List.find?_cons, hx, ih hl]

theorem findSome?_eq_bind {α β : Type} (l : List α) (f : α → Option β) :
    l.findSome? f = (l.find? fun x => (f x).isSome).bind f := by
  induction l with
  | nil => rfl
  | cons x l ih =>
    rw [List.findSome?_cons, List.find?_cons]
    cases hx : f x with
    | none => simpa using ih
    | some y => simp [hx]

/-- An entry that satisfies more is found first if the one found satisfies it. -/
theorem find?_of_imp {α : Type} {l : List α} {f g : α → Bool} {x : α} (hf : l.find? f = some x)
    (hg : g x = true) (himp : ∀ y, g y = true → f y = true) : l.find? g = some x := by
  induction l with
  | nil => cases hf
  | cons y l ih =>
    rw [List.find?_cons] at hf ⊢
    cases hfy : f y with
    | true =>
      rw [hfy] at hf
      cases hf
      rw [hg]
    | false =>
      rw [hfy] at hf
      have hgy : g y = false := Bool.eq_false_iff.mpr fun hgy => by
        rw [himp y hgy] at hfy
        cases hfy
      rw [hgy]
      exact ih hf

theorem mem_of_meet (hmeet : meet (spelled h a) (spelled h b) = some (p, place)) :
    (p, place) ∈ spelled h a ∧ ∃ ancestor, (ancestor, place) ∈ spelled h b := by
  refine ⟨List.mem_of_find?_eq_some hmeet, ?_⟩
  have hany := List.find?_some hmeet
  obtain ⟨other, hother, heq⟩ := List.any_eq_true.mp hany
  have hplace : other.2 = place := of_decide_eq_true heq
  exact ⟨other.1, hplace ▸ hother⟩

/-- Two paths spell a common directory, at least the root. -/
theorem exists_compares (h : Host) (a b : Path) : ∃ p q place, Compares h a b p q place := by
  have hsome : (meet (spelled h a) (spelled h b)).isSome := by
    rw [meet, List.find?_isSome]
    refine ⟨_, root_mem_spelled, ?_⟩
    exact List.any_eq_true.mpr ⟨_, root_mem_spelled, decide_eq_true rfl⟩
  obtain ⟨⟨p, place⟩, hmeet⟩ := Option.isSome_iff_exists.mp hsome
  obtain ⟨-, ancestor, hancestor⟩ := mem_of_meet hmeet
  have hfound : ((spelled h b).find? fun entry => entry.2 = place).isSome := by
    rw [List.find?_isSome]
    exact ⟨_, hancestor, decide_eq_true rfl⟩
  obtain ⟨⟨q, place'⟩, hq⟩ := Option.isSome_iff_exists.mp hfound
  have heq := List.find?_some hq
  have hplace : place' = place := of_decide_eq_true heq
  exact ⟨p, q, place, hmeet, hplace ▸ hq⟩

theorem find?_kept {entry : Path × Path} (hentry : entry ∈ spelled h a) :
    ((kept h (spelled h b)).find? fun other => other.2 = h.identity entry.2) =
      ((spelled h b).find? fun other => other.2 = entry.2).map
        fun other => (.ofPath other.1, h.identity other.2) := by
  rw [kept, List.find?_map]
  refine congrArg (Option.map _) (find?_congr_mem fun other hother => ?_)
  refine decide_eq_decide.mpr ⟨fun heq => ?_, congrArg h.identity⟩
  exact h.distinct _ _ (tree_of_leads (mem_spelled.mp hother).2)
    (tree_of_leads (mem_spelled.mp hentry).2) heq

theorem findSome?_kept (hcompares : Compares h a b p q place) :
    ((kept h (spelled h a)).findSome? fun entry =>
      ((kept h (spelled h b)).find? fun other => other.2 = entry.2).map
        fun other => (entry.1, other.1)) = some (PathBuf.ofPath p, PathBuf.ofPath q) := by
  have hmap : kept h (spelled h a) =
      (spelled h a).map fun entry => (.ofPath entry.1, h.identity entry.2) := rfl
  rw [hmap, List.findSome?_map, findSome?_eq_bind]
  have hfirst : ((spelled h a).find? fun entry =>
      (((kept h (spelled h b)).find? fun other => other.2 = h.identity entry.2).map
        fun other => (PathBuf.ofPath entry.1, other.1)).isSome) = some (p, place) := by
    rw [← hcompares.left]
    refine find?_congr_mem fun entry hentry => ?_
    rw [find?_kept hentry, Option.isSome_map, Option.isSome_map]
    exact Bool.eq_iff_iff.mpr (by rw [List.find?_isSome, List.any_eq_true])
  refine (congrArg (Option.bind · _) hfirst).trans ?_
  dsimp only [Option.bind_some, Function.comp_apply]
  rw [find?_kept (List.mem_of_find?_eq_some hcompares.left), hcompares.right]
  rfl

theorem stripPrefix_ofPath (hpre : p <+: a) :
    (PathBuf.ofPath a).stripPrefix (.ofPath p) = some ⟨false, (a.drop p.length).map .normal⟩ := by
  unfold PathBuf.stripPrefix PathBuf.ofPath
  rw [if_pos ⟨rfl, List.isPrefixOf_iff_prefix.mpr (hpre.map _)⟩, List.length_map, List.map_drop]

theorem suffixesAgree_map (l r : Path) :
    suffixesAgree (l.map .normal) (r.map .normal) = agree l r := by
  unfold suffixesAgree agree
  rw [List.zip_map, List.all_map]
  rfl

/-- What the comparison returns. -/
theorem overlap_eq (hleft : Examined h left a) (hright : Examined h right b)
    (hcompares : Compares h a b p q place) :
    filesystemPathsOverlap h left right = .ok (agree (a.drop p.length) (b.drop q.length)) := by
  have hp : p <+: a := (mem_spelled.mp (List.mem_of_find?_eq_some hcompares.left)).1
  have hq : q <+: b := (mem_spelled.mp (List.mem_of_find?_eq_some hcompares.right)).1
  unfold filesystemPathsOverlap
  rw [ancestors_ok hleft, ancestors_ok hright]
  dsimp only [Bind.bind, Except.bind]
  rw [findSome?_kept hcompares]
  dsimp only
  rw [hleft.1, hright.1, stripPrefix_ofPath hp, stripPrefix_ofPath hq]
  exact congrArg Except.ok (suffixesAgree_map _ _)

/-- A path that is refused is refused on either side. -/
theorem overlap_refused {e : IoError} (hrefused : ancestors h left = .error e) (other : PathBuf) :
    (∃ e, filesystemPathsOverlap h left other = .error e) ∧
      ∃ e, filesystemPathsOverlap h other left = .error e := by
  constructor
  · refine ⟨e, ?_⟩
    unfold filesystemPathsOverlap
    rw [hrefused]
    rfl
  · unfold filesystemPathsOverlap
    cases hother : ancestors h other with
    | error e' => exact ⟨e', rfl⟩
    | ok entries =>
      rw [hrefused]
      exact ⟨e, rfl⟩

end Answer

/-! ### When the answer is right -/

section Right

variable {h : Host} {left right : PathBuf} {a b p q place : Path}

theorem eqIgnoreAsciiCase_comm (x y : Bytes) : eqIgnoreAsciiCase x y = eqIgnoreAsciiCase y x :=
  decide_eq_decide.mpr eq_comm

theorem agree_comm (l r : Path) : agree l r = agree r l := by
  induction l generalizing r with
  | nil => cases r <;> rfl
  | cons x l ih =>
    cases r with
    | nil => rfl
    | cons y r =>
      have ih := ih r
      simp only [agree, List.zip_cons_cons, List.all_cons] at ih ⊢
      rw [ih, eqIgnoreAsciiCase_comm]

theorem agree_nil_left (r : Path) : agree [] r = true := rfl

theorem Compares.swap (hcompares : Compares h a b p q place) (hsame : SameMeet h a b) :
    Compares h b a q p place := by
  unfold SameMeet at hsame
  rw [hcompares.left] at hsame
  obtain ⟨⟨q', place'⟩, hmeet, heq⟩ := Option.map_eq_some_iff.mp hsame.symm
  cases heq
  have hright : ((spelled h b).find? fun entry => entry.2 = place) = some (q', place) := by
    refine find?_of_imp hmeet (decide_eq_true rfl) fun entry hentry => ?_
    obtain ⟨hp, -⟩ := mem_of_meet hcompares.left
    refine List.any_eq_true.mpr ⟨_, hp, decide_eq_true ?_⟩
    exact (of_decide_eq_true hentry).symm
  cases hcompares.right.symm.trans hright
  refine ⟨hmeet, ?_⟩
  refine find?_of_imp hcompares.left (decide_eq_true rfl) fun entry hentry => ?_
  obtain ⟨hq, -⟩ := mem_of_meet hmeet
  refine List.any_eq_true.mpr ⟨_, hq, decide_eq_true ?_⟩
  exact (of_decide_eq_true hentry).symm

theorem ancestorPaths_concat (a : Path) (x : Name) :
    ancestorPaths (a ++ [x]) = (a ++ [x]) :: ancestorPaths a := by
  simp [ancestorPaths, List.inits_append]

theorem spelled_concat (h : Host) (a : Path) (x : Name) :
    spelled h (a ++ [x]) = (match h.leads (a ++ [x]) with
      | .dir place => [(a ++ [x], place)]
      | _ => []) ++ spelled h a := by
  rw [spelled, ancestorPaths_concat, List.filterMap_cons]
  cases hcase : h.leads (a ++ [x]) with
  | dir place => rfl
  | file dir name => rfl
  | absent dir name rest => rfl
  | dead why => rfl

/-- The directories come with ancestors of falling length. -/
theorem spelled_pairwise (h : Host) (a : Path) :
    (spelled h a).Pairwise fun e f => f.1.length < e.1.length := by
  induction a using List.reverseRecOn with
  | nil => exact List.pairwise_singleton _ _
  | append_singleton a x ih =>
    rw [spelled_concat]
    have hlonger : ∀ f ∈ spelled h a, f.1.length < (a ++ [x]).length := fun f hf => by
      have hle := (mem_spelled.mp hf).1.length_le
      rw [List.length_append, List.length_singleton]
      omega
    split
    · exact List.pairwise_cons.mpr ⟨hlonger, ih⟩
    · exact ih

theorem head?_spelled_of_leads (hdir : h.leads a = .dir place) :
    (spelled h a).head? = some (a, place) := by
  cases a using List.reverseRecOn with
  | nil =>
    rw [leads_nil] at hdir
    cases hdir
    rfl
  | append_singleton a x =>
    rw [spelled_concat, hdir]
    rfl

theorem meet_of_head? (hhead : (spelled h a).head? = some (p, place))
    (hspelled : ∃ ancestor, (ancestor, place) ∈ spelled h b) :
    meet (spelled h a) (spelled h b) = some (p, place) := by
  cases hlist : spelled h a with
  | nil => rw [hlist] at hhead; cases hhead
  | cons first rest =>
    rw [hlist] at hhead
    cases hhead
    obtain ⟨ancestor, hancestor⟩ := hspelled
    rw [meet, List.find?_cons_of_pos]
    exact List.any_eq_true.mpr ⟨_, hancestor, decide_eq_true rfl⟩

/-- Nothing that follows a directory spelled through is compared. -/
theorem Through.agree (hthrough : Through h a b) (hcompares : Compares h a b p q place) :
    PathOverlap.agree (a.drop p.length) (b.drop q.length) = true := by
  obtain ⟨dir, hdir, hspelled⟩ := hthrough
  cases hcompares.left.symm.trans (meet_of_head? (head?_spelled_of_leads hdir) hspelled)
  rw [List.drop_length, agree_nil_left]

theorem SameEnd.agree (hend : SameEnd h a b) (hcompares : Compares h a b p q place) :
    PathOverlap.agree (a.drop p.length) (b.drop q.length) = true := by
  obtain ⟨p', q', dir, hp, hq, hagree⟩ := hend
  have hmem : (q', dir) ∈ spelled h b := List.mem_of_head? hq
  cases hcompares.left.symm.trans (meet_of_head? hp ⟨q', hmem⟩)
  have hfirst : ((spelled h b).find? fun entry => entry.2 = place) = some (q', place) := by
    cases hlist : spelled h b with
    | nil => rw [hlist] at hq; cases hq
    | cons first rest =>
      rw [hlist] at hq
      cases hq
      exact List.find?_cons_of_pos (decide_eq_true rfl)
  cases hcompares.right.symm.trans hfirst
  exact hagree

/-- From one directory, a name leads to one place. -/
theorem leads_snoc_congr {x : Name} (hp : h.leads p = .dir place) (hq : h.leads q = .dir place)
    (hpx : h.leads (p ++ [x]) ≠ .dead .loop) (hqx : h.leads (q ++ [x]) ≠ .dead .loop) :
    h.leads (p ++ [x]) = h.leads (q ++ [x]) := by
  obtain ⟨m, -, hm⟩ := Links.prospect_append hp
  obtain ⟨n, -, hn⟩ := Links.prospect_append hq
  have hpm : h.leads (p ++ [x]) = prospect h.tree m place [.down x] := by
    rw [Host.leads, List.map_append]
    exact hm _
  have hqn : h.leads (q ++ [x]) = prospect h.tree n place [.down x] := by
    rw [Host.leads, List.map_append]
    exact hn _
  rw [hpm] at hpx ⊢
  rw [hqn] at hqx ⊢
  exact Links.prospect_congr hpx hqx

/-- What leads to a directory passes through directories. -/
theorem leads_of_prefix (hpre : p <+: q) (hq : h.leads q = .dir place) :
    ∃ dir, h.leads p = .dir dir := by
  obtain ⟨rest, rfl⟩ := hpre
  cases rest with
  | nil => exact ⟨place, by rwa [List.append_nil] at hq⟩
  | cons x rest =>
    rw [Host.leads, List.map_append] at hq
    exact Links.prospect_of_append_dir (by simp) hq

/-- A directory spelled by both paths is not after the first. -/
theorem Compares.length_le (hcompares : Compares h a b p q place) {p' place' : Path}
    (hp' : (p', place') ∈ spelled h a) (hspelled : ∃ ancestor, (ancestor, place') ∈ spelled h b) :
    p'.length ≤ p.length := by
  obtain ⟨-, before, after, hlist, hbefore⟩ := List.find?_eq_some_iff_append.mp hcompares.left
  have hpairs := spelled_pairwise h a
  rw [hlist] at hp' hpairs
  rcases List.mem_append.mp hp' with hmem | hmem
  · obtain ⟨ancestor, hancestor⟩ := hspelled
    have hnot := hbefore _ hmem
    rw [Bool.not_eq_true', List.any_eq_false] at hnot
    exact absurd (decide_eq_true rfl) (hnot (ancestor, place') hancestor)
  · rcases List.mem_cons.mp hmem with heq | hmem
    · cases heq
      exact le_rfl
    · have hlt := (List.pairwise_cons.mp (List.pairwise_append.mp hpairs).2.1).1 _ hmem
      exact hlt.le

/-- The last directory a path spells is followed by a name that is none. -/
theorem head?_spelled_of_not_dir {x : Name} {rest : Path} (hp : (p, place) ∈ spelled h a)
    (hrest : a = p ++ x :: rest) (hnot : ∀ dir, h.leads (p ++ [x]) ≠ .dir dir) :
    (spelled h a).head? = some (p, place) := by
  cases hlist : spelled h a with
  | nil => rw [hlist] at hp; cases hp
  | cons first others =>
    have hfirst : first ∈ spelled h a := by rw [hlist]; exact List.mem_cons_self
    obtain ⟨hpre, hdir⟩ := mem_spelled.mp (show (first.1, first.2) ∈ spelled h a from hfirst)
    have hpairs := spelled_pairwise h a
    rw [hlist] at hp hpairs
    rcases List.mem_cons.mp hp with heq | hmem
    · rw [← heq]
      rfl
    · -- a longer directory would lead through the name
      have hlt := (List.pairwise_cons.mp hpairs).1 _ hmem
      have hthrough : p ++ [x] <+: first.1 := by
        refine List.prefix_of_prefix_length_le ?_ hpre ?_
        · rw [hrest]
          exact ⟨rest, by simp⟩
        · rw [List.length_append, List.length_singleton]
          exact hlt
      obtain ⟨dir, hdir⟩ := leads_of_prefix hthrough hdir
      exact absurd hdir (hnot dir)

/-- No name of one path differs from a name of the other in ASCII case only. -/
def NoTwins (a b : Path) : Prop := ∀ x ∈ a, ∀ y ∈ b, eqIgnoreAsciiCase x y = true → x = y

/-- What an answer says if names that agree are equal. -/
theorem Compares.cases (hleft : Examined h left a) (hright : Examined h right b)
    (htwins : NoTwins a b) (hcompares : Compares h a b p q place)
    (hagree : agree (a.drop p.length) (b.drop q.length) = true) :
    SameEnd h a b ∨ Through h a b ∨ Through h b a ∧ h.leads b = .dir place := by
  obtain ⟨hp, -⟩ := mem_of_meet hcompares.left
  have hq : (q, place) ∈ spelled h b := List.mem_of_find?_eq_some hcompares.right
  obtain ⟨⟨sa, rfl⟩, hpdir⟩ := mem_spelled.mp hp
  obtain ⟨⟨sb, rfl⟩, hqdir⟩ := mem_spelled.mp hq
  rw [List.drop_left, List.drop_left] at hagree
  cases sa with
  | nil =>
    refine .inr (.inl ⟨place, ?_, q, hq⟩)
    rwa [List.append_nil]
  | cons x sa =>
    cases sb with
    | nil =>
      rw [List.append_nil] at hq ⊢
      exact .inr (.inr ⟨⟨place, hqdir, p, hp⟩, hqdir⟩)
    | cons y sb =>
      have hxy : x = y := by
        refine htwins x (by simp) y (by simp) ?_
        simp only [agree, List.zip_cons_cons, List.all_cons, Bool.and_eq_true] at hagree
        exact hagree.1
      subst hxy
      have hpx : p ++ [x] <+: p ++ x :: sa := ⟨sa, by simp⟩
      have hqx : q ++ [x] <+: q ++ x :: sb := ⟨sb, by simp⟩
      have hsame := leads_snoc_congr hpdir hqdir (hleft.2 _ hpx).2 (hright.2 _ hqx).2
      have hnot : ∀ dir, h.leads (p ++ [x]) ≠ .dir dir := fun dir hdir => by
        have hle := hcompares.length_le (mem_spelled.mpr ⟨hpx, hdir⟩)
          ⟨q ++ [x], mem_spelled.mpr ⟨hqx, hsame ▸ hdir⟩⟩
        rw [List.length_append, List.length_singleton] at hle
        omega
      refine .inl ⟨p, q, place, head?_spelled_of_not_dir hp rfl hnot,
        head?_spelled_of_not_dir hq rfl (fun dir => hsame ▸ hnot dir), ?_⟩
      rw [List.drop_left, List.drop_left]
      exact hagree

theorem SameEnd.sameMeet (hend : SameEnd h a b) : SameMeet h a b := by
  obtain ⟨p, q, dir, hp, hq, -⟩ := hend
  rw [SameMeet, meet_of_head? hp ⟨q, List.mem_of_head? hq⟩,
    meet_of_head? hq ⟨p, List.mem_of_head? hp⟩]
  rfl

theorem NoTwins.symm (htwins : NoTwins a b) : NoTwins b a := fun y hy x hx hxy =>
  (htwins x hx y hy (eqIgnoreAsciiCase_comm y x ▸ hxy)).symm

theorem true_of_through (hleft : Examined h left a) (hright : Examined h right b)
    (hthrough : Through h a b) : filesystemPathsOverlap h left right = .ok true := by
  obtain ⟨p, q, place, hab⟩ := exists_compares h a b
  rw [overlap_eq hleft hright hab, hthrough.agree hab]

/-- The two answers agree if the paths meet at one directory, or each spells the other. -/
theorem symmetric_of_meet (hleft : Examined h left a) (hright : Examined h right b)
    (hmeet : SameMeet h a b ∨ Through h a b ∧ Through h b a) :
    filesystemPathsOverlap h left right = filesystemPathsOverlap h right left := by
  obtain ⟨p, q, place, hab⟩ := exists_compares h a b
  rcases hmeet with hsame | ⟨hthrough, hthrough'⟩
  · rw [overlap_eq hleft hright hab, overlap_eq hright hleft (hab.swap hsame), agree_comm]
  · rw [true_of_through hleft hright hthrough, true_of_through hright hleft hthrough']

/-- An overlap that the spellings show is seen, from one side at least. -/
theorem seen_of_shown (hleft : Examined h left a) (hright : Examined h right b)
    (hshown : SameEnd h a b ∨ Through h a b ∨ Through h b a) :
    filesystemPathsOverlap h left right = .ok true ∨
      filesystemPathsOverlap h right left = .ok true := by
  rcases hshown with hend | hthrough | hthrough
  · obtain ⟨p, q, place, hab⟩ := exists_compares h a b
    exact .inl (by rw [overlap_eq hleft hright hab, hend.agree hab])
  · exact .inl (true_of_through hleft hright hthrough)
  · exact .inr (true_of_through hright hleft hthrough)

/-- If names that agree are equal, an answer of `true` is one the spellings show. -/
theorem shown_of_true (hleft : Examined h left a) (hright : Examined h right b)
    (htwins : NoTwins a b) (htrue : filesystemPathsOverlap h left right = .ok true) :
    SameEnd h a b ∨ Through h a b ∨ Through h b a := by
  obtain ⟨p, q, place, hab⟩ := exists_compares h a b
  rw [overlap_eq hleft hright hab] at htrue
  rcases hab.cases hleft hright htwins (Except.ok.inj htrue) with hend | hthrough | hthrough
  · exact .inl hend
  · exact .inr (.inl hthrough)
  · exact .inr (.inr hthrough.1)

/-- Where the paths meet at two directories, an answer of `true` says that the other path spells the
first. -/
theorem through_of_true (hleft : Examined h left a) (hright : Examined h right b)
    (htwins : NoTwins a b) (hmeet : ¬ SameMeet h a b)
    (htrue : filesystemPathsOverlap h left right = .ok true) : Through h a b := by
  obtain ⟨p, q, place, hab⟩ := exists_compares h a b
  rw [overlap_eq hleft hright hab] at htrue
  rcases hab.cases hleft hright htwins (Except.ok.inj htrue) with hend | hthrough | ⟨-, hdir⟩
  · exact absurd hend.sameMeet hmeet
  · exact hthrough
  · -- the first directory of `a` that `b` spells is `b` itself, so it is also `b`'s first
    obtain ⟨hp, -⟩ := mem_of_meet hab.left
    refine absurd ?_ hmeet
    rw [SameMeet, hab.left, meet_of_head? (head?_spelled_of_leads hdir) ⟨p, hp⟩]
    rfl

end Right

section Main

variable {h : Host} {left right : PathBuf}

theorem overlap_ok_iff_examined (h : Host) (left right : PathBuf) :
    (∃ answer, filesystemPathsOverlap h left right = .ok answer) ↔
      (∃ a, Examined h left a) ∧ ∃ b, Examined h right b := by
  constructor
  · rintro ⟨answer, hanswer⟩
    have hside : ∀ {path other : PathBuf} {e : IoError}, ancestors h path = .error e →
        (filesystemPathsOverlap h path other = .ok answer ∨
          filesystemPathsOverlap h other path = .ok answer) → False := by
      intro path other e he hok
      obtain ⟨⟨_, hl⟩, _, hr⟩ := overlap_refused he other
      rcases hok with hok | hok
      · rw [hl] at hok
        cases hok
      · rw [hr] at hok
        cases hok
    constructor
    · rcases examined_or_refused h left with hexamined | ⟨e, he⟩
      · exact hexamined
      · exact (hside he (.inl hanswer)).elim
    · rcases examined_or_refused h right with hexamined | ⟨e, he⟩
      · exact hexamined
      · exact (hside he (.inr hanswer)).elim
  · rintro ⟨⟨a, ha⟩, b, hb⟩
    obtain ⟨p, q, place, hab⟩ := exists_compares h a b
    exact ⟨_, overlap_eq ha hb hab⟩

theorem examined_unique {path : PathBuf} {a b : Path} (ha : path = .ofPath a)
    (hb : Examined h path b) : a = b := PathBuf.ofPath_injective (ha.symm.trans hb.1)

/-- Paths that are not both examined are refused both ways. -/
theorem sound_of_refused (hrefused : ¬ ((∃ a, Examined h left a) ∧ ∃ b, Examined h right b)) :
    Sound h left right := by
  have hnone : ∀ {l r : PathBuf}, (¬ ∃ answer, filesystemPathsOverlap h l r = .ok answer) →
      (filesystemPathsOverlap h l r).toOption = none := by
    intro l r hno
    cases hcase : filesystemPathsOverlap h l r with
    | error e => rfl
    | ok answer => exact absurd ⟨answer, hcase⟩ hno
  have hlr := mt (overlap_ok_iff_examined h left right).mp hrefused
  have hrl := mt (overlap_ok_iff_examined h right left).mp fun hboth => hrefused hboth.symm
  refine ⟨(hnone hlr).trans (hnone hrl).symm, fun a b _ _ _ hfalse => ?_⟩
  exact hlr ⟨false, hfalse⟩

theorem sound_iff {a b : Path} (ha : Examined h left a) (hb : Examined h right b) :
    Sound h left right ↔
      filesystemPathsOverlap h left right = filesystemPathsOverlap h right left ∧
        (Overlap h a b → filesystemPathsOverlap h left right = .ok true) := by
  obtain ⟨x, hx⟩ := (overlap_ok_iff_examined h left right).mpr ⟨⟨a, ha⟩, b, hb⟩
  obtain ⟨y, hy⟩ := (overlap_ok_iff_examined h right left).mpr ⟨⟨b, hb⟩, a, ha⟩
  have hnot : x ≠ false ↔ x = true := by cases x <;> decide
  simp only [Sound, hx, hy, Except.toOption, Option.some.injEq, Except.ok.injEq, hnot, ne_eq]
  refine and_congr_right fun _ => ⟨fun hall hoverlap => hall a b ha.1 hb.1 hoverlap, ?_⟩
  intro htrue a' b' ha' hb' hoverlap
  cases examined_unique ha' ha
  cases examined_unique hb' hb
  exact htrue hoverlap

/-- **When the comparison is sound.** It is enough that the two paths meet at one directory, or that
each spells the other, and that the spellings show an overlap if there is one: they end in the same
directory with names that agree, or one spells the other. If no names differ in case only, it is
sound exactly when the spellings show an overlap if there is one and, where the paths meet at two
directories, both or neither spells the other. -/
theorem paths_overlap_iff (h : Host) (left right : PathBuf) :
    ((∀ a b, Examined h left a → Examined h right b →
        (SameMeet h a b ∨ Through h a b ∧ Through h b a) ∧
        (Overlap h a b → SameEnd h a b ∨ Through h a b ∨ Through h b a)) →
      Sound h left right) ∧
    ((∀ a b, left = .ofPath a → right = .ofPath b → NoTwins a b) →
      (Sound h left right ↔ ∀ a b, Examined h left a → Examined h right b →
        (SameMeet h a b ∨ (Through h a b ↔ Through h b a)) ∧
        (Overlap h a b → SameEnd h a b ∨ Through h a b ∨ Through h b a))) := by
  by_cases hexamined : (∃ a, Examined h left a) ∧ ∃ b, Examined h right b
  · obtain ⟨⟨a, ha⟩, b, hb⟩ := hexamined
    refine ⟨fun hcondition => ?_, fun htwins => ⟨fun hsound a' b' ha' hb' => ?_, fun hcondition => ?_⟩⟩
    · obtain ⟨hmeet, hshown⟩ := hcondition a b ha hb
      have hsym := symmetric_of_meet ha hb hmeet
      refine (sound_iff ha hb).mpr ⟨hsym, fun hoverlap => ?_⟩
      rcases seen_of_shown ha hb (hshown hoverlap) with hseen | hseen
      · exact hseen
      · exact hsym.trans hseen
    · have htwins := htwins a' b' ha'.1 hb'.1
      obtain ⟨hsym, htrue⟩ := (sound_iff ha' hb').mp hsound
      refine ⟨?_, fun hoverlap => shown_of_true ha' hb' htwins (htrue hoverlap)⟩
      by_cases hmeet : SameMeet h a' b'
      · exact .inl hmeet
      · refine .inr ⟨fun hthrough => ?_, fun hthrough => ?_⟩
        · refine through_of_true hb' ha' htwins.symm (fun hsame => hmeet hsame.symm) ?_
          rw [← hsym, true_of_through ha' hb' hthrough]
        · refine through_of_true ha' hb' htwins hmeet ?_
          rw [hsym, true_of_through hb' ha' hthrough]
    · have htwins := htwins a b ha.1 hb.1
      obtain ⟨hmeet, hshown⟩ := hcondition a b ha hb
      have hsym : filesystemPathsOverlap h left right = filesystemPathsOverlap h right left := by
        by_cases hsame : SameMeet h a b
        · exact symmetric_of_meet ha hb (.inl hsame)
        have hiff := hmeet.resolve_left hsame
        by_cases hthrough : Through h a b
        · exact symmetric_of_meet ha hb (.inr ⟨hthrough, hiff.mp hthrough⟩)
        · -- neither spells the other, so neither answer is `true`
          obtain ⟨x, hx⟩ := (overlap_ok_iff_examined h left right).mpr ⟨⟨a, ha⟩, b, hb⟩
          obtain ⟨y, hy⟩ := (overlap_ok_iff_examined h right left).mpr ⟨⟨b, hb⟩, a, ha⟩
          have hxfalse : x = false := Bool.eq_false_iff.mpr fun htrue =>
            hthrough (through_of_true ha hb htwins hsame (htrue ▸ hx))
          have hyfalse : y = false := Bool.eq_false_iff.mpr fun htrue =>
            hthrough (hiff.mpr (through_of_true hb ha htwins.symm (fun h => hsame h.symm)
              (htrue ▸ hy)))
          rw [hx, hy, hxfalse, hyfalse]
      refine (sound_iff ha hb).mpr ⟨hsym, fun hoverlap => ?_⟩
      rcases seen_of_shown ha hb (hshown hoverlap) with hseen | hseen
      · exact hseen
      · exact hsym.trans hseen
  · have hno : ∀ a b, Examined h left a → Examined h right b → False :=
      fun a b ha hb => hexamined ⟨⟨a, ha⟩, b, hb⟩
    have hsound := sound_of_refused hexamined
    exact ⟨fun _ => hsound, fun _ => ⟨fun _ a b ha hb => (hno a b ha hb).elim, fun _ => hsound⟩⟩

end Main

/-! ### A path that is missed -/

/-- What a table says stands at a place. -/
def tableTree (table : List (Path × Links.Node Name)) : Links.Tree Name := fun place =>
  (table.find? fun entry => entry.1 = place).map Prod.snd

theorem tableTree_ne_none {table : List (Path × Links.Node Name)} {place : Path}
    (h : tableTree table place ≠ none) : ∃ entry ∈ table, entry.1 = place := by
  obtain ⟨node, hnode⟩ := Option.ne_none_iff_exists'.mp h
  obtain ⟨entry, hentry, -⟩ := Option.map_eq_some_iff.mp hnode
  have hplace := List.find?_some hentry
  exact ⟨entry, List.mem_of_find?_eq_some hentry, of_decide_eq_true hplace⟩

/-- The filesystem of a table, numbered by its rows. -/
def Host.ofTable (table : List (Path × Links.Node Name)) (hroot : tableTree table [] = some .dir)
    (hclosed : ∀ entry ∈ table, tableTree table entry.1.dropLast = some .dir) : Host where
  tree := tableTree table
  identity place := ⟨0, table.findIdx fun entry => entry.1 = place⟩
  root := hroot
  closed dir name hnode := by
    obtain ⟨entry, hentry, hplace⟩ := tableTree_ne_none hnode
    have hdir := hclosed entry hentry
    rwa [hplace, List.dropLast_concat] at hdir
  distinct p q hp hq hidentity := by
    have hrow : ∀ place, tableTree table place = some .dir →
        (table[table.findIdx fun entry => entry.1 = place]?).map Prod.fst = some place := by
      intro place hplace
      obtain ⟨entry, hentry, heq⟩ := tableTree_ne_none (by rw [hplace]; nofun)
      have hlt : (table.findIdx fun entry => entry.1 = place) < table.length :=
        List.findIdx_lt_length_of_exists ⟨entry, hentry, decide_eq_true heq⟩
      have hfound := @List.findIdx_getElem _ (fun entry => decide (entry.1 = place)) table hlt
      rw [List.getElem?_eq_getElem hlt, Option.map_some, of_decide_eq_true hfound]
    have hindex : (table.findIdx fun entry => entry.1 = p) =
        table.findIdx fun entry => entry.1 = q := congrArg FileIdentity.inode hidentity
    have hrows := hrow p hp
    rw [hindex, hrow q hq] at hrows
    exact (Option.some.inj hrows).symm

/-- The directories `/x`, `/y` and `/y/deep`, and a link `/x/link` to `/y/deep`. -/
def linked : Host :=
  .ofTable [([], .dir), ([[0x78]], .dir), ([[0x79]], .dir), ([[0x79], ascii "deep"], .dir),
    ([[0x78], ascii "link"], .link [.up, .down [0x79], .down (ascii "deep")])]
    (by decide) (by decide)

/-- `/x/link` leads into `/y`, and the comparison of the two denies an overlap. -/
theorem linked_missed :
    Overlap linked [[0x78], ascii "link"] [[0x79]] ∧
      ¬ Sound linked (.ofPath [[0x78], ascii "link"]) (.ofPath [[0x79]]) := by
  have hoverlap : Overlap linked [[0x78], ascii "link"] [[0x79]] :=
    ⟨[[0x79], ascii "deep"], [], [[0x79]], [], by decide, by decide,
      .inr (.inl (by decide))⟩
  refine ⟨hoverlap, fun hsound => hsound.2 _ _ rfl rfl hoverlap ?_⟩
  have hfalse : (filesystemPathsOverlap linked (.ofPath [[0x78], ascii "link"])
      (.ofPath [[0x79]])).toOption = some false := by decide
  cases hcase : filesystemPathsOverlap linked (.ofPath [[0x78], ascii "link"]) (.ofPath [[0x79]]) with
  | error e => rw [hcase] at hfalse; cases hfalse
  | ok answer =>
    rw [hcase] at hfalse
    exact congrArg Except.ok (Option.some.inj hfalse)

end PathOverlap

end ArosTools
