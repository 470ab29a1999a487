import ArosTools.Fs.Symlinks

/-!
# Paths that need not exist yet

Where a path leads in a whole filesystem if its end is missing: to a directory, to a file, or to
names that are missing in a directory that exists. A link whose target is missing leads to the
missing place.

* `prospect` : where a path leads;
* `prospect_append` : past a directory, it goes on from there;
* `prospect_of_append_dir` : what leads to a directory passes through directories only.
-/

namespace ArosTools

namespace Links

variable {ν : Type}

/-- Why a path leads nowhere. -/
inductive Dead where
  /-- `..` after a missing name. -/
  | missing
  /-- A name below a file. -/
  | belowFile
  /-- More links than may be followed. -/
  | loop
  deriving DecidableEq, Repr

/-- Where a path leads. -/
inductive Prospect (ν : Type) where
  | dir (place : List ν)
  | file (dir : List ν) (name : ν)
  /-- Names that are missing in a directory. -/
  | absent (dir : List ν) (name : ν) (rest : List ν)
  | dead (why : Dead)
  deriving DecidableEq, Repr

/-- The names of a path without `..`. -/
def names? : List (Step ν) → Option (List ν)
  | [] => some []
  | .up :: _ => none
  | .down name :: rest => (names? rest).map (name :: ·)

variable (t : Tree ν)

/-- Walks a path from the directory `cur`; `follow` takes over where a link stands. -/
def prospectWalk (follow : List ν → List (Step ν) → Prospect ν) :
    List ν → List (Step ν) → Prospect ν
  | cur, [] => .dir cur
  | cur, .up :: rest => prospectWalk follow cur.dropLast rest
  | cur, .down name :: rest =>
    match t (cur ++ [name]) with
    | none => (names? rest).elim (.dead .missing) (.absent cur name)
    | some .dir => prospectWalk follow (cur ++ [name]) rest
    | some .file => if rest = [] then .file cur name else .dead .belowFile
    | some (.link target) => follow cur (target ++ rest)

/-- Where a path from the directory `cur` leads, following at most `links` links. -/
def prospect : ℕ → List ν → List (Step ν) → Prospect ν
  | 0 => prospectWalk t fun _ _ => .dead .loop
  | links + 1 => prospectWalk t (prospect links)

variable {t}

section Walk

variable {follow follow' : List ν → List (Step ν) → Prospect ν}

theorem prospectWalk_down (cur : List ν) (name : ν) (rest : List (Step ν)) :
    prospectWalk t follow cur (.down name :: rest) =
      match t (cur ++ [name]) with
      | none => (names? rest).elim (.dead .missing) (.absent cur name)
      | some .dir => prospectWalk t follow (cur ++ [name]) rest
      | some .file => if rest = [] then .file cur name else .dead .belowFile
      | some (.link target) => follow cur (target ++ rest) := rfl

theorem prospectWalk_down_dir {cur : List ν} {name : ν} (h : t (cur ++ [name]) = some .dir)
    (rest : List (Step ν)) :
    prospectWalk t follow cur (.down name :: rest) =
      prospectWalk t follow (cur ++ [name]) rest := by
  rw [prospectWalk_down, h]

theorem prospectWalk_down_link {cur : List ν} {name : ν} {target : List (Step ν)}
    (h : t (cur ++ [name]) = some (.link target)) (rest : List (Step ν)) :
    prospectWalk t follow cur (.down name :: rest) = follow cur (target ++ rest) := by
  rw [prospectWalk_down, h]

/-- A walk comes to a directory through a directory or a link. -/
theorem prospectWalk_down_eq_dir {cur place : List ν} {name : ν} {rest : List (Step ν)}
    (h : prospectWalk t follow cur (.down name :: rest) = .dir place) :
    (t (cur ++ [name]) = some .dir ∧ prospectWalk t follow (cur ++ [name]) rest = .dir place) ∨
      ∃ target, t (cur ++ [name]) = some (.link target) ∧
        follow cur (target ++ rest) = .dir place := by
  rw [prospectWalk_down] at h
  cases hnode : t (cur ++ [name]) with
  | none =>
    rw [hnode] at h
    cases hnames : names? rest <;> simp [hnames] at h
  | some node =>
    rw [hnode] at h
    cases node with
    | dir => exact .inl ⟨rfl, h⟩
    | file =>
      dsimp only at h
      split at h <;> cases h
    | link target => exact .inr ⟨target, rfl, h⟩

/-- A walk over a path that leads to a directory goes on from there, with what is left of the links
that may be followed. -/
theorem prospectWalk_append {R : (List ν → List (Step ν) → Prospect ν) → Prop}
    (hself : R (prospectWalk t follow))
    (hfollow : ∀ cur path place, follow cur path = .dir place →
      ∃ go, R go ∧ ∀ rest, follow cur (path ++ rest) = go place rest)
    {cur place : List ν} {path : List (Step ν)} (h : prospectWalk t follow cur path = .dir place) :
    ∃ go, R go ∧ ∀ rest, prospectWalk t follow cur (path ++ rest) = go place rest := by
  induction path generalizing cur with
  | nil =>
    cases h
    exact ⟨_, hself, fun rest => rfl⟩
  | cons step path ih =>
    cases step with
    | up => exact ih h
    | down name =>
      rcases prospectWalk_down_eq_dir h with ⟨hnode, h⟩ | ⟨target, hnode, h⟩
      · obtain ⟨go, hgo, hrest⟩ := ih h
        refine ⟨go, hgo, fun rest => ?_⟩
        rw [List.cons_append, prospectWalk_down_dir hnode, hrest]
      · obtain ⟨go, hgo, hrest⟩ := hfollow _ _ _ h
        refine ⟨go, hgo, fun rest => ?_⟩
        rw [List.cons_append, prospectWalk_down_link hnode, ← hrest, List.append_assoc]

/-- A walk that goes on to a directory has come to one. -/
theorem prospectWalk_dir_of_append
    (hfollow : ∀ cur path rest place, rest ≠ [] → follow cur (path ++ rest) = .dir place →
      ∃ mid, follow cur path = .dir mid)
    {cur place : List ν} {path rest : List (Step ν)} (hne : rest ≠ [])
    (h : prospectWalk t follow cur (path ++ rest) = .dir place) :
    ∃ mid, prospectWalk t follow cur path = .dir mid := by
  induction path generalizing cur with
  | nil => exact ⟨cur, rfl⟩
  | cons step path ih =>
    cases step with
    | up => exact ih h
    | down name =>
      rw [List.cons_append] at h
      rcases prospectWalk_down_eq_dir h with ⟨hnode, h⟩ | ⟨target, hnode, h⟩
      · rw [prospectWalk_down_dir hnode]
        exact ih h
      · rw [← List.append_assoc] at h
        rw [prospectWalk_down_link hnode]
        exact hfollow _ _ _ _ hne h

/-- Following more links changes nothing but a walk that ran out of them. -/
theorem prospectWalk_mono
    (hfollow : ∀ cur path, follow cur path ≠ .dead .loop → follow' cur path = follow cur path)
    {cur : List ν} {path : List (Step ν)} (h : prospectWalk t follow cur path ≠ .dead .loop) :
    prospectWalk t follow' cur path = prospectWalk t follow cur path := by
  induction path generalizing cur with
  | nil => rfl
  | cons step path ih =>
    cases step with
    | up => exact ih h
    | down name =>
      cases hnode : t (cur ++ [name]) with
      | none => rw [prospectWalk_down, prospectWalk_down, hnode]
      | some node =>
        cases node with
        | dir =>
          rw [prospectWalk_down_dir hnode] at h
          rw [prospectWalk_down_dir hnode, prospectWalk_down_dir hnode]
          exact ih h
        | file => rw [prospectWalk_down, prospectWalk_down, hnode]
        | link target =>
          rw [prospectWalk_down_link hnode] at h
          rw [prospectWalk_down_link hnode, prospectWalk_down_link hnode]
          exact hfollow _ _ h

end Walk

section Prospect

variable {links links' : ℕ} {cur place : List ν} {path rest : List (Step ν)}

/-- Past a directory, a path goes on from there. -/
theorem prospect_append (h : prospect t links cur path = .dir place) :
    ∃ left ≤ links, ∀ rest, prospect t links cur (path ++ rest) = prospect t left place rest := by
  suffices hgo : ∃ go, (∃ left ≤ links, go = prospect t left) ∧
      ∀ rest, prospect t links cur (path ++ rest) = go place rest by
    obtain ⟨go, ⟨left, hleft, rfl⟩, hrest⟩ := hgo
    exact ⟨left, hleft, hrest⟩
  induction links generalizing cur place path with
  | zero =>
    exact prospectWalk_append (R := fun go => ∃ left ≤ 0, go = prospect t left)
      ⟨0, Nat.le_refl 0, rfl⟩ (fun _ _ _ hdead => nomatch hdead) h
  | succ links ih =>
    refine prospectWalk_append (R := fun go => ∃ left ≤ links + 1, go = prospect t left)
      ⟨links + 1, Nat.le_refl _, rfl⟩ (fun cur path place hfollow => ?_) h
    obtain ⟨go, ⟨left, hleft, rfl⟩, hrest⟩ := ih hfollow
    exact ⟨_, ⟨left, by omega, rfl⟩, hrest⟩

/-- What leads to a directory passes through directories only. -/
theorem prospect_of_append_dir (hne : rest ≠ [])
    (h : prospect t links cur (path ++ rest) = .dir place) :
    ∃ mid, prospect t links cur path = .dir mid := by
  induction links generalizing cur place path rest with
  | zero =>
    refine prospectWalk_dir_of_append ?_ hne h
    exact fun _ _ _ _ _ hdead => nomatch hdead
  | succ links ih =>
    refine prospectWalk_dir_of_append ?_ hne h
    exact fun cur path rest place hne hfollow => ih hne hfollow

theorem prospect_succ (h : prospect t links cur path ≠ .dead .loop) :
    prospect t (links + 1) cur path = prospect t links cur path := by
  induction links generalizing cur path with
  | zero => exact prospectWalk_mono (fun _ _ hdead => absurd rfl hdead) h
  | succ links ih => exact prospectWalk_mono (fun cur path hfollow => ih hfollow) h

theorem prospect_le (hle : links ≤ links') (h : prospect t links cur path ≠ .dead .loop) :
    prospect t links' cur path = prospect t links cur path := by
  induction hle with
  | refl => rfl
  | step _ ih => rw [prospect_succ (by rw [ih]; exact h), ih]

/-- From one directory a path leads to one place, however many links were followed before. -/
theorem prospect_congr (h : prospect t links cur path ≠ .dead .loop)
    (h' : prospect t links' cur path ≠ .dead .loop) :
    prospect t links cur path = prospect t links' cur path := by
  rcases Nat.le_total links links' with hle | hle
  · exact (prospect_le hle h).symm
  · exact prospect_le hle h'

/-- The directory a path leads to stands there. -/
theorem tree_of_prospect_dir (hcur : t cur = some .dir)
    (hup : ∀ place : List ν, t place = some .dir → t place.dropLast = some .dir)
    (h : prospect t links cur path = .dir place) : t place = some .dir := by
  have hwalk : ∀ {follow : List ν → List (Step ν) → Prospect ν},
      (∀ cur path place, t cur = some .dir → follow cur path = .dir place → t place = some .dir) →
      ∀ {cur : List ν} {path : List (Step ν)} {place : List ν}, t cur = some .dir →
        prospectWalk t follow cur path = .dir place → t place = some .dir := by
    intro follow hfollow cur path place hcur h
    induction path generalizing cur with
    | nil =>
      cases h
      exact hcur
    | cons step path ih =>
      cases step with
      | up => exact ih (hup cur hcur) h
      | down name =>
        rcases prospectWalk_down_eq_dir h with ⟨hnode, h⟩ | ⟨target, -, h⟩
        · exact ih hnode h
        · exact hfollow _ _ _ hcur h
  induction links generalizing cur path place with
  | zero =>
    refine hwalk ?_ hcur h
    exact fun _ _ _ _ hdead => nomatch hdead
  | succ links ih =>
    refine hwalk ?_ hcur h
    exact fun _ _ _ hcur h => ih hcur h

end Prospect

end Links

end ArosTools
