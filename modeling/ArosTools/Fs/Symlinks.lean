import Mathlib.Data.List.Basic
import Mathlib.Tactic.Common

/-!
# Resolving symbolic links below a root

A tree below a root is given by what stands at each place. Resolution walks a path component by
component from a directory; a symbolic link is replaced by its target, which is walked from the
directory the link stands in. The bound on the links that may be followed is the one a kernel
sets; nothing below depends on it.

* `resolve` — where a path leads: to a place below the root, to a missing name below it, round in
  circles, or above the root;
* `staysInside` — the count of components that a checker of one target can make;
* `settled` — the path takes no `..` after it has followed a link;
* `resolve_ne_above` — targets that pass the count and are settled never lead above the root;
* `realpath` — the same walk in a whole filesystem, where the parent of the root is the root;
* `realpath_under` — below a directory, the two agree as long as the walk does not leave it.
-/

namespace ArosTools

namespace Links

variable {ν : Type}

/-- A component of a path, `.` left out. -/
inductive Step (ν : Type) where
  | up
  | down (name : ν)
  deriving DecidableEq, Repr

/-- What stands at a place. -/
inductive Node (ν : Type) where
  | dir
  | file
  | link (target : List (Step ν))
  deriving DecidableEq, Repr

/-- What stands at each place below a root that is a directory. -/
abbrev Tree (ν : Type) := List ν → Option (Node ν)

/-- Where a path leads. -/
inductive Place (ν : Type) where
  /-- To a directory or a file. -/
  | found (place : List ν)
  /-- To a name that is missing, or below a file. -/
  | missing (place : List ν)
  /-- Through more links than may be followed. -/
  | loop
  /-- Through the parent of the root. -/
  | above
  deriving DecidableEq, Repr

variable (t : Tree ν)

/-- Walks a path from the directory `cur`; `follow` takes over where a link stands. -/
def walk (follow : List ν → List (Step ν) → Place ν) : List ν → List (Step ν) → Place ν
  | cur, [] => .found cur
  | cur, .up :: rest => if cur = [] then .above else walk follow cur.dropLast rest
  | cur, .down name :: rest =>
    match t (cur ++ [name]) with
    | none => .missing (cur ++ [name])
    | some .dir => walk follow (cur ++ [name]) rest
    | some .file => if rest = [] then .found (cur ++ [name]) else .missing (cur ++ [name])
    | some (.link target) => follow cur (target ++ rest)

/-- Where a path from the directory `cur` leads, following at most `links` links. -/
def resolve : ℕ → List ν → List (Step ν) → Place ν
  | 0 => walk t fun _ _ => .loop
  | links + 1 => walk t (resolve links)

/-- The path never has more `..` than components before it, counting from depth `depth`. -/
def staysInside : ℕ → List (Step ν) → Bool
  | _, [] => true
  | 0, .up :: _ => false
  | depth + 1, .up :: rest => staysInside depth rest
  | depth, .down _ :: rest => staysInside (depth + 1) rest

/-- The path from `cur` takes no `..` after it has followed a link. -/
def settled [DecidableEq ν] : List ν → List (Step ν) → Bool
  | _, [] => true
  | cur, .up :: rest => settled cur.dropLast rest
  | cur, .down name :: rest =>
    match t (cur ++ [name]) with
    | some .dir => settled (cur ++ [name]) rest
    | some (.link _) => .up ∉ rest
    | _ => true

section

variable {t} [DecidableEq ν]

/-- Walking a part that stays inside and is settled, and then downwards only, does not leave the
root as long as following a link does not. -/
theorem walk_ne_above {follow : List ν → List (Step ν) → Place ν}
    (hfollow : ∀ cur name target below, t (cur ++ [name]) = some (.link target) →
      .up ∉ below → follow cur (target ++ below) ≠ .above)
    {cur : List ν} {path below : List (Step ν)} (hinside : staysInside cur.length path = true)
    (hsettled : settled t cur path = true) (hbelow : .up ∉ below) :
    walk t follow cur (path ++ below) ≠ .above := by
  induction path generalizing cur with
  | nil =>
    -- nothing but names is left: only a link can turn the walk
    rw [List.nil_append]
    clear hinside hsettled
    induction below generalizing cur with
    | nil => simp [walk]
    | cons step below ih =>
      rw [List.mem_cons, not_or] at hbelow
      cases step with
      | up => exact absurd rfl hbelow.1
      | down name =>
        rw [walk]
        split
        · simp
        · exact ih hbelow.2
        · split_ifs <;> simp
        · next target hlink => exact hfollow cur name target below hlink hbelow.2
  | cons step path ih =>
    cases step with
    | up =>
      cases hcur : cur with
      | nil =>
        rw [hcur] at hinside
        simp [staysInside] at hinside
      | cons a rest =>
        rw [List.cons_append, walk, if_neg (List.cons_ne_nil a rest), ← hcur]
        refine ih ?_ hsettled
        rw [hcur, List.length_cons, staysInside] at hinside
        rw [hcur, List.length_dropLast, List.length_cons]
        exact hinside
    | down name =>
      rw [settled] at hsettled
      have hdeeper : staysInside (cur ++ [name]).length path = true := by
        rw [List.length_append, List.length_singleton]
        exact hinside
      rw [List.cons_append, walk]
      split
      · simp
      · next hdir =>
        rw [hdir] at hsettled
        exact ih hdeeper hsettled
      · split_ifs <;> simp
      · next target hlink =>
        rw [hlink] at hsettled
        have hnames : .up ∉ path := by simpa using hsettled
        exact hfollow cur name target (path ++ below) hlink
          fun h => (List.mem_append.mp h).elim hnames hbelow

/-- **Targets that pass the count and are settled never lead above the root.** -/
theorem resolve_ne_above
    (hinside : ∀ dir name target, t (dir ++ [name]) = some (.link target) →
      staysInside dir.length target = true)
    (hsettled : ∀ dir name target, t (dir ++ [name]) = some (.link target) →
      settled t dir target = true)
    {cur : List ν} {path : List (Step ν)} (hpath : staysInside cur.length path = true)
    (hcur : settled t cur path = true) (links : ℕ) : resolve t links cur path ≠ .above := by
  suffices hmain : ∀ links cur (path below : List (Step ν)), staysInside cur.length path = true →
      settled t cur path = true → .up ∉ below → resolve t links cur (path ++ below) ≠ .above by
    have h := hmain links cur path [] hpath hcur List.not_mem_nil
    rwa [List.append_nil] at h
  intro links
  induction links with
  | zero =>
    intro cur path below hpath hcur hbelow
    exact walk_ne_above (by simp) hpath hcur hbelow
  | succ links ih =>
    intro cur path below hpath hcur hbelow
    exact walk_ne_above (fun dir name target below hlink hbelow =>
      ih dir target below (hinside dir name target hlink) (hsettled dir name target hlink) hbelow)
      hpath hcur hbelow

/-- The path from `cur` takes no `..` after a name at which one of the given links stands. -/
def settledFor (isLink : List ν → Bool) : List ν → List (Step ν) → Bool
  | _, [] => true
  | cur, .up :: rest => settledFor isLink cur.dropLast rest
  | cur, .down name :: rest =>
    if isLink (cur ++ [name]) then .up ∉ rest else settledFor isLink (cur ++ [name]) rest

theorem settled_of_settledFor {isLink : List ν → Bool}
    (hlink : ∀ place target, t place = some (.link target) → isLink place = true) {cur : List ν}
    {path : List (Step ν)} (h : settledFor isLink cur path = true) : settled t cur path = true := by
  induction path generalizing cur with
  | nil => rfl
  | cons step path ih =>
    cases step with
    | up => exact ih h
    | down name =>
      rw [settled]
      rw [settledFor] at h
      split
      · next hdir =>
        by_cases hl : isLink (cur ++ [name]) = true
        · rw [if_pos hl] at h
          -- no `..` follows, so the rest is settled wherever it starts
          clear ih hdir hl
          generalize cur ++ [name] = cur'
          induction path generalizing cur' with
          | nil => rfl
          | cons step path ih =>
            have hup : Step.up ≠ step ∧ Step.up ∉ path := by simpa using h
            cases step with
            | up => exact absurd rfl hup.1
            | down name' =>
              rw [settled]
              split
              · exact ih (by simpa using hup.2) _
              · simpa using hup.2
              · rfl
        · rw [if_neg hl] at h
          exact ih h
      · next target hl =>
        rw [if_pos (hlink _ target hl)] at h
        exact h
      · rfl

end

/-! ### Whole filesystems -/

/-- Walks a path from the directory `cur`; the parent of the root is the root. -/
def walkAll (follow : List ν → List (Step ν) → Place ν) : List ν → List (Step ν) → Place ν
  | cur, [] => .found cur
  | cur, .up :: rest => walkAll follow cur.dropLast rest
  | cur, .down name :: rest =>
    match t (cur ++ [name]) with
    | none => .missing (cur ++ [name])
    | some .dir => walkAll follow (cur ++ [name]) rest
    | some .file => if rest = [] then .found (cur ++ [name]) else .missing (cur ++ [name])
    | some (.link target) => follow cur (target ++ rest)

/-- Where a path from the directory `cur` leads in a whole filesystem. -/
def realpath : ℕ → List ν → List (Step ν) → Place ν
  | 0 => walkAll t fun _ _ => .loop
  | links + 1 => walkAll t (realpath links)

/-- The part of a filesystem below a directory. -/
def below (t : Tree ν) (root : List ν) : Tree ν := fun place => t (root ++ place)

/-- A place below a directory as a place of the whole filesystem. -/
def Place.under (root : List ν) : Place ν → Place ν
  | .found place => .found (root ++ place)
  | .missing place => .missing (root ++ place)
  | .loop => .loop
  | .above => .above

/-- The place is not outside the directory. -/
def Place.inside (root : List ν) : Place ν → Prop
  | .found place => root <+: place
  | .missing place => root <+: place
  | .loop => True
  | .above => False

theorem Place.under_inside {root : List ν} {place : Place ν} (h : place ≠ .above) :
    (place.under root).inside root := by
  cases place with
  | found place => exact List.prefix_append root place
  | missing place => exact List.prefix_append root place
  | loop => trivial
  | above => exact absurd rfl h

variable {t} {root : List ν}

theorem walkAll_down (follow : List ν → List (Step ν) → Place ν) (cur : List ν) (name : ν)
    (rest : List (Step ν)) :
    walkAll t follow cur (.down name :: rest) =
      match t (cur ++ [name]) with
      | none => .missing (cur ++ [name])
      | some .dir => walkAll t follow (cur ++ [name]) rest
      | some .file => if rest = [] then .found (cur ++ [name]) else .missing (cur ++ [name])
      | some (.link target) => follow cur (target ++ rest) := rfl

theorem walkAll_under {follow follow' : List ν → List (Step ν) → Place ν}
    (hfollow : ∀ cur path, follow cur path ≠ .above →
      follow' (root ++ cur) path = (follow cur path).under root)
    {cur : List ν} {path : List (Step ν)} (h : walk (below t root) follow cur path ≠ .above) :
    walkAll t follow' (root ++ cur) path = (walk (below t root) follow cur path).under root := by
  induction path generalizing cur with
  | nil => rfl
  | cons step path ih =>
    cases step with
    | up =>
      by_cases hcur : cur = []
      · rw [walk, if_pos hcur] at h
        exact absurd rfl h
      · rw [walk, if_neg hcur] at h ⊢
        rw [walkAll, List.dropLast_append_of_ne_nil hcur]
        exact ih h
    | down name =>
      rw [walk] at h ⊢
      rw [walkAll_down, List.append_assoc]
      cases hnode : below t root (cur ++ [name]) with
      | none =>
        rw [show t (root ++ (cur ++ [name])) = none from hnode]
        rfl
      | some node =>
        rw [show t (root ++ (cur ++ [name])) = some node from hnode]
        rw [hnode] at h
        cases node with
        | dir => exact ih h
        | file =>
          dsimp only
          split_ifs <;> rfl
        | link target => exact hfollow cur (target ++ path) h

/-- **Below a directory that a walk does not leave, it is the walk of the whole filesystem.** -/
theorem realpath_under {links : ℕ} {cur : List ν} {path : List (Step ν)}
    (h : resolve (below t root) links cur path ≠ .above) :
    realpath t links (root ++ cur) path = (resolve (below t root) links cur path).under root := by
  induction links generalizing cur path with
  | zero => exact walkAll_under (fun _ _ _ => rfl) h
  | succ links ih => exact walkAll_under (fun _ _ h => ih h) h

theorem walkAll_loop {follow follow' : List ν → List (Step ν) → Place ν}
    (hfollow : ∀ cur path, follow cur path = .loop ∨ follow' cur path = follow cur path)
    (cur : List ν) (path : List (Step ν)) :
    walkAll t follow cur path = .loop ∨ walkAll t follow' cur path = walkAll t follow cur path := by
  induction path generalizing cur with
  | nil => exact .inr rfl
  | cons step path ih =>
    cases step with
    | up => exact ih _
    | down name =>
      rw [walkAll_down, walkAll_down]
      split
      · exact .inr rfl
      · exact ih _
      · exact .inr rfl
      · exact hfollow _ _

/-- A walk that ends does not depend on how many more links could be followed. -/
theorem realpath_succ (links : ℕ) (cur : List ν) (path : List (Step ν)) :
    realpath t links cur path = .loop ∨
      realpath t (links + 1) cur path = realpath t links cur path := by
  induction links generalizing cur path with
  | zero => exact walkAll_loop (fun _ _ => .inl rfl) cur path
  | succ links ih => exact walkAll_loop ih cur path

theorem realpath_le {links links' : ℕ} (hle : links ≤ links') (cur : List ν)
    (path : List (Step ν)) :
    realpath t links cur path = .loop ∨
      realpath t links' cur path = realpath t links cur path := by
  induction hle with
  | refl => exact .inr rfl
  | step _ ih =>
    rcases ih with ih | ih
    · exact .inl ih
    · rcases realpath_succ _ cur path with h | h
      · exact .inl (ih ▸ h)
      · exact .inr (h.trans ih)

/-- A path that leads inside with some number of links leads inside with any. -/
theorem realpath_inside {links : ℕ} {cur place : List ν} {path : List (Step ν)}
    (h : realpath t links cur path = .found place) (hinside : root <+: place) (links' : ℕ) :
    (realpath t links' cur path).inside root := by
  rcases Nat.le_total links links' with hle | hle
  · rcases realpath_le (t := t) hle cur path with hloop | heq
    · rw [h] at hloop
      cases hloop
    · rw [heq, h]
      exact hinside
  · rcases realpath_le (t := t) hle cur path with hloop | heq
    · rw [hloop]
      trivial
    · rw [← heq, h]
      exact hinside

/-- Names that lead through directories only are the place itself. -/
theorem walkAll_dirs (follow : List ν → List (Step ν) → Place ν) {cur names : List ν}
    (rest : List (Step ν))
    (h : ∀ p, p <+: names → p ≠ [] → t (cur ++ p) = some .dir) :
    walkAll t follow cur (names.map .down ++ rest) = walkAll t follow (cur ++ names) rest := by
  induction names generalizing cur with
  | nil => rw [List.append_nil]; rfl
  | cons name names ih =>
    have hdir : t (cur ++ [name]) = some .dir := h [name] ⟨names, rfl⟩ (by simp)
    rw [List.map_cons, List.cons_append, walkAll_down, hdir]
    dsimp only
    rw [ih, List.append_assoc, List.singleton_append]
    intro p hp hne
    rw [List.append_assoc, List.singleton_append]
    exact h (name :: p) ((List.prefix_cons_inj name).mpr hp) (by simp)

/-- A walk that meets no link ends, if anywhere, where its names say. -/
theorem walkAll_plain {follow : List ν → List (Step ν) → Place ν} {cur names place : List ν}
    (hplain : ∀ p, p <+: names → ∀ target, t (cur ++ p) ≠ some (.link target))
    (h : walkAll t follow cur (names.map .down) = .found place) : place = cur ++ names := by
  induction names generalizing cur with
  | nil =>
    cases h
    rw [List.append_nil]
  | cons name names ih =>
    have hname : ∀ target, t (cur ++ [name]) ≠ some (.link target) := hplain [name] ⟨names, rfl⟩
    rw [List.map_cons, walkAll_down] at h
    split at h
    · cases h
    · rw [ih ?_ h, List.append_assoc, List.singleton_append]
      intro p hp
      rw [List.append_assoc, List.singleton_append]
      exact hplain (name :: p) ((List.prefix_cons_inj name).mpr hp)
    · split_ifs at h with hnames
      cases h
      rw [List.map_eq_nil_iff] at hnames
      rw [hnames]
    · next target hlink => exact absurd hlink (hname target)

theorem realpath_plain {links : ℕ} {names place : List ν}
    (hplain : ∀ p, p <+: names → ∀ target, t p ≠ some (.link target))
    (h : realpath t links [] (names.map .down) = .found place) : place = names := by
  cases links with
  | zero => exact walkAll_plain hplain h
  | succ links => exact walkAll_plain hplain h

end Links

end ArosTools
