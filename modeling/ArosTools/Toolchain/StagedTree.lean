import ArosTools.Toolchain.RawTar
import Mathlib.Algebra.Order.BigOperators.Group.List

/-!
# Staged trees

A staged tree is what stands below a root: directories, symbolic links, regular files with their
permission bits, and special entries. `StagedTree` is closed under parents by construction.

* `walk` — the recursion that the archive writer and the inventory share: the entries of a
  directory in the order of their names, each directory followed by what stands in it;
* `mem_walk`, `nodup_walk` — a walk visits every entry below its directory once, apart from those
  that are skipped.
-/

namespace ArosTools

namespace Toolchain

/-- What stands at a place: what `symlink_metadata` reports, and the contents. -/
inductive StagedNode where
  | directory
  | symlink (target : Bytes)
  | file (mode : ℕ) (contents : Bytes)
  | special
  deriving DecidableEq, Repr

/-- What stands below a root. -/
structure StagedTree where
  nodes : BTreeMap Path StagedNode
  /-- The root is a directory, and not an entry of its own. -/
  rooted : [] ∉ nodes.keys
  /-- What stands somewhere stands in a directory. -/
  closed : ∀ dir name, dir ++ [name] ∈ nodes.keys → dir = [] ∨ nodes.get dir = some .directory

namespace StagedTree

/-- The relative paths of the entries. -/
def paths (t : StagedTree) : List Path := t.nodes.keys

/-- `symlink_metadata` of a path below the root. -/
def lstat (t : StagedTree) (path : Path) : Option StagedNode :=
  if path = [] then some .directory else t.nodes.get path

/-- `read_dir`, sorted by name. -/
def readDir (t : StagedTree) (dir : Path) : List Name :=
  sortByKey id
    (t.paths.filterMap fun path => if path.dropLast = dir then path.getLast? else none)

/-- No entry lies deeper than this. -/
def depth (t : StagedTree) : ℕ := (t.paths.map List.length).sum

/-- The entries below a directory, in the order in which a recursion over the sorted directories
comes to them. What is skipped is not descended into. -/
def walk (t : StagedTree) (skip : Path → Bool) : ℕ → Path → List Path
  | 0, _ => []
  | fuel + 1, relative =>
    (t.readDir relative).flatMap fun name =>
      let child := relative ++ [name]
      if skip child then []
      else child :: if t.lstat child = some .directory then t.walk skip fuel child else []

/-! ### Paths -/

variable {t : StagedTree} {skip : Path → Bool} {dir p : Path} {name : Name}

theorem ne_nil_of_mem (h : p ∈ t.paths) : p ≠ [] := fun hnil => t.rooted (hnil ▸ h)

theorem lstat_of_ne_nil (h : p ≠ []) : t.lstat p = t.nodes.get p := if_neg h

theorem mem_paths : p ∈ t.paths ↔ p ≠ [] ∧ ∃ node, t.lstat p = some node := by
  constructor
  · intro h
    have hne := ne_nil_of_mem h
    exact ⟨hne, by rw [lstat_of_ne_nil hne]; exact BTreeMap.mem_keys.mp h⟩
  · rintro ⟨hne, hnode⟩
    rw [lstat_of_ne_nil hne] at hnode
    exact BTreeMap.mem_keys.mpr hnode

theorem nodup_paths (t : StagedTree) : t.paths.Nodup := t.nodes.nodup_keys

/-- The directory of an entry is a directory. -/
theorem lstat_parent (h : dir ++ [name] ∈ t.paths) : t.lstat dir = some .directory := by
  by_cases hdir : dir = []
  · rw [hdir]
    rfl
  · rw [lstat_of_ne_nil hdir]
    exact (t.closed dir name h).resolve_left hdir

/-- Every place on the way to an entry is a directory. -/
theorem lstat_of_strict_prefix (h : p ∈ t.paths) (hdir : dir <+: p) (hne : dir ≠ p) :
    t.lstat dir = some .directory := by
  induction p using List.reverseRecOn with
  | nil => exact absurd rfl (ne_nil_of_mem h)
  | append_singleton init last ih =>
    have hinit := lstat_parent h
    rcases List.prefix_concat_iff.mp hdir with heq | hpre
    · exact absurd heq hne
    · by_cases heq : dir = init
      · rw [heq]
        exact hinit
      · refine ih (mem_paths.mpr ⟨?_, _, hinit⟩) hpre heq
        rintro rfl
        exact heq (List.prefix_nil.mp hpre)

theorem length_le_depth (h : p ∈ t.paths) : p.length ≤ t.depth :=
  List.single_le_sum (fun _ _ => Nat.zero_le _) _ (List.mem_map_of_mem h)

@[simp] theorem mem_readDir : name ∈ t.readDir dir ↔ dir ++ [name] ∈ t.paths := by
  rw [readDir, (sortByKey_perm _ _).mem_iff, List.mem_filterMap]
  constructor
  · rintro ⟨p, hp, hlast⟩
    by_cases hdir : p.dropLast = dir
    · rw [if_pos hdir] at hlast
      rw [← hdir, List.dropLast_append_getLast? _ hlast]
      exact hp
    · rw [if_neg hdir] at hlast
      cases hlast
  · intro h
    exact ⟨_, h, by simp⟩

theorem nodup_readDir (t : StagedTree) (dir : Path) : (t.readDir dir).Nodup := by
  refine (sortByKey_perm _ _).nodup_iff.mpr (t.nodup_paths.filterMap ?_)
  intro p q name hp hq
  have hsplit : ∀ {r : Path}, name ∈ (if r.dropLast = dir then r.getLast? else none) →
      r = dir ++ [name] := by
    intro r hr
    by_cases hdir : r.dropLast = dir
    · rw [if_pos hdir] at hr
      rw [← hdir, List.dropLast_append_getLast? _ hr]
    · rw [if_neg hdir] at hr
      cases hr
  rw [hsplit hp, hsplit hq]

/-! ### Walks -/

theorem mem_walk_succ {fuel : ℕ} : p ∈ t.walk skip (fuel + 1) dir ↔
    ∃ name, dir ++ [name] ∈ t.paths ∧ skip (dir ++ [name]) = false ∧
      (p = dir ++ [name] ∨
        t.lstat (dir ++ [name]) = some .directory ∧ p ∈ t.walk skip fuel (dir ++ [name])) := by
  rw [walk, List.mem_flatMap]
  constructor
  · rintro ⟨name, hname, hp⟩
    by_cases hskip : skip (dir ++ [name]) = true
    · simp [hskip] at hp
    · rw [if_neg hskip, List.mem_cons] at hp
      refine ⟨name, mem_readDir.mp hname, by simpa using hskip, hp.imp_right fun hp => ?_⟩
      by_cases hdir : t.lstat (dir ++ [name]) = some .directory
      · rw [if_pos hdir] at hp
        exact ⟨hdir, hp⟩
      · rw [if_neg hdir] at hp
        cases hp
  · rintro ⟨name, hname, hskip, hp⟩
    refine ⟨name, mem_readDir.mpr hname, ?_⟩
    simp only [hskip, Bool.false_eq_true, if_false, List.mem_cons]
    exact hp.imp_right fun ⟨hdir, hp⟩ => by rw [if_pos hdir]; exact hp

/-- **A walk visits what stands below its directory**, unless it is skipped or stands below
something that is. -/
theorem mem_walk {fuel : ℕ} (hfuel : ∀ p ∈ t.paths, dir <+: p → p.length ≤ dir.length + fuel) :
    p ∈ t.walk skip fuel dir ↔ p ∈ t.paths ∧ dir <+: p ∧ dir ≠ p ∧
      ∀ q, q <+: p → dir.length < q.length → skip q = false := by
  induction fuel generalizing dir with
  | zero =>
    refine ⟨fun h => absurd h List.not_mem_nil, fun ⟨hp, hpre, hne, _⟩ => ?_⟩
    exact absurd (hpre.eq_of_length_le (hfuel p hp hpre)) hne
  | succ fuel ih =>
    have hchild : ∀ name, ∀ p ∈ t.paths, dir ++ [name] <+: p →
        p.length ≤ (dir ++ [name]).length + fuel := by
      intro name p hp hpre
      have := hfuel p hp ((List.prefix_append _ _).trans hpre)
      rw [List.length_append, List.length_singleton]
      omega
    rw [mem_walk_succ]
    constructor
    · rintro ⟨name, hname, hskip, rfl | ⟨hdir, hp⟩⟩
      · refine ⟨hname, List.prefix_append _ _, by simp, fun q hq hlength => ?_⟩
        have : q = dir ++ [name] := hq.eq_of_length_le (by simpa using hlength)
        rw [this, hskip]
      · obtain ⟨hpath, hpre, -, hall⟩ := (ih (hchild name)).mp hp
        refine ⟨hpath, (List.prefix_append _ _).trans hpre, ?_, fun q hq hlength => ?_⟩
        · rintro rfl
          exact not_snoc_prefix hpre
        · by_cases hlonger : (dir ++ [name]).length < q.length
          · exact hall q hq hlonger
          · have : q = dir ++ [name] := by
              refine (List.prefix_of_prefix_length_le hq hpre (by omega)).eq_of_length_le ?_
              simpa using hlength
            rw [this, hskip]
    · rintro ⟨hp, ⟨rest, rfl⟩, hne, hall⟩
      cases rest with
      | nil => simp at hne
      | cons name rest =>
        have hsplit : dir ++ name :: rest = (dir ++ [name]) ++ rest := by simp
        have hpre : dir ++ [name] <+: dir ++ name :: rest := hsplit ▸ List.prefix_append _ _
        have hskip : skip (dir ++ [name]) = false := hall _ hpre (by simp)
        by_cases hrest : rest = []
        · subst hrest
          exact ⟨name, hp, hskip, .inl rfl⟩
        · have hstrict : dir ++ [name] ≠ dir ++ name :: rest := by simpa using Ne.symm hrest
          have hdir := lstat_of_strict_prefix hp hpre hstrict
          refine ⟨name, mem_paths.mpr ⟨by simp, _, hdir⟩, hskip, .inr ⟨hdir, ?_⟩⟩
          refine (ih (hchild name)).mpr ⟨hp, hpre, hstrict, fun q hq hlength => hall q hq ?_⟩
          rw [List.length_append] at hlength
          omega

/-- **A walk visits nothing twice.** -/
theorem nodup_walk {fuel : ℕ} (hfuel : ∀ p ∈ t.paths, dir <+: p → p.length ≤ dir.length + fuel) :
    (t.walk skip fuel dir).Nodup := by
  induction fuel generalizing dir with
  | zero => exact List.nodup_nil
  | succ fuel ih =>
    have hchild : ∀ name, ∀ p ∈ t.paths, dir ++ [name] <+: p →
        p.length ≤ (dir ++ [name]).length + fuel := by
      intro name p hp hpre
      have := hfuel p hp ((List.prefix_append _ _).trans hpre)
      rw [List.length_append, List.length_singleton]
      omega
    rw [walk, List.nodup_flatMap]
    refine ⟨fun name _ => ?_, (t.nodup_readDir dir).imp fun {a b} hab => ?_⟩
    · by_cases hskip : skip (dir ++ [name]) = true
      · simp [hskip]
      · rw [if_neg hskip, List.nodup_cons]
        by_cases hdir : t.lstat (dir ++ [name]) = some .directory
        · rw [if_pos hdir]
          exact ⟨fun h => ((mem_walk (hchild name)).mp h).2.2.1 rfl, ih (hchild name)⟩
        · rw [if_neg hdir]
          exact ⟨List.not_mem_nil, List.nodup_nil⟩
    · -- What is visited through a name begins with that name.
      have hbegins : ∀ {c : Name} {p : Path}, p ∈ (if skip (dir ++ [c]) = true then []
          else (dir ++ [c]) :: if t.lstat (dir ++ [c]) = some .directory then
            t.walk skip fuel (dir ++ [c]) else []) → dir ++ [c] <+: p := by
        intro c p hp
        by_cases hskip : skip (dir ++ [c]) = true
        · simp [hskip] at hp
        · rw [if_neg hskip, List.mem_cons] at hp
          rcases hp with rfl | hp
          · exact List.prefix_refl _
          · by_cases hdir : t.lstat (dir ++ [c]) = some .directory
            · rw [if_pos hdir] at hp
              exact ((mem_walk (hchild c)).mp hp).2.1
            · rw [if_neg hdir] at hp
              cases hp
      intro p hpa hpb
      have heq : dir ++ [a] = dir ++ [b] :=
        (List.prefix_of_prefix_length_le (hbegins hpa) (hbegins hpb) (by simp)).eq_of_length
          (by simp)
      exact hab (by simpa using heq)

end StagedTree

end Toolchain

end ArosTools
