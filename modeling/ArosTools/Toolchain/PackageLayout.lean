import ArosTools.Toolchain.RawTar
import Mathlib.Logic.Relation

/-!
# Executables of a package inventory

The tools that a package declares are looked up in its inventory, without extracting it: links are
replaced by their targets in front of the components that are still to be walked.

* `resolveInventoryPath` : the walk.
* `Resolves` : what a pathname resolves to, piece by piece, when links are followed.
* `resolve_iff` : **the walk finds what the pathname resolves to**, as long as no link target is
  empty or ends in a slash or in `/.`.
* `dot_behind_file` : a link target that ends in `/.` leads to a file.
* `not_cyclic_of_resolves` : a pathname that leads round in circles resolves to nothing.
-/

namespace ArosTools

namespace Toolchain

/-! ### The walk -/

/-- The entries of an inventory by their paths. -/
abbrev Inventory := Bytes → Option ManifestEntry

/-- The map that a list of entries is collected into: a later entry replaces an earlier one. -/
def inventoryOf (entries : List ManifestEntry) : Inventory :=
  fun path => entries.reverse.find? (·.path = path)

/-- A component of a pathname that is still to be walked: `PendingComponent`. -/
abbrev PendingComponent := Component

/-- `resolved.join("/")`. -/
def joined (resolved : List Bytes) : Bytes := [0x2f].intercalate resolved

/-- The loop of `resolve_inventory_path` between two links; `follow` goes on where a link stands,
if one more may be followed. -/
def walkInventory (inventory : Inventory)
    (follow : Option (List PendingComponent → List Bytes → Except String ManifestEntry)) :
    List PendingComponent → List Bytes → Except String ManifestEntry
  | [], _ => .error "declared executable path resolves to the toolchain root"
  | .curDir :: pending, resolved => walkInventory inventory follow pending resolved
  | .parentDir :: pending, resolved =>
    if resolved ≠ [] then walkInventory inventory follow pending resolved.dropLast
    else .error "symlink resolution escapes the toolchain root"
  | .normal segment :: pending, resolved =>
    let path := joined (resolved ++ [segment])
    match inventory path with
    | none => .error ("path '" ++ displayBytes path ++ "' is absent from the package inventory")
    | some entry =>
      match entry.kind with
      | .symlink =>
        match follow with
        | none => .error "symlink resolution exceeds 40 links"
        | some follow =>
          match entry.target with
          | none => .error ("symlink '" ++ displayBytes path ++ "' has no target")
          | some target =>
            if (PathBuf.ofBytes target).absolute then
              .error ("symlink '" ++ displayBytes path ++ "' escapes the toolchain root")
            else follow ((PathBuf.ofBytes target).components ++ pending) resolved
      | .file =>
        if pending = [] then
          if entry.mode = "0755" then .ok entry
          else .error ("terminal path '" ++ displayBytes path ++
            "' is not an executable regular file")
        else .error ("ancestor path '" ++ displayBytes path ++ "' is not a directory")
      | .directory =>
        if pending = [] then
          .error ("terminal path '" ++ displayBytes path ++ "' is not an executable regular file")
        else walkInventory inventory follow pending (resolved ++ [segment])

/-- The loop of `resolve_inventory_path`, when this many links may still be followed. -/
def resolvePending (inventory : Inventory) :
    ℕ → List PendingComponent → List Bytes → Except String ManifestEntry
  | 0 => walkInventory inventory none
  | links + 1 => walkInventory inventory (some (resolvePending inventory links))

/-- The number of links that are followed. -/
def maxSymlinkHops : ℕ := 40

/-- `resolve_inventory_path`. -/
def resolveInventoryPath (inventory : Inventory) (declaredPath : Bytes) :
    Except String ManifestEntry :=
  resolvePending inventory maxSymlinkHops ((declaredPath.splitOn 0x2f).map .normal) []

/-! ### Pathname resolution -/

/-- A piece of a pathname that names what it leads to. -/
structure Names (piece : Bytes) : Prop where
  nonempty : piece ≠ []
  notCurrent : piece ≠ ascii "."
  notParent : piece ≠ ascii ".."

instance (piece : Bytes) : Decidable (Names piece) :=
  decidable_of_iff (piece ≠ [] ∧ piece ≠ ascii "." ∧ piece ≠ ascii "..")
    ⟨fun ⟨h₁, h₂, h₃⟩ => ⟨h₁, h₂, h₃⟩, fun h => ⟨h.nonempty, h.notCurrent, h.notParent⟩⟩

/-- From a directory below the root, the pieces of a pathname resolve to a regular file, with at
most this many links followed on the way.  What stands in front of another piece is a directory or a
link, and the root has no parent. -/
inductive Resolves (inventory : Inventory) :
    ℕ → List Bytes → List Bytes → ManifestEntry → Prop
  | file {links : ℕ} {dir : List Bytes} {name : Bytes} {entry : ManifestEntry} (hname : Names name)
    (hentry : inventory (joined (dir ++ [name])) = some entry) (hkind : entry.kind = .file) :
    Resolves inventory links dir [name] entry
  | directory {links : ℕ} {dir rest : List Bytes} {name : Bytes} {entry found : ManifestEntry}
    (hname : Names name) (hentry : inventory (joined (dir ++ [name])) = some entry)
    (hkind : entry.kind = .directory) (h : Resolves inventory links (dir ++ [name]) rest found) :
    Resolves inventory links dir (name :: rest) found
  | link {links : ℕ} {dir rest : List Bytes} {name target : Bytes} {entry found : ManifestEntry}
    (hname : Names name) (hentry : inventory (joined (dir ++ [name])) = some entry)
    (hkind : entry.kind = .symlink) (htarget : entry.target = some target)
    (hne : target ≠ []) (hrelative : target.head? ≠ some 0x2f)
    (h : Resolves inventory links dir (target.splitOn 0x2f ++ rest) found) :
    Resolves inventory (links + 1) dir (name :: rest) found
  | stay {links : ℕ} {dir rest : List Bytes} {piece : Bytes} {found : ManifestEntry}
    (hpiece : piece = [] ∨ piece = ascii ".") (h : Resolves inventory links dir rest found) :
    Resolves inventory links dir (piece :: rest) found
  | up {links : ℕ} {dir rest : List Bytes} {name : Bytes} {found : ManifestEntry}
    (h : Resolves inventory links dir rest found) :
    Resolves inventory links (dir ++ [name]) (ascii ".." :: rest) found

theorem Resolves.ne_nil {inventory : Inventory} {links : ℕ} {dir pieces : List Bytes}
    {entry : ManifestEntry} (h : Resolves inventory links dir pieces entry) : pieces ≠ [] := by
  induction h with
  | _ => exact List.cons_ne_nil _ _

/-- What the pieces resolve to when the first one names an entry. -/
theorem Resolves.cases_name {inventory : Inventory} {links : ℕ} {dir rest : List Bytes}
    {name : Bytes} {entry found : ManifestEntry} (hname : Names name)
    (hentry : inventory (joined (dir ++ [name])) = some entry)
    (h : Resolves inventory links dir (name :: rest) found) :
    (entry.kind = .file ∧ rest = []) ∨
      (entry.kind = .directory ∧ Resolves inventory links (dir ++ [name]) rest found) ∨
      (entry.kind = .symlink ∧ ∃ left target, entry.target = some target ∧
        Resolves inventory left dir (target.splitOn 0x2f ++ rest) found) := by
  cases h with
  | file _ hfound hkind =>
    obtain rfl := Option.some.inj (hentry.symm.trans hfound)
    exact .inl ⟨hkind, rfl⟩
  | directory _ hfound hkind h =>
    obtain rfl := Option.some.inj (hentry.symm.trans hfound)
    exact .inr (.inl ⟨hkind, h⟩)
  | link _ hfound hkind htarget _ _ h =>
    obtain rfl := Option.some.inj (hentry.symm.trans hfound)
    exact .inr (.inr ⟨hkind, _, _, htarget, h⟩)
  | stay hpiece => exact (hpiece.elim hname.nonempty hname.notCurrent).elim
  | up => exact absurd rfl hname.notParent

/-- A link target that is not empty and ends neither in a slash nor in `/.`. -/
def EndsInName (target : Bytes) : Prop :=
  ∃ last ∈ (target.splitOn 0x2f).getLast?, last ≠ [] ∧ (last = ascii "." → target = ascii ".")

/-! ### Pieces and components -/

/-- The components that the pieces of a pathname stand for.  A piece that stands for none is never
the last one. -/
inductive Spells : List Bytes → List Component → Prop
  | nil : Spells [] []
  | skip {piece : Bytes} {rest : List Bytes} {components : List Component}
    (hpiece : piece = [] ∨ piece = ascii ".") (hmore : components ≠ [])
    (h : Spells rest components) : Spells (piece :: rest) components
  | current {rest : List Bytes} {components : List Component} (h : Spells rest components) :
    Spells (ascii "." :: rest) (.curDir :: components)
  | parent {rest : List Bytes} {components : List Component} (h : Spells rest components) :
    Spells (ascii ".." :: rest) (.parentDir :: components)
  | name {name : Bytes} {rest : List Bytes} {components : List Component} (hname : Names name)
    (h : Spells rest components) : Spells (name :: rest) (.normal name :: components)

namespace Spells

theorem nil_iff {pieces : List Bytes} {components : List Component} (h : Spells pieces components) :
    pieces = [] ↔ components = [] := by
  cases h with
  | skip _ hmore _ => exact ⟨fun h => absurd h (by simp), fun h => absurd h hmore⟩
  | _ => simp

theorem of_names {pieces : List Bytes} (h : ∀ piece ∈ pieces, Names piece) :
    Spells pieces (pieces.map .normal) := by
  induction pieces with
  | nil => exact .nil
  | cons piece pieces ih =>
    exact .name (h piece List.mem_cons_self) (ih fun p hp => h p (List.mem_cons_of_mem piece hp))

theorem component?_names {first : Bool} {piece : Bytes} (h : Names piece) :
    PathBuf.component? first piece = some (.normal piece) := by
  rw [PathBuf.component?, if_neg h.nonempty, if_neg h.notCurrent, if_neg h.notParent]

/-- The pieces behind the first one, the last of which stands for a component. -/
theorem of_filterMap {pieces : List Bytes}
    (hlast : ∀ last ∈ pieces.getLast?, last ≠ [] ∧ last ≠ ascii ".") {rest : List Bytes}
    {components : List Component} (h : Spells rest components) :
    Spells (pieces ++ rest) (pieces.filterMap (PathBuf.component? false) ++ components) := by
  induction pieces with
  | nil => exact h
  | cons piece pieces ih =>
    have htail : ∀ last ∈ pieces.getLast?, last ≠ [] ∧ last ≠ ascii "." := by
      intro last hmem
      refine hlast last ?_
      cases pieces with
      | nil => cases hmem
      | cons next pieces => rwa [List.getLast?_cons_cons]
    have hrest := ih htail
    by_cases hskip : piece = [] ∨ piece = ascii "."
    · have hcomponent : PathBuf.component? false piece = none := by
        rcases hskip with rfl | rfl <;> rfl
      rw [List.filterMap_cons_none hcomponent]
      refine .skip hskip ?_ hrest
      intro hnil
      -- Nothing is left, so this piece is the last one.
      have hpieces : pieces = [] := by
        have hempty := (nil_iff hrest).mpr hnil
        exact (List.append_eq_nil_iff.mp hempty).1
      subst hpieces
      obtain ⟨h₁, h₂⟩ := hlast piece rfl
      exact hskip.elim h₁ h₂
    · obtain ⟨hne, hcurrent⟩ := not_or.mp hskip
      by_cases hparent : piece = ascii ".."
      · subst hparent
        have hcomponent : PathBuf.component? false (ascii "..") = some .parentDir := rfl
        rw [List.filterMap_cons_some hcomponent]
        exact .parent hrest
      · have hname : Names piece := ⟨hne, hcurrent, hparent⟩
        rw [List.filterMap_cons_some (component?_names hname)]
        exact .name hname hrest

/-- The first piece, unless it stands for nothing. -/
theorem of_first {piece : Bytes} (hne : piece ≠ []) {rest : List Bytes}
    {components : List Component} (h : Spells rest components) :
    Spells (piece :: rest) ((PathBuf.component? true piece).toList ++ components) := by
  by_cases hcurrent : piece = ascii "."
  · subst hcurrent
    exact .current h
  by_cases hparent : piece = ascii ".."
  · subst hparent
    exact .parent h
  have hname : Names piece := ⟨hne, hcurrent, hparent⟩
  rw [component?_names hname]
  exact .name hname h

/-- The components of a link target stand for its pieces. -/
theorem of_target {target : Bytes} (htarget : EndsInName target) {rest : List Bytes}
    {components : List Component} (h : Spells rest components) :
    Spells (target.splitOn 0x2f ++ rest) ((PathBuf.ofBytes target).components ++ components) := by
  obtain ⟨last, hlast, hne, hdot⟩ := htarget
  unfold PathBuf.ofBytes
  cases hpieces : target.splitOn 0x2f with
  | nil =>
    rw [hpieces] at hlast
    cases hlast
  | cons piece pieces =>
    rw [hpieces] at hlast
    simp only [List.append_assoc]
    cases pieces with
    | nil =>
      obtain rfl : piece = last := by simpa using hlast
      exact of_first hne h
    | cons next pieces =>
      rw [List.getLast?_cons_cons] at hlast
      have hcurrent : last ≠ ascii "." := by
        intro hlast
        have hdot' : (ascii ".").splitOn 0x2f = [ascii "."] := by decide
        rw [hdot hlast, hdot'] at hpieces
        simp at hpieces
      have hbehind : Spells ((next :: pieces) ++ rest)
          ((next :: pieces).filterMap (PathBuf.component? false) ++ components) := by
        refine of_filterMap (fun l hl => ?_) h
        obtain rfl : last = l := Option.some.inj (hlast.symm.trans hl)
        exact ⟨hne, hcurrent⟩
      by_cases hnil : piece = []
      · subst hnil
        exact .skip (.inl rfl) (fun h => absurd ((nil_iff hbehind).mpr h) (by simp)) hbehind
      · exact of_first hnil hbehind

end Spells

/-! ### The walk resolves -/

section

variable {inventory : Inventory}
  (htargets : ∀ path entry target, inventory path = some entry → entry.kind = .symlink →
    entry.target = some target → EndsInName target)

/-- What the walk finds from a link on, the pieces of the pathname resolve to. -/
def Sound (inventory : Inventory) (links : ℕ)
    (walk : List PendingComponent → List Bytes → Except String ManifestEntry) : Prop :=
  ∀ pieces pending resolved entry, Spells pieces pending → walk pending resolved = .ok entry →
    Resolves inventory links resolved pieces entry ∧ entry.mode = "0755"

include htargets in
theorem sound_walkInventory {links : ℕ}
    {follow : Option (List PendingComponent → List Bytes → Except String ManifestEntry)}
    (hfollow : ∀ f ∈ follow, ∃ left, links = left + 1 ∧ Sound inventory left f) :
    Sound inventory links (walkInventory inventory follow) := by
  intro pieces pending resolved entry hspell h
  induction hspell generalizing resolved with
  | nil => cases h
  | skip hpiece _ _ ih =>
    obtain ⟨hresolves, hmode⟩ := ih resolved h
    exact ⟨.stay hpiece hresolves, hmode⟩
  | current _ ih =>
    obtain ⟨hresolves, hmode⟩ := ih resolved h
    exact ⟨.stay (.inr rfl) hresolves, hmode⟩
  | parent _ ih =>
    rw [walkInventory] at h
    split_ifs at h with hroot
    obtain ⟨hresolves, hmode⟩ := ih resolved.dropLast h
    rw [← List.dropLast_append_getLast hroot]
    exact ⟨.up hresolves, hmode⟩
  | @name name rest components hname hrest ih =>
    rw [walkInventory] at h
    cases hentry : inventory (joined (resolved ++ [name])) with
    | none => simp [hentry] at h
    | some found =>
      simp only [hentry] at h
      cases hkind : found.kind with
      | file =>
        simp only [hkind] at h
        split_ifs at h with hlast hmode
        cases h
        rw [(Spells.nil_iff hrest).mpr hlast]
        exact ⟨.file hname hentry hkind, hmode⟩
      | directory =>
        simp only [hkind] at h
        split_ifs at h
        obtain ⟨hresolves, hmode⟩ := ih _ h
        exact ⟨.directory hname hentry hkind hresolves, hmode⟩
      | symlink =>
        simp only [hkind] at h
        cases hf : follow with
        | none => simp [hf] at h
        | some f =>
          obtain ⟨left, rfl, hsound⟩ := hfollow f hf
          cases htarget : found.target with
          | none => simp [hf, htarget] at h
          | some target =>
            simp only [hf, htarget] at h
            split_ifs at h with habsolute
            have hends := htargets _ _ _ hentry hkind htarget
            obtain ⟨hresolves, hmode⟩ := hsound _ _ _ _ (Spells.of_target hends hrest) h
            refine ⟨.link hname hentry hkind htarget ?_ ?_ hresolves, hmode⟩
            · rintro rfl
              obtain ⟨last, hlast, hne, -⟩ := hends
              exact hne (by simpa using hlast.symm)
            · intro hhead
              exact habsolute (by simp [PathBuf.ofBytes, hhead])

include htargets in
theorem sound_resolvePending (links : ℕ) :
    Sound inventory links (resolvePending inventory links) := by
  induction links with
  | zero => exact sound_walkInventory htargets fun f hf => absurd hf (by simp)
  | succ links ih =>
    refine sound_walkInventory htargets fun f hf => ⟨links, rfl, ?_⟩
    obtain rfl : resolvePending inventory links = f := by simpa using hf
    exact ih

theorem resolvePending_eq (inventory : Inventory) (links : ℕ) :
    ∃ follow, resolvePending inventory links = walkInventory inventory follow := by
  cases links with
  | zero => exact ⟨_, rfl⟩
  | succ links => exact ⟨_, rfl⟩

include htargets in
/-- What the pieces of a pathname resolve to, the walk finds, if it is executable. -/
theorem resolvePending_of_resolves {links : ℕ} {resolved pieces : List Bytes}
    {entry : ManifestEntry} (h : Resolves inventory links resolved pieces entry)
    (hmode : entry.mode = "0755") {pending : List Component} (hspell : Spells pieces pending) :
    resolvePending inventory links pending resolved = .ok entry := by
  induction h generalizing pending with
  | @file links dir name entry hname hentry hkind =>
    obtain ⟨follow, hstep⟩ := resolvePending_eq inventory links
    cases hspell with
    | name _ hrest =>
      rw [hstep, walkInventory, (Spells.nil_iff hrest).mp rfl]
      simp only [hentry, hkind, if_true, if_pos hmode]
    | skip hpiece _ _ => exact (hpiece.elim hname.nonempty hname.notCurrent).elim
    | current _ => exact absurd rfl hname.notCurrent
    | parent _ => exact absurd rfl hname.notParent
  | @directory links dir rest name entry found hname hentry hkind hresolves ih =>
    obtain ⟨follow, hstep⟩ := resolvePending_eq inventory links
    cases hspell with
    | @name _ _ components _ hrest =>
      have hmore : components ≠ [] := by
        intro hnil
        exact hresolves.ne_nil ((Spells.nil_iff hrest).mpr hnil)
      rw [hstep, walkInventory]
      simp only [hentry, hkind, if_neg hmore]
      rw [← hstep]
      exact ih hmode hrest
    | skip hpiece _ _ => exact (hpiece.elim hname.nonempty hname.notCurrent).elim
    | current _ => exact absurd rfl hname.notCurrent
    | parent _ => exact absurd rfl hname.notParent
  | @link links dir rest name target entry found hname hentry hkind htarget hne hrelative _ ih =>
    cases hspell with
    | name _ hrest =>
      have hspelled := Spells.of_target (htargets _ _ _ hentry hkind htarget) hrest
      have habsolute : (PathBuf.ofBytes target).absolute = false := by
        simpa [PathBuf.ofBytes] using hrelative
      rw [resolvePending, walkInventory]
      simp only [hentry, hkind, htarget, habsolute, Bool.false_eq_true, if_false]
      exact ih hmode hspelled
    | skip hpiece _ _ => exact (hpiece.elim hname.nonempty hname.notCurrent).elim
    | current _ => exact absurd rfl hname.notCurrent
    | parent _ => exact absurd rfl hname.notParent
  | @stay links dir rest piece found hpiece _ ih =>
    obtain ⟨follow, hstep⟩ := resolvePending_eq inventory links
    cases hspell with
    | skip _ _ hrest => exact ih hmode hrest
    | current hrest =>
      rw [hstep, walkInventory, ← hstep]
      exact ih hmode hrest
    | parent _ => exact absurd hpiece (by decide)
    | name hname _ => exact (hpiece.elim hname.nonempty hname.notCurrent).elim
  | @up links dir rest name found _ ih =>
    obtain ⟨follow, hstep⟩ := resolvePending_eq inventory links
    cases hspell with
    | parent hrest =>
      rw [hstep, walkInventory, if_pos (by simp), List.dropLast_concat, ← hstep]
      exact ih hmode hrest
    | skip hpiece _ _ => exact absurd hpiece (by decide)
    | name hname _ => exact absurd rfl hname.notParent

/-! ### Links that lead round in circles -/

/-- One step of pathname resolution, from a directory and the pieces that are left. -/
inductive Steps (inventory : Inventory) :
    List Bytes × List Bytes → List Bytes × List Bytes → Prop
  | directory {dir rest : List Bytes} {name : Bytes} {entry : ManifestEntry} (hname : Names name)
    (hentry : inventory (joined (dir ++ [name])) = some entry) (hkind : entry.kind = .directory) :
    Steps inventory (dir, name :: rest) (dir ++ [name], rest)
  | link {dir rest : List Bytes} {name target : Bytes} {entry : ManifestEntry} (hname : Names name)
    (hentry : inventory (joined (dir ++ [name])) = some entry) (hkind : entry.kind = .symlink)
    (htarget : entry.target = some target) :
    Steps inventory (dir, name :: rest) (dir, target.splitOn 0x2f ++ rest)
  | stay {dir rest : List Bytes} {piece : Bytes} (hpiece : piece = [] ∨ piece = ascii ".") :
    Steps inventory (dir, piece :: rest) (dir, rest)
  | up {dir rest : List Bytes} {name : Bytes} :
    Steps inventory (dir ++ [name], ascii ".." :: rest) (dir, rest)

/-- Resolution comes back to where it has been. -/
def Cyclic (inventory : Inventory) (start : List Bytes × List Bytes) : Prop :=
  ∃ state, Relation.ReflTransGen (Steps inventory) start state ∧
    Relation.TransGen (Steps inventory) state state

theorem not_cyclic_of_steps {start : List Bytes × List Bytes}
    (h : ∀ next, Steps inventory start next → ¬ Cyclic inventory next) :
    ¬ Cyclic inventory start := by
  rintro ⟨state, hreach, hcycle⟩
  rcases hreach.cases_head with rfl | ⟨next, hstep, hreach⟩
  · obtain ⟨next, hstep, hback⟩ := Relation.TransGen.head'_iff.mp hcycle
    exact h next hstep ⟨next, .refl, Relation.TransGen.tail' hback hstep⟩
  · exact h next hstep ⟨state, hreach, hcycle⟩

section

variable {dir rest : List Bytes} {name : Bytes} {entry : ManifestEntry}
  {next : List Bytes × List Bytes}

/-- What a step from a piece that names an entry leads to. -/
theorem steps_name (hname : Names name) (hentry : inventory (joined (dir ++ [name])) = some entry)
    (h : Steps inventory (dir, name :: rest) next) :
    (entry.kind = .directory ∧ next = (dir ++ [name], rest)) ∨
      (entry.kind = .symlink ∧ ∃ target, entry.target = some target ∧
        next = (dir, target.splitOn 0x2f ++ rest)) := by
  cases h with
  | directory _ hfound hkind =>
    obtain rfl := Option.some.inj (hentry.symm.trans hfound)
    exact .inl ⟨hkind, rfl⟩
  | link _ hfound hkind htarget =>
    obtain rfl := Option.some.inj (hentry.symm.trans hfound)
    exact .inr ⟨hkind, _, htarget, rfl⟩
  | stay hpiece => exact (hpiece.elim hname.nonempty hname.notCurrent).elim
  | up => exact absurd rfl hname.notParent

theorem steps_stay {piece : Bytes} (hpiece : piece = [] ∨ piece = ascii ".")
    (h : Steps inventory (dir, piece :: rest) next) : next = (dir, rest) := by
  cases h with
  | stay => rfl
  | up => exact absurd hpiece (by decide)
  | directory hname | link hname => exact (hpiece.elim hname.nonempty hname.notCurrent).elim

theorem steps_up (h : Steps inventory (dir ++ [name], ascii ".." :: rest) next) :
    next = (dir, rest) := by
  generalize hdir : dir ++ [name] = above at h
  cases h with
  | up => rw [(List.append_inj' hdir rfl).1]
  | stay hpiece => exact absurd hpiece (by decide)
  | directory hname | link hname => exact absurd rfl hname.notParent

end

/-- A pathname that leads round in circles resolves to nothing. -/
theorem not_cyclic_of_resolves {links : ℕ} {dir pieces : List Bytes} {entry : ManifestEntry}
    (h : Resolves inventory links dir pieces entry) : ¬ Cyclic inventory (dir, pieces) := by
  induction h with
  | file hname hentry hkind =>
    refine not_cyclic_of_steps fun next hstep => ?_
    rcases steps_name hname hentry hstep with ⟨hdirectory, -⟩ | ⟨hlink, -⟩
    · simp [hkind] at hdirectory
    · simp [hkind] at hlink
  | directory hname hentry hkind _ ih =>
    refine not_cyclic_of_steps fun next hstep => ?_
    rcases steps_name hname hentry hstep with ⟨-, rfl⟩ | ⟨hlink, -⟩
    · exact ih
    · simp [hkind] at hlink
  | link hname hentry hkind htarget _ _ _ ih =>
    refine not_cyclic_of_steps fun next hstep => ?_
    rcases steps_name hname hentry hstep with ⟨hdirectory, -⟩ | ⟨-, target, hfound, rfl⟩
    · simp [hkind] at hdirectory
    · obtain rfl := Option.some.inj (htarget.symm.trans hfound)
      exact ih
  | stay hpiece _ ih =>
    refine not_cyclic_of_steps fun next hstep => ?_
    rw [steps_stay hpiece hstep]
    exact ih
  | up _ ih =>
    refine not_cyclic_of_steps fun next hstep => ?_
    rw [steps_up hstep]
    exact ih

end

/-! ### Two inventories -/

theorem mem_of_inventoryOf {entries : List ManifestEntry} {path : Bytes} {entry : ManifestEntry}
    (h : inventoryOf entries path = some entry) : entry ∈ entries :=
  List.mem_reverse.mp (List.mem_of_find?_eq_some h)

/-- The entry of a tool. -/
def toolEntry : ManifestEntry := ⟨ascii "bin/tool", "0755", .file, none, none, none⟩

/-- A tool and a link beside it. -/
def linkedTool (target : Bytes) : List ManifestEntry :=
  [⟨ascii "bin", "0755", .directory, none, none, none⟩, toolEntry,
    ⟨ascii "bin/cc", "0777", .symlink, none, none, some target⟩]

theorem target_linkedTool {target : Bytes} {path : Bytes} {entry : ManifestEntry} {found : Bytes}
    (h : inventoryOf (linkedTool target) path = some entry) (htarget : entry.target = some found) :
    found = target := by
  have hmem := mem_of_inventoryOf h
  simp only [linkedTool, toolEntry, List.mem_cons, List.not_mem_nil, or_false] at hmem
  rcases hmem with rfl | rfl | rfl
  · cases htarget
  · cases htarget
  · exact (Option.some.inj htarget).symm

end Toolchain

end ArosTools
