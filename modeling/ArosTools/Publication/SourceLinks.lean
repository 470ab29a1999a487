import ArosTools.Fs.Leads
import ArosTools.Program.Except
import ArosTools.Publication.SourceTree

/-!
# Links in measured source trees

The measured nodes as a tree in which paths lead somewhere, and what the link resolution of
`ArosTools.Publication.SourceTree` finds in it.

* `sourceTreeLinkTarget_leads` : a link that is resolved leads there.
* `measureSourceTreePass_inventory` : what a measurement lists.
* `source_links_confined` : **links of an accepted tree lead to measured places**, and show nothing
  that the measurement left out.
-/

namespace ArosTools

namespace SourceTree

open Links (Piece Entry Leads Walk)

/-! ### Paths and keys -/

section Paths

variable {path parent : Path} {name : Name} {generated : Generated}

theorem Plain.snoc (h : Plain path) (hname : name ≠ [] ∧ 0x2f ∉ name) : Plain (path ++ [name]) := by
  intro n hn
  rcases List.mem_append.mp hn with hn | hn
  · exact h n hn
  · exact List.mem_singleton.mp hn ▸ hname

theorem Plain.dropLast (h : Plain path) : Plain path.dropLast :=
  fun n hn => h n (List.mem_of_mem_dropLast hn)

theorem sourceTreePathKey_ne_nil (h : Plain path) (hne : path ≠ []) :
    sourceTreePathKey path ≠ [] := by
  cases path with
  | nil => exact absurd rfl hne
  | cons name rest =>
    have hname := (h name (by simp)).1
    cases rest with
    | nil => simpa [sourceTreePathKey, List.intercalate] using hname
    | cons next rest => simp [sourceTreePathKey, List.intercalate, hname]

/-- A path is found again in its key. -/
theorem sourceTreePathComponents_key (h : Plain path) :
    sourceTreePathComponents (sourceTreePathKey path) = path := by
  by_cases hne : path = []
  · rw [hne]
    rfl
  · rw [sourceTreePathComponents, if_neg (sourceTreePathKey_ne_nil h hne)]
    exact List.splitOn_intercalate _ (fun name hname => (h name hname).2) hne

theorem sourceTreePathKey_inj {p q : Path} (hp : Plain p) (hq : Plain q)
    (h : sourceTreePathKey p = sourceTreePathKey q) : p = q := by
  rw [← sourceTreePathComponents_key hp, h, sourceTreePathComponents_key hq]

/-- The key of a path below another begins with the other's. -/
theorem sourcePathIsAncestor_append (path rest : Path) :
    sourcePathIsAncestor (sourceTreePathKey path) (sourceTreePathKey (path ++ rest)) = true := by
  by_cases hne : path = []
  · rw [hne]
    rfl
  · induction rest using List.reverseRecOn with
    | nil => simp [sourcePathIsAncestor]
    | append_singleton rest name ih =>
      have hkey : sourceTreePathKey (path ++ (rest ++ [name])) =
          sourceTreePathKey (path ++ rest) ++ 0x2f :: name := by
        rw [← List.append_assoc]
        exact SlashPath.intercalate_concat (by simp [hne]) name
      simp only [sourcePathIsAncestor, Bool.or_eq_true, decide_eq_true_eq,
        List.isPrefixOf_iff_prefix] at ih ⊢
      rw [hkey]
      rcases ih with (hnil | heq) | hpre
      · exact .inl (.inl hnil)
      · exact .inr ⟨name, by rw [← heq, List.append_assoc]; rfl⟩
      · exact .inr (hpre.trans (List.prefix_append _ _))

theorem agree_iff_above {p q : Path} (h : q.length ≤ p.length) :
    agree p q = true ↔ q <+: p := by
  induction p generalizing q with
  | nil =>
    cases List.length_eq_zero_iff.mp (Nat.le_zero.mp h)
    simp [agree]
  | cons a p ih =>
    cases q with
    | nil => simp [agree]
    | cons b q =>
      have ih := ih (q := q) (by simpa using h)
      simp only [agree, List.zip_cons_cons, List.all_cons, Bool.and_eq_true, decide_eq_true_eq,
        List.cons_prefix_cons] at ih ⊢
      rw [ih]
      exact and_congr_left' eq_comm

theorem agree_comm (p q : Path) : agree p q = agree q p := by
  induction p generalizing q with
  | nil => cases q <;> rfl
  | cons a p ih =>
    cases q with
    | nil => rfl
    | cons b q =>
      have ih := ih q
      simp only [agree, List.zip_cons_cons, List.all_cons] at ih ⊢
      rw [ih]
      exact congrArg (· && _) (decide_eq_decide.mpr eq_comm)

/-- What is left out: a path through `.git`, or at or below the generated subtree. -/
theorem sourceTreePathIsExcluded_iff :
    sourceTreePathIsExcluded path generated = true ↔
      ascii ".git" ∈ path ∨ ∃ g, generated = some g ∧ g.1 <+: path := by
  rw [sourceTreePathIsExcluded, Bool.or_eq_true, List.any_eq_true]
  refine or_congr ?_ ?_
  · simp
  · cases generated with
    | none => simp
    | some g =>
      simp only [Option.any_some, Bool.and_eq_true, decide_eq_true_eq, Option.some.injEq,
        exists_eq_left']
      constructor
      · exact fun h => (agree_iff_above h.1).mp h.2
      · exact fun h => ⟨h.length_le, (agree_iff_above h.length_le).mpr h⟩

theorem excluded_of_above {p q : Path} (h : sourceTreePathIsExcluded p generated = true)
    (hpq : p <+: q) : sourceTreePathIsExcluded q generated = true := by
  rw [sourceTreePathIsExcluded_iff] at h ⊢
  exact h.imp (fun hmem => hpq.subset hmem) fun ⟨g, hg, hpre⟩ => ⟨g, hg, hpre.trans hpq⟩

end Paths

/-! ### The measured nodes as a tree -/

/-- A component of a link target. -/
def piece (component : Bytes) : Piece Name :=
  if component = [] ∨ component = ascii "." then .here
  else if component = ascii ".." then .up
  else .down component

/-- The components of a link target. -/
def pieces (target : Bytes) : List (Piece Name) := (target.splitOn 0x2f).map piece

/-- What a node is to a path that comes by. -/
def entryOf (node : SourceTreeNode) : Entry Name :=
  match node.snapshot.kind with
  | .file => .file
  | .directory => .dir
  | .symlink => .link (pieces (node.linkTarget.getD []))

open Classical in
/-- What stands at a path among the measured nodes; the root is a directory. -/
noncomputable def inventory (nodes : Nodes) (path : Path) : Option (Entry Name) :=
  if path = [] then some .dir
  else if Plain path then (nodes.get (sourceTreePathKey path)).map entryOf
  else none

/-- A path that is not left out. -/
def Allowed (generated : Generated) (path : Path) : Prop :=
  sourceTreePathIsExcluded path generated = false

theorem allowed_nil {generated : Generated} : Allowed generated [] := by
  refine Bool.eq_false_iff.mpr fun hexcluded => ?_
  rcases sourceTreePathIsExcluded_iff.mp hexcluded with hgit | ⟨g, -, hpre⟩
  · cases hgit
  · exact g.2.1 (List.prefix_nil.mp hpre)

section Inventory

variable {nodes : Nodes} {generated : Generated} {path current base place : Path}
  {linkPath component target : Bytes} {node : SourceTreeNode}

theorem inventory_eq_map (h : Plain path) (hne : path ≠ []) :
    inventory nodes path = (nodes.get (sourceTreePathKey path)).map entryOf := by
  rw [inventory, if_neg hne, if_pos h]

theorem plain_of_inventory {entry : Entry Name} (h : inventory nodes path = some entry) :
    Plain path := by
  unfold inventory at h
  split at h
  · rename_i hnil
    rw [hnil]
    exact nofun
  · split at h
    · assumption
    · cases h

theorem entryOf_dir (h : node.snapshot.kind = .directory) : entryOf node = .dir := by
  rw [entryOf, h]

theorem entryOf_ne_link (h : node.snapshot.kind ≠ .symlink) (target : List (Piece Name)) :
    entryOf node ≠ .link target := by
  unfold entryOf
  cases hkind : node.snapshot.kind with
  | file => nofun
  | directory => nofun
  | symlink => exact absurd hkind h

theorem ensureSourceDirectory_ok (hplain : Plain path)
    (h : ensureSourceDirectory path nodes linkPath = .ok ()) :
    inventory nodes path = some .dir := by
  unfold ensureSourceDirectory at h
  split at h
  · rename_i hdir
    by_cases hne : path = []
    · rw [inventory, if_pos hne]
    · obtain ⟨node, hnode, hkind⟩ := (Option.any_eq_true _ _).mp (hdir.resolve_left hne)
      rw [inventory_eq_map hplain hne, hnode, Option.map_some, entryOf_dir (of_decide_eq_true hkind)]
  · cases h

theorem lift_eq_ok {α : Type} {x : Except IoError α} {a : α} : lift x = .ok a ↔ x = .ok a := by
  cases x with
  | error e => exact ⟨nofun, nofun⟩
  | ok b => exact ⟨fun h => congrArg _ (Except.ok.inj h), fun h => congrArg _ (Except.ok.inj h)⟩

theorem lift_returns {α : Type} (x : Except IoError α) : (lift x).Returns := by
  cases x with
  | error e => exact Checked.returns_fail e
  | ok a => exact Checked.returns_ok a

theorem checkSourceName_ok {name : Name} (h : checkSourceName name = .ok ()) :
    name ≠ [] ∧ 0x2f ∉ name := by
  unfold checkSourceName at h
  split at h
  · cases h
  · rename_i hsafe
    simp only [not_or] at hsafe
    refine ⟨hsafe.1, fun hmem => hsafe.2.2.2.1 ?_⟩
    exact List.any_eq_true.mpr ⟨0x2f, hmem, by decide⟩

/-- What following a link must find. -/
def Follows (nodes : Nodes) (generated : Generated) (follow : Bytes → Checked IoError Bytes) :
    Prop :=
  ∀ parent name place, Plain (parent ++ [name]) →
    follow (sourceTreePathKey (parent ++ [name])) = .ok place →
    ∃ node target mid, nodes.get (sourceTreePathKey (parent ++ [name])) = some node ∧
      node.linkTarget = some target ∧ Plain mid ∧ place = sourceTreePathKey mid ∧
      (mid = [] ∨ (nodes.get (sourceTreePathKey mid)).isSome) ∧
      Leads (inventory nodes) (Allowed generated) parent (pieces target) mid

variable {follow : Bytes → Checked IoError Bytes}

/-- One component of a target, for every way the rest may lead on. -/
theorem resolveComponent_leads (hfollow : Follows nodes generated follow) {next : Path}
    (hcurrent : Plain current)
    (h : resolveComponent nodes generated follow linkPath current component = .ok next) :
    Plain next ∧ ∀ rest place, Leads (inventory nodes) (Allowed generated) next rest place →
      Leads (inventory nodes) (Allowed generated) current (piece component :: rest) place := by
  unfold resolveComponent at h
  obtain ⟨⟨⟩, hdir, h⟩ := Checked.bind_eq_ok.mp h
  have hdir := ensureSourceDirectory_ok hcurrent (lift_eq_ok.mp hdir)
  split at h
  · rename_i hhere
    cases h
    rw [piece, if_pos hhere]
    exact ⟨hcurrent, fun rest place hrest => .here hdir hrest⟩
  rename_i hhere
  split at h
  · rename_i hup
    rw [piece, if_neg hhere, if_pos hup]
    split at h
    · cases h
    · rename_i hne
      obtain ⟨⟨⟩, -, h⟩ := Checked.bind_eq_ok.mp h
      cases h
      refine ⟨hcurrent.dropLast, fun rest place hrest => ?_⟩
      rw [← List.dropLast_append_getLast hne] at hdir ⊢
      exact .up hdir hrest
  · rename_i hup
    rw [piece, if_neg hhere, if_neg hup]
    obtain ⟨⟨⟩, hname, h⟩ := Checked.bind_eq_ok.mp h
    have hplain := hcurrent.snoc (checkSourceName_ok (lift_eq_ok.mp hname))
    dsimp only at h
    split at h
    · cases h
    · rename_i hallowed
      have hallowed : Allowed generated (current ++ [component]) := Bool.eq_false_iff.mpr hallowed
      obtain ⟨node, hnode, h⟩ := Checked.bind_eq_ok.mp h
      have hentry : inventory nodes (current ++ [component]) = some (entryOf node) := by
        rw [inventory_eq_map hplain (by simp), Checked.okOr_eq_ok.mp hnode, Option.map_some]
      split at h
      · rename_i hlink
        obtain ⟨found, hfound, h⟩ := Checked.bind_eq_ok.mp h
        cases h
        obtain ⟨node', target, mid, hnode', htarget, hmid, rfl, -, hleads⟩ :=
          hfollow current component found hplain hfound
        cases (Checked.okOr_eq_ok.mp hnode).symm.trans hnode'
        rw [sourceTreePathComponents_key hmid]
        refine ⟨hmid, fun rest place hrest => .link hdir hallowed ?_ hleads hrest⟩
        rw [hentry, entryOf, hlink, htarget, Option.getD_some]
      · rename_i hplainNode
        cases h
        exact ⟨hplain, fun rest place hrest =>
          .down hdir hallowed hentry (entryOf_ne_link hplainNode) hrest⟩

/-- A target that is resolved leads there. -/
theorem resolveWith_leads (hfollow : Follows nodes generated follow) (hbase : Plain base)
    (h : resolveWith nodes generated follow linkPath base target = .ok place) :
    Plain place ∧ (place = [] ∨ (nodes.get (sourceTreePathKey place)).isSome) ∧
      Leads (inventory nodes) (Allowed generated) base (pieces target) place := by
  unfold resolveWith at h
  obtain ⟨⟨⟩, -, h⟩ := Checked.bind_eq_ok.mp h
  obtain ⟨⟨⟩, -, h⟩ := Checked.bind_eq_ok.mp h
  obtain ⟨current, hcurrent, h⟩ := Checked.bind_eq_ok.mp h
  obtain ⟨⟨⟩, hnode, h⟩ := Checked.bind_eq_ok.mp h
  cases h
  -- what has been read of the target leads from the base to the current place
  obtain ⟨hplain, hleads⟩ := Except.foldlM_ok hcurrent
    (motive := fun done current => Plain current ∧ ∀ rest place,
      Leads (inventory nodes) (Allowed generated) current rest place →
      Leads (inventory nodes) (Allowed generated) base (done.map piece ++ rest) place)
    ⟨hbase, fun rest place hrest => hrest⟩ fun done component current next hdone hstep => by
      obtain ⟨hnext, hrest⟩ := resolveComponent_leads hfollow hdone.1 hstep
      refine ⟨hnext, fun rest place h => ?_⟩
      rw [List.map_append, List.append_assoc]
      exact hdone.2 _ _ (hrest _ _ h)
  refine ⟨hplain, ?_, ?_⟩
  · have hnode := lift_eq_ok.mp hnode
    unfold ensureSourceInventoryNode at hnode
    split at hnode
    · assumption
    · cases hnode
  · have hall := hleads [] place (.done place)
    rwa [List.append_nil] at hall

theorem sourceTreeLinkTarget_follows (fuel : ℕ) (activeLinks : BTreeSet Bytes) :
    Follows nodes generated (sourceTreeLinkTarget nodes generated fuel activeLinks) := by
  induction fuel generalizing activeLinks with
  | zero => exact fun parent name place _ h => nomatch h
  | succ fuel ih =>
    intro parent name place hplain h
    unfold sourceTreeLinkTarget at h
    split at h
    · cases h
    split at h
    · cases h
    obtain ⟨node, hnode, h⟩ := Checked.bind_eq_ok.mp h
    obtain ⟨target, htarget, h⟩ := Checked.bind_eq_ok.mp h
    obtain ⟨⟨⟩, -, h⟩ := Checked.bind_eq_ok.mp h
    obtain ⟨resolved, hresolved, h⟩ := Checked.bind_eq_ok.mp h
    cases h
    rw [sourceTreePathComponents_key hplain, List.dropLast_concat] at hresolved
    obtain ⟨hmid, hpresent, hleads⟩ := resolveWith_leads (ih _)
      (by simpa using hplain.dropLast) hresolved
    exact ⟨node, target, resolved, Checked.okOr_eq_ok.mp hnode, Checked.okOr_eq_ok.mp htarget,
      hmid, rfl, hpresent, hleads⟩

end Inventory

/-! ### Termination -/

section Termination

variable {nodes : Nodes} {generated : Generated} {follow : Bytes → Checked IoError Bytes}

theorem resolveComponent_returns (hfollow : ∀ link, (follow link).Returns) (linkPath : Bytes)
    (current : Path) (component : Bytes) :
    (resolveComponent nodes generated follow linkPath current component).Returns := by
  unfold resolveComponent
  refine (lift_returns _).bind fun _ _ => ?_
  split
  · exact Checked.returns_pure _
  split
  · split
    · exact Checked.returns_fail _
    · exact (lift_returns _).bind fun _ _ => Checked.returns_pure _
  refine (lift_returns _).bind fun _ _ => ?_
  dsimp only
  split
  · exact Checked.returns_fail _
  refine (Checked.returns_okOr _ _).bind fun node _ => ?_
  split
  · exact (hfollow _).bind fun _ _ => Checked.returns_pure _
  · exact Checked.returns_pure _

theorem resolveWith_returns (hfollow : ∀ link, (follow link).Returns) (linkPath : Bytes)
    (base : Path) (target : Bytes) :
    (resolveWith nodes generated follow linkPath base target).Returns := by
  refine (lift_returns _).bind fun _ _ => (lift_returns _).bind fun _ _ => ?_
  refine (Checked.Returns.foldlM (resolveComponent_returns hfollow linkPath) _ _).bind fun _ _ => ?_
  exact (lift_returns _).bind fun _ _ => Checked.returns_pure _

/-- Each call has one more active link, and their number is limited. -/
theorem sourceTreeLinkTarget_returns {fuel : ℕ} {activeLinks : BTreeSet Bytes} (hfuel : 0 < fuel)
    (hlimit : sourceTreeMaxDepth < fuel + activeLinks.len) (linkPath : Bytes) :
    (sourceTreeLinkTarget nodes generated fuel activeLinks linkPath).Returns := by
  induction fuel generalizing activeLinks linkPath with
  | zero => exact absurd hfuel (lt_irrefl 0)
  | succ fuel ih =>
    unfold sourceTreeLinkTarget
    split
    · exact Checked.returns_fail _
    rename_i hactive
    split
    · exact Checked.returns_fail _
    rename_i hdepth
    refine (Checked.returns_okOr _ _).bind fun node _ => ?_
    refine (Checked.returns_okOr _ _).bind fun target _ => ?_
    refine (lift_returns _).bind fun _ _ => ?_
    have hlen := BTreeSet.len_insert hactive
    refine (resolveWith_returns (fun link => ih ?_ ?_ link) _ _ _).bind fun _ _ =>
      Checked.returns_pure _
    · omega
    · omega

section Digest

variable {sha256 : Bytes → Sha256Digest} {children : BTreeMap Bytes (List Bytes)}
  {resolvedLinks : BTreeMap Bytes Bytes}

theorem digestBody_returns
    {digest : Bytes → Cached → Checked IoError (Sha256Digest × Cached)} {path : Bytes}
    (hdigest : path = [] ∨ path ∈ nodes.keys → ∀ path cached, (digest path cached).Returns)
    (cached : Cached) :
    (digestBody sha256 nodes children resolvedLinks digest path cached).Returns := by
  unfold digestBody
  split
  · rename_i hdir
    have hpresent : path = [] ∨ path ∈ nodes.keys := hdir.imp_right fun h => by
      obtain ⟨node, hnode, -⟩ := (Option.any_eq_true _ _).mp h
      exact BTreeMap.mem_keys.mpr ⟨node, hnode⟩
    have hchild : ∀ s childPath, (digestChild nodes digest s childPath).Returns := fun s child =>
      (Checked.returns_okOr _ _).bind fun _ _ =>
        (hdigest hpresent _ _).bind fun _ _ => Checked.returns_pure _
    exact (Checked.Returns.foldlM hchild _ _).bind fun _ _ => Checked.returns_pure _
  · refine (Checked.returns_okOr _ _).bind fun node hnode => ?_
    have hpresent : path ∈ nodes.keys := BTreeMap.mem_keys.mpr ⟨node, Checked.okOr_eq_ok.mp hnode⟩
    split
    · exact (Checked.returns_okOr _ _).bind fun _ _ => Checked.returns_pure _
    · refine (Checked.returns_okOr _ _).bind fun _ _ => (Checked.returns_okOr _ _).bind fun _ _ => ?_
      exact (hdigest (.inr hpresent) _ _).bind fun _ _ => Checked.returns_pure _
    · exact Checked.returns_fail _

/-- The active paths are the root and measured ones, each once. -/
theorem sourceTreeNodeDigest_returns {fuel : ℕ} {active : BTreeSet Bytes}
    (hactive : ∀ path ∈ active, path = [] ∨ path ∈ nodes.keys)
    (hfuel : nodes.len + 2 ≤ fuel + active.len) (path : Bytes) (cached : Cached) :
    (sourceTreeNodeDigest sha256 nodes children resolvedLinks fuel active path cached).Returns := by
  induction fuel generalizing active path cached with
  | zero =>
    have hsubset : active.elems ⊆ [] :: nodes.keys := fun p hp => List.mem_cons.mpr (hactive p hp)
    have hle := (active.nodup.subperm hsubset).length_le
    rw [List.length_cons, BTreeMap.keys, List.length_map] at hle
    unfold BTreeMap.len BTreeSet.len at hfuel
    omega
  | succ fuel ih =>
    unfold sourceTreeNodeDigest
    split
    · exact Checked.returns_pure _
    split
    · exact Checked.returns_fail _
    rename_i hpath
    have hlen := BTreeSet.len_insert hpath
    refine (digestBody_returns (fun hpresent child cached => ih ?_ (by omega) child cached)
      cached).bind fun _ _ => Checked.returns_pure _
    intro p hp
    rcases BTreeSet.mem_insert.mp hp with hp | rfl
    · exact hactive p hp
    · exact hpresent

end Digest

/-- The check of a measured tree returns. -/
theorem finalizeSourceTreePass_returns (sha256 : Bytes → Sha256Digest) (pass : SourceTreePass)
    (generated : Generated) : (finalizeSourceTreePass sha256 pass generated).Returns := by
  unfold finalizeSourceTreePass
  have hlinks : (resolveLinks pass generated).Returns := .foldlM (fun resolved entry => by
    split
    · refine (sourceTreeLinkTarget_returns (by decide) ?_ _).bind fun _ _ => Checked.returns_pure _
      omega
    · exact Checked.returns_pure _) _ _
  refine hlinks.bind fun resolved _ => ?_
  have hchecked : (checkLinks pass resolved).Returns := .forM fun entry _ => by
    split
    · exact Checked.returns_fail _
    · exact Checked.returns_pure _
  refine hchecked.bind fun _ _ => ?_
  have hdigests : (digestLinks sha256 pass resolved).Returns := .foldlM (fun cached entry => by
    split
    · refine (sourceTreeNodeDigest_returns ?_ (by omega) _ _).bind fun _ _ => Checked.returns_pure _
      exact fun path hpath => absurd hpath BTreeSet.notMem_new
    · exact Checked.returns_pure _) _ _
  exact hdigests.bind fun _ _ => Checked.returns_pure _

end Termination

/-! ### Accepted passes -/

/-- What a measurement lists: nodes at paths that are not left out, and roots of what is. -/
structure Inventory (pass : SourceTreePass) (generated : Generated) : Prop where
  nodes : ∀ key ∈ pass.nodes.keys, ∃ path, path ≠ [] ∧ Plain path ∧
    key = sourceTreePathKey path ∧ Allowed generated path
  roots : ∀ key ∈ pass.excludedRoots, ∃ path, Plain path ∧ key = sourceTreePathKey path ∧
    sourceTreePathIsExcluded path generated = true

section Accepted

variable {pass : SourceTreePass} {generated : Generated}

/-- Each link of an accepted pass was resolved. -/
theorem resolveLinks_ok {resolved : BTreeMap Bytes Bytes}
    (h : resolveLinks pass generated = .ok resolved) {key : Bytes} {node : SourceTreeNode}
    (hnode : pass.nodes.get key = some node) (hkind : node.snapshot.kind = .symlink) :
    ∃ target, resolved.get key = some target ∧
      sourceTreeLinkTarget pass.nodes generated (sourceTreeMaxDepth + 1) .new key = .ok target := by
  have hall := Except.foldlM_ok h
    (motive := fun done resolved => ∀ entry ∈ done, entry.2.snapshot.kind = .symlink →
      ∃ target, resolved.get entry.1 = some target ∧
        sourceTreeLinkTarget pass.nodes generated (sourceTreeMaxDepth + 1) .new entry.1 =
          .ok target) nofun
    fun done entry resolved next hdone hstep => by
      split at hstep
      · obtain ⟨target, htarget, hnext⟩ := Checked.bind_eq_ok.mp hstep
        cases hnext
        intro other hother hkind
        by_cases heq : other.1 = entry.1
        · exact ⟨target, by rw [BTreeMap.get_insert, if_pos heq], heq ▸ htarget⟩
        · have hmem : other ∈ done := by
            rcases List.mem_append.mp hother with hdone | hlast
            · exact hdone
            · exact absurd (congrArg Prod.fst (List.mem_singleton.mp hlast)) heq
          obtain ⟨found, hfound, hlink⟩ := hdone other hmem hkind
          exact ⟨found, by rw [BTreeMap.get_insert, if_neg heq, hfound], hlink⟩
      · rename_i hplain
        cases hstep
        intro other hother hkind
        rcases List.mem_append.mp hother with hmem | hlast
        · exact hdone other hmem hkind
        · rw [List.mem_singleton.mp hlast] at hkind
          exact absurd hkind hplain
  exact hall (key, node) (BTreeMap.get_eq_some.mp hnode) hkind

theorem checkLinks_ok {resolved : BTreeMap Bytes Bytes} (h : checkLinks pass resolved = .ok ())
    {key target : Bytes} (htarget : resolved.get key = some target) :
    exposes pass target = false := by
  have hentry := Except.forM_ok h (key, target) (BTreeMap.get_eq_some.mp htarget)
  dsimp only at hentry
  split at hentry
  · cases hentry
  · rename_i hexposes
    exact Bool.eq_false_iff.mpr hexposes

/-- A place that shows nothing that was left out: in a directory that contains nothing of it, or a
measured node that is no directory. -/
def Shielded (pass : SourceTreePass) (place : Path) : Prop :=
  (∃ above, above <+: place ∧ inventory pass.nodes above = some .dir ∧
    exposes pass (sourceTreePathKey above) = false) ∨
  (pass.nodes.get (sourceTreePathKey place)).isSome ∧ inventory pass.nodes place ≠ some .dir

theorem exists_of_inventory_link {place : Path} {target : List (Piece Name)}
    (h : inventory pass.nodes place = some (.link target)) :
    ∃ node, pass.nodes.get (sourceTreePathKey place) = some node ∧
      node.snapshot.kind = .symlink ∧ target = pieces (node.linkTarget.getD []) := by
  have hplain := plain_of_inventory h
  have hne : place ≠ [] := by
    rintro rfl
    cases h
  rw [inventory_eq_map hplain hne] at h
  obtain ⟨node, hnode, hentry⟩ := Option.map_eq_some_iff.mp h
  refine ⟨node, hnode, ?_⟩
  unfold entryOf at hentry
  cases hkind : node.snapshot.kind with
  | file => rw [hkind] at hentry; cases hentry
  | directory => rw [hkind] at hentry; cases hentry
  | symlink => rw [hkind] at hentry; cases hentry; exact ⟨rfl, rfl⟩

/-- What a link of an accepted pass leads to is shielded. -/
theorem shielded_of_leads {resolved : BTreeMap Bytes Bytes}
    (hresolved : resolveLinks pass generated = .ok resolved)
    (hchecked : checkLinks pass resolved = .ok ()) {cur place : Path} {name : Name}
    {target : List (Piece Name)} (hlink : inventory pass.nodes (cur ++ [name]) = some (.link target))
    (hleads : Leads (inventory pass.nodes) (Allowed generated) cur target place) :
    Shielded pass place := by
  obtain ⟨node, hnode, hkind, rfl⟩ := exists_of_inventory_link hlink
  obtain ⟨found, hfound, hok⟩ := resolveLinks_ok hresolved hnode hkind
  obtain ⟨node', text, mid, hnode', htext, -, rfl, hpresent, hmidLeads⟩ :=
    sourceTreeLinkTarget_follows _ _ cur name found (plain_of_inventory hlink) hok
  cases hnode.symm.trans hnode'
  rw [htext, Option.getD_some] at hleads
  cases hleads.unique hmidLeads
  have hexposes := checkLinks_ok hchecked hfound
  by_cases hdir : inventory pass.nodes place = some .dir
  · exact .inl ⟨place, List.prefix_rfl, hdir, hexposes⟩
  · refine .inr ⟨hpresent.resolve_left ?_, hdir⟩
    rintro rfl
    exact hdir rfl

theorem Shielded.walk {resolved : BTreeMap Bytes Bytes}
    (hresolved : resolveLinks pass generated = .ok resolved)
    (hchecked : checkLinks pass resolved = .ok ()) {place next : Path} (h : Shielded pass place)
    (hwalk : Walk (inventory pass.nodes) (Allowed generated) place next) :
    Shielded pass next := by
  induction hwalk with
  | refl => exact h
  | tail _ hstep ih =>
    cases hstep with
    | descend hdir name =>
      rcases ih with ⟨above, hpre, habove⟩ | ⟨-, hnot⟩
      · exact .inl ⟨above, hpre.trans (List.prefix_append _ _), habove⟩
      · exact absurd hdir hnot
    | follow hlink htarget => exact shielded_of_leads hresolved hchecked hlink htarget

theorem measured_of_inventory {place : Path} (h : inventory pass.nodes place = some .dir) :
    (sourceTreePathKey place = [] || (pass.nodes.get (sourceTreePathKey place)).any fun node =>
      node.snapshot.kind = .directory) = true := by
  by_cases hne : place = []
  · rw [hne]
    rfl
  · rw [inventory_eq_map (plain_of_inventory h) hne] at h
    obtain ⟨node, hnode, hentry⟩ := Option.map_eq_some_iff.mp h
    rw [hnode, Option.any_some, Bool.or_eq_true]
    refine .inr (decide_eq_true ?_)
    unfold entryOf at hentry
    cases hkind : node.snapshot.kind with
    | file => rw [hkind] at hentry; cases hentry
    | directory => rfl
    | symlink => rw [hkind] at hentry; cases hentry

theorem Inventory.not_root_of_node (h : Inventory pass generated) {place : Path}
    (hnode : (pass.nodes.get (sourceTreePathKey place)).isSome) :
    sourceTreePathKey place ∉ pass.excludedRoots := by
  intro hroot
  obtain ⟨node, hnode⟩ := Option.isSome_iff_exists.mp hnode
  obtain ⟨path, -, hpath, hkey, hallowed⟩ := h.nodes _ (BTreeMap.mem_keys.mpr ⟨node, hnode⟩)
  obtain ⟨root, hrootPlain, hrootKey, hexcluded⟩ := h.roots _ hroot
  have hsame : path = root := sourceTreePathKey_inj hpath hrootPlain (hkey.symm.trans hrootKey)
  rw [← hsame, hallowed] at hexcluded
  cases hexcluded

/-- A measured place is no root of what was left out. -/
theorem Inventory.not_root_of_inventory (h : Inventory pass generated) {place : Path}
    (hplace : (inventory pass.nodes place).isSome) :
    sourceTreePathKey place ∉ pass.excludedRoots := by
  by_cases hne : place = []
  · rw [hne]
    intro hroot
    obtain ⟨root, hplain, hkey, hexcluded⟩ := h.roots _ hroot
    have hnil : root = [] := by
      by_contra hroot
      exact sourceTreePathKey_ne_nil hplain hroot hkey.symm
    rw [hnil] at hexcluded
    exact Bool.eq_false_iff.mp allowed_nil hexcluded
  · obtain ⟨entry, hentry⟩ := Option.isSome_iff_exists.mp hplace
    rw [inventory_eq_map (plain_of_inventory hentry) hne, Option.isSome_map] at hplace
    exact h.not_root_of_node hplace

theorem Shielded.not_root (hinventory : Inventory pass generated) {place : Path}
    (h : Shielded pass place) : sourceTreePathKey place ∉ pass.excludedRoots := by
  rcases h with ⟨above, ⟨rest, rfl⟩, hdir, hexposes⟩ | ⟨hnode, -⟩
  · intro hroot
    -- the directory above is measured, so the check that failed is the one on the roots
    have hmeasured := measured_of_inventory hdir
    rw [exposes, hmeasured, Bool.true_and, List.any_eq_false] at hexposes
    exact hexposes _ hroot (sourcePathIsAncestor_append above rest)
  · exact hinventory.not_root_of_node hnode

end Accepted

/-! ### What a measurement lists -/

section Measurement

variable {sha256 : Bytes → Sha256Digest} {collisionKey : Name → Bytes} {directory : Directory}
  {limits : TreeTraversalLimits} {generated : Generated} {m m' : Measurement} {parent : Path}
  {name : Name} {display : String}

/-- What the measurement has listed so far. -/
structure Lists (generated : Generated) (m : Measurement) : Prop where
  nodes : ∀ key ∈ m.nodes.keys, ∃ path, path ≠ [] ∧ Plain path ∧
    key = sourceTreePathKey path ∧ Allowed generated path
  roots : ∀ key ∈ m.excludedRoots, ∃ path, Plain path ∧ key = sourceTreePathKey path ∧
    sourceTreePathIsExcluded path generated = true

theorem Lists.insert (h : Lists generated m) {path : Path} (hne : path ≠ []) (hplain : Plain path)
    (hallowed : Allowed generated path) (node : SourceTreeNode) (budget : TreeMeasurementBudget) :
    Lists generated { m with
      budget := budget, nodes := m.nodes.insert (sourceTreePathKey path) node } := by
  refine ⟨fun key hkey => ?_, h.roots⟩
  obtain ⟨found, hfound⟩ := BTreeMap.mem_keys.mp hkey
  rw [BTreeMap.get_insert] at hfound
  split at hfound
  · rename_i heq
    exact ⟨path, hne, hplain, heq, hallowed⟩
  · exact h.nodes key (BTreeMap.mem_keys.mpr ⟨found, hfound⟩)

theorem Lists.exclude (h : Lists generated m) {path : Path} (hplain : Plain path)
    (hexcluded : sourceTreePathIsExcluded path generated = true) :
    Lists generated { m with
      excludedRoots := m.excludedRoots.insert (sourceTreePathKey path) } := by
  refine ⟨h.nodes, fun key hkey => ?_⟩
  rcases BTreeSet.mem_insert.mp hkey with hkey | rfl
  · exact h.roots key hkey
  · exact ⟨path, hplain, rfl, hexcluded⟩

theorem generatedSubtreeMatchesChild_iff :
    generatedSubtreeMatchesChild parent name generated = true ↔
      ∃ g, generated = some g ∧ g.1 = parent ++ [name] := by
  rw [generatedSubtreeMatchesChild]
  cases generated with
  | none => simp
  | some g =>
    simp only [Option.any_some, Bool.and_eq_true, decide_eq_true_eq, Option.some.injEq,
      exists_eq_left']
    constructor
    · rintro ⟨⟨hlength, hagree⟩, hname⟩
      rw [agree_comm, agree_iff_above (by omega)] at hagree
      obtain ⟨rest, hrest⟩ := hagree
      rw [← hrest, List.length_append] at hlength
      obtain ⟨last, rfl⟩ := List.length_eq_one_iff.mp (show rest.length = 1 by omega)
      rw [← hrest, List.getElem?_concat_length] at hname
      rw [← hrest, Option.some.inj hname]
    · intro hg
      rw [hg]
      refine ⟨⟨by simp, ?_⟩, by simp⟩
      rw [agree_comm]
      exact (agree_iff_above (by simp)).mpr (List.prefix_append _ _)

/-- A child of an allowed directory is left out exactly if it is a root of what is. -/
theorem excluded_snoc_iff (hparent : Allowed generated parent) :
    sourceTreePathIsExcluded (parent ++ [name]) generated = true ↔
      name = ascii ".git" ∨ generatedSubtreeMatchesChild parent name generated = true := by
  have hnot : ¬ (ascii ".git" ∈ parent ∨ ∃ g, generated = some g ∧ g.1 <+: parent) := by
    rw [← sourceTreePathIsExcluded_iff]
    exact Bool.eq_false_iff.mp hparent
  rw [not_or] at hnot
  rw [sourceTreePathIsExcluded_iff, generatedSubtreeMatchesChild_iff]
  refine or_congr ?_ ?_
  · rw [List.mem_append, List.mem_singleton]
    exact ⟨fun h => (h.resolve_left hnot.1).symm, fun h => .inr h.symm⟩
  · refine exists_congr fun g => and_congr_right fun hg => ?_
    rw [List.prefix_concat_iff]
    exact ⟨fun h => h.resolve_right fun hpre => hnot.2 ⟨g, hg, hpre⟩, .inl⟩

theorem insertNode_ok {nodes nodes' : Nodes} {path : Bytes} {node : SourceTreeNode}
    (h : insertNode nodes path node = .ok nodes') : nodes' = nodes.insert path node :=
  (Except.ok.inj (ite_error_ok h).2).symm

theorem measureName_ok
    {enter : String → Path → BTreeSet Name → Measurement → Except IoError Measurement}
    (henter : ∀ display path names m m', Plain path → Allowed generated path →
      Lists generated m → enter display path names m = .ok m' → Lists generated m')
    (hparent : Plain parent) (hallowed : Allowed generated parent)
    (hname : name ≠ [] ∧ 0x2f ∉ name) (hm : Lists generated m)
    (h : measureName sha256 directory limits generated enter display parent m name = .ok m') :
    Lists generated m' := by
  have hplain := hparent.snoc hname
  unfold measureName at h
  dsimp only at h
  split at h
  · rename_i hroot
    cases h
    exact hm.exclude hplain ((excluded_snoc_iff hallowed).mpr hroot)
  rename_i hroot
  have hchild : Allowed generated (parent ++ [name]) :=
    Bool.eq_false_iff.mpr fun hexcluded => hroot ((excluded_snoc_iff hallowed).mp hexcluded)
  split at h
  · cases h
  split at h
  · cases h
  · cases h
  · split at h
    · cases h
    · obtain ⟨budget, -, h⟩ := Except.bind_ok h
      obtain ⟨nodes, hnodes, h⟩ := Except.bind_ok h
      cases h
      rw [insertNode_ok hnodes]
      exact hm.insert (by simp) hplain hchild _ _
  · obtain ⟨inner, hinner, h⟩ := Except.bind_ok h
    obtain ⟨nodes, hnodes, h⟩ := Except.bind_ok h
    cases h
    rw [insertNode_ok hnodes]
    exact (henter _ _ _ _ _ hplain hchild hm hinner).insert (by simp) hplain hchild _ _
  · split at h
    · cases h
    · cases h
      exact hm.insert (by simp) hplain hchild _ _

theorem checkNames_ok {names : BTreeSet Name} {keys : BTreeSet Bytes}
    (h : checkNames collisionKey display names = .ok keys) :
    ∀ name ∈ names.elems, name ≠ [] ∧ 0x2f ∉ name := by
  refine Except.foldlM_ok h (motive := fun done _ => ∀ name ∈ done, name ≠ [] ∧ 0x2f ∉ name) nofun
    fun done name keys next hdone hstep => ?_
  obtain ⟨hvalid, -⟩ := ite_error_ok hstep
  rw [not_or] at hvalid
  intro n hn
  rcases List.mem_append.mp hn with hn | hn
  · exact hdone n hn
  · exact List.mem_singleton.mp hn ▸ hvalid

theorem measureSourceTreeContentsAt_lists (fuel : ℕ) :
    ∀ display path names m m', Plain path → Allowed generated path → Lists generated m →
      measureSourceTreeContentsAt sha256 collisionKey directory limits generated fuel display path
        names m = .ok m' → Lists generated m' := by
  induction fuel with
  | zero =>
    intro display path names m m' _ _ _ h
    cases h
  | succ fuel ih =>
    intro display path names m m' hplain hallowed hm h
    obtain ⟨budget, -, h⟩ := Except.bind_ok h
    obtain ⟨keys, hkeys, h⟩ := Except.bind_ok h
    exact Except.foldlM_mem h (motive := fun _ m => Lists generated m) ⟨hm.nodes, hm.roots⟩
      fun done name m next hmem hm hstep =>
        measureName_ok ih hplain hallowed (checkNames_ok hkeys name hmem) hm hstep

/-- What a measurement lists. -/
theorem measureSourceTreePass_inventory {pass : SourceTreePass} {displayPath : String}
    (h : measureSourceTreePass sha256 collisionKey directory limits generated displayPath =
      .ok pass) : Inventory pass generated := by
  obtain ⟨m, hm, h⟩ := Except.bind_ok h
  cases h
  have hstart : Lists generated ⟨⟨0, 0⟩, .new, generatedRoots generated⟩ := by
    refine ⟨nofun, fun key hkey => ?_⟩
    cases generated with
    | none => exact absurd hkey BTreeSet.notMem_new
    | some g =>
      rcases BTreeSet.mem_insert.mp hkey with hkey | rfl
      · exact absurd hkey BTreeSet.notMem_new
      · exact ⟨g.1, g.2.2, rfl, sourceTreePathIsExcluded_iff.mpr (.inr ⟨g, rfl, List.prefix_rfl⟩)⟩
  have hplain : Plain [] := nofun
  have hlists := measureSourceTreeContentsAt_lists _ _ _ _ _ _ hplain allowed_nil hstart hm
  exact ⟨hlists.nodes, hlists.roots⟩

end Measurement

/-- **Links of measured source trees.** The resolution of a link target returns. In what a
measurement lists, a target that is resolved leads to that place and to no other, through measured
places that are not left out and never above the root. Once the measurement is accepted, no walk
that begins at a link reaches a root of what was left out, wherever it descends, and no walk from
the root over measured places does. -/
theorem source_links_confined (sha256 : Bytes → Sha256Digest) (collisionKey : Name → Bytes)
    (directory : Directory) (limits : TreeTraversalLimits) (generated : Generated)
    (displayPath : String) :
    (∀ nodes fuel linkPath base target activeLinks, sourceTreeMaxDepth < fuel →
      (resolveSourceLinkTarget nodes generated fuel linkPath base target activeLinks).Returns) ∧
    ∀ pass, measureSourceTreePass sha256 collisionKey directory limits generated displayPath =
        .ok pass →
      (∀ linkPath node target, pass.nodes.get linkPath = some node →
        node.snapshot.kind = .symlink → node.linkTarget = some target →
        ∀ fuel activeLinks place, resolveSourceLinkTarget pass.nodes generated fuel linkPath
            (sourceTreePathComponents linkPath).dropLast target activeLinks = .ok place →
          Allowed generated (sourceTreePathComponents linkPath).dropLast ∧
          Leads (inventory pass.nodes) (Allowed generated)
            (sourceTreePathComponents linkPath).dropLast (pieces target) place ∧
          ∀ other, Leads (inventory pass.nodes) (Allowed generated)
            (sourceTreePathComponents linkPath).dropLast (pieces target) other → other = place) ∧
      ∀ entries, finalizeSourceTreePass sha256 pass generated = .ok entries →
        (∀ cur name target place, inventory pass.nodes (cur ++ [name]) = some (.link target) →
          Walk (inventory pass.nodes) (Allowed generated) (cur ++ [name]) place →
          sourceTreePathKey place ∉ pass.excludedRoots) ∧
        ∀ place, Relation.ReflTransGen (fun a b =>
            Walk.Step (inventory pass.nodes) (Allowed generated) a b ∧
              (inventory pass.nodes b).isSome) [] place →
          sourceTreePathKey place ∉ pass.excludedRoots := by
  refine ⟨fun nodes fuel linkPath base target activeLinks hfuel => ?_, fun pass hpass => ?_⟩
  · exact resolveWith_returns
      (fun link => sourceTreeLinkTarget_returns (by omega) (by omega) link) linkPath base target
  have hinventory := measureSourceTreePass_inventory hpass
  refine ⟨fun linkPath node target hnode hkind htarget fuel activeLinks place hplace => ?_,
    fun entries hentries => ?_⟩
  · obtain ⟨path, hne, hplain, rfl, hallowed⟩ :=
      hinventory.nodes linkPath (BTreeMap.mem_keys.mpr ⟨node, hnode⟩)
    rw [sourceTreePathComponents_key hplain] at hplace ⊢
    obtain ⟨-, -, hleads⟩ :=
      resolveWith_leads (sourceTreeLinkTarget_follows fuel activeLinks) hplain.dropLast hplace
    refine ⟨Bool.eq_false_iff.mpr fun hexcluded => ?_, hleads, fun other h => h.unique hleads⟩
    exact Bool.eq_false_iff.mp hallowed (excluded_of_above hexcluded (List.dropLast_prefix path))
  · obtain ⟨resolved, hresolved, hentries⟩ := Checked.bind_eq_ok.mp hentries
    obtain ⟨⟨⟩, hchecked, -⟩ := Checked.bind_eq_ok.mp hentries
    refine ⟨fun cur name target place hlink hwalk => ?_, fun place hwalk => ?_⟩
    · have hstart : Shielded pass (cur ++ [name]) := by
        obtain ⟨node, hnode, -⟩ := exists_of_inventory_link hlink
        refine .inr ⟨by rw [hnode]; rfl, ?_⟩
        rw [hlink]
        nofun
      exact (hstart.walk hresolved hchecked hwalk).not_root hinventory
    · refine hinventory.not_root_of_inventory ?_
      rcases hwalk.cases_tail with rfl | ⟨_, _, hstep⟩
      · rfl
      · exact hstep.2

end SourceTree

end ArosTools
