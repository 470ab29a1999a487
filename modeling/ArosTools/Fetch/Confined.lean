import ArosTools.Fetch.Extract
import ArosTools.Program.Except

/-!
# Extraction is confined

What an accepted archive leaves on the filesystem: nothing changes outside the staging directory,
the entries and the bytes written stay within the budget, and the symbolic links lead nowhere
outside. A ZIP is resolved before it is accepted; a TAR is checked by counting components, so its
links are contained as long as no target takes `..` after another link of the archive.

* `Unpacks` — what is assumed of the TAR reader;
* `unpackTar_kept`, `unpackZip_kept` — the two extractions;
* `unpack_confined` — both together.
-/

namespace ArosTools

namespace Fetch

open Links Disk

/-! ### Checks that succeed -/

theorem check_ok {condition : Bool} {message : String} {u : Unit}
    (h : check condition message = .ok u) : condition = true := by
  unfold check at h
  split_ifs at h with hc
  exact hc

theorem require_ok {α : Type} {value : Option α} {message : String} {a : α}
    (h : require value message = .ok a) : value = some a := by
  cases value with
  | none => cases h
  | some b => exact congrArg some (Except.ok.inj h)

theorem ExtractionBudget.accountExpandedSize_ok {budget budget' : ExtractionBudget} {size : ℕ}
    {path : PathBuf} (h : budget.accountExpandedSize size path = .ok budget') :
    budget'.entries = budget.entries ∧ budget'.expandedBytes = budget.expandedBytes + size ∧
      budget'.expandedBytes ≤ maxArchiveExpandedBytes := by
  obtain ⟨_, -, h⟩ := Except.bind_ok h
  obtain ⟨total, htotal, h⟩ := Except.bind_ok h
  obtain ⟨_, hle, ⟨⟩⟩ := Except.bind_ok h
  exact ⟨rfl, (checkedAdd_eq_some.mp (require_ok htotal)).1, of_decide_eq_true (check_ok hle)⟩

theorem ExtractionBudget.account_ok {budget budget' : ExtractionBudget} {size : ℕ} {path : PathBuf}
    (h : budget.account size path = .ok budget') :
    budget'.entries = budget.entries + 1 ∧ budget'.entries ≤ maxArchiveEntries ∧
      budget'.expandedBytes = budget.expandedBytes + size ∧
      budget'.expandedBytes ≤ maxArchiveExpandedBytes := by
  obtain ⟨entries, hentries, h⟩ := Except.bind_ok h
  obtain ⟨_, hle, h⟩ := Except.bind_ok h
  obtain ⟨hsame, hbytes⟩ := accountExpandedSize_ok h
  rw [hsame]
  exact ⟨(checkedAdd_eq_some.mp (require_ok hentries)).1, of_decide_eq_true (check_ok hle), hbytes⟩

/-! ### Hard links -/

variable {root : Path} {d d' : Disk}

theorem names_parent (root : Path) {relative parent : PathBuf} (h : relative.parent = some parent) :
    (root ++ names relative).dropLast <+: root ++ names parent := by
  unfold PathBuf.parent at h
  split_ifs at h with hnil
  cases h
  obtain ⟨init, last, hsplit⟩ := (List.eq_nil_or_concat' relative.components).resolve_left hnil
  unfold names
  rw [hsplit, List.dropLast_concat, List.filterMap_append]
  cases last with
  | normal name =>
    simp only [List.filterMap_cons, List.filterMap_nil, name?]
    rw [← List.append_assoc, List.dropLast_concat]
  | parentDir =>
    simp only [List.filterMap_cons, List.filterMap_nil, name?, List.append_nil]
    exact List.dropLast_prefix _
  | curDir =>
    simp only [List.filterMap_cons, List.filterMap_nil, name?, List.append_nil]
    exact List.dropLast_prefix _

theorem reserveParents_adds {place rest : Path} (hplace : d.tree place = some .dir)
    (hbelow : root <+: place) (h : reserveParents d place rest = .ok d') :
    Adds root d d' ∧ d'.written = d.written ∧ d'.tree (place ++ rest) = some .dir := by
  induction rest generalizing d place with
  | nil =>
    cases h
    rw [List.append_nil]
    exact ⟨.refl root _, rfl, hplace⟩
  | cons name rest ih =>
    have hplain : d.Plain place := Plain.of_dir hplace
    have hnext : root <+: place ++ [name] := hbelow.trans (List.prefix_append _ _)
    rw [reserveParents] at h
    rw [List.append_cons]
    split at h
    · next hstat => exact ih (lstat_concat hplain hstat) hnext h
    · cases h
    · obtain ⟨d₁, hd₁, h⟩ := Except.bind_ok h
      have hcreated := createAt_spec (by rwa [List.dropLast_concat]) (require_ok hd₁)
      have hadds := hcreated.adds hnext nofun
      obtain ⟨hadds', hwritten, hdir⟩ := ih hcreated.at_path hnext h
      exact ⟨hadds.trans hadds', hwritten.trans hcreated.written, hdir⟩

/-- What holds of the planned copies. -/
structure Planned (root : Path) (d : Disk) (budget : ExtractionBudget) (plan : CopyPlan) :
    Prop where
  adds : Adds root d plan.disk
  written : plan.disk.written = d.written
  budget : plan.budget.expandedBytes = budget.expandedBytes + (plan.copies.map Copy.length).sum
  within : plan.budget.expandedBytes ≤ maxArchiveExpandedBytes
  outputs : ∀ copy ∈ plan.copies, root <+: copy.output ∧ plan.disk.Plain copy.output.dropLast

theorem planCopy_planned {budget : ExtractionBudget} {plan plan' : CopyPlan}
    {link : PathBuf × PathBuf} (hroot : d.tree root = some .dir)
    (hplan : Planned root d budget plan) (h : planCopy root plan link = .ok plan') :
    Planned root d budget plan' := by
  obtain ⟨relative, target⟩ := link
  obtain ⟨source, -, h⟩ := Except.bind_ok h
  obtain ⟨node, -, h⟩ := Except.bind_ok h
  obtain ⟨_, -, h⟩ := Except.bind_ok h
  obtain ⟨_, -, h⟩ := Except.bind_ok h
  obtain ⟨parent, hparent, h⟩ := Except.bind_ok h
  obtain ⟨d₁, hd₁, h⟩ := Except.bind_ok h
  obtain ⟨budget₁, hbudget₁, ⟨⟩⟩ := Except.bind_ok h
  obtain ⟨hadds, hwritten, hdir⟩ :=
    reserveParents_adds (hplan.adds.dir hroot) (List.prefix_refl root) hd₁
  obtain ⟨-, hbytes, hwithin⟩ := ExtractionBudget.accountExpandedSize_ok hbudget₁
  refine ⟨hplan.adds.trans hadds, hwritten.trans hplan.written, ?_, hwithin, fun copy hcopy => ?_⟩
  · rw [hbytes, hplan.budget, List.map_append, List.sum_append, List.map_singleton,
      List.sum_singleton, Nat.add_assoc]
  · rcases List.mem_append.mp hcopy with hcopy | hcopy
    · obtain ⟨hbelow, hplain⟩ := hplan.outputs copy hcopy
      exact ⟨hbelow, hadds.plainPath hplain⟩
    · rw [List.mem_singleton.mp hcopy]
      have hpre := names_parent root (require_ok hparent)
      exact ⟨List.prefix_append _ _, Plain.of_dir (dir_of_prefix_dir hdir hpre)⟩

theorem makeCopy_adds {copy : Copy} (hbelow : root <+: copy.output)
    (hplain : d.Plain copy.output.dropLast) (h : makeCopy d copy = .ok d') :
    Adds root d d' ∧ d'.written = d.written + copy.length := by
  obtain ⟨d₁, hd₁, h⟩ := Except.bind_ok h
  obtain ⟨_, hlength, ⟨⟩⟩ := Except.bind_ok h
  have hcreated := createAt_spec hplain (require_ok hd₁)
  refine ⟨hcreated.adds hbelow nofun, ?_⟩
  rw [hcreated.written, of_decide_eq_true (check_ok hlength)]

/-- **Hard links become copies below the root that are within the budget.** -/
theorem materializeHardLinks_adds {links : List (PathBuf × PathBuf)} {budget : ExtractionBudget}
    (hroot : d.tree root = some .dir) (hwithin : budget.expandedBytes ≤ maxArchiveExpandedBytes)
    (h : materializeHardLinks root links d budget = .ok d') :
    Adds root d d' ∧
      d'.written + budget.expandedBytes ≤ d.written + maxArchiveExpandedBytes := by
  obtain ⟨plan, hplan, h⟩ := Except.bind_ok h
  have hplanned : Planned root d budget plan := by
    refine Except.foldlM_ok (motive := fun _ => Planned root d budget) hplan
      ⟨.refl root d, rfl, rfl, hwithin, nofun⟩ ?_
    intro done link plan plan' hplan hstep
    exact planCopy_planned hroot hplan hstep
  -- the copies are made one after another, each within its planned length
  obtain ⟨hadds, hwritten⟩ : Adds root plan.disk d' ∧
      d'.written = plan.disk.written + (plan.copies.map Copy.length).sum := by
    refine Except.foldlM_mem (motive := fun done c => Adds root plan.disk c ∧
      c.written = plan.disk.written + (done.map Copy.length).sum) h ⟨.refl root _, rfl⟩ ?_
    rintro done copy c c' hcopy ⟨hadds, hwritten⟩ hstep
    obtain ⟨hbelow, hplain⟩ := hplanned.outputs copy hcopy
    obtain ⟨hadds', hwritten'⟩ := makeCopy_adds hbelow (hadds.plainPath hplain) hstep
    refine ⟨hadds.trans hadds', ?_⟩
    rw [hwritten', hwritten, List.map_append, List.sum_append, List.map_singleton,
      List.sum_singleton, Nat.add_assoc]
  refine ⟨hplanned.adds.trans hadds, ?_⟩
  have := hplanned.budget
  have := hplanned.within
  have := hplanned.written
  omega

/-! ### TAR -/

/-- What is assumed of the TAR reader: it writes below the root only, at most the bytes of the
entry, and a link it leaves there stands at the path of a link entry, with its target. -/
structure Unpacks (unpackIn : UnpackIn) : Prop where
  outside : ∀ {root entry d unpacked d'}, unpackIn root entry d = some (unpacked, d') →
    ∀ p, ¬ root <+: p → d'.tree p = d.tree p
  rooted : ∀ {root entry d unpacked d'}, unpackIn root entry d = some (unpacked, d') →
    d.tree root = some .dir → d'.tree root = some .dir
  written : ∀ {root entry d unpacked d'}, unpackIn root entry d = some (unpacked, d') →
    d'.written ≤ d.written + entry.size
  links : ∀ {root entry d unpacked d'}, unpackIn root entry d = some (unpacked, d') →
    ∀ place target, d'.tree (root ++ place) = some (.link target) →
      d.tree (root ++ place) = some (.link target) ∨
      entry.symlink = true ∧ ∃ path link, entry.path = some path ∧
        entry.linkName = some (some link) ∧ place ≠ [] ∧ place = names (.ofBytes path) ∧
        target = (PathBuf.ofBytes link).steps

/-- A link entry of the archive has this path. -/
def isLinkPlace (entries : List (Option TarEntry)) (place : Path) : Bool :=
  entries.any fun entry => entry.any fun entry =>
    entry.symlink && entry.path.any fun path => names (.ofBytes path) = place

/-- The target of the entry takes no `..` after a path of a link entry of the archive. -/
def TarEntry.settled (entries : List (Option TarEntry)) (entry : TarEntry) : Bool :=
  match entry.path, entry.linkName with
  | some path, some (some link) =>
    !entry.symlink || settledFor (isLinkPlace entries) (names (.ofBytes path)).dropLast
      (PathBuf.ofBytes link).steps
  | _, _ => true

/-- No target of a link entry takes `..` after a path of a link entry of the archive. -/
def linksSettled (entries : List (Option TarEntry)) : Bool :=
  entries.all fun entry => entry.all (TarEntry.settled entries)

/-- The entry left this link, whose target has been checked. -/
def Left (entry : TarEntry) (place : Path) (target : List (Links.Step Name)) : Prop :=
  entry.symlink = true ∧ ∃ path link, entry.path = some path ∧ entry.linkName = some (some link) ∧
    place ≠ [] ∧ place = names (.ofBytes path) ∧ target = (PathBuf.ofBytes link).steps ∧
    validateArchivePath (.ofBytes path) = .ok () ∧
    validateLinkTarget (.ofBytes path) (.ofBytes link) = .ok ()

/-- What holds after some entries of a TAR. -/
structure TarKept (root : Path) (d : Disk) (done : List (Option TarEntry)) (s : TarState) :
    Prop where
  outside : ∀ p, ¬ root <+: p → s.disk.tree p = d.tree p
  rooted : s.disk.tree root = some .dir
  written : s.disk.written ≤ d.written + s.budget.expandedBytes
  within : s.budget.expandedBytes ≤ maxArchiveExpandedBytes
  counted : done.length = s.budget.entries
  entries : done.length ≤ maxArchiveEntries
  links : ∀ place target, s.disk.tree (root ++ place) = some (.link target) →
    ∃ entry, some entry ∈ done ∧ Left entry place target

theorem TarKept.counts {done : List (Option TarEntry)} {s : TarState} (entry : Option TarEntry)
    {budget : ExtractionBudget} {size : ℕ} {path : PathBuf} (h : TarKept root d done s)
    (hbudget : s.budget.account size path = .ok budget) :
    (done ++ [entry]).length = budget.entries ∧ (done ++ [entry]).length ≤ maxArchiveEntries ∧
      budget.expandedBytes = s.budget.expandedBytes + size ∧
      budget.expandedBytes ≤ maxArchiveExpandedBytes := by
  obtain ⟨hentries, hcount, hbytes, hwithin⟩ := ExtractionBudget.account_ok hbudget
  have hlength : (done ++ [entry]).length = budget.entries := by
    rw [List.length_append, List.length_singleton, h.counted, hentries]
  exact ⟨hlength, hlength ▸ hcount, hbytes, hwithin⟩

theorem unpackTarEntry_kept {unpackIn : UnpackIn} (hunpack : Unpacks unpackIn)
    {done : List (Option TarEntry)} {s s' : TarState} {entry : Option TarEntry}
    (hkept : TarKept root d done s) (h : unpackTarEntry unpackIn root s entry = .ok s') :
    TarKept root d (done ++ [entry]) s' := by
  obtain ⟨e, he, h⟩ := Except.bind_ok h
  obtain ⟨path, hpath, h⟩ := Except.bind_ok h
  obtain ⟨_, hcontained, h⟩ := Except.bind_ok h
  obtain ⟨_, -, h⟩ := Except.bind_ok h
  obtain ⟨budget, hbudget, h⟩ := Except.bind_ok h
  rw [require_ok he]
  obtain ⟨hcounted, hcount, hbytes, hwithin⟩ := hkept.counts (some e) hbudget
  have hbefore : ∀ place target, s.disk.tree (root ++ place) = some (.link target) →
      ∃ entry, some entry ∈ done ++ [some e] ∧ Left entry place target := by
    intro place target hlink
    obtain ⟨entry, hmem, hleft⟩ := hkept.links place target hlink
    exact ⟨entry, List.mem_append_left _ hmem, hleft⟩
  have hwritten := hkept.written
  by_cases hhard : e.hardLink = true
  · -- a hard link is kept for later: the filesystem does not change
    rw [if_pos hhard] at h
    obtain ⟨_, -, h⟩ := Except.bind_ok h
    obtain ⟨target, -, h⟩ := Except.bind_ok h
    obtain ⟨_, -, h⟩ := Except.bind_ok h
    obtain ⟨_, -, ⟨⟩⟩ := Except.bind_ok h
    refine ⟨hkept.outside, hkept.rooted, ?_, hwithin, hcounted, hcount, hbefore⟩
    dsimp only
    omega
  · rw [if_neg hhard] at h
    obtain ⟨linkName, hlinkName, h⟩ := Except.bind_ok h
    obtain ⟨_, hvalid, h⟩ := Except.bind_ok h
    obtain ⟨⟨unpacked, d₁⟩, hd₁, h⟩ := Except.bind_ok h
    obtain ⟨_, -, ⟨⟩⟩ := Except.bind_ok h
    have hd₁ := require_ok hd₁
    refine ⟨fun p hp => (hunpack.outside hd₁ p hp).trans (hkept.outside p hp),
      hunpack.rooted hd₁ hkept.rooted, ?_, hwithin, hcounted, hcount, fun place target hlink => ?_⟩
    · have := hunpack.written hd₁
      dsimp only at this ⊢
      omega
    · rcases hunpack.links hd₁ place target hlink with hold | ⟨hsymlink, path', link, hpath',
        hname, hne, hplace, htarget⟩
      · exact hbefore place target hold
      · rw [require_ok hpath, Option.some.injEq] at hpath'
        rw [require_ok hlinkName, Option.some.injEq] at hname
        subst hpath' hname
        exact ⟨e, by simp, hsymlink, path, link, require_ok hpath, require_ok hlinkName, hne,
          hplace, htarget, hcontained, hvalid⟩

/-- **An accepted TAR changes nothing outside, stays within the budget and leaves checked links.** -/
theorem unpackTar_kept {unpackIn : UnpackIn} (hunpack : Unpacks unpackIn)
    {entries : Option (List (Option TarEntry))} (hroot : d.tree root = some .dir)
    (hlinks : d.NoLinks root) (h : unpackTar unpackIn root entries d = .ok d') :
    ∃ list, entries = some list ∧ list.length ≤ maxArchiveEntries ∧
      (∀ p, ¬ root <+: p → d'.tree p = d.tree p) ∧
      d'.written ≤ d.written + maxArchiveExpandedBytes ∧
      ∀ place target, d'.tree (root ++ place) = some (.link target) →
        ∃ entry, some entry ∈ list ∧ Left entry place target := by
  obtain ⟨list, hlist, h⟩ := Except.bind_ok h
  obtain ⟨s, hs, h⟩ := Except.bind_ok h
  obtain ⟨_, -, h⟩ := Except.bind_ok h
  have hkept : TarKept root d list s := by
    refine Except.foldlM_ok (motive := TarKept root d) hs ?_ ?_
    · exact ⟨fun _ _ => rfl, hroot, le_rfl, Nat.zero_le _, rfl, Nat.zero_le _,
        fun place target hlink => absurd hlink (hlinks _ (List.prefix_append _ _) target)⟩
    · intro done entry s s' hkept hstep
      exact unpackTarEntry_kept hunpack hkept hstep
  obtain ⟨hadds, hwritten⟩ := materializeHardLinks_adds hkept.rooted hkept.within h
  refine ⟨list, require_ok hlist, hkept.entries, fun p hp => ?_, ?_, fun place target hlink => ?_⟩
  · rw [hadds.outside p hp, hkept.outside p hp]
  · have := hkept.written
    omega
  · exact hkept.links place target (hadds.plain _ target hlink)

/-! ### The links of a TAR -/

theorem component?_ne_curDir {piece : Bytes} : PathBuf.component? false piece ≠ some .curDir := by
  unfold PathBuf.component?
  split_ifs <;> simp_all

/-- A `.` survives only in front. -/
theorem ofBytes_curDir_last {text : Bytes} {init : List Component}
    (h : (PathBuf.ofBytes text).components = init ++ [.curDir]) : init = [] := by
  unfold PathBuf.ofBytes at h
  dsimp only at h
  split at h
  · simp at h
  · next piece rest _ =>
    rcases List.eq_nil_or_concat' (rest.filterMap (PathBuf.component? false)) with hrest |
      ⟨init', last, hrest⟩
    · rw [hrest, List.append_nil] at h
      cases hpiece : PathBuf.component? true piece with
      | none =>
        rw [hpiece] at h
        simp at h
      | some component =>
        rw [hpiece, Option.toList_some, ← List.nil_append [component]] at h
        exact (List.append_inj' h rfl).1.symm
    · rw [hrest, ← List.append_assoc] at h
      obtain ⟨-, hlast⟩ := List.append_inj' h rfl
      cases hlast
      have hmem : Component.curDir ∈ rest.filterMap (PathBuf.component? false) := by
        rw [hrest]
        simp
      obtain ⟨piece', -, hpiece'⟩ := List.mem_filterMap.mp hmem
      exact absurd hpiece' component?_ne_curDir

/-- The depth that the check counts from is the depth of the link's directory. -/
theorem parent_depth {text : Bytes} {dir : Path} {name : Name}
    (hcontained : validateArchivePath (.ofBytes text) = .ok ())
    (h : names (.ofBytes text) = dir ++ [name]) :
    ((PathBuf.ofBytes text).parent.elim 0 fun path => (names path).length) = dir.length := by
  have hparents := check_ok hcontained
  rcases List.eq_nil_or_concat' (PathBuf.ofBytes text).components with hnil | ⟨init, last, hsplit⟩
  · rw [names, hnil] at h
    simp at h
  · rw [names, hsplit, List.filterMap_append] at h
    have hparent : (PathBuf.ofBytes text).parent =
        some ⟨(PathBuf.ofBytes text).absolute, init⟩ := by
      rw [PathBuf.parent, if_neg (by rw [hsplit]; simp), hsplit, List.dropLast_concat]
    rw [hparent, Option.elim_some]
    cases last with
    | normal n =>
      obtain ⟨hdir, -⟩ := List.append_inj' h rfl
      exact congrArg List.length hdir
    | parentDir => simp [hsplit] at hparents
    | curDir =>
      rw [ofBytes_curDir_last hsplit] at h
      exact absurd h.symm (List.append_ne_nil_of_right_ne_nil dir (List.cons_ne_nil name []))

theorem Left.inside {entry : TarEntry} {dir : Path} {name : Name}
    {target : List (Links.Step Name)} (h : Left entry (dir ++ [name]) target) :
    staysInside dir.length target = true := by
  obtain ⟨-, path, link, -, -, -, hplace, rfl, hcontained, hvalid⟩ := h
  obtain ⟨_, -, hvalid⟩ := Except.bind_ok hvalid
  have hdepth := check_ok hvalid
  rwa [parent_depth hcontained hplace.symm, linkStaysInside_eq] at hdepth

theorem Left.isLinkPlace {entry : TarEntry} {entries : List (Option TarEntry)} {place : Path}
    {target : List (Links.Step Name)} (hmem : some entry ∈ entries) (h : Left entry place target) :
    isLinkPlace entries place = true := by
  obtain ⟨hsymlink, path, link, hpath, -, -, hplace, -⟩ := h
  refine List.any_eq_true.mpr ⟨some entry, hmem, ?_⟩
  simp [hsymlink, hpath, hplace]

theorem Left.settled {entry : TarEntry} {entries : List (Option TarEntry)} {place : Path}
    {target : List (Links.Step Name)} (hmem : some entry ∈ entries)
    (hsettled : linksSettled entries = true) (h : Left entry place target) :
    settledFor (Fetch.isLinkPlace entries) place.dropLast target = true := by
  obtain ⟨hsymlink, path, link, hpath, hname, -, rfl, rfl, -⟩ := h
  have hentry := List.all_eq_true.mp hsettled _ hmem
  rw [Option.all_some, TarEntry.settled, hpath, hname] at hentry
  simpa [hsymlink] using hentry

/-- The links below the root lead nowhere outside, however many links are followed. -/
def Contained (root : Path) (d : Disk) : Prop :=
  ∀ place target, d.tree (root ++ place) = some (.link target) →
    ∀ links, (realpath d.tree links [] ((root ++ place).map .down)).inside root

/-- A path to a link is the link's target, taken from its directory. -/
theorem walkAll_link {dir : Path} {name : Name} {target : List (Links.Step Name)}
    (h : d.tree (dir ++ [name]) = some (.link target))
    (follow : Path → List (Links.Step Name) → Place Name) :
    walkAll d.tree follow [] ((dir ++ [name]).map .down) = follow dir target := by
  have hdirs : ∀ p, p <+: dir → p ≠ [] → d.tree ([] ++ p) = some .dir := fun p hp _ =>
    dir_of_prefix_dir (d.closed dir name (by rw [h]; simp)) hp
  rw [List.map_append, List.map_singleton, walkAll_dirs follow _ hdirs, List.nil_append, walkAll, h]
  dsimp only
  rw [List.append_nil]

/-- **Checked links that are settled are contained.** -/
theorem contained_of_left {entries : List (Option TarEntry)}
    (hsettled : linksSettled entries = true)
    (hlinks : ∀ place target, d.tree (root ++ place) = some (.link target) →
      ∃ entry, some entry ∈ entries ∧ Left entry place target) : Contained root d := by
  have hinside : ∀ dir name target, below d.tree root (dir ++ [name]) = some (.link target) →
      staysInside dir.length target = true := by
    intro dir name target hlink
    obtain ⟨entry, -, hleft⟩ := hlinks _ target hlink
    exact hleft.inside
  have hsettle : ∀ dir name target, below d.tree root (dir ++ [name]) = some (.link target) →
      settled (below d.tree root) dir target = true := by
    intro dir name target hlink
    obtain ⟨entry, hmem, hleft⟩ := hlinks _ target hlink
    have := hleft.settled hmem hsettled
    rw [List.dropLast_concat] at this
    refine settled_of_settledFor (fun place target' hlink' => ?_) this
    obtain ⟨entry', hmem', hleft'⟩ := hlinks place target' hlink'
    exact hleft'.isLinkPlace hmem'
  intro place target hlink links
  obtain ⟨entry, -, hleft⟩ := hlinks place target hlink
  obtain ⟨-, -, -, -, -, hne, -⟩ := id hleft
  obtain ⟨dir, name, rfl⟩ := (List.eq_nil_or_concat' place).resolve_left hne
  rw [← List.append_assoc] at hlink ⊢
  cases links with
  | zero =>
    -- no link may be followed at all
    rw [realpath, walkAll_link hlink]
    trivial
  | succ links =>
    have hbelow : below d.tree root (dir ++ [name]) = some (.link target) := by
      rw [List.append_assoc] at hlink
      exact hlink
    have habove := resolve_ne_above hinside hsettle (hinside _ _ _ hbelow)
      (hsettle _ _ _ hbelow) links
    rw [realpath, walkAll_link hlink, realpath_under habove]
    exact Place.under_inside habove

/-! ### ZIP -/

/-- What holds after some entries of a ZIP. -/
structure ZipKept (root : Path) (d : Disk) (s : ZipState) : Prop where
  adds : Adds root d s.disk
  written : s.disk.written ≤ d.written + s.budget.expandedBytes
  within : s.budget.expandedBytes ≤ maxArchiveExpandedBytes

theorem names_append (root names : Path) :
    (root ++ names).dropLast <+: root ∨ root <+: (root ++ names).dropLast := by
  by_cases hne : names = []
  · rw [hne, List.append_nil]
    exact .inl (List.dropLast_prefix root)
  · rw [List.dropLast_append_of_ne_nil hne]
    exact .inr (List.prefix_append _ _)

theorem unpackZipFile_adds {entry : ZipEntry} {limit : ℕ} {path : Path}
    (hroot : d.tree root = some .dir) (hlinks : d.NoLinks root)
    (h : unpackZipFile entry limit (root ++ path) d = .ok d') :
    Adds root d d' ∧ d'.written = d.written + entry.size := by
  obtain ⟨d₁, hd₁, h⟩ := Except.bind_ok h
  obtain ⟨data, -, h⟩ := Except.bind_ok h
  obtain ⟨d₂, hd₂, h⟩ := Except.bind_ok h
  obtain ⟨_, hlength, ⟨⟩⟩ := Except.bind_ok h
  obtain ⟨hadds, hwritten, hdir⟩ :=
    createDirAll_adds hroot hlinks (names_append root path) (require_ok hd₁)
  have hcreated := createAt_spec (Plain.of_dir hdir) (require_ok hd₂)
  refine ⟨hadds.trans (hcreated.adds (List.prefix_append _ _) nofun), ?_⟩
  rw [hcreated.written, hwritten, of_decide_eq_true (check_ok hlength)]

theorem unpackZipEntry_kept {s s' : ZipState} {entry : Option ZipEntry}
    (hroot : d.tree root = some .dir) (hlinks : d.NoLinks root) (hkept : ZipKept root d s)
    (h : unpackZipEntry root s entry = .ok s') : ZipKept root d s' := by
  obtain ⟨e, -, h⟩ := Except.bind_ok h
  obtain ⟨name, -, h⟩ := Except.bind_ok h
  obtain ⟨enclosed, -, h⟩ := Except.bind_ok h
  obtain ⟨_, -, h⟩ := Except.bind_ok h
  obtain ⟨_, -, h⟩ := Except.bind_ok h
  obtain ⟨budget, hbudget, h⟩ := Except.bind_ok h
  obtain ⟨_, -, h⟩ := Except.bind_ok h
  obtain ⟨-, -, hbytes, hwithin⟩ := ExtractionBudget.account_ok hbudget
  have hwritten := hkept.written
  have hroot' := hkept.adds.dir hroot
  have hlinks' := hkept.adds.noLinks hlinks
  by_cases hlink : e.unixMode.elim 0 (· &&& 0o170000) = 0o120000
  · -- a link is kept for later: the filesystem does not change
    rw [if_pos hlink] at h
    obtain ⟨target, -, ⟨⟩⟩ := Except.bind_ok h
    refine ⟨hkept.adds, ?_, hwithin⟩
    dsimp only
    omega
  · rw [if_neg hlink] at h
    obtain ⟨_, -, h⟩ := Except.bind_ok h
    obtain ⟨d₁, hd₁, ⟨⟩⟩ := Except.bind_ok h
    have hd₁ : Adds root s.disk d₁ ∧ d₁.written ≤ s.disk.written + e.size := by
      unfold unpackZipOutput at hd₁
      by_cases hdir : e.isDir = true
      · rw [if_pos hdir] at hd₁
        obtain ⟨hadds, hsame, -⟩ :=
          createDirAll_adds hroot' hlinks' (.inr (List.prefix_append _ _)) (require_ok hd₁)
        exact ⟨hadds, by omega⟩
      · rw [if_neg hdir] at hd₁
        obtain ⟨hadds, hmore⟩ := unpackZipFile_adds hroot' hlinks' hd₁
        exact ⟨hadds, hmore.le⟩
    refine ⟨hkept.adds.trans hd₁.1, ?_, hwithin⟩
    have := hd₁.2
    dsimp only
    omega

theorem resolved_ok {path place : Path} {message : String}
    (h : resolved d path message = .ok place) : d.canonicalize path = .found place := by
  unfold resolved at h
  split at h
  · next hfound =>
    cases h
    exact hfound
  · cases h

/-- What holds once the parents of some links have been reserved. -/
structure Reserved (root : Path) (d : Disk) (done : List (PathBuf × PathBuf)) (d' : Disk) :
    Prop where
  adds : Adds root d d'
  written : d'.written = d.written
  parents : ∀ link ∈ done, names link.1 ≠ [] ∧
    d'.tree (root ++ names link.1).dropLast = some .dir

theorem reserveLink_reserved {d₁ d₂ : Disk} {done : List (PathBuf × PathBuf)}
    {link : PathBuf × PathBuf} (hroot : d.tree root = some .dir) (hlinks : d.NoLinks root)
    (hdone : Reserved root d done d₁) (h : reserveLink root d₁ link = .ok d₂) :
    Reserved root d (done ++ [link]) d₂ := by
  obtain ⟨_, habsent, h⟩ := Except.bind_ok h
  obtain ⟨_, -, h⟩ := Except.bind_ok h
  have hroot₁ := hdone.adds.dir hroot
  have hne : names link.1 ≠ [] := by
    intro hnil
    have habsent := check_ok habsent
    rw [hnil, List.append_nil, lstat_of_tree hroot₁] at habsent
    cases habsent
  obtain ⟨hadds, hwritten, hdir⟩ := createDirAll_adds hroot₁ (hdone.adds.noLinks hlinks)
    (names_append root (names link.1)) (require_ok h)
  refine ⟨hdone.adds.trans hadds, hwritten.trans hdone.written, fun l hl => ?_⟩
  rcases List.mem_append.mp hl with hl | hl
  · exact ⟨(hdone.parents l hl).1, hadds.dir (hdone.parents l hl).2⟩
  · rw [List.mem_singleton.mp hl]
    exact ⟨hne, hdir⟩

/-- What holds once some of the links have been created. -/
structure Linked (root : Path) (d : Disk) (links : List (PathBuf × PathBuf)) (d' : Disk) :
    Prop where
  outside : ∀ p, ¬ root <+: p → d'.tree p = d.tree p
  kept : ∀ p, d.tree p ≠ none → d'.tree p = d.tree p
  written : d'.written = d.written
  links : ∀ p target, d'.tree p = some (.link target) →
    d.tree p = some (.link target) ∨ ∃ link ∈ links, p = root ++ names link.1

theorem symlink_linked {d₁ d₂ : Disk} {links : List (PathBuf × PathBuf)}
    {link : PathBuf × PathBuf} (hmem : link ∈ links)
    (hparent : d.tree (root ++ names link.1).dropLast = some .dir) (hdone : Linked root d links d₁)
    (h : d₁.symlink link.2 (root ++ names link.1) = some d₂) : Linked root d links d₂ := by
  have hparent₁ : d₁.tree (root ++ names link.1).dropLast = some .dir := by
    rw [hdone.kept _ (by rw [hparent]; simp), hparent]
  have hcreated := createAt_spec (Plain.of_dir hparent₁) h
  refine ⟨fun p hp => ?_, fun p hp => ?_, hcreated.written.trans hdone.written,
    fun p target hlink => ?_⟩
  · rw [hcreated.outside (List.prefix_append _ _) hp, hdone.outside p hp]
  · rw [(hcreated.kept (by rw [hdone.kept p hp]; exact hp)).1, hdone.kept p hp]
  · by_cases hp : p = root ++ names link.1
    · exact .inr ⟨link, hmem, hp⟩
    · rw [hcreated.tree, Function.update_of_ne hp] at hlink
      exact hdone.links p target hlink

/-- **The links of a ZIP are created below the root and lead below it.** -/
theorem materializeLinks_contained {links : List (PathBuf × PathBuf)}
    (hroot : d.tree root = some .dir) (hlinks : d.NoLinks root)
    (h : materializeLinks root links d = .ok d') :
    (∀ p, ¬ root <+: p → d'.tree p = d.tree p) ∧ d'.written = d.written ∧ Contained root d' := by
  obtain ⟨d₁, hd₁, h⟩ := Except.bind_ok h
  obtain ⟨_, -, h⟩ := Except.bind_ok h
  obtain ⟨d₂, hd₂, h⟩ := Except.bind_ok h
  obtain ⟨canonicalRoot, hcanonical, h⟩ := Except.bind_ok h
  obtain ⟨⟨⟩, hresolved, ⟨⟩⟩ := Except.bind_ok h
  have hreserved : Reserved root d links d₁ := by
    refine Except.foldlM_ok (motive := Reserved root d) hd₁ ⟨.refl root d, rfl, nofun⟩ ?_
    intro done link c c' hdone hstep
    exact reserveLink_reserved hroot hlinks hdone hstep
  have hlinked : Linked root d₁ links d' := by
    refine Except.foldlM_mem (motive := fun _ => Linked root d₁ links) hd₂
      ⟨fun _ _ => rfl, fun _ _ => rfl, rfl, fun _ _ h => .inl h⟩ ?_
    intro done link c c' hmem hdone hstep
    exact symlink_linked hmem (hreserved.parents link hmem).2 hdone (require_ok hstep)
  have hroot' : d'.tree root = some .dir := by
    have hroot₁ := hreserved.adds.dir hroot
    rw [hlinked.kept root (by rw [hroot₁]; simp), hroot₁]
  have hcanonical : root = canonicalRoot := by
    have := resolved_ok hcanonical
    rw [canonicalize_dir hroot'] at this
    exact Place.found.inj this
  refine ⟨fun p hp => ?_, hlinked.written.trans hreserved.written,
    fun place target hlink bound => ?_⟩
  · rw [hlinked.outside p hp, hreserved.adds.outside p hp]
  · -- a link below the root is one of the links that were created, and these were resolved
    rcases hlinked.links _ target hlink with hold | ⟨link, hmem, hplace⟩
    · exact absurd hold (hreserved.adds.noLinks hlinks _ (List.prefix_append _ _) target)
    · obtain ⟨place', hfound, hpre⟩ := Except.bind_ok (Except.forM_ok hresolved link hmem)
      have hpre := List.isPrefixOf_iff_prefix.mp (check_ok hpre)
      rw [← hplace] at hfound
      rw [← hcanonical] at hpre
      exact realpath_inside (resolved_ok hfound) hpre bound

/-- **An accepted ZIP changes nothing outside, stays within the budget and is contained.** -/
theorem unpackZip_kept {archive : Option (List (Option ZipEntry))}
    (hroot : d.tree root = some .dir) (hlinks : d.NoLinks root)
    (h : unpackZip root archive d = .ok d') :
    ∃ list, archive = some list ∧ list.length ≤ maxArchiveEntries ∧
      (∀ p, ¬ root <+: p → d'.tree p = d.tree p) ∧
      d'.written ≤ d.written + maxArchiveExpandedBytes ∧ Contained root d' := by
  obtain ⟨list, hlist, h⟩ := Except.bind_ok h
  obtain ⟨_, -, h⟩ := Except.bind_ok h
  obtain ⟨_, hcount, h⟩ := Except.bind_ok h
  obtain ⟨s, hs, h⟩ := Except.bind_ok h
  have hkept : ZipKept root d s := by
    refine Except.foldlM_ok (motive := fun _ => ZipKept root d) hs
      ⟨.refl root d, le_rfl, Nat.zero_le _⟩ ?_
    intro done entry s s' hkept hstep
    exact unpackZipEntry_kept hroot hlinks hkept hstep
  obtain ⟨houtside, hwritten, hcontained⟩ :=
    materializeLinks_contained (hkept.adds.dir hroot) (hkept.adds.noLinks hlinks) h
  refine ⟨list, require_ok hlist, of_decide_eq_true (check_ok hcount), fun p hp => ?_, ?_,
    hcontained⟩
  · rw [houtside p hp, hkept.adds.outside p hp]
  · have := hkept.written
    have := hkept.within
    omega

/-! ### Both -/

/-- A staging directory: a real directory with nothing in it. -/
structure Staging (root : Path) (d : Disk) : Prop where
  dir : d.tree root = some .dir
  empty : ∀ p, root <+: p → p ≠ root → d.tree p = none

theorem Staging.noLinks (h : Staging root d) : d.NoLinks root := by
  intro p hp target hlink
  by_cases heq : p = root
  · rw [heq, h.dir] at hlink
    cases hlink
  · rw [h.empty p hp heq] at hlink
    cases hlink

/-- Nothing has changed outside the root, and the bytes written are within the budget. -/
structure Confined (root : Path) (d d' : Disk) : Prop where
  below : ∀ p, d'.tree p ≠ d.tree p → root <+: p
  bytes : d'.written ≤ d.written + maxArchiveExpandedBytes

/-- **Extraction is confined.** An accepted archive has at most as many entries as the budget
allows, everything it leaves lies below the staging directory, and the bytes written stay within
the budget, copies of hard links included. The links of a ZIP never lead outside; those of a TAR
do not as long as none of its targets takes `..` after another link of the archive. -/
theorem unpack_confined {unpackIn : UnpackIn} (hunpack : Unpacks unpackIn)
    (hstaging : Staging root d) :
    (∀ entries d', unpackTar unpackIn root entries d = .ok d' →
      ∃ list, entries = some list ∧ list.length ≤ maxArchiveEntries ∧ Confined root d d' ∧
        (linksSettled list = true → Contained root d')) ∧
    (∀ archive d', unpackZip root archive d = .ok d' →
      ∃ list, archive = some list ∧ list.length ≤ maxArchiveEntries ∧ Confined root d d' ∧
        Contained root d') := by
  constructor
  · intro entries d' h
    obtain ⟨list, hlist, hcount, houtside, hbytes, hlinks⟩ :=
      unpackTar_kept hunpack hstaging.dir hstaging.noLinks h
    refine ⟨list, hlist, hcount, ⟨fun p hp => ?_, hbytes⟩,
      fun hsettled => contained_of_left hsettled hlinks⟩
    by_contra hout
    exact hp (houtside p hout)
  · intro archive d' h
    obtain ⟨list, hlist, hcount, houtside, hbytes, hcontained⟩ :=
      unpackZip_kept hstaging.dir hstaging.noLinks h
    refine ⟨list, hlist, hcount, ⟨fun p hp => ?_, hbytes⟩, hcontained⟩
    by_contra hout
    exact hp (houtside p hout)

/-! ### A small archive -/

/-- The link or the file an entry stands for. -/
def plainNode (entry : TarEntry) : Option (Links.Node Name × Bytes) := do
  let linkName ← entry.linkName
  if entry.symlink then
    let link ← linkName
    some (.link (PathBuf.ofBytes link).steps, [])
  else some (.file, entry.data.take entry.size)

/-- A TAR reader for entries whose parents are there. -/
def plainUnpackIn : UnpackIn := fun root entry d => do
  let path ← entry.path
  let name ← (names (.ofBytes path)).getLast?
  let (node, bytes) ← plainNode entry
  let d ← d.create (root ++ (names (.ofBytes path)).dropLast) name node bytes
  some (true, d)

theorem plainUnpackIn_created {root : Path} {entry : TarEntry} {d d' : Disk} {unpacked : Bool}
    (h : plainUnpackIn root entry d = some (unpacked, d')) :
    ∃ path node bytes, entry.path = some path ∧ names (.ofBytes path) ≠ [] ∧
      plainNode entry = some (node, bytes) ∧
      Created d (root ++ names (.ofBytes path)) node bytes d' := by
  obtain ⟨path, hpath, h⟩ := Option.bind_eq_some_iff.mp h
  obtain ⟨name, hname, h⟩ := Option.bind_eq_some_iff.mp h
  obtain ⟨⟨node, bytes⟩, hnode, h⟩ := Option.bind_eq_some_iff.mp h
  obtain ⟨d₁, hd₁, ⟨⟩⟩ := Option.bind_eq_some_iff.mp h
  have hplace := List.dropLast_append_getLast? name hname
  refine ⟨path, node, bytes, hpath, ?_, hnode, ?_⟩
  · rw [← hplace]
    simp
  · have := create_spec hd₁
    rwa [List.append_assoc, hplace] at this

theorem plainUnpackIn_unpacks : Unpacks plainUnpackIn := by
  refine ⟨fun h p hp => ?_, fun h hroot => ?_, fun h => ?_, fun h place target hlink => ?_⟩
  · obtain ⟨path, node, bytes, -, -, -, hcreated⟩ := plainUnpackIn_created h
    exact hcreated.outside (List.prefix_append _ _) hp
  · obtain ⟨path, node, bytes, -, -, -, hcreated⟩ := plainUnpackIn_created h
    rw [(hcreated.kept (by rw [hroot]; simp)).1, hroot]
  · obtain ⟨path, node, bytes, -, -, hnode, hcreated⟩ := plainUnpackIn_created h
    rw [hcreated.written]
    obtain ⟨linkName, -, hnode⟩ := Option.bind_eq_some_iff.mp hnode
    split_ifs at hnode
    · obtain ⟨link, -, ⟨⟩⟩ := Option.bind_eq_some_iff.mp hnode
      simp
    · cases hnode
      simp
  · obtain ⟨path, node, bytes, hpath, hne, hnode, hcreated⟩ := plainUnpackIn_created h
    by_cases hplace : place = names (.ofBytes path)
    · rw [hplace, hcreated.at_path] at hlink
      cases hlink
      obtain ⟨linkName, hlinkName, hnode⟩ := Option.bind_eq_some_iff.mp hnode
      split_ifs at hnode with hsymlink
      · obtain ⟨link, rfl, ⟨⟩⟩ := Option.bind_eq_some_iff.mp hnode
        exact .inr ⟨hsymlink, path, link, hpath, hlinkName, hplace ▸ hne, hplace, rfl⟩
      · cases hnode
    · rw [hcreated.tree, Function.update_of_ne fun h => hplace (List.append_cancel_left h)] at hlink
      exact .inl hlink

/-- The path of the staging directory. -/
def stagingRoot : Path := [ascii "s"]

/-- A filesystem with nothing but the staging directory. -/
def stagingDisk : Disk where
  tree := fun p => if p <+: stagingRoot then some .dir else none
  contents := fun _ => []
  written := 0
  root := if_pos List.nil_prefix
  closed := by
    intro dir name hne
    refine if_pos ?_
    by_contra hdir
    exact hne (if_neg fun h => hdir ((List.prefix_append dir [name]).trans h))

theorem stagingDisk_staging : Staging stagingRoot stagingDisk := by
  constructor
  · simp [stagingDisk]
  · intro p hp hne
    exact if_neg fun h => hne (h.eq_of_length_le hp.length_le)

/-- A symbolic link of a TAR. -/
def linkEntry (path target : String) : Option TarEntry :=
  some ⟨some (ascii path), 0, false, true, some (some (ascii target)), []⟩

/-- A TAR with a link `x` to the root and a link `m`. -/
def linkTar (target : String) : List (Option TarEntry) := [linkEntry "x" ".", linkEntry "m" target]

/-- A ZIP with a link `x` to the root. -/
def linkZip : List (Option ZipEntry) :=
  [some ⟨some "x", some (ascii "x"), 1, some 0o120777, false, some (ascii ".")⟩]

/-- Where a path leads after an extraction. -/
def leads (extraction : Extraction Disk) (path : Path) : Option (Place Name) :=
  extraction.toOption.map fun d => d.canonicalize path

theorem unpack_confined_links :
    (∃ d', unpackTar plainUnpackIn stagingRoot (some (linkTar "x")) stagingDisk = .ok d' ∧
      Confined stagingRoot stagingDisk d' ∧ Contained stagingRoot d') ∧
    ∃ d', unpackZip stagingRoot (some linkZip) stagingDisk = .ok d' ∧
      Confined stagingRoot stagingDisk d' ∧ Contained stagingRoot d' := by
  obtain ⟨htar, hzip⟩ := unpack_confined plainUnpackIn_unpacks stagingDisk_staging
  constructor
  · obtain ⟨d', h⟩ := Except.exists_of_isOk (x := unpackTar plainUnpackIn stagingRoot
      (some (linkTar "x")) stagingDisk) (by decide)
    obtain ⟨list, ⟨⟩, -, hconfined, hcontained⟩ := htar _ d' h
    exact ⟨d', h, hconfined, hcontained (by decide)⟩
  · obtain ⟨d', h⟩ := Except.exists_of_isOk (x := unpackZip stagingRoot (some linkZip) stagingDisk)
      (by decide)
    obtain ⟨list, ⟨⟩, -, hconfined, hcontained⟩ := hzip _ d' h
    exact ⟨d', h, hconfined, hcontained⟩

/-- A TAR in which `x` is a link to the root and `m` one to `x/..` is accepted, and `m` leads to the
parent of the staging directory. -/
theorem unpack_tar_above :
    Unpacks plainUnpackIn ∧ Staging stagingRoot stagingDisk ∧
    ∃ d', unpackTar plainUnpackIn stagingRoot (some (linkTar "x/..")) stagingDisk = .ok d' ∧
      d'.canonicalize (stagingRoot ++ [ascii "m"]) = .found [] ∧ ¬ Contained stagingRoot d' := by
  refine ⟨plainUnpackIn_unpacks, stagingDisk_staging, ?_⟩
  obtain ⟨d', h⟩ := Except.exists_of_isOk (x := unpackTar plainUnpackIn stagingRoot
    (some (linkTar "x/..")) stagingDisk) (by decide)
  have hleads : leads (unpackTar plainUnpackIn stagingRoot (some (linkTar "x/..")) stagingDisk)
      (stagingRoot ++ [ascii "m"]) = some (.found []) := by decide
  have hlink : (unpackTar plainUnpackIn stagingRoot (some (linkTar "x/..")) stagingDisk).toOption.map
      (fun d => d.tree (stagingRoot ++ [ascii "m"])) =
        some (some (.link [.down (ascii "x"), .up])) := by decide
  rw [h] at hleads hlink
  have hleads : d'.canonicalize (stagingRoot ++ [ascii "m"]) = .found [] := Option.some.inj hleads
  refine ⟨d', h, hleads, fun hcontained => ?_⟩
  have hinside : (d'.canonicalize (stagingRoot ++ [ascii "m"])).inside stagingRoot :=
    hcontained _ _ (Option.some.inj hlink) maxSymlinks
  rw [hleads] at hinside
  exact absurd (List.prefix_nil.mp hinside) (by decide)

end Fetch

end ArosTools
