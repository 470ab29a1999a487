import ArosTools.Media.Plan

/-!
# Media plans are well-formed trees

What `planMediaImage` returns can be written into an empty filesystem as it stands: every file and
every directory has its parent, and nothing is both.

* `Planned` — the invariant of the loop over the declared trees: what a tree adds to the
  directories, and that every file it holds is planned with its measured digest;
* `planMediaImage_inv` — the stages of a successful run;
* `plan_closed` — the directories hold all that lies above an entry. A tree always holds a file,
  so the directories above its destination are among those above the files;
* `planMediaImage_wellFormed` — **every plan is a well-formed tree.**
-/

namespace ArosTools

namespace Media

open SlashPath

/-- The places of a plan: its files, its generated files and its directories. -/
def MediaImagePlan.places (plan : MediaImagePlan) : List Bytes :=
  plan.files.map MediaPlanFile.destination ++ plan.generatedFiles ++ plan.directories

/-- A plan that is a tree. -/
structure MediaImagePlan.WellFormed (plan : MediaImagePlan) : Prop where
  /-- No place is used twice. -/
  distinct : plan.places.Nodup
  /-- Nothing lies below a file or a generated file. -/
  leaves : ∀ leaf ∈ plan.files.map MediaPlanFile.destination ++ plan.generatedFiles,
    ∀ place ∈ plan.places, ¬ Above 0x2f leaf place
  /-- All that lies above a place is a directory of the plan. -/
  closed : ∀ place ∈ plan.places, ∀ above, Above 0x2f above place → above ∈ plan.directories
  /-- The files stand in the order of their destinations. -/
  sorted : (plan.files.map MediaPlanFile.destination).Pairwise (· < ·)
  /-- No two files share a role. -/
  roles : (plan.files.map MediaPlanFile.role).Nodup
  /-- The payload is the sum of the sizes, as a 64-bit number. -/
  total : plan.totalPayloadBytes = (plan.files.map MediaPlanFile.sizeBytes).sum ∧
    plan.totalPayloadBytes < 2 ^ 64

/-- A file of a tree, at its place in a list of planned files. -/
def HoldsFile (files : List MediaPlanFile) (destination : Bytes) (file : MediaTreeFile) : Prop :=
  ∃ planned ∈ files, planned.destination = joinDestination destination file.relative ∧
    planned.sha256 = file.sha256 ∧ planned.sizeBytes = file.sizeBytes

/-- Every file of every required tree is planned once, with its measured digest and size. -/
def MediaImagePlan.HoldsTrees (plan : MediaImagePlan) (world : MediaWorld) (buildRoot : PathBuf)
    (receipt : MediaBuildReceipt) (profile : MediaProfile) : Prop :=
  ∀ tree ∈ profile.requiredTrees, ∃ declared ∈ receipt.trees, declared.role = tree.role ∧
    ∃ inventory, world.disk.measureTree world.sha256
        (buildRoot.joinPath (PathBuf.ofBytes declared.path)) = .ok inventory ∧
      ∀ file ∈ inventory.files, ∃ planned ∈ plan.files,
        planned.destination = joinDestination tree.destination file.relative ∧
        planned.sha256 = file.sha256 ∧ planned.sizeBytes = file.sizeBytes ∧
        ∀ other ∈ plan.files,
          other.destination = joinDestination tree.destination file.relative → other = planned

/-! ### The payload -/

/-- The total of a payload is the sum of the sizes of its files. -/
structure Payload.Exact (payload : Payload) : Prop where
  total : payload.totalBytes = (payload.files.map MediaPlanFile.sizeBytes).sum
  bounded : payload.totalBytes < 2 ^ 64

namespace Payload

variable {payload payload' : Payload} {file : MediaPlanFile}

theorem push_ok (h : payload.push file = .ok payload') :
    payload' = ⟨payload.files ++ [file], payload.totalBytes + file.sizeBytes⟩ ∧
      payload.totalBytes + file.sizeBytes < 2 ^ 64 := by
  unfold push at h
  obtain ⟨total, htotal, h⟩ := Except.bind_ok h
  obtain ⟨rfl, hlt⟩ := checkedAdd_eq_some.mp (elim_error_ok htotal)
  cases h
  exact ⟨rfl, hlt⟩

theorem exact_push (hexact : payload.Exact) (h : payload.push file = .ok payload') :
    payload'.Exact := by
  obtain ⟨rfl, hlt⟩ := push_ok h
  refine ⟨?_, hlt⟩
  rw [List.map_append, List.sum_append, hexact.total]
  simp

end Payload

/-! ### Explicit files -/

section Stages

variable {world : MediaWorld} {buildRoot : PathBuf} {receipt : MediaBuildReceipt}
  {profile : MediaProfile} {locks : List ResolvedMediaInputLock}
  {supplied : List ((Bytes × Bytes) × PathBuf)} {payload payload' : Payload}

theorem planRequiredFiles_exact
    (h : profile.requiredFiles.foldlM (planRequiredFile world buildRoot receipt locks supplied)
      ⟨[], 0⟩ = .ok payload) : payload.Exact := by
  refine Except.foldlM_ok (motive := fun _ payload => payload.Exact) h ⟨rfl, by decide⟩ ?_
  intro done required payload payload' hexact hstep
  unfold planRequiredFile at hstep
  obtain ⟨file, -, hstep⟩ := Except.bind_ok hstep
  exact Payload.exact_push hexact hstep

/-! ### Trees -/

theorem planTreeFile_step {role destination : Bytes} {entry : MediaTreeFile × ℕ}
    (h : planTreeFile role destination payload entry = .ok payload') :
    payload.files <+: payload'.files ∧ HoldsFile payload'.files destination entry.1 ∧
      (payload.Exact → payload'.Exact) := by
  unfold planTreeFile at h
  simp only at h
  cases hfind : payload.files.find? fun item =>
      item.destination = joinDestination destination entry.1.relative with
  | some explicit =>
    rw [hfind] at h
    obtain ⟨_, hsame, h⟩ := Except.bind_ok h
    cases h
    obtain ⟨hsha, hsize⟩ := Except.ensure_eq_ok.mp hsame
    refine ⟨List.prefix_rfl, ⟨explicit, List.mem_of_find?_eq_some hfind, ?_, hsha, hsize⟩, id⟩
    simpa using List.find?_some hfind
  | none =>
    rw [hfind] at h
    have hpush := (Payload.push_ok h).1
    refine ⟨?_, ?_, fun hexact => Payload.exact_push hexact h⟩
    · rw [hpush]
      exact List.prefix_append _ _
    · rw [hpush]
      exact ⟨_, List.mem_append_right _ (List.mem_singleton_self _), rfl, rfl, rfl⟩

theorem HoldsFile.mono {files files' : List MediaPlanFile} {destination : Bytes}
    {file : MediaTreeFile} (h : HoldsFile files destination file) (hsub : files <+: files') :
    HoldsFile files' destination file := by
  obtain ⟨planned, hmem, hplanned⟩ := h
  exact ⟨planned, hsub.subset hmem, hplanned⟩

theorem planTreeFiles_run {role destination : Bytes} {entries : List (MediaTreeFile × ℕ)}
    (h : entries.foldlM (planTreeFile role destination) payload = .ok payload') :
    payload.files <+: payload'.files ∧
      (∀ entry ∈ entries, HoldsFile payload'.files destination entry.1) ∧
      (payload.Exact → payload'.Exact) := by
  refine Except.foldlM_ok (motive := fun done p => payload.files <+: p.files ∧
    (∀ entry ∈ done, HoldsFile p.files destination entry.1) ∧ (payload.Exact → p.Exact)) h
    ⟨List.prefix_rfl, nofun, id⟩ ?_
  rintro done entry c c' ⟨hsub, hdone, hexact⟩ hstep
  obtain ⟨hsub', hentry, hexact'⟩ := planTreeFile_step hstep
  refine ⟨hsub.trans hsub', fun e he => ?_, fun h => hexact' (hexact h)⟩
  rcases List.mem_append.mp he with he | he
  · exact (hdone e he).mono hsub'
  · rw [List.mem_singleton.mp he]
    exact hentry

/-- A declared tree, its destination and its measured inventory. -/
structure TreeInput (world : MediaWorld) (buildRoot : PathBuf) (profile : MediaProfile)
    (declared : MediaBuildTree) (required : RequiredMediaTree) (inventory : MediaTreeInventory) :
    Prop where
  found : profile.requiredTrees.find? (fun tree => tree.role = declared.role) = some required
  measured : world.disk.measureTree world.sha256
    (buildRoot.joinPath (PathBuf.ofBytes declared.path)) = .ok inventory

/-- The directories and the payload after the trees `done`. -/
structure Planned (world : MediaWorld) (buildRoot : PathBuf) (profile : MediaProfile)
    (done : List MediaBuildTree) (plan : BTreeSet Bytes × Payload) : Prop where
  /-- Every directory comes from a tree. -/
  directory : ∀ place, place ∈ plan.1 ↔ ∃ declared ∈ done, ∃ required inventory,
    TreeInput world buildRoot profile declared required inventory ∧
      ∃ directory ∈ inventory.directories, place = joinDestination required.destination directory
  /-- Every file of a tree is planned. -/
  file : ∀ declared ∈ done, ∃ required inventory,
    TreeInput world buildRoot profile declared required inventory ∧
      ∀ file ∈ inventory.files, HoldsFile plan.2.files required.destination file
  exact : plan.2.Exact

theorem TreeInput.unique {declared : MediaBuildTree} {required required' : RequiredMediaTree}
    {inventory inventory' : MediaTreeInventory}
    (h : TreeInput world buildRoot profile declared required inventory)
    (h' : TreeInput world buildRoot profile declared required' inventory') :
    required = required' ∧ inventory = inventory' :=
  ⟨Option.some.inj (h.found.symm.trans h'.found), Except.ok.inj (h.measured.symm.trans h'.measured)⟩

theorem planTree_planned {done : List MediaBuildTree} {plan plan' : BTreeSet Bytes × Payload}
    {declared : MediaBuildTree} (hdone : Planned world buildRoot profile done plan)
    (h : planTree world buildRoot profile plan declared = .ok plan') :
    Planned world buildRoot profile (done ++ [declared]) plan' := by
  unfold planTree at h
  obtain ⟨required, hrequired, h⟩ := Except.bind_ok h
  obtain ⟨inventory, hinventory, h⟩ := Except.bind_ok h
  obtain ⟨payload, hpayload, h⟩ := Except.bind_ok h
  cases h
  have hinput : TreeInput world buildRoot profile declared required inventory :=
    ⟨elim_error_ok hrequired, mapError_ok hinventory⟩
  obtain ⟨hsub, hfiles, hexact⟩ := planTreeFiles_run hpayload
  refine ⟨fun place => ?_, fun tree htree => ?_, hexact hdone.exact⟩
  · rw [BTreeSet.mem_extend, hdone.directory, List.mem_map]
    constructor
    · rintro (⟨tree, htree, hplace⟩ | ⟨directory, hdirectory, rfl⟩)
      · exact ⟨tree, List.mem_append_left _ htree, hplace⟩
      · exact ⟨declared, by simp, required, inventory, hinput, directory, hdirectory, rfl⟩
    · rintro ⟨tree, htree, required', inventory', hinput', directory, hdirectory, rfl⟩
      rcases List.mem_append.mp htree with htree | htree
      · exact .inl ⟨tree, htree, required', inventory', hinput', directory, hdirectory, rfl⟩
      · rw [List.mem_singleton.mp htree] at hinput'
        obtain ⟨rfl, rfl⟩ := hinput.unique hinput'
        exact .inr ⟨directory, hdirectory, rfl⟩
  · rcases List.mem_append.mp htree with htree | htree
    · obtain ⟨required', inventory', hinput', hheld⟩ := hdone.file tree htree
      exact ⟨required', inventory', hinput', fun file hfile => (hheld file hfile).mono hsub⟩
    · rw [List.mem_singleton.mp htree]
      refine ⟨required, inventory, hinput, fun file hfile => ?_⟩
      obtain ⟨index, hindex, rfl⟩ := List.mem_iff_getElem.mp hfile
      exact hfiles (inventory.files[index], index) (List.mem_zipIdx_iff_getElem?.mpr (by simp [hindex]))

theorem planTrees_planned {plan : BTreeSet Bytes × Payload} (hexact : payload.Exact)
    (h : receipt.trees.foldlM (planTree world buildRoot profile) (.new, payload) = .ok plan) :
    Planned world buildRoot profile receipt.trees plan := by
  refine Except.foldlM_ok h ⟨fun place => ?_, nofun, hexact⟩
    fun done declared c c' hc hstep => planTree_planned hc hstep
  exact ⟨fun h => absurd h BTreeSet.notMem_new, by rintro ⟨_, h, -⟩; cases h⟩

/-! ### Directories and conflicts -/

theorem mem_closeDirectories {directories : BTreeSet Bytes} {places : List Bytes} {d : Bytes} :
    d ∈ closeDirectories directories places ↔
      d ∈ directories ∨ ∃ place ∈ places, Above 0x2f d place := by
  induction places generalizing directories with
  | nil => simp [closeDirectories]
  | cons place places ih =>
    have hstep : closeDirectories directories (place :: places) =
        closeDirectories (directories.extend (ancestors 0x2f place)) places := rfl
    rw [hstep, ih, BTreeSet.mem_extend, mem_ancestors, or_assoc]
    simp

/-- The checks of the placements, read back. -/
structure Placed (files : List MediaPlanFile) (directories : BTreeSet Bytes)
    (generatedFiles : List Bytes) : Prop where
  destinations : (files.map MediaPlanFile.destination).Nodup
  roles : (files.map MediaPlanFile.role).Nodup
  file_directory : ∀ file ∈ files, file.destination ∉ directories
  generated_file : ∀ path ∈ generatedFiles, path ∉ files.map MediaPlanFile.destination
  generated_directory : ∀ path ∈ generatedFiles, path ∉ directories

/-- The roles and the destinations that have been seen after the files `done`. -/
structure Seen (done : List MediaPlanFile) (seen : BTreeSet Bytes × BTreeSet Bytes) : Prop where
  role : ∀ role, role ∈ seen.1 ↔ role ∈ done.map MediaPlanFile.role
  destination : ∀ place, place ∈ seen.2 ↔ place ∈ done.map MediaPlanFile.destination
  roles : (done.map MediaPlanFile.role).Nodup
  destinations : (done.map MediaPlanFile.destination).Nodup

theorem checkFile_seen {done : List MediaPlanFile} {seen seen' : BTreeSet Bytes × BTreeSet Bytes}
    {file : MediaPlanFile} (hdone : Seen done seen) (h : checkFile seen file = .ok seen') :
    Seen (done ++ [file]) seen' := by
  unfold checkFile at h
  obtain ⟨_, hnew, h⟩ := Except.bind_ok h
  cases h
  obtain ⟨hrole, hplace⟩ := Except.ensure_eq_ok.mp hnew
  rw [hdone.role] at hrole
  rw [hdone.destination] at hplace
  refine ⟨fun role => ?_, fun place => ?_, ?_, ?_⟩
  · rw [BTreeSet.mem_insert, hdone.role, List.map_append, List.mem_append, List.map_singleton,
      List.mem_singleton]
  · rw [BTreeSet.mem_insert, hdone.destination, List.map_append, List.mem_append,
      List.map_singleton, List.mem_singleton]
  · rw [List.map_append, List.map_singleton, ← List.concat_eq_append, List.nodup_concat]
    exact ⟨hrole, hdone.roles⟩
  · rw [List.map_append, List.map_singleton, ← List.concat_eq_append, List.nodup_concat]
    exact ⟨hplace, hdone.destinations⟩

theorem checkPlacements_placed {files : List MediaPlanFile} {directories : BTreeSet Bytes}
    {generatedFiles : List Bytes}
    (h : checkPlacements profile files directories generatedFiles = .ok ()) :
    Placed files directories generatedFiles := by
  unfold checkPlacements at h
  obtain ⟨_, hfile, h⟩ := Except.bind_ok h
  obtain ⟨seen, hseen, h⟩ := Except.bind_ok h
  obtain ⟨_, hgenerated, h⟩ := Except.bind_ok h
  obtain ⟨_, hdirectory, -⟩ := Except.bind_ok h
  have hseen : Seen files seen := by
    refine Except.foldlM_ok hseen ⟨?_, ?_, List.nodup_nil, List.nodup_nil⟩
      fun done file c c' hc hstep => checkFile_seen hc hstep
    · simp
    · simp
  have hfile := Except.ensure_eq_ok.mp hfile
  have hgenerated := Except.ensure_eq_ok.mp hgenerated
  have hdirectory := Except.ensure_eq_ok.mp hdirectory
  simp only [List.any_eq_true, decide_eq_true_eq, not_exists, not_and] at hfile hgenerated hdirectory
  refine ⟨hseen.destinations, hseen.roles, hfile, fun path hpath => ?_, hdirectory⟩
  rw [← hseen.destination]
  exact hgenerated path hpath

end Stages

/-! ### The whole plan -/

section Whole

variable {world : MediaWorld} {resolved : ResolvedMediaProfile} {buildRoot : PathBuf}
  {receiptBytes : Bytes} {lockDocuments : List (Bytes × Bytes)}
  {externalFiles : List MediaExternalFile} {plan : MediaImagePlan}

/-- The stages of a successful run. -/
structure PlanRun (world : MediaWorld) (resolved : ResolvedMediaProfile) (buildRoot : PathBuf)
    (receiptBytes : Bytes) (lockDocuments : List (Bytes × Bytes)) (plan : MediaImagePlan)
    (receipt : MediaBuildReceipt) (locks : List ResolvedMediaInputLock)
    (supplied : List ((Bytes × Bytes) × PathBuf)) (payload : Payload)
    (planned : BTreeSet Bytes × Payload) (directories : BTreeSet Bytes) : Prop where
  parsed : parseMediaBuildReceipt world.receiptToVec world.receiptFromSlice receiptBytes =
    .ok receipt
  verified : verifyMediaBuildReceipt world.receiptToVec world.sha256 world.disk buildRoot receipt
    resolved.profile = .ok ()
  bound : bindProfileMediaInputLocks world.lockReaders world.sha256 resolved.profile
    lockDocuments = .ok locks
  explicit : resolved.profile.requiredFiles.foldlM
    (planRequiredFile world buildRoot receipt locks supplied) ⟨[], 0⟩ = .ok payload
  trees : receipt.trees.foldlM (planTree world buildRoot resolved.profile) (.new, payload) =
    .ok planned
  extent : planExtent planned.2.totalBytes resolved.profile.layout =
    .ok (plan.rawImageSizeBytes, plan.generatedFiles, plan.imageCapacityBytes)
  closed : directories = closeDirectories planned.1
    (plan.files.map MediaPlanFile.destination ++ plan.generatedFiles)
  checked : checkPlacements resolved.profile plan.files directories plan.generatedFiles = .ok ()
  result : plan =
    { profileId := resolved.profile.id
      profileSha256 := resolved.sha256
      receiptSha256 := world.sha256 receiptBytes
      receiptOrigin := receipt.origin
      buildIdentity := receipt.buildIdentity
      targetPreset := resolved.profile.targetPreset
      model := resolved.profile.model
      transport := resolved.profile.transport
      medium := resolved.profile.medium
      layout := resolved.profile.layout
      externalLockSha256 := .collect (locks.map fun lock => (lock.lock.id, lock.sha256))
      files := sortByKey MediaPlanFile.destination planned.2.files
      directories := directories.elems
      generatedFiles := plan.generatedFiles
      totalPayloadBytes := planned.2.totalBytes
      imageCapacityBytes := plan.imageCapacityBytes
      rawImageSizeBytes := plan.rawImageSizeBytes }

theorem planMediaImage_inv
    (h : planMediaImage world resolved buildRoot receiptBytes lockDocuments externalFiles =
      .ok plan) :
    ∃ receipt locks supplied payload planned directories, PlanRun world resolved buildRoot
      receiptBytes lockDocuments plan receipt locks supplied payload planned directories := by
  unfold planMediaImage at h
  obtain ⟨receipt, hparsed, h⟩ := Except.bind_ok h
  obtain ⟨⟨⟩, hverified, h⟩ := Except.bind_ok h
  obtain ⟨locks, hbound, h⟩ := Except.bind_ok h
  obtain ⟨_, -, h⟩ := Except.bind_ok h
  obtain ⟨supplied, -, h⟩ := Except.bind_ok h
  obtain ⟨_, -, h⟩ := Except.bind_ok h
  obtain ⟨payload, hexplicit, h⟩ := Except.bind_ok h
  obtain ⟨planned, htrees, h⟩ := Except.bind_ok h
  obtain ⟨extent, hextent, h⟩ := Except.bind_ok h
  obtain ⟨⟨⟩, hchecked, h⟩ := Except.bind_ok h
  cases h
  exact ⟨receipt, locks, supplied, payload, planned, _, mapError_ok hparsed, mapError_ok hverified,
    mapError_ok hbound, hexplicit, htrees, hextent, rfl, hchecked, rfl⟩

namespace PlanRun

variable {receipt : MediaBuildReceipt} {locks : List ResolvedMediaInputLock}
  {supplied : List ((Bytes × Bytes) × PathBuf)} {payload : Payload}
  {planned : BTreeSet Bytes × Payload} {directories : BTreeSet Bytes}

section

variable (run : PlanRun world resolved buildRoot receiptBytes lockDocuments plan receipt locks
  supplied payload planned directories)

include run

theorem trees_planned : Planned world buildRoot resolved.profile receipt.trees planned :=
  planTrees_planned (planRequiredFiles_exact run.explicit) run.trees

theorem files_perm : plan.files.Perm planned.2.files := by
  rw [run.result]
  exact sortByKey_perm _ _

theorem mem_directories {d : Bytes} : d ∈ plan.directories ↔ d ∈ directories := by
  rw [run.result]
  exact BTreeSet.mem_def.symm

theorem placed : Placed plan.files directories plan.generatedFiles :=
  checkPlacements_placed run.checked

/-- **The directories of a plan hold all that lies above its places.** -/
theorem plan_closed {place above : Bytes} (hplace : place ∈ plan.places)
    (habove : Above 0x2f above place) : above ∈ plan.directories := by
  have hleaf : ∀ leaf ∈ plan.files.map MediaPlanFile.destination ++ plan.generatedFiles,
      ∀ above, Above 0x2f above leaf → above ∈ plan.directories := by
    intro leaf hleaf above habove
    rw [run.mem_directories, run.closed, mem_closeDirectories]
    exact .inr ⟨leaf, hleaf, habove⟩
  rcases List.mem_append.mp hplace with hmem | hmem
  · exact hleaf place hmem above habove
  rw [run.mem_directories, run.closed, mem_closeDirectories] at hmem
  rcases hmem with hmem | ⟨leaf, hmem, hbelow⟩
  swap
  · exact hleaf leaf hmem above (habove.trans hbelow)
  -- a directory of a tree: below its destination it has the ancestors the tree has
  obtain ⟨declared, hdeclared, required, inventory, hinput, directory, hdirectory, rfl⟩ :=
    (run.trees_planned.directory place).mp hmem
  obtain ⟨t, -, hmeasured⟩ := Except.bind_ok hinput.measured
  have hinside : ∀ b, Above 0x2f b directory →
      joinDestination required.destination b ∈ plan.directories := by
    intro b hb
    rw [run.mem_directories, run.closed, mem_closeDirectories, run.trees_planned.directory]
    exact .inl ⟨declared, hdeclared, required, inventory, hinput, b,
      MediaTreeInventory.directories_closed hmeasured hdirectory hb, rfl⟩
  by_cases hroot : required.destination = []
  · simp only [joinDestination, hroot, if_true] at habove hinside
    exact hinside above habove
  · simp only [joinDestination, hroot, if_false] at habove hinside
    -- the destination itself and what is above it: a tree holds a file
    obtain ⟨required', inventory', hinput', hheld⟩ := run.trees_planned.file declared hdeclared
    obtain ⟨rfl, rfl⟩ := hinput.unique hinput'
    have hne := (verifyMediaBuildReceipt_trees run.verified).2 declared hdeclared inventory
      hinput.measured
    obtain ⟨file, hfile⟩ := List.exists_mem_of_ne_nil _ hne
    obtain ⟨item, hitem, hdestination, -⟩ := hheld file hfile
    have hitem : item.destination ∈ plan.files.map MediaPlanFile.destination :=
      List.mem_map_of_mem (run.files_perm.mem_iff.mpr hitem)
    have hbelow : Above 0x2f required.destination item.destination := by
      rw [hdestination, joinDestination, if_neg hroot]
      exact above_append _ _
    rcases above_join.mp habove with h | rfl | ⟨b, hb, rfl⟩
    · exact hleaf _ (List.mem_append_left _ hitem) above (h.trans hbelow)
    · exact hleaf _ (List.mem_append_left _ hitem) _ hbelow
    · exact hinside b hb

theorem generated_nodup : plan.generatedFiles.Nodup := by
  have hextent := run.extent
  cases hlayout : resolved.profile.layout with
  | mbrFat32 startLba sizeBytes label =>
    rw [hlayout] at hextent
    unfold planExtent at hextent
    obtain ⟨_, -, hextent⟩ := Except.bind_ok hextent
    obtain ⟨_, -, hextent⟩ := Except.bind_ok hextent
    have hnil : [] = plan.generatedFiles := congrArg (fun e => e.2.1) (Except.ok.inj hextent)
    exact hnil ▸ List.nodup_nil
  | iso9660ElTorito volumeId bootImageRole catalogPath maxSizeBytes =>
    rw [hlayout] at hextent
    unfold planExtent at hextent
    obtain ⟨_, -, hextent⟩ := Except.bind_ok hextent
    have hone : [catalogPath] = plan.generatedFiles :=
      congrArg (fun e => e.2.1) (Except.ok.inj hextent)
    exact hone ▸ List.nodup_singleton catalogPath

theorem places_nodup : plan.places.Nodup := by
  have hplaced := run.placed
  have hdirectories : plan.directories.Nodup := by
    rw [run.result]
    exact directories.nodup
  rw [MediaImagePlan.places, List.nodup_append, List.nodup_append]
  refine ⟨⟨hplaced.destinations, run.generated_nodup, fun a ha b hb hab => ?_⟩, hdirectories,
    fun a ha b hb hab => ?_⟩
  · exact hplaced.generated_file b hb (hab ▸ ha)
  · rw [← hab, run.mem_directories] at hb
    rcases List.mem_append.mp ha with ha | ha
    · obtain ⟨file, hfile, rfl⟩ := List.mem_map.mp ha
      exact hplaced.file_directory file hfile hb
    · exact hplaced.generated_directory a ha hb

theorem wellFormed : plan.WellFormed := by
  have hplaced := run.placed
  refine ⟨run.places_nodup, fun leaf hleaf place hplace habove => ?_,
    fun place hplace above habove => run.plan_closed hplace habove, ?_, hplaced.roles, ?_, ?_⟩
  · -- what lies above a place is a directory, and a leaf is none
    have hnodup := run.places_nodup
    rw [MediaImagePlan.places, List.nodup_append] at hnodup
    exact hnodup.2.2 leaf hleaf leaf (run.plan_closed hplace habove) rfl
  · have hsorted : plan.files.Pairwise fun a b => a.destination ≤ b.destination := by
      rw [run.result]
      exact sortByKey_sorted _ _
    exact (List.pairwise_map.mpr hsorted).imp₂ (fun _ _ => lt_of_le_of_ne) hplaced.destinations
  · have htotal : plan.totalPayloadBytes = planned.2.totalBytes := by rw [run.result]
    rw [htotal, run.trees_planned.exact.total]
    exact ((run.files_perm.map _).sum_eq).symm
  · have htotal : plan.totalPayloadBytes = planned.2.totalBytes := by rw [run.result]
    rw [htotal]
    exact run.trees_planned.exact.bounded

theorem holdsTrees (hroles : (resolved.profile.requiredTrees.map RequiredMediaTree.role).Nodup) :
    plan.HoldsTrees world buildRoot receipt resolved.profile := by
  intro tree htree
  have hrole : tree.role ∈ receipt.trees.map MediaBuildTree.role :=
    ((verifyMediaBuildReceipt_trees run.verified).1 _).mp (List.mem_map_of_mem htree)
  obtain ⟨declared, hdeclared, hdeclaredRole⟩ := List.mem_map.mp hrole
  obtain ⟨required, inventory, hinput, hheld⟩ := run.trees_planned.file declared hdeclared
  have hrequired : required = tree := by
    have hfound := List.find?_some hinput.found
    refine List.inj_on_of_nodup_map hroles (List.mem_of_find?_eq_some hinput.found) htree ?_
    rw [← hdeclaredRole]
    simpa using hfound
  subst hrequired
  refine ⟨declared, hdeclared, hdeclaredRole, inventory, hinput.measured, fun file hfile => ?_⟩
  obtain ⟨item, hitem, hdestination, hsha, hsize⟩ := hheld file hfile
  have hitem := run.files_perm.mem_iff.mpr hitem
  refine ⟨item, hitem, hdestination, hsha, hsize, fun other hother hsame => ?_⟩
  exact List.inj_on_of_nodup_map run.placed.destinations hother hitem (hsame.trans hdestination.symm)

end

end PlanRun

/-- The trees of a valid profile have different roles. -/
theorem validateProfile_treeRoles {source : String} {profile : MediaProfile}
    (h : validateProfile source profile = .ok ()) :
    (profile.requiredTrees.map RequiredMediaTree.role).Nodup := by
  unfold validateProfile at h
  iterate 7 obtain ⟨_, -, h⟩ := Except.bind_ok h
  obtain ⟨declared, -, h⟩ := Except.bind_ok h
  obtain ⟨roles, htrees, -⟩ := Except.bind_ok h
  have hrun : (profile.requiredTrees.map RequiredMediaTree.role).Nodup ∧
      ∀ role ∈ profile.requiredTrees.map RequiredMediaTree.role, role ∈ roles := by
    refine Except.foldlM_ok (motive := fun done roles =>
      (done.map RequiredMediaTree.role).Nodup ∧
        ∀ role ∈ done.map RequiredMediaTree.role, role ∈ roles) htrees ⟨List.nodup_nil, nofun⟩ ?_
    rintro done tree roles roles' ⟨hnodup, hmem⟩ hstep
    unfold declareTree at hstep
    obtain ⟨_, hrole, hstep⟩ := Except.bind_ok hstep
    obtain ⟨_, -, hstep⟩ := Except.bind_ok hstep
    obtain ⟨_, -, hstep⟩ := Except.bind_ok hstep
    cases hstep
    have hrole := (Except.ensure_eq_ok.mp hrole).2
    rw [List.map_append, List.map_singleton]
    refine ⟨?_, fun role hin => ?_⟩
    · rw [← List.concat_eq_append, List.nodup_concat]
      exact ⟨fun hin => hrole (hmem _ hin), hnodup⟩
    · rw [BTreeSet.mem_insert]
      rcases List.mem_append.mp hin with hin | hin
      · exact .inl (hmem role hin)
      · exact .inr (List.mem_singleton.mp hin)
  exact hrun.1

theorem parseMediaProfile_valid {fromToml : Bytes → Except String MediaProfile}
    {sha256 : Bytes → Sha256Digest} {source : String} {text : Bytes}
    (h : parseMediaProfile fromToml sha256 source text = .ok resolved) :
    validateProfile source resolved.profile = .ok () := by
  unfold parseMediaProfile at h
  obtain ⟨profile, -, h⟩ := Except.bind_ok h
  obtain ⟨⟨⟩, hvalid, h⟩ := Except.bind_ok h
  cases h
  exact hvalid

/-- **Every media plan is a well-formed tree**, and it holds every file of every required tree
once, with its measured digest. -/
theorem planMediaImage_wellFormed {source : String} {text : Bytes}
    (hprofile : parseMediaProfile world.profileFromToml world.sha256 source text = .ok resolved)
    (hplan : planMediaImage world resolved buildRoot receiptBytes lockDocuments externalFiles =
      .ok plan) :
    plan.WellFormed ∧ ∃ receipt,
      parseMediaBuildReceipt world.receiptToVec world.receiptFromSlice receiptBytes =
        .ok receipt ∧ plan.HoldsTrees world buildRoot receipt resolved.profile := by
  obtain ⟨receipt, locks, supplied, payload, planned, directories, run⟩ := planMediaImage_inv hplan
  have hroles := validateProfile_treeRoles (parseMediaProfile_valid hprofile)
  exact ⟨run.wellFormed, receipt, run.parsed, run.holdsTrees hroles⟩

end Whole

/-! ### A card with a kernel and a system tree -/

namespace Card

/-- The SHA-256 digests of the texts below, which differ in their first characters. -/
def sha256 (bytes : Bytes) : Sha256Digest :=
  match bytes.head? with
  | some 0x6b => ascii "8254c329a92850f6d539dd376f4816ee2764517da5e0235514af433164480d7a"
  | some 0x73 => ascii "043a718774c572bd8a25adbeb1bfcd5c0256ae11cecf9f9c3f925d0e52beaf89"
  | some 0x61 => ascii "763ad6b40eac5ad527aa87f65dc3dc17a334abe8c816fa0f1e12235a55380a5d"
  | some 0x66 => ascii "86b7a1f4cbf0336622b25a1d95f75c4b75a4de7f3fed98d0a90147f141fc4067"
  | _ => ascii "c7e8d6d6226d834bdf7b197586eb25c1b40f62a8d445b321220985e8f8908b9a"

/-- The text of the profile. -/
def profileText : Bytes := List.flatten
  [ascii "format_version = 2\n", ascii "id = \"card\"\n", ascii "target_preset = \"pc\"\n",
    ascii "model = \"pc\"\n", ascii "transport = \"sd\"\n", ascii "medium = \"mbr-fat32\"\n",
    ascii "boot_protocol = \"sd\"\n", ascii "label = \"Card\"\n", ascii "[layout]\n",
    ascii "kind = \"mbr-fat32\"\n", ascii "start_lba = 2048\n", ascii "size_bytes = 67108864\n",
    ascii "label = \"AROS\"\n", ascii "[[required_files]]\n", ascii "role = \"kernel\"\n",
    ascii "destination = \"boot/kernel\"\n", ascii "[[required_trees]]\n", ascii "role = \"sys\"\n",
    ascii "destination = \"sys\"\n"]

/-- A kernel below `boot`, and a complete tree below `sys`. -/
def profile : MediaProfile :=
  { formatVersion := 2, id := ascii "card", targetPreset := ascii "pc", model := ascii "pc",
    transport := ascii "sd", medium := ascii "mbr-fat32", bootProtocol := ascii "sd",
    label := ascii "Card", layout := .mbrFat32 2048 67108864 (ascii "AROS"), externalLocks := [],
    requiredFiles := [⟨ascii "kernel", ascii "boot/kernel", none⟩],
    requiredTrees := [⟨ascii "sys", ascii "sys"⟩] }

/-- The text of the receipt. -/
def receiptText : Bytes := List.flatten
  [ascii "\x7b\"format_version\":3,\"kind\":\"aros-media-inputs\",\"origin\":\"cmake\",",
    ascii "\"target_preset\":\"pc\",\"model\":\"pc\",\"transport\":\"sd\",\"build_identity\":\x7b",
    ascii "\"source_commit\":\"0000000000000000000000000000000000000000\",",
    ascii "\"source_tree\":\"1111111111111111111111111111111111111111\",",
    ascii "\"toolchain_release_id\":\"r1\",\"toolchain_tree_sha256\":\"",
    ascii "8254c329a92850f6d539dd376f4816ee2764517da5e0235514af433164480d7a",
    ascii "\",\"toolchain_manifest_sha256\":\"",
    ascii "043a718774c572bd8a25adbeb1bfcd5c0256ae11cecf9f9c3f925d0e52beaf89",
    ascii "\"\x7d,\"files\":[\x7b\"role\":\"kernel\",\"path\":\"kernel\",\"sha256\":\"",
    ascii "8254c329a92850f6d539dd376f4816ee2764517da5e0235514af433164480d7a",
    ascii "\",\"size_bytes\":1\x7d],\"trees\":[\x7b\"role\":\"sys\",\"path\":\"tree\",\"sha256\":\"",
    ascii "763ad6b40eac5ad527aa87f65dc3dc17a334abe8c816fa0f1e12235a55380a5d",
    ascii "\",\"file_count\":1,\"directory_count\":1\x7d]\x7d"]

/-- The receipt of a build with both. -/
def receipt : MediaBuildReceipt :=
  { formatVersion := 3, kind := ascii "aros-media-inputs", origin := .cmake,
    targetPreset := ascii "pc", model := ascii "pc", transport := ascii "sd",
    buildIdentity := some
      ⟨List.replicate 40 0x30, List.replicate 40 0x31, ascii "r1", sha256 [0x6b], sha256 [0x73]⟩,
    files := [⟨ascii "kernel", ascii "kernel", sha256 [0x6b], 1⟩],
    trees := [⟨ascii "sys", ascii "tree", sha256 [0x61], 1, 1⟩] }

/-- What stands in the tree: a file, and a directory without one. -/
def nodes : BTreeMap Path Toolchain.StagedNode :=
  .collect [([ascii "empty"], .directory), ([ascii "shell"], .file 0o644 [0x73])]

theorem nodes_flat : ∀ path ∈ nodes.keys, path.length = 1 := by decide

/-- The tree. -/
def tree : DiskTree where
  tree :=
    { nodes := nodes
      rooted := by decide
      closed := fun dir name h => by
        have hlength := nodes_flat _ h
        rw [List.length_append, List.length_singleton] at hlength
        exact .inl (List.length_eq_zero_iff.mp (by omega)) }
  names := by decide

/-- The root of the build. -/
def root : PathBuf := ⟨true, [.normal (ascii "build")]⟩

/-- The disk: the kernel and the tree below the root of the build. -/
def disk : MediaDisk where
  canonicalize path := .ok path
  isDir _ := true
  readRegular path :=
    if path = root.join (ascii "kernel") then .ok [0x6b] else .error (.new .notFound "absent")
  directory path :=
    if path = root.join (ascii "tree") then .ok tree else .error (.new .notFound "absent")
  canonical h ht ht' := by
    rw [← Except.ok.inj h, ht'] at ht
    exact (Except.ok.inj ht).symm

/-- The readers know the two texts. -/
def world : MediaWorld where
  sha256 := sha256
  profileFromToml _ := .ok profile
  receiptFromSlice _ := .ok receipt
  receiptToVec _ := some receiptText
  lockReaders := ⟨fun _ => .error "no lock", fun _ => none⟩
  disk := disk

/-- The plan of the card. -/
def plan : MediaImagePlan :=
  { profileId := ascii "card", profileSha256 := sha256 [0x66], receiptSha256 := sha256 [0x7b],
    receiptOrigin := .cmake, buildIdentity := receipt.buildIdentity, targetPreset := ascii "pc",
    model := ascii "pc", transport := ascii "sd", medium := ascii "mbr-fat32",
    layout := profile.layout, externalLockSha256 := .new,
    files :=
      [⟨ascii "kernel", ascii "boot/kernel", sha256 [0x6b], 1, root.join (ascii "kernel"), .build⟩,
        ⟨ascii "sys-1", ascii "sys/shell", sha256 [0x73], 1,
          (root.join (ascii "tree")).join (ascii "shell"), .build⟩],
    directories := [ascii "boot", ascii "sys", ascii "sys/empty"],
    generatedFiles := [], totalPayloadBytes := 2, imageCapacityBytes := some 68157440,
    rawImageSizeBytes := some 68157440 }

theorem parsed : parseMediaProfile world.profileFromToml world.sha256 "card" profileText =
    .ok ⟨profile, sha256 [0x66]⟩ := by
  decide

theorem planned : planMediaImage world ⟨profile, sha256 [0x66]⟩ root receiptText [] [] =
    .ok plan := by
  decide +kernel

end Card

/-- The plan of the card is a well-formed tree, with its empty directory. -/
theorem planMediaImage_wellFormed_card : Card.plan.WellFormed ∧ ∃ receipt,
    parseMediaBuildReceipt Card.world.receiptToVec Card.world.receiptFromSlice Card.receiptText =
      .ok receipt ∧ Card.plan.HoldsTrees Card.world Card.root receipt Card.profile :=
  planMediaImage_wellFormed Card.parsed Card.planned

end Media

end ArosTools
