import ArosTools.Media.PlanTree

/-!
# What a plan takes over from its inputs

* `ValidProfile` — what `validateProfile` has checked: slugs, safe destinations, and that the
  pinned locks are those the files refer to;
* `bindProfileMediaInputLocks_ids` — the bound locks are the pinned ones;
* `PlanRun.valid_destination` — every planned destination is safe;
* `PlanRun.referenced_locks` — the locks of a plan are those its external files refer to;
* `PlanRun.identity` — a plan with a build identity has a valid one, and is not a legacy plan.
-/

namespace ArosTools

namespace Media

open SlashPath

/-! ### Profiles -/

/-- What validation has checked of a profile. -/
structure ValidProfile (profile : MediaProfile) : Prop where
  slugs : ∀ field ∈ slugFields profile, validSlug field.2 = true
  targetPreset : validTargetPreset profile.targetPreset = true
  destination : ∀ file ∈ profile.requiredFiles, validDestination file.destination = true
  external : ∀ file ∈ profile.requiredFiles, ∀ external ∈ file.externalInput,
    validSlug external.lockId = true ∧ validSlug external.fileId = true
  tree : ∀ tree ∈ profile.requiredTrees,
    tree.destination = [] ∨ validDestination tree.destination = true
  locks : ∀ id, id ∈ profile.externalLocks.map MediaExternalLockPin.id ↔
    ∃ file ∈ profile.requiredFiles, ∃ external ∈ file.externalInput, external.lockId = id

section Profile

variable {source : String} {profile : MediaProfile}

/-- What the files `done` have been found to be. -/
structure FilesDeclared (done : List RequiredMediaFile) (d : Declared) : Prop where
  destination : ∀ file ∈ done, validDestination file.destination = true
  external : ∀ file ∈ done, ∀ external ∈ file.externalInput,
    validSlug external.lockId = true ∧ validSlug external.fileId = true
  locks : ∀ id, id ∈ d.referencedLocks ↔
    ∃ file ∈ done, ∃ external ∈ file.externalInput, external.lockId = id

theorem declareFile_declared {done : List RequiredMediaFile} {d d' : Declared}
    {file : RequiredMediaFile} (hdone : FilesDeclared done d)
    (h : declareFile source d file = .ok d') : FilesDeclared (done ++ [file]) d' := by
  unfold declareFile at h
  obtain ⟨_, -, h⟩ := Except.bind_ok h
  obtain ⟨_, -, h⟩ := Except.bind_ok h
  obtain ⟨_, hdestination, h⟩ := Except.bind_ok h
  obtain ⟨_, -, h⟩ := Except.bind_ok h
  have hdestination := Except.ensure_eq_ok.mp hdestination
  have hdestinations : ∀ f ∈ done ++ [file], validDestination f.destination = true := by
    intro f hf
    rcases List.mem_append.mp hf with hf | hf
    · exact hdone.destination f hf
    · rw [List.mem_singleton.mp hf]
      exact hdestination
  cases hinput : file.externalInput with
  | none =>
    rw [hinput] at h
    cases h
    refine ⟨hdestinations, fun f hf external hexternal => ?_, fun id => ?_⟩
    · rcases List.mem_append.mp hf with hf | hf
      · exact hdone.external f hf external hexternal
      · rw [List.mem_singleton.mp hf, hinput] at hexternal
        cases hexternal
    · rw [hdone.locks]
      simp [or_and_right, exists_or, hinput]
  | some external =>
    rw [hinput] at h
    obtain ⟨_, hslug, h⟩ := Except.bind_ok h
    obtain ⟨_, -, h⟩ := Except.bind_ok h
    cases h
    have hslug := Except.ensure_eq_ok.mp hslug
    refine ⟨hdestinations, fun f hf e he => ?_, fun id => ?_⟩
    · rcases List.mem_append.mp hf with hf | hf
      · exact hdone.external f hf e he
      · rw [List.mem_singleton.mp hf, hinput] at he
        obtain rfl := Option.some.inj he
        exact hslug
    · rw [BTreeSet.mem_insert, hdone.locks]
      simp [or_and_right, exists_or, hinput, eq_comm]

theorem declareTrees_destination {destinations roles roles' : BTreeSet Bytes}
    (h : profile.requiredTrees.foldlM (declareTree source destinations) roles = .ok roles') :
    ∀ tree ∈ profile.requiredTrees,
      tree.destination = [] ∨ validDestination tree.destination = true := by
  refine Except.foldlM_ok (motive := fun done _ => ∀ tree ∈ done,
    tree.destination = [] ∨ validDestination tree.destination = true) h nofun ?_
  intro done tree roles roles' hdone hstep
  unfold declareTree at hstep
  obtain ⟨_, -, hstep⟩ := Except.bind_ok hstep
  obtain ⟨_, hdestination, hstep⟩ := Except.bind_ok hstep
  intro t ht
  rcases List.mem_append.mp ht with ht | ht
  · exact hdone t ht
  · rw [List.mem_singleton.mp ht]
    exact Except.ensure_eq_ok.mp hdestination

theorem declarePins_ids {pinned : BTreeSet Bytes}
    (h : profile.externalLocks.foldlM (declarePin source) .new = .ok pinned) :
    ∀ id, id ∈ pinned ↔ id ∈ profile.externalLocks.map MediaExternalLockPin.id := by
  refine Except.foldlM_ok (motive := fun done pinned =>
    ∀ id, id ∈ pinned ↔ id ∈ done.map MediaExternalLockPin.id) h (by simp) ?_
  intro done pin pinned pinned' hmem hstep id
  unfold declarePin at hstep
  obtain ⟨_, -, hstep⟩ := Except.bind_ok hstep
  obtain ⟨_, -, hstep⟩ := Except.bind_ok hstep
  cases hstep
  rw [BTreeSet.mem_insert, hmem, List.map_append, List.mem_append, List.map_singleton,
    List.mem_singleton]

/-- **What a valid profile is.** -/
theorem validateProfile_valid (h : validateProfile source profile = .ok ()) :
    ValidProfile profile := by
  unfold validateProfile at h
  obtain ⟨_, -, h⟩ := Except.bind_ok h
  obtain ⟨_, -, h⟩ := Except.bind_ok h
  obtain ⟨⟨⟩, hslugs, h⟩ := Except.bind_ok h
  obtain ⟨_, hpreset, h⟩ := Except.bind_ok h
  obtain ⟨_, -, h⟩ := Except.bind_ok h
  obtain ⟨_, -, h⟩ := Except.bind_ok h
  obtain ⟨_, -, h⟩ := Except.bind_ok h
  obtain ⟨declared, hfiles, h⟩ := Except.bind_ok h
  obtain ⟨roles, htrees, h⟩ := Except.bind_ok h
  obtain ⟨_, -, h⟩ := Except.bind_ok h
  obtain ⟨_, -, h⟩ := Except.bind_ok h
  obtain ⟨pinned, hpins, h⟩ := Except.bind_ok h
  have hsame := Except.ensure_eq_ok.mp h
  have hdeclared : FilesDeclared profile.requiredFiles declared :=
    Except.foldlM_ok hfiles ⟨nofun, nofun, by simp⟩
      fun done file c c' hc hstep => declareFile_declared hc hstep
  refine ⟨fun field hfield => ?_, Except.ensure_eq_ok.mp hpreset, hdeclared.destination,
    hdeclared.external, declareTrees_destination htrees, fun id => ?_⟩
  · exact Except.ensure_eq_ok.mp (Except.forM_ok hslugs field hfield)
  · rw [← declarePins_ids hpins, hsame]
    exact hdeclared.locks id

end Profile

/-! ### Locks -/

section Locks

variable {readers : LockReaders} {sha256 : Bytes → Sha256Digest} {profile : MediaProfile}
  {supplied : List (Bytes × Bytes)} {locks : List ResolvedMediaInputLock}

theorem bindMediaInputLock_id {id digest bytes : Bytes} {lock : ResolvedMediaInputLock}
    (h : bindMediaInputLock readers sha256 id digest bytes = .ok lock) : lock.lock.id = id := by
  unfold bindMediaInputLock at h
  obtain ⟨_, -, h⟩ := Except.bind_ok h
  obtain ⟨_, -, h⟩ := Except.bind_ok h
  obtain ⟨_, hid, h⟩ := Except.bind_ok h
  cases h
  exact (Except.ensure_eq_ok.mp hid).1

/-- **The bound locks are the pinned ones.** -/
theorem bindProfileMediaInputLocks_ids
    (h : bindProfileMediaInputLocks readers sha256 profile supplied = .ok locks) :
    ∀ id, id ∈ locks.map (fun lock => lock.lock.id) ↔
      id ∈ profile.externalLocks.map MediaExternalLockPin.id := by
  unfold bindProfileMediaInputLocks at h
  obtain ⟨_, hlength, h⟩ := Except.bind_ok h
  obtain ⟨bound, hbound, h⟩ := Except.bind_ok h
  obtain ⟨_, -, h⟩ := Except.bind_ok h
  cases h
  have hlength := Except.ensure_eq_ok.mp hlength
  -- one bound lock for each supplied one, all different and all pinned
  have hrun : bound.2.map (fun lock => lock.lock.id) = supplied.map Prod.fst ∧
      (supplied.map Prod.fst).Nodup ∧
      (∀ id, id ∈ bound.1 ↔ id ∈ supplied.map Prod.fst) ∧
      supplied.map Prod.fst ⊆ profile.externalLocks.map MediaExternalLockPin.id := by
    refine Except.foldlM_ok (motive := fun done bound =>
      bound.2.map (fun lock => lock.lock.id) = done.map Prod.fst ∧ (done.map Prod.fst).Nodup ∧
      (∀ id, id ∈ bound.1 ↔ id ∈ done.map Prod.fst) ∧
      done.map Prod.fst ⊆ profile.externalLocks.map MediaExternalLockPin.id) hbound
      ⟨rfl, List.nodup_nil, by simp, by simp⟩ ?_
    rintro done entry c c' ⟨hids, hnodup, hseen, hsub⟩ hstep
    unfold bindSuppliedLock at hstep
    obtain ⟨_, hnew, hstep⟩ := Except.bind_ok hstep
    obtain ⟨pin, hpin, hstep⟩ := Except.bind_ok hstep
    obtain ⟨lock, hlock, hstep⟩ := Except.bind_ok hstep
    cases hstep
    have hnew := Except.ensure_eq_ok.mp hnew
    rw [hseen] at hnew
    have hpin := elim_error_ok hpin
    have hpinId : pin.id = entry.1 := by simpa using List.find?_some hpin
    simp only [List.map_append, List.map_singleton]
    refine ⟨?_, ?_, fun id => ?_, ?_⟩
    · rw [hids, bindMediaInputLock_id hlock, hpinId]
    · rw [← List.concat_eq_append, List.nodup_concat]
      exact ⟨hnew, hnodup⟩
    · rw [BTreeSet.mem_insert, hseen, List.mem_append, List.mem_singleton]
    · refine List.append_subset.mpr ⟨hsub, ?_⟩
      rw [← hpinId]
      simpa using List.mem_map_of_mem (List.mem_of_find?_eq_some hpin)
  obtain ⟨hids, hnodup, -, hsub⟩ := hrun
  have hperm : (supplied.map Prod.fst).Perm
      (profile.externalLocks.map MediaExternalLockPin.id) := by
    refine (List.subperm_of_subset hnodup hsub).perm_of_length_le ?_
    rw [List.length_map, List.length_map, hlength]
  intro id
  have hsorted := (sortByKey_perm (fun lock : ResolvedMediaInputLock => lock.lock.id) bound.2).map
    (fun lock => lock.lock.id)
  rw [hsorted.mem_iff, hids, hperm.mem_iff]

end Locks

/-! ### Planned files -/

theorem validDestination_join {destination relative : Bytes}
    (hdestination : destination = [] ∨ validDestination destination = true)
    (hrelative : validDestination relative = true) :
    validDestination (joinDestination destination relative) = true := by
  by_cases hroot : destination = []
  · rw [joinDestination, if_pos hroot]
    exact hrelative
  · rw [joinDestination, if_neg hroot]
    have hdestination := hdestination.resolve_left hroot
    simp only [validDestination, Bool.and_eq_true, Bool.not_eq_true', List.contains_eq_mem,
      decide_eq_false_iff_not, List.all_eq_true] at hdestination hrelative ⊢
    obtain ⟨⟨⟨-, hback⟩, hcolon⟩, hparts⟩ := hdestination
    obtain ⟨⟨⟨-, hback'⟩, hcolon'⟩, hparts'⟩ := hrelative
    refine ⟨⟨⟨by simp, ?_⟩, ?_⟩, fun part hpart => ?_⟩
    · simp [hback, hback']
    · simp [hcolon, hcolon']
    · rw [List.splitOn_append_cons_self] at hpart
      rcases List.mem_append.mp hpart with hpart | hpart
      · exact hparts part hpart
      · exact hparts' part hpart

/-- Where the bytes of an explicit file come from. -/
def fileOrigin (required : RequiredMediaFile) : MediaPlanFileOrigin :=
  match required.externalInput with
  | none => .build
  | some external => .external external.lockId external.fileId

/-- The planned files after the explicit files `done`: safe places, and the origins of `done`. -/
structure Sourced (done : List RequiredMediaFile) (files : List MediaPlanFile) : Prop where
  destination : ∀ file ∈ files, validDestination file.destination = true
  origin : ∀ file ∈ files, file.origin = .build ∨ ∃ required ∈ done, file.origin = fileOrigin required
  explicit : ∀ required ∈ done, ∃ file ∈ files, file.origin = fileOrigin required

section Files

variable {world : MediaWorld} {buildRoot : PathBuf} {receipt : MediaBuildReceipt}
  {profile : MediaProfile} {locks : List ResolvedMediaInputLock}
  {supplied : List ((Bytes × Bytes) × PathBuf)} {payload payload' : Payload}

theorem planFile_source {required : RequiredMediaFile} {file : MediaPlanFile}
    (h : planFile world buildRoot receipt locks supplied required = .ok file) :
    file.destination = required.destination ∧ file.origin = fileOrigin required := by
  unfold planFile at h
  cases hinput : required.externalInput with
  | none =>
    rw [hinput] at h
    unfold planBuildFile at h
    obtain ⟨_, -, h⟩ := Except.bind_ok h
    obtain ⟨_, -, h⟩ := Except.bind_ok h
    cases h
    exact ⟨rfl, by rw [fileOrigin, hinput]⟩
  | some external =>
    rw [hinput] at h
    unfold planExternalFile at h
    iterate 6 obtain ⟨_, -, h⟩ := Except.bind_ok h
    cases h
    exact ⟨rfl, by rw [fileOrigin, hinput]⟩

theorem planRequiredFiles_sourced (hvalid : ValidProfile profile)
    (h : profile.requiredFiles.foldlM (planRequiredFile world buildRoot receipt locks supplied)
      ⟨[], 0⟩ = .ok payload) : Sourced profile.requiredFiles payload.files := by
  refine Except.foldlM_mem (motive := fun done payload => Sourced done payload.files) h
    ⟨nofun, nofun, nofun⟩ ?_
  intro done required c c' hmem hc hstep
  unfold planRequiredFile at hstep
  obtain ⟨file, hfile, hstep⟩ := Except.bind_ok hstep
  obtain ⟨hdestination, horigin⟩ := planFile_source hfile
  obtain ⟨rfl, -⟩ := Payload.push_ok hstep
  refine ⟨fun f hf => ?_, fun f hf => ?_, fun r hr => ?_⟩
  · rcases List.mem_append.mp hf with hf | hf
    · exact hc.destination f hf
    · rw [List.mem_singleton.mp hf, hdestination]
      exact hvalid.destination required hmem
  · rcases List.mem_append.mp hf with hf | hf
    · exact (hc.origin f hf).imp_right fun ⟨r, hr, ho⟩ => ⟨r, List.mem_append_left _ hr, ho⟩
    · rw [List.mem_singleton.mp hf]
      exact .inr ⟨required, by simp, horigin⟩
  · rcases List.mem_append.mp hr with hr | hr
    · obtain ⟨f, hf, ho⟩ := hc.explicit r hr
      exact ⟨f, List.mem_append_left _ hf, ho⟩
    · rw [List.mem_singleton.mp hr]
      exact ⟨file, by simp, horigin⟩

theorem planTreeFile_sourced {done : List RequiredMediaFile} {role destination : Bytes}
    {entry : MediaTreeFile × ℕ} (hsourced : Sourced done payload.files)
    (hplace : validDestination (joinDestination destination entry.1.relative) = true)
    (h : planTreeFile role destination payload entry = .ok payload') :
    Sourced done payload'.files := by
  unfold planTreeFile at h
  simp only at h
  cases hfind : payload.files.find? fun item =>
      item.destination = joinDestination destination entry.1.relative with
  | some explicit =>
    rw [hfind] at h
    obtain ⟨_, -, h⟩ := Except.bind_ok h
    cases h
    exact hsourced
  | none =>
    rw [hfind] at h
    rw [(Payload.push_ok h).1]
    refine ⟨fun f hf => ?_, fun f hf => ?_, fun r hr => ?_⟩
    · rcases List.mem_append.mp hf with hf | hf
      · exact hsourced.destination f hf
      · rw [List.mem_singleton.mp hf]
        exact hplace
    · rcases List.mem_append.mp hf with hf | hf
      · exact hsourced.origin f hf
      · rw [List.mem_singleton.mp hf]
        exact .inl rfl
    · obtain ⟨f, hf, ho⟩ := hsourced.explicit r hr
      exact ⟨f, List.mem_append_left _ hf, ho⟩

theorem planTree_sourced {done : List RequiredMediaFile} (hvalid : ValidProfile profile)
    {plan plan' : BTreeSet Bytes × Payload} {declared : MediaBuildTree}
    (hsourced : Sourced done plan.2.files)
    (h : planTree world buildRoot profile plan declared = .ok plan') :
    Sourced done plan'.2.files := by
  unfold planTree at h
  obtain ⟨required, hrequired, h⟩ := Except.bind_ok h
  obtain ⟨inventory, hinventory, h⟩ := Except.bind_ok h
  obtain ⟨payload, hpayload, h⟩ := Except.bind_ok h
  cases h
  have hrequired := List.mem_of_find?_eq_some (elim_error_ok hrequired)
  obtain ⟨t, -, hmeasured⟩ := Except.bind_ok (mapError_ok hinventory)
  refine Except.foldlM_mem (motive := fun _ payload => Sourced done payload.files) hpayload
    hsourced fun _ entry c c' hentry hc hstep => planTreeFile_sourced hc ?_ hstep
  obtain ⟨file, index⟩ := entry
  have hfile : file ∈ inventory.files := List.fst_mem_of_mem_zipIdx hentry
  exact validDestination_join (hvalid.tree required hrequired)
    (MediaTreeInventory.valid_file hmeasured hfile)

end Files

namespace PlanRun

variable {world : MediaWorld} {resolved : ResolvedMediaProfile} {buildRoot : PathBuf}
  {receiptBytes : Bytes} {lockDocuments : List (Bytes × Bytes)} {plan : MediaImagePlan}
  {receipt : MediaBuildReceipt} {locks : List ResolvedMediaInputLock}
  {supplied : List ((Bytes × Bytes) × PathBuf)} {payload : Payload}
  {planned : BTreeSet Bytes × Payload} {directories : BTreeSet Bytes}

section

variable (run : PlanRun world resolved buildRoot receiptBytes lockDocuments plan receipt locks
  supplied payload planned directories) (hvalid : ValidProfile resolved.profile)

include run hvalid

theorem sourced : Sourced resolved.profile.requiredFiles plan.files := by
  have htrees : Sourced resolved.profile.requiredFiles planned.2.files :=
    Except.foldlM_ok (motive := fun _ plan => Sourced resolved.profile.requiredFiles plan.2.files)
      run.trees (planRequiredFiles_sourced hvalid run.explicit)
      fun _ declared c c' hc hstep => planTree_sourced hvalid hc hstep
  refine ⟨fun f hf => ?_, fun f hf => ?_, fun r hr => ?_⟩
  · exact htrees.destination f (run.files_perm.mem_iff.mp hf)
  · exact htrees.origin f (run.files_perm.mem_iff.mp hf)
  · obtain ⟨f, hf, ho⟩ := htrees.explicit r hr
    exact ⟨f, run.files_perm.mem_iff.mpr hf, ho⟩

/-- **Every planned destination is safe.** -/
theorem valid_destination : ∀ file ∈ plan.files, validDestination file.destination = true :=
  (run.sourced hvalid).destination

/-- The names in the origin of a planned file are slugs. -/
theorem origin_slugs {file : MediaPlanFile} (hfile : file ∈ plan.files) {lockId fileId : Bytes}
    (horigin : file.origin = .external lockId fileId) :
    validSlug lockId = true ∧ validSlug fileId = true := by
  rcases (run.sourced hvalid).origin file hfile with h | ⟨required, hrequired, h⟩
  · rw [h] at horigin
    cases horigin
  · rw [h, fileOrigin] at horigin
    cases hinput : required.externalInput with
    | none => simp [hinput] at horigin
    | some external =>
      simp only [hinput, MediaPlanFileOrigin.external.injEq] at horigin
      obtain ⟨rfl, rfl⟩ := horigin
      exact hvalid.external required hrequired external hinput

omit hvalid in
theorem mem_locks {id : Bytes} : id ∈ plan.externalLockSha256.keys ↔
    id ∈ resolved.profile.externalLocks.map MediaExternalLockPin.id := by
  have hkeys : ∀ (entries : List (Bytes × Sha256Digest)) (m : BTreeMap Bytes Sha256Digest),
      id ∈ (entries.foldl (fun m entry => m.insert entry.1 entry.2) m).keys ↔
        id ∈ m.keys ∨ id ∈ entries.map Prod.fst := by
    intro entries
    induction entries with
    | nil => simp
    | cons entry entries ih =>
      intro m
      rw [List.foldl_cons, ih, BTreeMap.mem_keys, BTreeMap.mem_keys]
      simp only [BTreeMap.get_insert]
      by_cases hid : id = entry.1
      · simp [hid]
      · simp [hid]
  rw [run.result, ← bindProfileMediaInputLocks_ids run.bound]
  refine (hkeys _ _).trans ?_
  simp [BTreeMap.keys, BTreeMap.new]

/-- **The locks of a plan are those its external files refer to.** -/
theorem referenced_locks {id : Bytes} : id ∈ plan.externalLockSha256.keys ↔
    ∃ file ∈ plan.files, ∃ fileId, file.origin = .external id fileId := by
  rw [run.mem_locks, hvalid.locks]
  constructor
  · rintro ⟨required, hrequired, external, hexternal, rfl⟩
    obtain ⟨file, hfile, horigin⟩ := (run.sourced hvalid).explicit required hrequired
    rw [fileOrigin, Option.mem_def.mp hexternal] at horigin
    exact ⟨file, hfile, external.fileId, horigin⟩
  · rintro ⟨file, hfile, fileId, horigin⟩
    rcases (run.sourced hvalid).origin file hfile with h | ⟨required, hrequired, h⟩
    · rw [h] at horigin
      cases horigin
    · rw [h, fileOrigin] at horigin
      cases hinput : required.externalInput with
      | none => simp [hinput] at horigin
      | some external =>
        simp only [hinput, MediaPlanFileOrigin.external.injEq] at horigin
        exact ⟨required, hrequired, external, hinput, horigin.1⟩

omit hvalid in
/-- **A plan with a build identity has a valid one**, and is not a legacy plan. -/
theorem identity {identity : MediaBuildIdentity} (h : plan.buildIdentity = some identity) :
    plan.receiptOrigin = .cmake ∧ validateMediaBuildIdentity identity = .ok () := by
  have hverified := run.verified
  unfold verifyMediaBuildReceipt at hverified
  obtain ⟨⟨⟩, hreceipt, -⟩ := Except.bind_ok hverified
  unfold validateReceipt at hreceipt
  obtain ⟨_, -, hreceipt⟩ := Except.bind_ok hreceipt
  obtain ⟨_, -, hreceipt⟩ := Except.bind_ok hreceipt
  obtain ⟨_, -, hreceipt⟩ := Except.bind_ok hreceipt
  obtain ⟨⟨⟩, horigin, -⟩ := Except.bind_ok hreceipt
  rw [run.result] at h ⊢
  simp only at h ⊢
  unfold validateOrigin at horigin
  rw [h] at horigin
  obtain ⟨_, hcmake, hidentity⟩ := Except.bind_ok horigin
  exact ⟨(Except.ensure_eq_ok.mp hcmake).1, hidentity⟩

end

end PlanRun

end Media

end ArosTools
