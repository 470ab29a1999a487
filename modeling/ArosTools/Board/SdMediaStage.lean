import ArosTools.Board.SdMediaHolds

/-!
# Staged FAT32 images

`stageFat32MediaPlan` composes, verifies and publishes; this module says what it has published.

* `stageFat32MediaPlan_inv` — the stages of a successful run;
* `verifyRawImage_holds` — an image that passes holds its plan if the plan is covered, and only
  then: the composer makes the directories above the files and no others;
* `attested_of_planRun` — a plan of the planner is attested;
* `stageFat32MediaPlan_holds` — **a staged image holds its plan exactly if every directory of the
  plan lies above a file**, and the published manifest is accepted either way.
-/

namespace ArosTools

open Media SlashPath

/-! ### Plans of the planner -/

namespace Media

theorem codePoints_ascii {text : Bytes} (h : ∀ b ∈ text, b < 0x80) :
    codePoints text = text.map UInt8.toNat := by
  have hlead : ∀ b ∈ text, leadBits b = b.toNat := fun b hb => by rw [leadBits, if_pos (h b hb)]
  have hcontinue : ∀ b ∈ text, ¬ (0x80 ≤ b ∧ b < 0xc0) := fun b hb hle =>
    absurd (h b hb) (UInt8.not_lt.mpr hle.1)
  clear h
  induction text using List.reverseRecOn with
  | nil => rfl
  | append_singleton text b ih =>
    have hstep := ih (fun c hc => hlead c (List.mem_append_left _ hc))
      (fun c hc => hcontinue c (List.mem_append_left _ hc))
    have hb : b ∈ text ++ [b] := List.mem_append_right _ (List.mem_singleton_self b)
    rw [codePoints, List.reverse_eq_iff] at hstep
    rw [codePoints, List.foldl_append, hstep, List.map_append]
    cases hdone : (text.map UInt8.toNat).reverse with
    | nil =>
      rw [List.reverse_eq_nil_iff] at hdone
      rw [hdone]
      exact congrArg (fun n => [n]) (hlead b hb)
    | cons c rest =>
      rw [List.reverse_eq_iff, List.reverse_cons] at hdone
      simp [hdone, if_neg (hcontinue b hb), hlead b hb]

/-- A byte of a slug or of a target preset. -/
def nameByte (b : UInt8) : Bool := lowerOrDigit b || b == 0x2d || b == 0x5f

theorem nameByte_plain {b : UInt8} (h : nameByte b = true) :
    b < 0x80 ∧ isSpace b.toNat = false := by
  have hfin : ∀ n : Fin 256, nameByte (UInt8.ofNat n) = true →
      UInt8.ofNat n < 0x80 ∧ isSpace (UInt8.ofNat n).toNat = false := by
    decide +kernel
  have hb := hfin ⟨b.toNat, b.toNat_lt⟩
  rw [UInt8.ofNat_toNat] at hb
  exact hb h

theorem isTrimmed_of_nameBytes {text : Bytes} (h : ∀ b ∈ text, nameByte b = true) :
    isTrimmed text = true := by
  have hplain : ∀ c ∈ text.map UInt8.toNat, isSpace c = false := by
    intro c hc
    obtain ⟨b, hb, rfl⟩ := List.mem_map.mp hc
    exact (nameByte_plain (h b hb)).2
  rw [isTrimmed, codePoints_ascii fun b hb => (nameByte_plain (h b hb)).1]
  generalize text.map UInt8.toNat = chars at hplain
  simp only [Bool.not_eq_true', Bool.or_eq_false_iff, Option.any_eq_false]
  exact ⟨fun c hc => hplain c (List.mem_of_mem_head? hc),
    fun c hc => hplain c (List.mem_of_mem_getLast? hc)⟩

theorem validSlug_trimmed {text : Bytes} (h : validSlug text = true) :
    text ≠ [] ∧ isTrimmed text = true := by
  simp only [validSlug, Bool.and_eq_true, decide_eq_true_eq, List.all_eq_true] at h
  refine ⟨h.1.1, isTrimmed_of_nameBytes fun b hb => ?_⟩
  rw [nameByte, h.2 b hb, Bool.true_or]

theorem validTargetPreset_trimmed {text : Bytes} (h : validTargetPreset text = true) :
    text ≠ [] ∧ isTrimmed text = true := by
  simp only [validTargetPreset, Bool.and_eq_true, decide_eq_true_eq, List.all_eq_true] at h
  exact ⟨h.1.1, isTrimmed_of_nameBytes h.2⟩

end Media

namespace Board

theorem validSlug_role {text : Bytes} (h : validSlug text = true) : validRole text = true := by
  simp only [validSlug, Bool.and_eq_true] at h
  simp only [validRole, Bool.and_eq_true]
  exact ⟨h.1.1, h.2⟩

/-- **A plan of the planner is attested.** -/
theorem attested_of_planRun {world : MediaWorld} {resolved : ResolvedMediaProfile}
    {buildRoot : PathBuf} {receiptBytes : Bytes} {lockDocuments : List (Bytes × Bytes)}
    {plan : MediaImagePlan} {receipt : MediaBuildReceipt} {locks : List ResolvedMediaInputLock}
    {supplied : List ((Bytes × Bytes) × PathBuf)} {payload : Payload}
    {planned : BTreeSet Bytes × Payload} {directories : BTreeSet Bytes}
    (run : PlanRun world resolved buildRoot receiptBytes lockDocuments plan receipt locks supplied
      payload planned directories) (hvalid : ValidProfile resolved.profile) : Attested plan := by
  have hslug : ∀ text ∈ [resolved.profile.id, resolved.profile.model, resolved.profile.transport],
      text ≠ [] ∧ isTrimmed text = true := by
    intro text htext
    refine validSlug_trimmed ?_
    have hfields := hvalid.slugs
    simp only [slugFields, List.forall_mem_cons] at hfields
    obtain ⟨hid, hmodel, htransport, -⟩ := hfields
    simp only [List.mem_cons, List.not_mem_nil, or_false] at htext
    rcases htext with rfl | rfl | rfl
    · exact hid
    · exact hmodel
    · exact htransport
  refine ⟨fun text htext => ?_, fun hlegacy => ?_, fun identity hidentity => ?_,
    fun file hfile lockId fileId horigin => ?_, fun id => run.referenced_locks hvalid⟩
  · rw [run.result] at htext
    simp only [List.mem_cons, List.not_mem_nil, or_false] at htext
    rcases htext with rfl | rfl | rfl | rfl
    · exact hslug _ (.head _)
    · exact validTargetPreset_trimmed hvalid.targetPreset
    · exact hslug _ (.tail _ (.head _))
    · exact hslug _ (.tail _ (.tail _ (.head _)))
  · by_contra hsome
    obtain ⟨identity, hidentity⟩ := Option.ne_none_iff_exists'.mp hsome
    have hcmake := (run.identity hidentity).1
    rw [hlegacy] at hcmake
    cases hcmake
  · exact (run.identity hidentity).2
  · obtain ⟨hlock, hid⟩ := run.origin_slugs hvalid hfile horigin
    exact ⟨validSlug_role hlock, validSlug_role hid⟩

/-! ### What a verified image holds -/

/-- A file as the verifier expects it. -/
def expectation (file : VerifiedBootFile) : ImageFileExpectation :=
  ⟨file.destination, file.sha256, file.sizeBytes⟩

section Image

variable {fat : FatFs} {sha256 : Bytes → Sha256Digest} {plan : MediaImagePlan}
  {partition : PartitionLayout} {files : List VerifiedBootFile} {image : ImageFile fat}
  {geometry : ImageGeometry}

theorem mem_expectations (hvalid : ValidPlan plan partition files)
    (p : ImageFileExpectation → Prop) :
    (∃ e ∈ files.map expectation, p e) ↔ ∃ file ∈ plan.files, p (expectation (bootFile file)) := by
  simp only [List.mem_map, exists_exists_and_eq_and, hvalid.files.mem_iff]

/-- **An image that passes holds its plan if the plan is covered, and only then.** -/
theorem verifyRawImage_holds (hvalid : ValidPlan plan partition files)
    (hsafe : ∀ file ∈ plan.files, validDestination file.destination = true)
    (hclosed : ∀ file ∈ plan.files, ∀ above, Above 0x2f above file.destination →
      above ∈ plan.directories)
    (h : verifyRawImage fat sha256 (files.map expectation) image geometry = .ok ()) :
    HoldsPlan sha256 image.volume plan ↔ Covered plan := by
  unfold verifyRawImage at h
  obtain ⟨_, -, h⟩ := Except.bind_ok h
  obtain ⟨_, -, h⟩ := Except.bind_ok h
  obtain ⟨_, -, h⟩ := Except.bind_ok h
  obtain ⟨⟨⟩, hinventory, h⟩ := Except.bind_ok h
  obtain ⟨⟨⟩, hback, -⟩ := Except.bind_ok h
  obtain ⟨inventory, hfound, hexpected⟩ := verifyFatInventory_holds hinventory
  have htext : ∀ file ∈ plan.files,
      portablePath (PathBuf.ofBytes file.destination) = file.destination := by
    intro file hfile
    obtain ⟨key, hkey⟩ := hvalid.names.key (planName file) (List.mem_map_of_mem hfile)
    exact portablePath_ofBytes (hsafe file hfile) hkey
  -- the keys of the image, in the words of the plan
  have hfiles : ∀ key, (∃ path, fat.Listed image.volume path false ∧
      placeKey (listedText path) = .ok key) ↔
      ∃ file ∈ plan.files, placeKey file.destination = .ok key := by
    intro key
    have hkey := (hfound.files key).symm.trans (hexpected.fileKey key)
    rw [mem_expectations hvalid] at hkey
    simpa [bootFile, expectation, placeKey_ofBytes, listedText] using hkey
  have hdirs : ∀ key, (∃ path, fat.Listed image.volume path true ∧
      placeKey (listedText path) = .ok key) ↔
      ∃ file ∈ plan.files, ∃ above, Above 0x2f above file.destination ∧
        placeKey above = .ok key := by
    intro key
    have hkey := (hfound.dirs key).symm.trans (hexpected.dirKey key)
    rw [mem_expectations hvalid] at hkey
    have hplan : (∃ file ∈ plan.files, ∃ above, Above 0x2f above
        (portablePath (PathBuf.ofBytes file.destination)) ∧ placeKey above = .ok key) ↔
        ∃ file ∈ plan.files, ∃ above, Above 0x2f above file.destination ∧
          placeKey above = .ok key :=
      exists_congr fun file => and_congr_right fun hfile => by rw [htext file hfile]
    rw [← hplan]
    simpa [bootFile, expectation, listedText] using hkey
  constructor
  · intro hholds directory hdirectory
    obtain ⟨path, hpath, key, hlisted, hkey⟩ := hholds.directory directory hdirectory
    obtain ⟨file, hfile, above, habove, haboveKey⟩ := (hdirs key).mp ⟨path, hpath, hlisted⟩
    exact ⟨file, hfile, above, habove, key, haboveKey, hkey⟩
  · intro hcovered
    refine ⟨fun file hfile => ?_, fun path hpath => ?_, fun directory hdirectory => ?_,
      fun path hpath => ?_, fun file hfile => ?_⟩
    · obtain ⟨key, hkey⟩ := hvalid.names.key (planName file) (List.mem_map_of_mem hfile)
      obtain ⟨path, hpath, hlisted⟩ := (hfiles key).mpr ⟨file, hfile, hkey⟩
      exact ⟨path, hpath, key, hlisted, hkey⟩
    · obtain ⟨key, hkey⟩ := hfound.keyed path false hpath
      obtain ⟨file, hfile, hfileKey⟩ := (hfiles key).mp ⟨path, hpath, hkey⟩
      exact ⟨file, hfile, key, hkey, hfileKey⟩
    · obtain ⟨file, hfile, above, habove, key, haboveKey, hkey⟩ := hcovered directory hdirectory
      obtain ⟨path, hpath, hlisted⟩ := (hdirs key).mpr ⟨file, hfile, above, habove, haboveKey⟩
      exact ⟨path, hpath, key, hlisted, hkey⟩
    · obtain ⟨key, hkey⟩ := hfound.keyed path true hpath
      obtain ⟨file, hfile, above, habove, haboveKey⟩ := (hdirs key).mp ⟨path, hpath, hkey⟩
      exact ⟨above, hclosed file hfile above habove, key, hkey, haboveKey⟩
    · have hmem : expectation (bootFile file) ∈ files.map expectation :=
        List.mem_map_of_mem (hvalid.files.mem_iff.mpr (List.mem_map_of_mem hfile))
      have hread := Except.forM_ok hback _ hmem
      unfold readBack at hread
      obtain ⟨bytes, hbytes, hsame⟩ := Except.bind_ok hread
      have hopen : fat.openFile image.volume file.destination = .ok bytes := by
        rw [← htext file hfile]
        exact hbytes
      exact ⟨bytes, hopen, Except.ensure_eq_ok.mp hsame⟩

end Image

/-! ### Runs -/

/-- What a verified artifact says of its inputs and of its image agrees with the plan and with
the result of the stage. -/
structure SameDigests (plan : MediaImagePlan) (staged : StagedMediaImage)
    (verified : VerifiedMediaArtifact) : Prop where
  profile : verified.profileSha256 = plan.profileSha256
  receipt : verified.receiptSha256 = plan.receiptSha256
  locks : verified.externalLockSha256 = plan.externalLockSha256
  image : verified.imageSha256 = staged.image.sha256
  size : verified.imageSizeBytes = staged.image.sizeBytes

section Stage

variable {fat : FatFs} {host : BoardHost fat} {plan : MediaImagePlan} {outputDir : PathBuf}
  {staged : StagedMediaImage} {artifact : Artifact fat}

/-- The stages of a successful run. -/
structure StageRun (host : BoardHost fat) (plan : MediaImagePlan) (staged : StagedMediaImage)
    (artifact : Artifact fat) (partition : PartitionLayout) (files : List VerifiedBootFile)
    (image : ImageFile fat) (geometry : ImageGeometry) (raw : RawImage) (encoded : Bytes)
    (verified : VerifiedMediaArtifact) : Prop where
  validated : validateMediaPlanForFat32 host.sha256 host.readSource plan = .ok (partition, files)
  readBack : verifyRawImage fat host.sha256 (files.map expectation) image geometry = .ok ()
  rendered : host.manifestToVec (mediaManifest plan partition raw) = .ok encoded
  sha256 : staged.image.sha256 = raw.sha256
  size : staged.image.sizeBytes = raw.sizeBytes
  published : artifact = [(mediaRawImageFilename, .image image),
    (mediaArtifactManifest, .text (encoded ++ [0x0a])),
    (artifactChecksums, .text (checksumText raw.sha256 (host.sha256 (encoded ++ [0x0a]))))]
  verified : verifyFat32MediaArtifact host artifact = .ok verified

theorem stageFat32MediaPlan_inv
    (h : stageFat32MediaPlan host plan outputDir = .ok (staged, artifact)) :
    ∃ partition files image geometry raw encoded verified,
      StageRun host plan staged artifact partition files image geometry raw encoded verified := by
  unfold stageFat32MediaPlan stageFat32MediaPlanWithGate at h
  obtain ⟨⟨partition, files⟩, hvalidated, h⟩ := Except.bind_ok h
  obtain ⟨destination, -, h⟩ := Except.bind_ok h
  obtain ⟨stage, -, h⟩ := Except.bind_ok h
  obtain ⟨⟨raw, image⟩, hbuilt, h⟩ := Except.bind_ok h
  obtain ⟨manifest, hmanifest, h⟩ := Except.bind_ok h
  obtain ⟨_, -, h⟩ := Except.bind_ok h
  obtain ⟨_, -, h⟩ := Except.bind_ok h
  obtain ⟨verified, hverified, h⟩ := Except.bind_ok h
  obtain ⟨_, -, h⟩ := Except.bind_ok h
  obtain ⟨_, -, h⟩ := Except.bind_ok h
  cases h
  unfold renderMediaManifest at hmanifest
  obtain ⟨encoded, hencoded, hmanifest⟩ := Except.bind_ok hmanifest
  cases hmanifest
  unfold buildRawImageFromParts at hbuilt
  obtain ⟨geometry, -, hbuilt⟩ := Except.bind_ok hbuilt
  obtain ⟨volume, -, hbuilt⟩ := Except.bind_ok hbuilt
  obtain ⟨⟨⟩, hread, hbuilt⟩ := Except.bind_ok hbuilt
  obtain ⟨_, -, hbuilt⟩ := Except.bind_ok hbuilt
  cases hbuilt
  exact ⟨partition, files, _, geometry, _, encoded, verified, hvalidated, hread, hencoded, rfl, rfl,
    rfl, hverified⟩

namespace StageRun

variable {partition : PartitionLayout} {files : List VerifiedBootFile} {image : ImageFile fat}
  {geometry : ImageGeometry} {raw : RawImage} {encoded : Bytes} {verified : VerifiedMediaArtifact}

theorem openImage_ok (run : StageRun host plan staged artifact partition files image geometry raw
    encoded verified) : openImage artifact = .ok image := by
  rw [run.published]
  rfl

/-- **The digests of a published artifact are those of the plan and of the result.** -/
theorem sameDigests (run : StageRun host plan staged artifact partition files image geometry raw
    encoded verified)
    (hjson : ∀ manifest bytes, host.manifestToVec manifest = .ok bytes →
      host.manifestFromSlice (bytes ++ [0x0a]) = .ok manifest) :
    SameDigests plan staged verified := by
  have hverified := run.verified
  unfold verifyFat32MediaArtifact at hverified
  obtain ⟨_, -, hverified⟩ := Except.bind_ok hverified
  obtain ⟨_, -, hverified⟩ := Except.bind_ok hverified
  obtain ⟨bytes, hbytes, hverified⟩ := Except.bind_ok hverified
  obtain ⟨manifest, hmanifest, hverified⟩ := Except.bind_ok hverified
  obtain ⟨_, -, hverified⟩ := Except.bind_ok hverified
  obtain ⟨_, -, hverified⟩ := Except.bind_ok hverified
  obtain ⟨_, -, hverified⟩ := Except.bind_ok hverified
  obtain ⟨_, -, hverified⟩ := Except.bind_ok hverified
  obtain ⟨⟨⟩, hsame, hverified⟩ := Except.bind_ok hverified
  obtain ⟨_, -, hverified⟩ := Except.bind_ok hverified
  obtain ⟨_, -, hverified⟩ := Except.bind_ok hverified
  obtain ⟨_, -, hverified⟩ := Except.bind_ok hverified
  cases hverified
  have htext : bytes = encoded ++ [0x0a] := by
    have hlookup : artifact.lookup mediaArtifactManifest = some (.text (encoded ++ [0x0a])) := by
      rw [run.published]
      rfl
    unfold readBoundedRegular at hbytes
    rw [hlookup] at hbytes
    obtain ⟨_, -, hbytes⟩ := Except.bind_ok hbytes
    exact (Except.ok.inj hbytes).symm
  rw [htext, hjson _ _ run.rendered] at hmanifest
  cases hmanifest
  obtain ⟨hsha256, hsize⟩ := Except.ensure_eq_ok.mp hsame
  exact ⟨rfl, rfl, rfl, hsha256.trans run.sha256.symm, hsize.trans run.size.symm⟩

end StageRun

variable {world : MediaWorld} {resolved : ResolvedMediaProfile} {buildRoot : PathBuf}
  {receiptBytes : Bytes} {lockDocuments : List (Bytes × Bytes)}
  {externalFiles : List MediaExternalFile}

/-- A staged image of a plan of the planner holds it exactly if the plan is covered. -/
theorem staged_holds {source : String} {text : Bytes}
    (hprofile : parseMediaProfile world.profileFromToml world.sha256 source text = .ok resolved)
    (hplan : planMediaImage world resolved buildRoot receiptBytes lockDocuments externalFiles =
      .ok plan)
    (h : stageFat32MediaPlan host plan outputDir = .ok (staged, artifact)) :
    (∃ image, openImage artifact = .ok image ∧ HoldsPlan host.sha256 image.volume plan) ↔
      Covered plan := by
  have hvalid := validateProfile_valid (parseMediaProfile_valid hprofile)
  obtain ⟨receipt, locks, supplied, payload, planned, directories, run⟩ := planMediaImage_inv hplan
  obtain ⟨partition, files, image, geometry, raw, encoded, verified, stage⟩ :=
    stageFat32MediaPlan_inv h
  have hclosed : ∀ file ∈ plan.files, ∀ above, Above 0x2f above file.destination →
      above ∈ plan.directories := by
    intro file hfile above habove
    refine run.plan_closed ?_ habove
    rw [MediaImagePlan.places]
    exact List.mem_append_left _ (List.mem_append_left _ (List.mem_map_of_mem hfile))
  have hholds := verifyRawImage_holds (validateMediaPlanForFat32_valid stage.validated)
    (run.valid_destination hvalid) hclosed stage.readBack
  rw [← hholds]
  constructor
  · rintro ⟨image', himage, himageHolds⟩
    rw [stage.openImage_ok] at himage
    cases himage
    exact himageHolds
  · exact fun himageHolds => ⟨image, stage.openImage_ok, himageHolds⟩

/-- **A staged image holds its plan exactly if every directory of the plan lies above a file**;
the published artifact is accepted with the digests of the plan, and a plan that passes renders to
a manifest that passes exactly if it is attested, as every plan of the planner is. -/
theorem stageFat32MediaPlan_holds {source : String} {text : Bytes}
    (hjson : ∀ manifest bytes, host.manifestToVec manifest = .ok bytes →
      host.manifestFromSlice (bytes ++ [0x0a]) = .ok manifest)
    (hprofile : parseMediaProfile world.profileFromToml world.sha256 source text = .ok resolved)
    (hplan : planMediaImage world resolved buildRoot receiptBytes lockDocuments externalFiles =
      .ok plan) :
    (∀ outputDir staged artifact,
      stageFat32MediaPlan host plan outputDir = .ok (staged, artifact) →
      (((∃ image, openImage artifact = .ok image ∧ HoldsPlan host.sha256 image.volume plan) ∧
        ∃ verified, verifyFat32MediaArtifact host artifact = .ok verified ∧
          SameDigests plan staged verified) ↔ Covered plan)) ∧
    (∀ partition files image,
      validateMediaPlanForFat32 host.sha256 host.readSource plan = .ok (partition, files) →
      ∃ expected, validateManifest (mediaManifest plan partition image) = .ok expected) ∧
    ∀ other partition files image,
      validateMediaPlanForFat32 host.sha256 host.readSource other = .ok (partition, files) →
      ((∃ expected, validateManifest (mediaManifest other partition image) = .ok expected) ↔
        Attested other) := by
  refine ⟨fun outputDir staged artifact h => ?_, fun partition files image h => ?_,
    fun other partition files image h => ?_⟩
  · rw [← staged_holds hprofile hplan h]
    refine and_iff_left ?_
    obtain ⟨_, _, _, _, _, _, verified, stage⟩ := stageFat32MediaPlan_inv h
    exact ⟨verified, stage.verified, stage.sameDigests hjson⟩
  · have hvalid := validateProfile_valid (parseMediaProfile_valid hprofile)
    obtain ⟨_, _, _, _, _, _, run⟩ := planMediaImage_inv hplan
    exact (validateManifest_iff (validateMediaPlanForFat32_valid h)).mpr
      (attested_of_planRun run hvalid)
  · exact validateManifest_iff (validateMediaPlanForFat32_valid h)

end Stage

/-! ### A card with an empty directory -/

namespace Card

/-- A volume: the texts of its paths, the contents of the files and none for a directory. -/
abbrev Volume := List (Bytes × Option Bytes)

/-- The entry of a directory that a path stands for. -/
def entryIn (dir : List Bytes) (entry : Bytes × Option Bytes) : Option (Bytes × Bool) :=
  match rsplitOnce 0x2f entry.1 with
  | none => if dir = [] then some (entry.1, entry.2.isNone) else none
  | some (parent, name) =>
    if dir ≠ [] ∧ parent = listedText dir then some (name, entry.2.isNone) else none

/-- A FAT implementation that stores and lists what it is given. -/
def fat : FatFs where
  Volume := Volume
  format _ _ _ := .ok []
  mount _ := .ok true
  createDir volume path := .ok (if (path, none) ∈ volume then volume else volume ++ [(path, none)])
  writeFile volume path contents := .ok (volume ++ [(path, some contents)])
  listDir volume dir := .ok (volume.filterMap (entryIn dir))
  openFile volume path := (volume.lookup path).join.elim (.error "absent") .ok
  unmount _ := .ok ()

/-- The digest of the image. -/
def imageSha256 : Sha256Digest := (List.replicate 16 (ascii "3b0c")).flatten

/-- The document beside the image. -/
def manifestText : Bytes := List.flatten
  [ascii "\x7b\n", ascii "  \"build_identity\": \x7b\n",
    ascii "    \"source_commit\": \"0000000000000000000000000000000000000000\",\n",
    ascii "    \"source_tree\": \"1111111111111111111111111111111111111111\",\n",
    ascii "    \"toolchain_manifest_sha256\": \"", Media.Card.sha256 [0x73], ascii "\",\n",
    ascii "    \"toolchain_release_id\": \"r1\",\n",
    ascii "    \"toolchain_tree_sha256\": \"", Media.Card.sha256 [0x6b], ascii "\"\n",
    ascii "  \x7d,\n", ascii "  \"external_lock_sha256\": \x7b\x7d,\n", ascii "  \"files\": [\n",
    ascii "    \x7b\n", ascii "      \"destination\": \"boot/kernel\",\n",
    ascii "      \"origin\": \x7b\n", ascii "        \"kind\": \"build\"\n", ascii "      \x7d,\n",
    ascii "      \"role\": \"kernel\",\n",
    ascii "      \"sha256\": \"", Media.Card.sha256 [0x6b], ascii "\",\n",
    ascii "      \"size_bytes\": 1\n", ascii "    \x7d,\n", ascii "    \x7b\n",
    ascii "      \"destination\": \"sys/shell\",\n", ascii "      \"origin\": \x7b\n",
    ascii "        \"kind\": \"build\"\n", ascii "      \x7d,\n",
    ascii "      \"role\": \"sys-1\",\n",
    ascii "      \"sha256\": \"", Media.Card.sha256 [0x73], ascii "\",\n",
    ascii "      \"size_bytes\": 1\n", ascii "    \x7d\n", ascii "  ],\n",
    ascii "  \"format_version\": 2,\n", ascii "  \"image\": \x7b\n",
    ascii "    \"filename\": \"aros-media.img\",\n",
    ascii "    \"sha256\": \"", imageSha256, ascii "\",\n",
    ascii "    \"size_bytes\": 68157440\n", ascii "  \x7d,\n",
    ascii "  \"kind\": \"aros-media-image\",\n", ascii "  \"medium\": \"mbr-fat32\",\n",
    ascii "  \"model\": \"pc\",\n", ascii "  \"partition\": \x7b\n",
    ascii "    \"filesystem\": \"fat32\",\n", ascii "    \"label\": \"AROS\",\n",
    ascii "    \"scheme\": \"mbr\",\n", ascii "    \"size_bytes\": 67108864,\n",
    ascii "    \"start_lba\": 2048\n", ascii "  \x7d,\n", ascii "  \"profile_id\": \"card\",\n",
    ascii "  \"profile_sha256\": \"", Media.Card.sha256 [0x66], ascii "\",\n",
    ascii "  \"receipt_origin\": \"cmake\",\n",
    ascii "  \"receipt_sha256\": \"", Media.Card.sha256 [0x7b], ascii "\",\n",
    ascii "  \"target_preset\": \"pc\",\n", ascii "  \"transport\": \"sd\"\n", ascii "\x7d"]

/-- The manifest that the document spells. -/
def manifest : Manifest :=
  mediaManifest Media.Card.plan ⟨ascii "mbr", ascii "fat32", 2048, 67108864, ascii "AROS"⟩
    ⟨⟨false, []⟩, imageSha256, 68157440⟩

/-- The digests of the inputs, of the manifest and of the volume ID. -/
def sha256 (bytes : Bytes) : Sha256Digest :=
  if bytes = manifestText ++ [0x0a] then
    ascii "2cc7d7572db2bccce0d783ecada51e46cb503647be73e8fccfbb8691c9d2e43c"
  else if bytes.length = 154 then
    ascii "d6ed4d4928e9c780ce8993fcdf15a0f347272eea055f59d1b6763b2e84c1c91a"
  else Media.Card.sha256 bytes

/-- The two files of the plan. -/
def readSource (path : PathBuf) : Except String Bytes :=
  if path = Media.Card.root.join (ascii "kernel") then .ok [0x6b]
  else if path = (Media.Card.root.join (ascii "tree")).join (ascii "shell") then .ok [0x73]
  else .error "absent"

/-- The host: the writer and the reader know the one document. -/
def host : BoardHost fat where
  sha256 := sha256
  hashImage _ := imageSha256
  manifestToVec m := if m = manifest then .ok manifestText else .error "unknown manifest"
  manifestFromSlice bytes :=
    if bytes = manifestText ++ [0x0a] then .ok manifest else .error "unknown document"
  readSource := readSource
  copySource := readSource
  resolveOutput path := .ok path
  createStage path := .ok (path.join (ascii "stage"))
  writeNew _ := .ok ()
  publish _ _ := .ok ()

theorem json (m : Manifest) (bytes : Bytes) (h : host.manifestToVec m = .ok bytes) :
    host.manifestFromSlice (bytes ++ [0x0a]) = .ok m := by
  simp only [host] at h ⊢
  split at h
  · next hm =>
    cases h
    rw [if_pos rfl, hm]
  · cases h

/-- The directory for the artifact. -/
def out : PathBuf := ⟨true, [.normal (ascii "out")]⟩

theorem stages : (stageFat32MediaPlan host Media.Card.plan out).isOk = true := by decide +kernel

theorem not_covered : ¬ Covered Media.Card.plan := by
  have hapart : ∀ file ∈ Media.Card.plan.files, ∀ above ∈ ancestors 0x2f file.destination,
      placeKey above ≠ placeKey (ascii "sys/empty") := by
    decide
  intro hcovered
  obtain ⟨file, hfile, above, habove, key, haboveKey, hkey⟩ :=
    hcovered (ascii "sys/empty") (by decide)
  exact hapart file hfile above (mem_ancestors.mpr habove) (haboveKey.trans hkey.symm)

end Card

/-- The card is planned and staged, and its image does not hold the plan: the directory
`sys/empty` is missing. -/
theorem stageFat32MediaPlan_emptyDirectory :
    parseMediaProfile Media.Card.world.profileFromToml Media.Card.world.sha256 "card"
      Media.Card.profileText = .ok ⟨Media.Card.profile, Media.Card.sha256 [0x66]⟩ ∧
    planMediaImage Media.Card.world ⟨Media.Card.profile, Media.Card.sha256 [0x66]⟩ Media.Card.root
      Media.Card.receiptText [] [] = .ok Media.Card.plan ∧
    ∃ staged artifact, stageFat32MediaPlan Card.host Media.Card.plan Card.out =
      .ok (staged, artifact) ∧
      ¬ ∃ image, openImage artifact = .ok image ∧
        HoldsPlan Card.host.sha256 image.volume Media.Card.plan := by
  obtain ⟨⟨staged, artifact⟩, hstage⟩ := Except.exists_of_isOk Card.stages
  refine ⟨Media.Card.parsed, Media.Card.planned, staged, artifact, hstage, fun hholds => ?_⟩
  exact Card.not_covered ((staged_holds Media.Card.parsed Media.Card.planned hstage).mp hholds)

/-- On the card: the artifact is published, and what holds of it follows from the theorem. -/
theorem stageFat32MediaPlan_holds_card :
    ∃ staged artifact, stageFat32MediaPlan Card.host Media.Card.plan Card.out =
      .ok (staged, artifact) ∧
      (((∃ image, openImage artifact = .ok image ∧
          HoldsPlan Card.host.sha256 image.volume Media.Card.plan) ∧
        ∃ verified, verifyFat32MediaArtifact Card.host artifact = .ok verified ∧
          SameDigests Media.Card.plan staged verified) ↔ Covered Media.Card.plan) := by
  obtain ⟨⟨staged, artifact⟩, hstage⟩ := Except.exists_of_isOk Card.stages
  exact ⟨staged, artifact, hstage, (stageFat32MediaPlan_holds Card.json Media.Card.parsed
    Media.Card.planned).1 Card.out staged artifact hstage⟩

end Board

end ArosTools
