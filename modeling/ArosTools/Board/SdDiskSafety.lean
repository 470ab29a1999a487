import ArosTools.Board.SdDisk
import Mathlib.Data.List.Basic

/-!
# What the SD writer writes, and when

* `Task.Triple` : what a part of the writer does, for every world at each of its steps.
* `copyLoop_spec` : the copy writes what the image delivers, from the beginning of the disk on.
* `readbackLoop_spec` : a readback that succeeds has read the whole prefix.
* `writer_confined` : the writer writes only to the confirmed disk, reads the image back from it
  before it reports success, and writes below the end of the verified image as long as the image
  file delivers no more than it did when it was verified.
* `writer_beyond_image` : an image file that has grown is written beyond the verified size.
-/

namespace ArosTools

namespace SdDisk

open Media

/-! ### What may happen when -/

/-- The offsets written to the target are those below `n`. -/
def Covers (s : State) (n : ℕ) : Prop := ∀ o, (∃ b, (b, o) ∈ s.written) ↔ o < n

/-- Nothing has been written beyond what the image has delivered. -/
def Bounded (s : State) : Prop := ∃ n ≤ s.delivered, Covers s n

/-- Everything the image has delivered has been written, unless a write failed. -/
def Exact (s : State) : Prop := s.writeFailed = true ∨ Covers s s.delivered

/-- What the writer is asked to do. -/
structure Task where
  sha256 : Bytes → Sha256Digest
  artifact : VerifiedImageArtifact
  selectedScanId : Bytes
  token : Bytes

/-- An artifact is what was read from its files. -/
structure Reverified (sha256 : Bytes → Sha256Digest) (artifact : VerifiedImageArtifact)
    (log : List Event) : Prop where
  manifest : ∃ bytes, .read artifact.manifestPath bytes ∈ log ∧
    sha256 bytes = artifact.manifestSha256
  image : ∃ bytes, .read artifact.imagePath bytes ∈ log ∧ sha256 bytes = artifact.imageSha256 ∧
    bytes.length = artifact.imageSizeBytes

theorem Reverified.later {sha256 : Bytes → Sha256Digest} {artifact : VerifiedImageArtifact}
    {log : List Event} (h : Reverified sha256 artifact log) (events : List Event) :
    Reverified sha256 artifact (log ++ events) := by
  obtain ⟨⟨manifest, hmanifest, hsha⟩, image, himage, hrest⟩ := h
  exact ⟨⟨manifest, List.mem_append_left _ hmanifest, hsha⟩, image, List.mem_append_left _ himage,
    hrest⟩

namespace Task

variable (t : Task)

/-- The candidate is the only one of a scan with the selected id, the token is that of the artifact
and the candidate, and the candidate may be written. -/
structure Selected (candidate : DiskCandidate) (log : List Event) : Prop where
  scanned : ∃ candidates, .scanned candidates ∈ log ∧
    candidates.filter (·.scanId = t.selectedScanId) = [candidate]
  token : t.token = confirmationToken t.sha256 t.artifact candidate
  wholeDisk : candidate.wholeDisk = true
  removable : candidate.removable = true
  writable : candidate.writable = true
  unmounted : candidate.mounted = false
  large : t.artifact.minimumDeviceBytes ≤ candidate.sizeBytes

theorem Selected.later {t : Task} {candidate : DiskCandidate} {log : List Event}
    (h : t.Selected candidate log) (events : List Event) : t.Selected candidate (log ++ events) := by
  obtain ⟨candidates, hscanned, hfilter⟩ := h.scanned
  exact { h with scanned := ⟨candidates, List.mem_append_left _ hscanned, hfilter⟩ }

/-- The artifact is verified, the disk is selected and confirmed, no other disk has been opened, and
this one was accepted after it was opened. -/
structure Confirmed (log : List Event) : Prop where
  reverified : Reverified t.sha256 t.artifact log
  target : ∃ candidate, t.Selected candidate log ∧ .accepted candidate ∈ log ∧
    ∀ other, .opened other ∈ log ↔ other = candidate

/-- The calls that are allowed: a write only to a confirmed disk. -/
def Allowed : ⦃β : Type⦄ → Call β → State → Prop
  | _, .writeAll _, s => Bounded s ∧ t.Confirmed s.log
  | _, _, s => Bounded s

theorem Allowed.bounded {t : Task} {β : Type} {op : Call β} {s : State} (h : t.Allowed op s) :
    Bounded s := by
  cases op with
  | writeAll bytes => exact h.1
  | _ => exact h

/-- A run returns in `Q`, or it fails and has written what the image delivered. -/
def Ends {α : Type} (Q : α → State → Prop) : Except String α → State → Prop
  | .ok a, s => Q a s
  | .error _, s => Bounded s ∧ Exact s

/-- Every run of `p` from a state in `P` makes only allowed calls, and it ends in `Q` or fails. -/
def Triple {α : Type} (P : State → Prop) (p : Writer α) (Q : α → State → Prop) : Prop :=
  ∀ s, P s → machine.Safe (fun _ => True) (fun _ => False) t.Allowed (Ends Q) p.run s

namespace Triple

variable {t} {α β : Type} {P P' : State → Prop} {Q Q' : α → State → Prop}

theorem pure {a : α} (h : ∀ s, P s → Q a s) : t.Triple P (Pure.pure a) Q :=
  fun s hs => Machine.Safe.ret (h s hs)

theorem bind {p : Writer β} {f : β → Writer α} {R : β → State → Prop} (hp : t.Triple P p R)
    (hf : ∀ b, t.Triple (R b) (f b) Q) : t.Triple P (p >>= f) Q := by
  intro s hs
  refine Machine.Safe.bindE ((hp s hs).weaken ?_)
  rintro (e | b) s' h
  · exact h
  · exact hf b s' h

theorem weaken {p : Writer α} (h : t.Triple P p Q) (hP : ∀ s, P' s → P s)
    (hQ : ∀ a s, Q a s → Q' a s) : t.Triple P' p Q' := by
  intro s hs
  refine (h s (hP s hs)).weaken ?_
  rintro (e | a) s' h'
  · exact h'
  · exact hQ a s' h'

/-- A check passes or ends the run. -/
theorem check {r : Except String α} (hok : ∀ s a, P s → r = .ok a → Q a s)
    (herror : ∀ s, P s → Bounded s ∧ Exact s) : t.Triple P (check r) Q := by
  intro s hs
  cases r with
  | ok a => exact Machine.Safe.ret (hok s a hs rfl)
  | error e => exact Machine.Safe.ret (herror s hs)

/-- A call succeeds or ends the run. -/
theorem perform {op : Call (Except String α)} (hallowed : ∀ s, P s → t.Allowed op s)
    (hok : ∀ s w a, P s → (step op w s).1 = .ok a → Q a (step op w s).2)
    (herror : ∀ s w e, P s → (step op w s).1 = .error e →
      Bounded (step op w s).2 ∧ Exact (step op w s).2) :
    t.Triple P (perform op) Q := by
  intro s hs
  refine Machine.Safe.perform (hallowed s hs) fun w _ => ?_
  change Ends Q (step op w s).1 (step op w s).2
  cases hresult : (step op w s).1 with
  | ok a => exact hok s w a hs hresult
  | error e => exact herror s w e hs hresult

end Triple

end Task

/-! ### Before the copy -/

/-- Nothing has happened to the target yet, and the log satisfies `F`. -/
structure Untouched (F : List Event → Prop) (s : State) : Prop where
  written : s.written = []
  delivered : s.delivered = 0
  log : F s.log

namespace Untouched

variable {F F' : List Event → Prop} {s : State}

theorem covers (h : Untouched F s) : Covers s s.delivered := by
  intro o
  rw [h.written, h.delivered]
  simp

theorem bounded (h : Untouched F s) : Bounded s := ⟨s.delivered, Nat.le_refl _, h.covers⟩

theorem failure (h : Untouched F s) : Bounded s ∧ Exact s := ⟨h.bounded, .inr h.covers⟩

end Untouched

section Before

variable {t : Task} {α : Type} {F : List Event → Prop}

theorem check_untouched {r : Except String α} {G : α → List Event → Prop}
    (h : ∀ a log, r = .ok a → F log → G a log) :
    t.Triple (Untouched F) (check r) fun a => Untouched (G a) :=
  .check (fun s a hs hr => ⟨hs.written, hs.delivered, h a s.log hr hs.log⟩) fun _ hs => hs.failure

theorem untouched_and {φ : Prop} {p : Writer α} {Q : α → State → Prop}
    (h : φ → t.Triple (Untouched F) p Q) : t.Triple (Untouched fun log => F log ∧ φ) p Q :=
  fun s hs => h hs.log.2 s ⟨hs.written, hs.delivered, hs.log.1⟩

/-- A call that the target does not notice, and what it adds to the log. -/
structure Quiet (op : Call (Except String α)) (events : α → List Event) : Prop where
  allowed : ∀ {t : Task} {s}, Bounded s → t.Allowed op s
  written : ∀ w s, (step op w s).2.written = s.written
  delivered : ∀ w s, (step op w s).2.delivered = s.delivered
  log : ∀ w s a, (step op w s).1 = .ok a → (step op w s).2.log = s.log ++ events a
  error : ∀ w s e, (step op w s).1 = .error e → (step op w s).2.log = s.log

theorem perform_untouched {op : Call (Except String α)} {events : α → List Event}
    (hop : Quiet op events) {G : α → List Event → Prop}
    (h : ∀ a log, F log → G a (log ++ events a)) :
    t.Triple (Untouched F) (perform op) fun a => Untouched (G a) := by
  refine .perform (fun s hs => hop.allowed hs.bounded) (fun s w a hs hr => ?_) fun s w e hs hr => ?_
  · exact ⟨(hop.written w s).trans hs.written, (hop.delivered w s).trans hs.delivered,
      by rw [hop.log w s a hr]; exact h a s.log hs.log⟩
  · have hafter : Untouched F (step op w s).2 :=
      ⟨(hop.written w s).trans hs.written, (hop.delivered w s).trans hs.delivered,
        by rw [hop.error w s e hr]; exact hs.log⟩
    exact hafter.failure

/-- A call that leaves no trace. -/
theorem perform_silent {op : Call (Except String α)} (hop : Quiet op fun _ => []) :
    t.Triple (Untouched F) (perform op) fun _ => Untouched F :=
  perform_untouched hop fun _ log h => by rwa [List.append_nil]

theorem check_silent {r : Except String α} :
    t.Triple (Untouched F) (check r) fun _ => Untouched F :=
  check_untouched fun _ _ _ h => h

theorem quiet_metadata (path : PathBuf) : Quiet (.metadata path) fun _ => [] :=
  ⟨id, fun _ _ => rfl, fun _ _ => rfl, fun _ _ _ _ => (List.append_nil _).symm, fun _ _ _ _ => rfl⟩

theorem quiet_symlinkMetadata (path : PathBuf) : Quiet (.symlinkMetadata path) fun _ => [] :=
  ⟨id, fun _ _ => rfl, fun _ _ => rfl, fun _ _ _ _ => (List.append_nil _).symm, fun _ _ _ _ => rfl⟩

theorem quiet_canonicalize (path : PathBuf) : Quiet (.canonicalize path) fun _ => [] :=
  ⟨id, fun _ _ => rfl, fun _ _ => rfl, fun _ _ _ _ => (List.append_nil _).symm, fun _ _ _ _ => rfl⟩

theorem noteOk_written (s : State) (r : Except String α) (event : α → Event) :
    (s.noteOk r event).written = s.written := by
  cases r <;> rfl

theorem noteOk_delivered (s : State) (r : Except String α) (event : α → Event) :
    (s.noteOk r event).delivered = s.delivered := by
  cases r <;> rfl

theorem noteOk_ok {s : State} {r : Except String α} {event : α → Event} {a : α} (h : r = .ok a) :
    (s.noteOk r event).log = s.log ++ [event a] := by
  rw [h]
  rfl

theorem noteOk_error {s : State} {r : Except String α} {event : α → Event} {e : String}
    (h : r = .error e) : (s.noteOk r event).log = s.log := by
  rw [h]
  rfl

theorem quiet_read (path : PathBuf) : Quiet (.read path) fun bytes => [.read path bytes] :=
  ⟨id, fun _ _ => noteOk_written _ _ _, fun _ _ => noteOk_delivered _ _ _,
    fun _ _ _ h => noteOk_ok h, fun _ _ _ h => noteOk_error h⟩

theorem quiet_scan : Quiet .scan fun candidates => [.scanned candidates] :=
  ⟨id, fun _ _ => noteOk_written _ _ _, fun _ _ => noteOk_delivered _ _ _,
    fun _ _ _ h => noteOk_ok h, fun _ _ _ h => noteOk_error h⟩

theorem quiet_openVerifiedTarget (candidate : DiskCandidate) :
    Quiet (.openVerifiedTarget candidate) fun _ => [.opened candidate] :=
  ⟨id, fun _ _ => noteOk_written _ _ _, fun _ _ => noteOk_delivered _ _ _,
    fun _ _ _ h => noteOk_ok h, fun _ _ _ h => noteOk_error h⟩

theorem quiet_verifyTargetSafeAfterOpen (candidate : DiskCandidate) :
    Quiet (.verifyTargetSafeAfterOpen candidate) fun _ => [.accepted candidate] :=
  ⟨id, fun _ _ => noteOk_written _ _ _, fun _ _ => noteOk_delivered _ _ _,
    fun _ _ _ h => noteOk_ok h, fun _ _ _ h => noteOk_error h⟩

/-! ### The verification -/

theorem canonicalExistingDirectory_silent (path : PathBuf) (label : String) :
    t.Triple (Untouched F) (canonicalExistingDirectory path label) fun _ => Untouched F :=
  .bind (perform_silent (quiet_metadata path)) fun _ =>
    .bind check_silent fun _ => perform_silent (quiet_canonicalize path)

theorem walkComponents_silent (label : String) (current : PathBuf) (components : List Component) :
    t.Triple (Untouched F) (walkComponents label current components) fun _ => Untouched F := by
  induction components generalizing current with
  | nil => exact .pure fun _ h => h
  | cons component rest ih =>
    cases component with
    | normal part =>
      exact .bind (perform_silent (quiet_symlinkMetadata _)) fun _ =>
        .bind check_silent fun _ => ih _
    | parentDir => exact check_silent
    | curDir => exact check_silent

theorem verifiedRegularChild_silent (root relativePath : PathBuf) (label : String) :
    t.Triple (Untouched F) (verifiedRegularChild root relativePath label) fun _ => Untouched F :=
  .bind (walkComponents_silent label root relativePath.components) fun current =>
    .bind (perform_silent (quiet_metadata current)) fun _ =>
    .bind check_silent fun _ =>
    .bind (perform_silent (quiet_canonicalize current)) fun _ =>
    .bind check_silent fun _ => .pure fun _ h => h

/-- A call whose answer is looked at, whether it failed or not. -/
theorem lift_metadata_silent (path : PathBuf) :
    t.Triple (Untouched F) (ExceptT.lift (Prog.perform (.metadata path))) fun _ => Untouched F := by
  intro s hs
  exact Machine.Safe.bind (Machine.Safe.perform hs.bounded fun w _ => Machine.Safe.ret hs)

theorem validateImageManifest_silent (manifest : ImageManifest) (relativePath imagePath : PathBuf) :
    t.Triple (Untouched F) (validateImageManifest manifest relativePath imagePath)
      fun _ => Untouched F :=
  .bind check_silent fun _ => .bind check_silent fun _ => .bind check_silent fun _ =>
    .bind check_silent fun _ => .bind (lift_metadata_silent imagePath) fun _ =>
    .bind check_silent fun _ => .bind check_silent fun _ => .bind check_silent fun _ =>
    .bind check_silent fun _ => .bind check_silent fun _ => .pure fun _ h => h

/-- No disk has been opened. -/
def NoneOpened (log : List Event) : Prop := ∀ candidate, .opened candidate ∉ log

theorem verifyImageArtifact_spec (manifestFromSlice : Bytes → Except String ImageManifest)
    (artifactDir manifestRelativePath imageRelativePath : PathBuf) :
    t.Triple (Untouched NoneOpened)
      (verifyImageArtifact t.sha256 manifestFromSlice artifactDir manifestRelativePath
        imageRelativePath)
      fun artifact => Untouched fun log => NoneOpened log ∧ Reverified t.sha256 artifact log := by
  refine .bind (canonicalExistingDirectory_silent _ _) fun artifactDir => ?_
  refine .bind check_silent fun manifestRelativePath => .bind check_silent fun imageRelativePath => ?_
  refine .bind (verifiedRegularChild_silent _ _ _) fun manifestPath => ?_
  refine .bind (verifiedRegularChild_silent _ _ _) fun imagePath => ?_
  refine .bind (perform_untouched (G := fun bytes log => NoneOpened log ∧
    .read manifestPath bytes ∈ log) (quiet_read _) fun bytes log h => ?_) fun manifestBytes => ?_
  · exact ⟨fun candidate hmem => h candidate (by simpa using hmem), by simp⟩
  refine .bind check_silent fun manifest => .bind (validateImageManifest_silent _ _ _) fun _ => ?_
  refine .bind check_silent fun board => .bind check_silent fun imageSha256 => ?_
  refine .bind check_silent fun _ => ?_
  refine .bind (perform_untouched (G := fun bytes log => NoneOpened log ∧
    .read manifestPath manifestBytes ∈ log ∧ .read imagePath bytes ∈ log) (quiet_read _)
    fun bytes log h => ?_) fun imageBytes => ?_
  · exact ⟨fun candidate hmem => h.1 candidate (by simpa using hmem), by simp [h.2], by simp⟩
  refine .bind (check_untouched (G := fun _ log => (NoneOpened log ∧
    .read manifestPath manifestBytes ∈ log ∧ .read imagePath imageBytes ∈ log) ∧
    imageBytes.length = manifest.imageSizeBytes) fun _ log hsize h =>
      ⟨h, Except.ensure_eq_ok.mp hsize⟩) fun _ => ?_
  refine .bind (check_untouched (G := fun _ log => ((NoneOpened log ∧
    .read manifestPath manifestBytes ∈ log ∧ .read imagePath imageBytes ∈ log) ∧
    imageBytes.length = manifest.imageSizeBytes) ∧ t.sha256 imageBytes = imageSha256)
    fun _ log hsha h => ⟨h, Except.ensure_eq_ok.mp hsha⟩) fun _ => ?_
  refine .pure fun s h => ⟨h.written, h.delivered, h.log.1.1.1, ?_, ?_⟩
  · exact ⟨manifestBytes, h.log.1.1.2.1, rfl⟩
  · exact ⟨imageBytes, h.log.1.1.2.2, h.log.2, h.log.1.2⟩

/-! ### The selection -/

theorem selectCandidate_ok {candidates : List DiskCandidate} {scanId : Bytes}
    {candidate : DiskCandidate} (h : selectCandidate candidates scanId = .ok candidate) :
    candidates.filter (·.scanId = scanId) = [candidate] := by
  unfold selectCandidate at h
  split at h
  · next selected hfilter =>
    rw [hfilter, Except.ok.inj h]
  · cases h
  · cases h

theorem prepareVerifiedWrite_spec :
    t.Triple (Untouched fun log => NoneOpened log ∧ Reverified t.sha256 t.artifact log)
      (prepareVerifiedWrite t.sha256 t.artifact t.selectedScanId)
      fun plan => Untouched fun log => (NoneOpened log ∧ Reverified t.sha256 t.artifact log) ∧
        (t.token = plan.confirmationToken → t.Selected plan.candidate log) := by
  refine .bind check_silent fun _ => ?_
  refine .bind (perform_untouched (G := fun candidates log => (NoneOpened log ∧
    Reverified t.sha256 t.artifact log) ∧ .scanned candidates ∈ log) quiet_scan
    fun candidates log h => ?_) fun candidates => ?_
  · exact ⟨⟨fun candidate hmem => h.1 candidate (by simpa using hmem), h.2.later _⟩, by simp⟩
  refine .bind (check_untouched (G := fun candidate log => ((NoneOpened log ∧
    Reverified t.sha256 t.artifact log) ∧ .scanned candidates ∈ log) ∧
    candidates.filter (·.scanId = t.selectedScanId) = [candidate])
    fun candidate log hselect h => ⟨h, selectCandidate_ok hselect⟩) fun candidate => ?_
  refine .bind (check_untouched (G := fun _ log => (((NoneOpened log ∧
    Reverified t.sha256 t.artifact log) ∧ .scanned candidates ∈ log) ∧
    candidates.filter (·.scanId = t.selectedScanId) = [candidate]) ∧
    candidate.validateForWrite t.artifact.minimumDeviceBytes = .ok ())
    fun _ log hvalid h => ⟨h, hvalid⟩) fun _ => ?_
  refine .pure fun s h => ⟨h.written, h.delivered, h.log.1.1.1, fun htoken => ?_⟩
  obtain ⟨⟨⟨-, hscanned⟩, hfilter⟩, hvalid⟩ := h.log
  obtain ⟨_, -, hvalid⟩ := Except.bind_eq_ok.mp hvalid
  obtain ⟨_, hsafe, hvalid⟩ := Except.bind_eq_ok.mp hvalid
  obtain ⟨hwhole, hremovable, hwritable, hmounted⟩ := Except.ensure_eq_ok.mp hsafe
  exact ⟨⟨candidates, hscanned, hfilter⟩, htoken, hwhole, hremovable, hwritable,
    by simpa using hmounted, Except.ensure_eq_ok.mp hvalid⟩

end Before

/-! ### The copy -/

/-- A write extends what is covered. -/
theorem Covers.write {s : State} (h : Covers s s.position) (bytes : Bytes) :
    Covers (s.write bytes) (s.position + bytes.length) := by
  intro o
  have hnew : (∃ b, (b, o) ∈ bytes.zipIdx s.position) ↔
      s.position ≤ o ∧ o < s.position + bytes.length := by
    simp only [List.mk_mem_zipIdx_iff_le_and_getElem?_sub]
    constructor
    · rintro ⟨b, hle, hb⟩
      obtain ⟨hlt, -⟩ := List.getElem?_eq_some_iff.mp hb
      exact ⟨hle, by omega⟩
    · rintro ⟨hle, hlt⟩
      exact ⟨_, hle, List.getElem?_eq_getElem (by omega)⟩
  have hold := h o
  change (∃ b, (b, o) ∈ s.written ++ bytes.zipIdx s.position) ↔ _
  simp only [List.mem_append, exists_or, hold, hnew]
  omega

/-- The state between two rounds of the copy. -/
structure Copying (t : Task) (s : State) : Prop where
  covers : Covers s s.delivered
  position : s.position = s.delivered
  confirmed : t.Confirmed s.log

section Copy

variable {t : Task}

theorem Copying.bounded {s : State} (h : Copying t s) : Bounded s :=
  ⟨s.delivered, Nat.le_refl _, h.covers⟩

/-- The state after a chunk has been read. -/
structure Loaded (t : Task) (bytes : Bytes) (s : State) : Prop where
  covers : Covers s s.position
  position : s.position + bytes.length = s.delivered
  confirmed : t.Confirmed s.log

theorem readImage_spec (limit : ℕ) :
    t.Triple (Copying t) (perform (.readImage limit)) fun chunk => Loaded t chunk.val := by
  refine .perform (fun s hs => hs.bounded) (fun s w chunk hs hr => ?_) fun s w e hs hr => ?_
  · have hr : w.readImage limit = .ok chunk := hr
    have hstate : (step (.readImage limit) w s).2 =
        { s with delivered := s.delivered + chunk.val.length } := by
      simp only [step, hr]
    rw [hstate]
    exact ⟨by rw [show s.position = _ from hs.position]; exact hs.covers,
      congrArg (· + chunk.val.length) hs.position, hs.confirmed⟩
  · have hr : w.readImage limit = .error e := hr
    have hstate : (step (.readImage limit) w s).2 = s := by
      simp only [step, hr]
    rw [hstate]
    exact ⟨hs.bounded, .inr hs.covers⟩

theorem writeAll_spec (bytes : Bytes) :
    t.Triple (Loaded t bytes) (perform (.writeAll bytes)) fun _ => Copying t := by
  refine .perform (fun s hs => ⟨⟨s.position, by have := hs.position; omega, hs.covers⟩,
    hs.confirmed⟩) (fun s w a hs hr => ?_) fun s w e hs hr => ?_
  · cases hfails : w.writeFails bytes with
    | some n =>
      simp only [step, hfails] at hr
      cases hr
    | none =>
      have hstate : (step (.writeAll bytes) w s).2 = s.write bytes := by
        simp only [step, hfails]
      rw [hstate]
      exact ⟨hs.position ▸ hs.covers.write bytes, hs.position, hs.confirmed⟩
  · cases hfails : w.writeFails bytes with
    | none =>
      simp only [step, hfails] at hr
      cases hr
    | some n =>
      have hstate : (step (.writeAll bytes) w s).2 =
          { s.write (bytes.take n) with writeFailed := true } := by
        simp only [step, hfails]
      rw [hstate]
      refine ⟨⟨s.position + (bytes.take n).length, ?_, hs.covers.write (bytes.take n)⟩, .inl rfl⟩
      have htake : (bytes.take n).length ≤ bytes.length := List.length_take_le' n bytes
      have hposition := hs.position
      change s.position + (bytes.take n).length ≤ s.delivered
      omega

/-- The copy writes what the image delivers, from the beginning of the disk on. -/
theorem copyLoop_spec (fuel : ℕ) (hashed : Bytes) :
    t.Triple (Copying t) (copyLoop fuel hashed) fun _ => Copying t := by
  induction fuel generalizing hashed with
  | zero => exact .check (fun _ _ h _ => h) fun _ h => ⟨h.bounded, .inr h.covers⟩
  | succ fuel ih =>
    refine .bind (readImage_spec copyBufferBytes) fun chunk => ?_
    by_cases hempty : chunk.val = []
    · rw [if_pos hempty]
      refine .pure fun s h => ?_
      have hposition : s.position = s.delivered := by simpa [hempty] using h.position
      exact ⟨hposition ▸ h.covers, hposition, h.confirmed⟩
    · rw [if_neg hempty]
      exact .bind (writeAll_spec chunk.val) fun _ => ih _

/-- Going to the beginning of a target that nothing has been written to. -/
theorem seekTarget_spec :
    t.Triple (Untouched t.Confirmed) (perform .seekTarget) fun _ => Copying t := by
  refine .perform (fun s hs => hs.bounded) (fun s w a hs hr => ?_) fun s w e hs hr => ?_
  · have hr : w.seekTarget = .ok a := hr
    have hstate : (step .seekTarget w s).2 = { s with position := 0, readBack := [] } := by
      simp only [step, hr]
    rw [hstate]
    exact ⟨hs.covers, hs.delivered.symm, hs.log⟩
  · have hr : w.seekTarget = .error e := hr
    have hstate : (step .seekTarget w s).2 = s := by
      simp only [step, hr]
    rw [hstate]
    exact hs.failure

theorem copyImageToTarget_spec (fuel : ℕ) (imagePath : PathBuf) :
    t.Triple (Copying t) (copyImageToTarget t.sha256 fuel imagePath) fun _ => Copying t := by
  refine .bind (R := fun _ => Copying t) (.perform (fun s hs => hs.bounded) ?_ ?_) fun _ => ?_
  · exact fun s w a hs hr => hs
  · exact fun s w e hs hr => ⟨hs.bounded, .inr hs.covers⟩
  · exact .bind (copyLoop_spec fuel []) fun _ => .pure fun _ h => h

/-! ### The readback -/

/-- The copy is complete, and `bytes` have been read from the beginning of the target. -/
structure ReadBack (bytes : Bytes) (s : State) : Prop where
  covers : Covers s s.delivered
  readBack : s.readBack = bytes

theorem ReadBack.failure {bytes : Bytes} {s : State} (h : ReadBack bytes s) :
    Bounded s ∧ Exact s := ⟨⟨s.delivered, Nat.le_refl _, h.covers⟩, .inr h.covers⟩

theorem readTarget_spec (limit : ℕ) (bytes : Bytes) :
    t.Triple (ReadBack bytes) (perform (.readTarget limit))
      fun chunk => ReadBack (bytes ++ chunk.val) := by
  refine .perform (fun s hs => hs.failure.1) (fun s w chunk hs hr => ?_) fun s w e hs hr => ?_
  · have hr : w.readTarget limit = .ok chunk := hr
    have hstate : (step (.readTarget limit) w s).2 =
        { s with readBack := s.readBack ++ chunk.val } := by
      simp only [step, hr]
    rw [hstate]
    exact ⟨hs.covers, congrArg (· ++ chunk.val) hs.readBack⟩
  · have hr : w.readTarget limit = .error e := hr
    have hstate : (step (.readTarget limit) w s).2 = s := by
      simp only [step, hr]
    rw [hstate]
    exact hs.failure

/-- A readback that succeeds has read as many bytes as it was asked for. -/
theorem readbackLoop_spec (fuel remaining : ℕ) (bytes : Bytes) :
    t.Triple (ReadBack bytes) (readbackLoop fuel remaining bytes)
      fun hashed s => ReadBack hashed s ∧ hashed.length = bytes.length + remaining := by
  induction fuel generalizing remaining bytes with
  | zero =>
    cases remaining with
    | zero => exact .pure fun _ h => ⟨h, rfl⟩
    | succ remaining => exact .check (fun _ _ _ h => nomatch h) fun _ h => h.failure
  | succ fuel ih =>
    cases remaining with
    | zero => exact .pure fun _ h => ⟨h, rfl⟩
    | succ remaining =>
      refine .bind (readTarget_spec _ bytes) fun chunk => ?_
      refine .bind (R := fun _ => ReadBack (bytes ++ chunk.val)) (.check (fun _ _ h _ => h)
        fun _ h => h.failure) fun _ => ?_
      refine (ih (remaining + 1 - chunk.val.length) (bytes ++ chunk.val)).weaken (fun _ h => h)
        fun hashed s h => ⟨h.1, ?_⟩
      have hchunk := chunk.property
      rw [h.2, List.length_append]
      omega

theorem hashTargetPrefix_spec (bytesToRead : ℕ) :
    t.Triple (fun s => Covers s s.delivered) (hashTargetPrefix t.sha256 bytesToRead)
      fun digest s => ∃ bytes, ReadBack bytes s ∧ bytes.length = bytesToRead ∧
        t.sha256 bytes = digest := by
  refine .bind (R := fun _ => ReadBack []) (.perform ?_ ?_ ?_) fun _ => ?_
  · exact fun s hs => ⟨s.delivered, Nat.le_refl _, hs⟩
  · intro s w a hs hr
    have hr : w.seekTarget = .ok a := hr
    have hstate : (step .seekTarget w s).2 = { s with position := 0, readBack := [] } := by
      simp only [step, hr]
    rw [hstate]
    exact ⟨hs, rfl⟩
  · intro s w e hs hr
    have hr : w.seekTarget = .error e := hr
    have hstate : (step .seekTarget w s).2 = s := by
      simp only [step, hr]
    rw [hstate]
    exact ⟨⟨s.delivered, Nat.le_refl _, hs⟩, .inr hs⟩
  · refine .bind (readbackLoop_spec bytesToRead bytesToRead []) fun hashed => ?_
    exact .pure fun s h => ⟨hashed, h.1, by simpa using h.2, rfl⟩

/-! ### The writer -/

/-- What a report of success says. -/
def Reported (t : Task) (report : WriteReport) (s : State) : Prop :=
  Covers s s.delivered ∧ s.readBack.length = t.artifact.imageSizeBytes ∧
    t.sha256 s.readBack = t.artifact.imageSha256 ∧ report.readbackSha256 = t.artifact.imageSha256

theorem writeVerifiedImage_spec (manifestFromSlice : Bytes → Except String ImageManifest)
    (fuel : ℕ) (expectation : BoardImageExpectation) :
    t.Triple (Untouched NoneOpened)
      (writeVerifiedImage t.sha256 manifestFromSlice fuel t.artifact t.selectedScanId t.token
        expectation) (Reported t) := by
  refine .bind check_silent fun _ => .bind check_silent fun _ => ?_
  refine .bind (verifyImageArtifact_spec manifestFromSlice _ _ _) fun reverified => ?_
  refine .bind (check_untouched (G := fun _ log => (NoneOpened log ∧
    Reverified t.sha256 reverified log) ∧ reverified = t.artifact)
    fun _ log hsame h => ⟨h, Except.ensure_eq_ok.mp hsame⟩) fun _ => ?_
  -- From here on the artifact is the one that was asked for.
  refine untouched_and fun hsame => ?_
  subst hsame
  refine .bind check_silent fun _ => .bind prepareVerifiedWrite_spec fun plan => ?_
  refine .bind (check_untouched (G := fun _ log => (NoneOpened log ∧
    Reverified t.sha256 t.artifact log) ∧ t.Selected plan.candidate log)
    fun _ log htoken h => ⟨h.1, h.2 (Except.ensure_eq_ok.mp htoken)⟩) fun _ => ?_
  refine .bind (perform_untouched (G := fun _ log => Reverified t.sha256 t.artifact log ∧
    t.Selected plan.candidate log ∧ ∀ other, .opened other ∈ log ↔ other = plan.candidate)
    (quiet_openVerifiedTarget plan.candidate) fun _ log h => ?_) fun _ => ?_
  · obtain ⟨⟨hnone, hreverified⟩, hselected⟩ := h
    refine ⟨hreverified.later _, hselected.later _, fun other => ?_⟩
    simp [hnone other]
  refine .bind (perform_untouched (G := fun _ => t.Confirmed)
    (quiet_verifyTargetSafeAfterOpen plan.candidate) fun _ log h => ?_) fun _ => ?_
  · obtain ⟨hreverified, hselected, hopened⟩ := h
    exact ⟨hreverified.later _, plan.candidate, hselected.later _, by simp,
      fun other => by simpa using hopened other⟩
  refine .bind seekTarget_spec fun _ => .bind (copyImageToTarget_spec fuel _) fun copied => ?_
  refine .bind (R := fun _ s => Covers s s.delivered) (.check (fun _ _ h _ => h.covers)
    fun s h => ⟨h.bounded, .inr h.covers⟩) fun _ => ?_
  refine .bind (R := fun _ s => Covers s s.delivered) (.perform ?_ ?_ ?_) fun _ => ?_
  · exact fun s hs => ⟨s.delivered, Nat.le_refl _, hs⟩
  · exact fun s w a hs hr => hs
  · exact fun s w e hs hr => ⟨⟨s.delivered, Nat.le_refl _, hs⟩, .inr hs⟩
  refine .bind (hashTargetPrefix_spec t.artifact.imageSizeBytes) fun digest => ?_
  refine .bind (R := fun _ s => ∃ bytes, ReadBack bytes s ∧
    bytes.length = t.artifact.imageSizeBytes ∧ t.sha256 bytes = t.artifact.imageSha256 ∧
    digest = t.artifact.imageSha256) (.check ?_ ?_) fun _ => ?_
  · rintro s u ⟨bytes, hread, hlength, hdigest⟩ hsame
    have hsame := Except.ensure_eq_ok.mp hsame
    exact ⟨bytes, hread, hlength, hdigest.trans hsame, hsame⟩
  · rintro s ⟨bytes, hread, -⟩
    exact hread.failure
  refine .bind (R := fun _ s => ∃ bytes, ReadBack bytes s ∧
    bytes.length = t.artifact.imageSizeBytes ∧ t.sha256 bytes = t.artifact.imageSha256 ∧
    digest = t.artifact.imageSha256) (.perform ?_ ?_ ?_) fun _ => .pure ?_
  · rintro s ⟨bytes, hread, -⟩
    exact hread.failure.1
  · exact fun s w a hs hr => hs
  · rintro s w e ⟨bytes, hread, -⟩ hr
    exact hread.failure
  · rintro s ⟨bytes, hread, hlength, hdigest, hsame⟩
    obtain rfl := hread.readBack
    exact ⟨hread.covers, hlength, hdigest, hsame⟩

/-- **The writer stays on the confirmed disk.** For every world at each step of a run:
it writes only after the artifact was verified again, the disk was selected, confirmed, opened and
accepted; a report of success comes after the image was read back from the disk; and as long as the
image file has delivered no more than the verified size to the copy, every byte written lies below
that size, while in a complete run without a failed write that is the exact condition. -/
theorem writer_confined (t : Task) (manifestFromSlice : Bytes → Except String ImageManifest)
    (expectation : BoardImageExpectation) (fuel : ℕ) (env : ℕ → World) :
    let p := (writeVerifiedImage t.sha256 manifestFromSlice fuel t.artifact t.selectedScanId t.token
      expectation).run
    (∀ bytes s, machine.Performs p env {} (.writeAll bytes) s → t.Confirmed s.log) ∧
    (∀ n, (machine.stop p env n {}).2.delivered ≤ t.artifact.imageSizeBytes →
      ∀ b o, (b, o) ∈ (machine.stop p env n {}).2.written → o < t.artifact.imageSizeBytes) ∧
    ((machine.exec p env {}).2.writeFailed = false →
      ((∀ b o, (b, o) ∈ (machine.exec p env {}).2.written → o < t.artifact.imageSizeBytes) ↔
        (machine.exec p env {}).2.delivered ≤ t.artifact.imageSizeBytes)) ∧
    ∀ report, (machine.exec p env {}).1 = .ok report →
      (machine.exec p env {}).2.readBack.length = t.artifact.imageSizeBytes ∧
      t.sha256 (machine.exec p env {}).2.readBack = t.artifact.imageSha256 := by
  intro p
  have hsafe : machine.Safe (fun _ => True) (fun _ => False) t.Allowed (Task.Ends (Reported t)) p
      {} :=
    @writeVerifiedImage_spec t manifestFromSlice fuel expectation {}
      ⟨rfl, rfl, by simp [NoneOpened]⟩
  have hend := @Machine.Safe.exec _ _ _ _ _ _ _ _ _ _ hsafe env fun _ => trivial
  refine ⟨fun bytes s hperforms => (hsafe.performs (fun _ => trivial) hperforms).2,
    fun n hdelivered b o hwritten => ?_, fun hwrites => ?_, fun report hreport => ?_⟩
  · have hbounded : Bounded (machine.stop p env n {}).2 := by
      rcases hsafe.stop (fun _ => trivial) n with ⟨m, -, h⟩ | ⟨r, -, h⟩ | ⟨-, β, op, h⟩
      · exact h.elim
      · cases r with
        | ok report => exact ⟨_, Nat.le_refl _, h.1⟩
        | error e => exact h.1
      · exact h.bounded
    obtain ⟨m, hm, hcovers⟩ := hbounded
    have := (hcovers o).mp ⟨b, hwritten⟩
    omega
  · have hcovers : Covers (machine.exec p env {}).2 (machine.exec p env {}).2.delivered := by
      cases hresult : (machine.exec p env {}).1 with
      | ok report =>
        rw [hresult] at hend
        exact hend.1
      | error e =>
        rw [hresult] at hend
        exact hend.2.resolve_left (by rw [hwrites]; decide)
    constructor
    · intro hbelow
      by_contra hgrown
      obtain ⟨b, hb⟩ := (hcovers t.artifact.imageSizeBytes).mpr (by omega)
      exact absurd (hbelow b _ hb) (Nat.lt_irrefl _)
    · intro hdelivered b o hwritten
      exact Nat.lt_of_lt_of_le ((hcovers o).mp ⟨b, hwritten⟩) hdelivered
  · rw [hreport] at hend
    exact ⟨hend.2.1, hend.2.2.1⟩

end Copy

/-! ### An image that grows -/

/-- SHA-256 of the texts of the example. -/
def exampleSha256 (bytes : Bytes) : Sha256Digest :=
  if bytes = ascii "a" then
    ascii "ca978112ca1bbdcafac231b39a23dc4da786eff8147c4e72b9807785afee48bb"
  else if bytes = ascii "ab" then
    ascii "fb8e20fc2e4c3f248c60c39bd652f3c1347298bb977b8b4d5903b85055620603"
  else if bytes = ascii "manifest" then
    ascii "05b3abf2579a5eb66403cd78be557fd860633a1fe2103c7642030defe32c657f"
  else ascii "a32527df7d4bd2950e643db94cb69099506c13118471fb4e2ad4e51bfb929a98"

/-- The manifest of an image of one byte. -/
def exampleManifest : ImageManifest where
  formatVersion := 1
  kind := ascii "aros-board-sd-image"
  boardName := ascii "rpi4"
  boardModel := ascii "rpi4"
  boardTransport := ascii "uefi-esp"
  usbEcm := none
  layoutSha256 := exampleSha256 (ascii "ab")
  sourceSha256 := exampleSha256 (ascii "ab")
  imageFilename := ascii "aros.img"
  imageSha256 := exampleSha256 (ascii "a")
  imageSizeBytes := 1
  minimumDeviceBytes := 1
  payloadSha256 := []

/-- The artifact of that image. -/
def exampleArtifact : VerifiedImageArtifact where
  artifactDir := PathBuf.ofBytes (ascii "/artifact")
  manifestRelativePath := PathBuf.ofBytes (ascii "manifest.json")
  imageRelativePath := PathBuf.ofBytes (ascii "aros.img")
  manifestPath := PathBuf.ofBytes (ascii "/artifact/manifest.json")
  imagePath := PathBuf.ofBytes (ascii "/artifact/aros.img")
  manifestSha256 := exampleSha256 (ascii "manifest")
  imageSha256 := exampleSha256 (ascii "a")
  imageSizeBytes := 1
  minimumDeviceBytes := 1
  board := ⟨ascii "rpi4", ascii "rpi4", ascii "uefi-esp", none⟩

/-- A disk that may be written. -/
def exampleCandidate : DiskCandidate where
  scanId := ascii "linux-1044dec7206e8d7c"
  fingerprint := ascii "1044dec7206e8d7c9fbb4ae8f766668406d2567fc7fc1a160a9d4700fcf8f8e9"
  sizeBytes := 1024
  identity := ascii "card"
  model := ascii "reader"
  transport := ascii "usb"
  wholeDisk := true
  removable := true
  writable := true
  mounted := false

/-- A world in which the image that was verified as `a` is `ab` when it is copied. -/
def grownImage (n : ℕ) : World where
  metadata path := .ok (if path = PathBuf.ofBytes (ascii "/artifact") then .dir else .file)
  symlinkMetadata _ := .ok .file
  canonicalize := .ok
  read path := .ok (if path = exampleArtifact.imagePath then ascii "a" else ascii "manifest")
  scan := .ok [exampleCandidate]
  openVerifiedTarget _ := .ok ()
  verifyTargetSafeAfterOpen _ := .ok ()
  seekTarget := .ok ()
  openImage _ := .ok ()
  readImage limit :=
    if h : n < 17 ∧ 2 ≤ limit then .ok ⟨ascii "ab", h.2⟩ else .ok ⟨[], Nat.zero_le _⟩
  writeFails _ := none
  syncAll := .ok ()
  readTarget _ := .ok ⟨[], Nat.zero_le _⟩
  finish := .ok ()

/-- An image that has grown between its verification and the copy is written beyond the verified
size of one byte. -/
theorem writer_beyond_image :
    let p := (writeVerifiedImage exampleSha256 (fun _ => .ok exampleManifest) 3 exampleArtifact
      exampleCandidate.scanId (confirmationToken exampleSha256 exampleArtifact exampleCandidate)
      exampleArtifact.board).run
    (machine.exec p grownImage {}).2.written = [(0x61, 0), (0x62, 1)] ∧
      ¬ ∀ b o, (b, o) ∈ (machine.exec p grownImage {}).2.written →
        o < exampleArtifact.imageSizeBytes := by
  intro p
  have hwritten : (machine.exec p grownImage {}).2.written = [(0x61, 0), (0x62, 1)] := by
    decide
  refine ⟨hwritten, fun hbelow => ?_⟩
  have := hbelow 0x62 1 (by rw [hwritten]; simp)
  exact absurd this (by decide)

end SdDisk

end ArosTools
