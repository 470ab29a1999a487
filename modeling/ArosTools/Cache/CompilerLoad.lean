import ArosTools.Cache.CompilerOwner

/-!
# A managed root has at most one owner

* `returns_load`, `returns_load_other` : loading the root of an owner, whatever else runs.
* `managed_root_owned_once` : **a root gets at most one owner**, in every interleaving, and keeps it.
-/

namespace ArosTools

namespace CompilerCache

open Pool

section

variable {i : ℕ} {α β : Type} {A : Root → Prop} {Q : Except LifecycleError α → Root → Prop}
  {sha256Bytes : Bytes → Sha256Digest} {parseOwnership : Bytes → Option OwnershipRecord}
  {root : Bytes} {backend : CompilerBackend}

/-! ### A root that has an owner -/

/-- An owner stays: no program changes what the root of an owner is loaded from. -/
theorem Owned.keeps {configuration : Bytes} {n j : ℕ} {s s' : Root} (hkeeps : Keeps j s s')
    (h : Owned sha256Bytes root n backend configuration s) :
    Owned sha256Bytes root n backend configuration s' where
  absolute := h.absolute
  short := h.short
  contents := h.contents
  isPrivate := hkeeps.isPrivate.trans h.isPrivate
  present := hkeeps.present h.present
  control := hkeeps.control h.control
  data := hkeeps.data n h.data
  configuration_eq := by
    rw [hkeeps.done (by rw [h.ownership_eq]; exact nofun), h.configuration_eq]
  ownership_eq := hkeeps.target .ownership _ h.ownership_eq

/-- A program that only looks and is answered the same in all the roots of `I`: its result. -/
def Returns (I : Root → Prop) (a : α) : Prog Call α → Prop
  | .ret b => b = a
  | .call op k => (∀ i s, (answer i s op).2 = s) ∧
      ∃ b, (∀ i s, I s → (answer i s op).1 = b) ∧ Returns I a (k b)

theorem Returns.bind {I : Root → Prop} {p : Prog Call β} {f : β → Prog Call α} {a : α} {b : β}
    (hp : Returns I b p) (hf : Returns I a (f b)) : Returns I a (p >>= f) := by
  induction p with
  | ret c =>
    obtain rfl : c = b := hp
    exact hf
  | call op k ih =>
    obtain ⟨hop, c, hc, hrest⟩ := hp
    exact ⟨hop, c, hc, ih c hrest⟩

theorem Returns.taskBind {I : Root → Prop} {x : Task β} {f : β → Task α} {b : β}
    {r : Except LifecycleError α} (hx : Returns I (.ok b) x) (hf : Returns I r (f b)) :
    Returns I r (x >>= f : Task α) :=
  Returns.bind hx hf

theorem Returns.io {I : Root → Prop} {action : String} {op : Call (Except IoFailure β)} {b : β}
    (hop : ∀ i s, (answer i s op).2 = s) (hb : ∀ i s, I s → (answer i s op).1 = .ok b) :
    Returns I (.ok b) (performIo action op) := ⟨hop, .ok b, hb, rfl⟩

theorem Returns.ioFails {I : Root → Prop} {action : String} {op : Call (Except IoFailure β)}
    {f : β → Task α} {e : IoFailure} (hop : ∀ i s, (answer i s op).2 = s)
    (he : ∀ i s, I s → (answer i s op).1 = .error e) :
    Returns I (.error (.io action e)) (performIo action op >>= f : Task α) :=
  ⟨hop, .error e, he, rfl⟩

/-- The result of a program that is answered the same all the time. -/
theorem Returns.sound {I : Root → Prop} {p : Prog Call α} {a : α} (h : Returns I a p) {j : ℕ} :
    Sound pool (fun s => Consistent s ∧ I s) Keeps j (fun b _ => b = a) p fun _ => True := by
  induction p with
  | ret b => exact ⟨Stable.true, fun _ _ _ => h⟩
  | call op k ih =>
    obtain ⟨hop, b, hb, hrest⟩ := h
    refine ⟨Stable.true, fun s hs _ _ => ?_⟩
    have hstep : pool.machine.step op j s = (b, s) := Prod.ext (hb j s hs.2) (hop j s)
    rw [hstep]
    exact ⟨hs, Keeps.refl j s, fun _ => True, trivial, ih b hrest⟩

section

variable {configuration : Bytes} {n : ℕ}

theorem Owned.entries {s : Root} (h : Owned sha256Bytes root n backend configuration s) :
    s.entries = [.control, .publicationLock, .configuration, .data] := by
  simp [Root.entries, h.control, h.configuration_eq, h.data, published]

/-- Two reads that are answered the same. -/
theorem returns_directoryEntryNames {I : Root → Prop} {maxEntries : ℕ} {entries : List Entry}
    (hread : ∀ i s, I s → (answer i s (.readEntryNames maxEntries)).1 = .ok entries) :
    Returns I (.ok (.ok entries)) (directoryEntryNames maxEntries) := by
  refine ⟨fun _ _ => rfl, _, hread, fun _ _ => rfl, _, hread, ?_⟩
  exact congrArg Except.ok (if_pos rfl)

/-- The names in the root of an owner are those of the managed layout. -/
theorem returns_layout : Returns (Owned sha256Bytes root n backend configuration) (.ok ())
    (validateManagedRootLayout backend) := by
  have hread : ∀ i s, Owned sha256Bytes root n backend configuration s →
      (answer i s (.readEntryNames maxManagedRootEntries)).1 =
        .ok [.control, .publicationLock, .configuration, .data] := by
    intro i s h
    simp [answer, h.entries, maxManagedRootEntries]
  refine (returns_directoryEntryNames hread).taskBind ?_
  refine ⟨fun _ _ => rfl, some .file, fun i s h => ?_, rfl⟩
  simp [answer, h.entries]

/-- The configuration that is published is short enough to be read again. -/
theorem configurationContents_length (hshort : validateBackendPathConstraints root backend = .ok ())
    (hcontents : configurationContents root backend = .ok configuration) :
    configuration.length ≤ maxOwnershipBytes := by
  unfold configurationContents at hcontents
  split_ifs at hcontents with hutf8
  cases backend with
  | ccache =>
    obtain rfl := Except.ok.inj hcontents
    decide
  | sccache =>
    obtain rfl := Except.ok.inj hcontents
    rw [validateBackendPathConstraints] at hshort
    split_ifs at hshort with hlong
    have hsocket : (joinPath root (ascii "server.sock")).length ≤ maxSccacheSocketPathBytes := by
      simpa using hlong
    have hjoin : ∀ name, (joinPath root name).length ≤ root.length + 1 + name.length := by
      intro name
      unfold joinPath
      split_ifs
      · simp
      · simp only [List.length_append, List.length_singleton, Nat.le_refl]
    have hroot : root.length ≤ (joinPath root (ascii "server.sock")).length := by
      unfold joinPath
      split_ifs <;> simp
    have hdata := hjoin dataDirectory
    have hlength : dataDirectory.length = 4 := by decide
    have hhead : (ascii ("# Generated by aros-tools. This namespace has local disk storage " ++
        "only.\n[cache.disk]\ndir = \"")).length ≤ 200 := by decide
    have htail : (ascii "\"\nsize = 5368709120\n").length ≤ 200 := by decide
    simp only [List.length_append, dataRoot, maxOwnershipBytes, maxSccacheSocketPathBytes] at *
    omega

/-- The marker of a root is read back, if it is short enough. -/
theorem decodeOwnership_record {bytes : Bytes}
    (hround : parseOwnership bytes = some (ownershipRecord sha256Bytes root backend configuration)) :
    decodeOwnership parseOwnership root bytes backend =
      .ok (ownershipRecord sha256Bytes root backend configuration) := by
  simp [decodeOwnership, hround, ownershipRecord]

theorem decodeOwnership_other {bytes : Bytes} {other : CompilerBackend} (hother : other ≠ backend)
    (hround : parseOwnership bytes = some (ownershipRecord sha256Bytes root backend configuration)) :
    decodeOwnership parseOwnership root bytes other =
      .error (.invalidOwnership ("marker is bound to '" ++ backend.program ++ "'")) := by
  simp [decodeOwnership, hround, ownershipRecord, hother.symm]

theorem returns_lift {I : Root → Prop} {x : Except LifecycleError β} {f : β → Task α} {b : β}
    {r : Except LifecycleError α} (hx : x = .ok b) (hf : Returns I r (f b)) :
    Returns I r ((liftM x : Task β) >>= f : Task α) := by
  subst hx
  exact hf

theorem returns_lift_error {I : Root → Prop} {x : Except LifecycleError β} {f : β → Task α}
    {e : LifecycleError} (hx : x = .error e) :
    Returns I (.error e) ((liftM x : Task β) >>= f : Task α) := by
  subst hx
  rfl

theorem answer_private {directory : Directory} (hdirectory : directory = .root ∨ directory = .data)
    (i : ℕ) (s : Root) (h : Owned sha256Bytes root n backend configuration s) :
    (answer i s (.validatePrivateDirectory directory)).1 = .ok () := by
  rcases hdirectory with rfl | rfl
  · simp [answer, Root.has, h.present, h.isPrivate]
  · simp [answer, Root.has, h.data, h.isPrivate]

theorem answer_ownership (hfits : (ownershipRecord sha256Bytes root backend
      configuration).encode.length ≤ maxOwnershipBytes) (i : ℕ) (s : Root)
    (h : Owned sha256Bytes root n backend configuration s) :
    (answer i s (.measureRegularFile .ownership maxOwnershipBytes)).1 =
      .ok (some (ownershipRecord sha256Bytes root backend configuration).encode) := by
  have hslot : (s.slot .ownership).target = _ := h.ownership_eq
  simp [answer, hslot, hfits]

/-- **An owner loads its root.** -/
theorem returns_load (habsolute : resolveExplicitRoot root = .ok ())
    (hshort : validateBackendPathConstraints root backend = .ok ())
    (hcontents : configurationContents root backend = .ok configuration)
    (hround : parseOwnership (ownershipRecord sha256Bytes root backend configuration).encode =
      some (ownershipRecord sha256Bytes root backend configuration))
    (hfits : (ownershipRecord sha256Bytes root backend configuration).encode.length ≤
      maxOwnershipBytes) :
    Returns (Owned sha256Bytes root n backend configuration)
      (.ok ⟨backend, root, dataRoot root, joinPath root (ascii "configuration.toml")⟩)
      (loadManagedCompilerCache sha256Bytes parseOwnership root backend) := by
  refine returns_lift habsolute (returns_lift hshort ?_)
  refine ⟨fun _ _ => rfl, some .directory, fun i s h => by simp [answer, h.present], ?_⟩
  refine (Returns.io (fun _ _ => rfl) (answer_private (.inl rfl))).taskBind ?_
  refine (Returns.io (fun _ _ => rfl) (answer_ownership hfits)).taskBind ?_
  refine returns_lift (decodeOwnership_record hround) (returns_layout.taskBind ?_)
  refine Returns.taskBind (b := ()) ?_ ((Returns.io (fun _ _ => rfl)
    (answer_private (.inr rfl))).taskBind rfl)
  -- The configuration is the one that was published with the marker.
  refine (Returns.io (b := some configuration) (fun _ _ => rfl) fun i s h => ?_).taskBind
    (returns_lift hcontents ?_)
  · have hslot : (s.slot .configuration).target = some (n, configuration) := by
      change s.configuration.target = _
      rw [h.configuration_eq]
      rfl
    simp [answer, hslot, configurationContents_length hshort hcontents]
  · rw [if_neg]
    · rfl
    · exact not_or.mpr ⟨not_not_intro rfl, not_not_intro rfl⟩

/-- A marker that is too long to be read again. -/
theorem returns_load_long {other : CompilerBackend} (hlong : ¬ (ownershipRecord sha256Bytes root
      backend configuration).encode.length ≤ maxOwnershipBytes)
    (habsolute : resolveExplicitRoot root = .ok ())
    (hshort : validateBackendPathConstraints root other = .ok ()) :
    Returns (Owned sha256Bytes root n backend configuration)
      (.error (.io "read compiler-cache ownership marker" .tooLarge))
      (loadManagedCompilerCache sha256Bytes parseOwnership root other) := by
  refine returns_lift habsolute (returns_lift hshort ?_)
  refine ⟨fun _ _ => rfl, some .directory, fun i s h => by simp [answer, h.present], ?_⟩
  refine (Returns.io (fun _ _ => rfl) (answer_private (.inl rfl))).taskBind ?_
  refine Returns.ioFails (fun _ _ => rfl) fun i s h => ?_
  have hslot : (s.slot .ownership).target = _ := h.ownership_eq
  simp [answer, hslot, hlong]

/-- Another backend cannot load the root of an owner. -/
theorem returns_load_other {other : CompilerBackend} (hother : other ≠ backend)
    (habsolute : resolveExplicitRoot root = .ok ())
    (hround : parseOwnership (ownershipRecord sha256Bytes root backend configuration).encode =
      some (ownershipRecord sha256Bytes root backend configuration)) :
    ∃ e, e ≠ .missingPreparedRoot ∧ Returns (Owned sha256Bytes root n backend configuration)
      (.error e) (loadManagedCompilerCache sha256Bytes parseOwnership root other) := by
  by_cases hshort : validateBackendPathConstraints root other = .ok ()
  · by_cases hfits : (ownershipRecord sha256Bytes root backend configuration).encode.length ≤
        maxOwnershipBytes
    · refine ⟨.invalidOwnership ("marker is bound to '" ++ backend.program ++ "'"), fun h => (by cases h),
        returns_lift habsolute (returns_lift hshort ?_)⟩
      refine ⟨fun _ _ => rfl, some .directory, fun i s h => by simp [answer, h.present], ?_⟩
      refine (Returns.io (fun _ _ => rfl) (answer_private (.inl rfl))).taskBind ?_
      refine (Returns.io (fun _ _ => rfl) (answer_ownership hfits)).taskBind ?_
      exact returns_lift_error (decodeOwnership_other hother hround)
    · refine ⟨.io "read compiler-cache ownership marker" .tooLarge, fun h => (by cases h),
        returns_load_long hfits habsolute hshort⟩
  · cases hpath : validateBackendPathConstraints root other with
    | ok u => exact absurd hpath hshort
    | error e =>
      refine ⟨e, ?_, returns_lift habsolute (returns_lift_error hpath)⟩
      rintro rfl
      unfold validateBackendPathConstraints at hpath
      split_ifs at hpath
      exact absurd (Except.error.inj hpath) fun h => by cases h

theorem Returns.taskError {I : Root → Prop} {x : Task β} {f : β → Task α} {e : LifecycleError}
    (hx : Returns I (.error e) x) : Returns I (.error e) (x >>= f : Task α) :=
  Returns.bind hx rfl

theorem Returns.attempt {I : Root → Prop} {x : Task β} {f : Except LifecycleError β → Task α}
    {r : Except LifecycleError β} {b : Except LifecycleError α} (hx : Returns I r x)
    (hf : Returns I b (f r)) : Returns I b (CompilerCache.attempt x >>= f : Task α) := by
  have hresult : Returns I (.ok r) (CompilerCache.attempt x) := Returns.bind hx rfl
  exact hresult.taskBind hf

/-- Another backend cannot prepare the root of an owner. -/
theorem returns_prepare_other {other : CompilerBackend} (hother : other ≠ backend)
    (habsolute : resolveExplicitRoot root = .ok ())
    (hround : parseOwnership (ownershipRecord sha256Bytes root backend configuration).encode =
      some (ownershipRecord sha256Bytes root backend configuration)) :
    ∃ e, Returns (Owned sha256Bytes root n backend configuration) (.error e)
      (prepareManagedCompilerCache sha256Bytes parseOwnership root other) := by
  obtain ⟨e, hmissing, hload⟩ :=
    returns_load_other (n := n) hother habsolute hround
  cases hpath : validateBackendPathConstraints root other with
  | error e => exact ⟨e, returns_lift habsolute (returns_lift_error hpath)⟩
  | ok u =>
    refine ⟨e, returns_lift habsolute (returns_lift hpath (Returns.attempt hload ?_))⟩
    cases e with
    | missingPreparedRoot => exact absurd rfl hmissing
    | relativeRoot => rfl
    | nonEmptyUnownedRoot => rfl
    | invalidOwnership reason => rfl
    | io action source => rfl

end

/-! ### Every interleaving -/

/-- What the result of a request says about the root: a root that was claimed is owned. -/
def Claimed (sha256Bytes : Bytes → Sha256Digest) (root : Bytes) (i : ℕ)
    (result : Except LifecycleError Outcome) (s : Root) : Prop :=
  ∀ preparation, result = .ok (.prepared preparation) → preparation.created = true →
    preparation.dataRoot = dataRoot root ∧
      ∃ configuration, Owned sha256Bytes root i preparation.backend configuration s

theorem Claimed.keeps {j : ℕ} {s s' : Root} {result : Except LifecycleError Outcome}
    (hkeeps : Keeps j s s') (h : Claimed sha256Bytes root i result s) :
    Claimed sha256Bytes root i result s' := by
  intro preparation heq hcreated
  obtain ⟨hdata, configuration, howned⟩ := h preparation heq hcreated
  exact ⟨hdata, configuration, howned.keeps hkeeps⟩

/-- Every request may run beside the others. -/
theorem sound_program (request : Request) :
    SoundOn i (Claimed sha256Bytes root i) (request.program sha256Bytes parseOwnership root)
      fun _ => True := by
  cases request with
  | prepare backend =>
    refine .bind sound_prepare (fun preparation => ?_) (fun e => ?_) (fun _ _ _ _ _ h => nomatch h)
    · refine .pure ?_ ?_
      · rintro j _ s s' _ hkeeps h preparation' heq hcreated
        obtain ⟨hbackend, hdata, configuration, howned⟩ := h preparation' heq hcreated
        exact ⟨hbackend, hdata, configuration, howned.keeps hkeeps⟩
      · rintro s _ h preparation' heq hcreated
        obtain rfl : preparation = preparation' := by simpa using heq
        obtain ⟨rfl, hdata, howned⟩ := h preparation rfl hcreated
        exact ⟨hdata, howned⟩
    · exact fun _ _ _ _ _ _ _ _ h => nomatch h
  | load backend =>
    refine .bind (looks_load.sound (R := fun _ _ => True) Stable.true fun _ _ _ _ => trivial)
      (fun managed => ?_) (fun e => Stable.true) (fun _ _ _ _ _ h => nomatch h)
    exact .pure Stable.true fun _ _ _ _ h => nomatch h

/-- Requests beside each other keep what they have to keep. -/
theorem good_of_run {requests : ℕ → Request} {isPrivate present : Bool}
    {σ : System Call Root (Except LifecycleError Outcome)}
    (hrun : pool.Run (initial sha256Bytes parseOwnership root requests isPrivate present) σ) :
    Good pool Consistent Keeps (Claimed sha256Bytes root) (Claimed sha256Bytes root) σ := by
  refine Good.run exit_keeps (fun i a s hs h => h.keeps (exit_keeps i s hs).2)
    (fun _ _ _ _ _ _ hkeeps h => h.keeps hkeeps) ⟨⟨?_, ?_, ?_⟩, ?_, ?_⟩ hrun
  · intro _ file
    cases file <;> rfl
  · intro file i h
    cases file <;> exact nomatch h
  · exact fun _ => rfl
  · intro i p hp
    obtain rfl := Option.some.inj hp
    exact ⟨fun _ => True, trivial, sound_program (requests i)⟩
  · intro i a h
    cases h


/-- A program that only looks does not have to wait. -/
theorem Returns.solo {α : Type} {I : Root → Prop} {a : α} {p : Prog Call α} {j : ℕ} {s : Root}
    (h : Returns I a p) (hs : I s) : pool.solo j p s = some (a, s) := by
  induction p with
  | ret b =>
    obtain rfl : b = a := h
    rfl
  | call op k ih =>
    obtain ⟨hop, b, hb, hrest⟩ := h
    have hfree : waits j s op = false := by
      cases op with
      | lockForJournal file =>
        have hsame := hop 0 { isPrivate := true, present := true }
        cases file <;> exact absurd hsame (by decide)
      | _ => rfl
    have hstep : pool.machine.step op j s = (b, s) := Prod.ext (hb j s hs) (hop j s)
    rw [Pool.solo, hstep]
    exact (if_neg (Bool.eq_false_iff.mp hfree)).trans (ih b hrest)

section

variable {requests : ℕ → Request} {isPrivate present : Bool} {configuration : Bytes}
  {σ σ' : System Call Root (Except LifecycleError Outcome)}

/-- A program that has not run has no result. -/
theorem not_mem_results
    (hrun : pool.Run (initial sha256Bytes parseOwnership root requests isPrivate present) σ)
    {j : ℕ} {p : Prog Call (Except LifecycleError Outcome)} (hp : σ.running j = some p)
    (r : Except LifecycleError Outcome) : (j, r) ∉ σ.results := by
  intro hmem
  have hnone := hrun.finished pool (fun _ _ h => nomatch h) j r hmem
  rw [hnone] at hp
  cases hp

/-- The result of a program that begins when the root has an owner. -/
theorem result_of_returns {n j : ℕ} {p : Prog Call (Except LifecycleError Outcome)}
    {a r : Except LifecycleError Outcome}
    (hrun : pool.Run (initial sha256Bytes parseOwnership root requests isPrivate present) σ)
    (howned : Owned sha256Bytes root n backend configuration σ.state)
    (hp : σ.running j = some p)
    (hreturns : Returns (Owned sha256Bytes root n backend configuration) a p)
    (hrun' : pool.Run σ σ') (hr : (j, r) ∈ σ'.results) : r = a := by
  have hgood := good_of_run hrun
  have hkept : ∀ i s s', Consistent s → Keeps i s s' →
      Owned sha256Bytes root n backend configuration s →
      Owned sha256Bytes root n backend configuration s' :=
    fun _ _ _ _ hkeeps h => h.keeps hkeeps
  have hstart : Good pool
      (fun s => Consistent s ∧ Owned sha256Bytes root n backend configuration s) Keeps
      (fun i b _ => i = j → b = a) (fun i b _ => i = j → b = a) σ := by
    refine ⟨⟨hgood.holds, howned⟩, fun i q hq => ?_, fun i b hmem hi => ?_⟩
    · by_cases hi : i = j
      · subst hi
        obtain rfl : p = q := Option.some.inj (hp.symm.trans hq)
        exact ⟨fun _ => True, trivial, hreturns.sound.weaken fun _ _ _ h _ => h⟩
      · obtain ⟨A, hA, hsound⟩ := hgood.sound i q hq
        exact ⟨A, hA, (hsound.strengthen hkept).weaken fun _ _ _ _ h => absurd h hi⟩
    · subst hi
      exact absurd hmem (not_mem_results hrun hp b)
  have hexit : ∀ i s, Consistent s ∧ Owned sha256Bytes root n backend configuration s →
      (Consistent (exitRoot i s) ∧ Owned sha256Bytes root n backend configuration (exitRoot i s)) ∧
        Keeps i s (exitRoot i s) := by
    intro i s hs
    obtain ⟨hconsistent, hkeeps⟩ := exit_keeps i s hs.1
    exact ⟨⟨hconsistent, hs.2.keeps hkeeps⟩, hkeeps⟩
  have hend := Good.run (R := fun i b _ => i = j → b = a) hexit (fun _ _ _ _ h => h)
    (fun _ _ _ _ _ _ _ h => h) hstart hrun'
  exact hend.results j r hr rfl

/-- **A managed root gets at most one owner**: requests side by side on an empty or missing root,
in any order and each of them stopped at any step. At most one of them claims the root; from then on
its backend loads it and the other one fails; and a file that was published stays. -/
theorem managed_root_owned_once
    (hround : ∀ backend configuration, configurationContents root backend = .ok configuration →
      parseOwnership (ownershipRecord sha256Bytes root backend configuration).encode =
        some (ownershipRecord sha256Bytes root backend configuration))
    (hfits : ∀ backend configuration, configurationContents root backend = .ok configuration →
      (ownershipRecord sha256Bytes root backend configuration).encode.length ≤ maxOwnershipBytes)
    (hrun : pool.Run (initial sha256Bytes parseOwnership root requests isPrivate present) σ) :
    (∀ i j p q, (i, .ok (.prepared p)) ∈ σ.results → p.created = true →
      (j, .ok (.prepared q)) ∈ σ.results → q.created = true → i = j) ∧
    ∀ σ', pool.Run σ σ' →
      (∀ file x, (σ.state.slot file).target = some x → (σ'.state.slot file).target = some x) ∧
      ∀ i p j, (i, .ok (.prepared p)) ∈ σ.results → p.created = true →
        σ.running j = some ((requests j).program sha256Bytes parseOwnership root) →
        (requests j = .load p.backend → ∃ m, m.dataRoot = p.dataRoot ∧
          pool.solo j ((requests j).program sha256Bytes parseOwnership root) σ.state =
            some (.ok (.loaded m), σ.state) ∧
          ∀ r, (j, r) ∈ σ'.results → r = .ok (.loaded m)) ∧
        ((requests j).backend ≠ p.backend → ∃ e,
          pool.solo j ((requests j).program sha256Bytes parseOwnership root) σ.state =
            some (.error e, σ.state) ∧
          ∀ r, (j, r) ∈ σ'.results → r = .error e) := by
  have hgood := good_of_run hrun
  refine ⟨fun i j p q hp hpc hq hqc => ?_, fun σ' hrun' => ⟨fun file x hx => ?_, ?_⟩⟩
  · -- The data directory has one maker.
    obtain ⟨-, _, hi⟩ := hgood.results i _ hp p rfl hpc
    obtain ⟨-, _, hj⟩ := hgood.results j _ hq q rfl hqc
    exact Option.some.inj (hi.data.symm.trans hj.data)
  · exact hgood.keeps (O := fun s => (s.slot file).target = some x) exit_keeps
      (fun i a s hs h => h.keeps (exit_keeps i s hs).2) (fun _ _ _ _ _ _ hkeeps h => h.keeps hkeeps)
      (fun _ _ _ _ hkeeps h => hkeeps.target file x h) hrun' hx
  · intro i p j hp hcreated hj
    obtain ⟨hdata, configuration, howned⟩ := hgood.results i _ hp p rfl hcreated
    have hmarker := hround p.backend configuration howned.contents
    constructor
    · intro hload
      rw [hload] at hj ⊢
      have hreturns : Returns (Owned sha256Bytes root i p.backend configuration)
          (.ok (.loaded ⟨p.backend, root, dataRoot root,
            joinPath root (ascii "configuration.toml")⟩))
          ((Request.load p.backend).program sha256Bytes parseOwnership root) :=
        (returns_load howned.absolute howned.short howned.contents hmarker
          (hfits p.backend configuration howned.contents)).taskBind rfl
      exact ⟨_, hdata.symm, hreturns.solo howned,
        fun r hr => result_of_returns hrun howned hj hreturns hrun' hr⟩
    · intro hother
      have hreturns : ∃ e, Returns (Owned sha256Bytes root i p.backend configuration) (.error e)
          ((requests j).program sha256Bytes parseOwnership root) := by
        cases hrequest : requests j with
        | prepare other =>
          rw [hrequest] at hother
          obtain ⟨e, he⟩ := returns_prepare_other hother howned.absolute hmarker
          exact ⟨e, he.taskError⟩
        | load other =>
          rw [hrequest] at hother
          obtain ⟨e, -, he⟩ := returns_load_other hother howned.absolute hmarker
          exact ⟨e, he.taskError⟩
      obtain ⟨e, he⟩ := hreturns
      exact ⟨e, he.solo howned, fun r hr => result_of_returns hrun howned hj he hrun' hr⟩

end

/-! ### A request that runs alone -/

theorem solo_perform {α β : Type} (i : ℕ) (op : Call β) (k : β → Task α) (s : Root) :
    pool.solo i (perform op >>= k : Task α) s =
      if waits i s op then none else pool.solo i (k (answer i s op).1) (answer i s op).2 := rfl

theorem solo_pure {α : Type} (i : ℕ) (a : α) (s : Root) :
    pool.solo i (pure a : Task α) s = some (.ok a, s) := rfl

theorem lift_ok_bind {α β : Type} (b : β) (f : β → Task α) :
    ((liftM (.ok b : Except LifecycleError β) : Task β) >>= f) = f b := rfl

theorem attempt_perform {α β : Type} (op : Call β) (f : β → Task α) :
    attempt (perform op >>= f) = perform op >>= fun b => attempt (f b) := rfl

theorem attempt_throw {α : Type} (e : LifecycleError) :
    attempt (throw e : Task α) = pure (.error e) := rfl

/-- The root that a request claims when it runs alone. -/
def claimedRoot (sha256Bytes : Bytes → Sha256Digest) (root configuration : Bytes) : Root where
  isPrivate := true
  present := true
  control := true
  version := true
  prepareLock := true
  preparer := some 0
  data := some 0
  configuration := published 0 configuration
  ownership := published 0 (ownershipRecord sha256Bytes root .ccache configuration).encode

set_option maxRecDepth 4000 in
theorem solo_prepare {configuration : Bytes} (habsolute : resolveExplicitRoot root = .ok ())
    (hcontents : configurationContents root .ccache = .ok configuration) :
    pool.solo 0 ((Request.prepare .ccache).program sha256Bytes parseOwnership root)
        { isPrivate := true, present := false } =
      some (.ok (.prepared ⟨.ccache, root, dataRoot root, true, "empty_private_root_claimed"⟩),
        claimedRoot sha256Bytes root configuration) := by
  rw [Request.program]
  unfold prepareManagedCompilerCache claimRoot enterRoot loadManagedCompilerCache
  rw [hcontents, habsolute]
  simp [lift_ok_bind, attempt_perform, attempt_throw, validateBackendPathConstraints, entryNamesFor,
    directoryEntryNames, performIo, publishAtomicFile, writeJournal, bind_assoc, solo_perform,
    answer, waits, Root.has, Root.make, Root.entries, Root.setSlot, Root.slot, solo_pure, published,
    maxRootEntriesDuringPrepare, claimedRoot]

/-- The requests of the two runs below: one root is claimed, and then loaded or prepared. -/
def laterRequests : ℕ → Request
  | 0 => .prepare .ccache
  | 1 => .load .ccache
  | _ => .prepare .sccache

/-- The first request has claimed the root. -/
def claimedSystem (sha256Bytes : Bytes → Sha256Digest)
    (parseOwnership : Bytes → Option OwnershipRecord) (root configuration : Bytes) :
    System Call Root (Except LifecycleError Outcome) :=
  ⟨exitRoot 0 (claimedRoot sha256Bytes root configuration),
    Function.update (fun i => some ((laterRequests i).program sha256Bytes parseOwnership root)) 0
      none,
    [(0, .ok (.prepared ⟨.ccache, root, dataRoot root, true, "empty_private_root_claimed"⟩))]⟩

theorem run_claimedSystem {configuration : Bytes} (habsolute : resolveExplicitRoot root = .ok ())
    (hcontents : configurationContents root .ccache = .ok configuration) :
    pool.Run (initial sha256Bytes parseOwnership root laterRequests true false)
      (claimedSystem sha256Bytes parseOwnership root configuration) :=
  Run.solo pool rfl (solo_prepare habsolute hcontents)


/-- SHA-256 of the configurations of a root with the data directory `/c/data`. -/
def configurationSha256 (configuration : Bytes) : Sha256Digest :=
  if configuration = ascii ("# Generated by aros-tools. Do not add remote or secondary storage " ++
      "here.\nmax_size = 5.0G\n") then
    ascii "68217ad8218dc178065418057fa203fafbfdcd94889296ee528e07986774c58f"
  else ascii "9cedbb5ce7b7a43aa265100b9ef2468b1760dc8e771157ba799ec0ae824b8689"

/-- Reads the markers that a root may be claimed with. -/
def readMarker (root bytes : Bytes) : Option OwnershipRecord :=
  [CompilerBackend.ccache, CompilerBackend.sccache].findSome? fun backend =>
    match configurationContents root backend with
    | .ok configuration =>
      if (ownershipRecord configurationSha256 root backend configuration).encode = bytes then
        some (ownershipRecord configurationSha256 root backend configuration)
      else none
    | .error _ => none

/-- The root `/c` is claimed by `ccache` and then loaded. -/
theorem managed_root_owned_once_ccache :
    ∃ σ m, pool.Run (initial configurationSha256 (readMarker (ascii "/c")) (ascii "/c")
        laterRequests true false) σ ∧
      pool.solo 1 ((laterRequests 1).program configurationSha256 (readMarker (ascii "/c"))
        (ascii "/c")) σ.state = some (.ok (.loaded m), σ.state) ∧
      m.dataRoot = ascii "/c/data" := by
  have hcontents : ∀ backend, ∃ configuration,
      configurationContents (ascii "/c") backend = .ok configuration ∧
      readMarker (ascii "/c") (ownershipRecord configurationSha256 (ascii "/c") backend
        configuration).encode =
          some (ownershipRecord configurationSha256 (ascii "/c") backend configuration) ∧
      (ownershipRecord configurationSha256 (ascii "/c") backend configuration).encode.length ≤
        maxOwnershipBytes := by
    intro backend
    cases backend with
    | ccache => exact ⟨_, rfl, by decide +kernel, by decide +kernel⟩
    | sccache => exact ⟨_, rfl, by decide +kernel, by decide +kernel⟩
  have hread : ∀ backend configuration,
      configurationContents (ascii "/c") backend = .ok configuration →
      readMarker (ascii "/c") (ownershipRecord configurationSha256 (ascii "/c") backend
        configuration).encode =
          some (ownershipRecord configurationSha256 (ascii "/c") backend configuration) ∧
      (ownershipRecord configurationSha256 (ascii "/c") backend configuration).encode.length ≤
        maxOwnershipBytes := by
    intro backend configuration h
    obtain ⟨configuration', h', hmarker⟩ := hcontents backend
    obtain rfl : configuration' = configuration := Except.ok.inj (h'.symm.trans h)
    exact hmarker
  obtain ⟨configuration, hconfiguration, -⟩ := hcontents .ccache
  have hrun : pool.Run (initial configurationSha256 (readMarker (ascii "/c")) (ascii "/c")
      laterRequests true false) _ := run_claimedSystem rfl hconfiguration
  obtain ⟨-, hlater⟩ := managed_root_owned_once
    (fun backend configuration h => (hread backend configuration h).1)
    (fun backend configuration h => (hread backend configuration h).2) hrun
  obtain ⟨m, hdata, hsolo, -⟩ :=
    ((hlater _ .refl).2 0 _ 1 (List.mem_singleton_self _) rfl rfl).1 rfl
  exact ⟨_, m, hrun, hsolo, hdata⟩

/-- A directory of 250 control characters, eleven times. -/
def controlRoot : Bytes := (List.replicate 11 (0x2f :: List.replicate 250 0x01)).flatten

theorem escape_controlRoot : (controlRoot.flatMap Json.escape).length = 16511 := by
  have hslash : (Json.escape 0x2f).length = 1 := by decide
  have hcontrol : (Json.escape 0x01).length = 6 := by decide
  rw [controlRoot, List.length_flatMap, List.map_flatten, List.sum_flatten]
  simp only [List.map_replicate, List.map_cons, List.sum_cons, hslash, hcontrol]
  decide +kernel

theorem escape_le_encode (record : OwnershipRecord) :
    (record.cacheRoot.flatMap Json.escape).length ≤ record.encode.length := by
  simp only [OwnershipRecord.encode, Json.object, Json.string, List.length_append, List.map_cons,
    List.map_nil, List.intercalate, List.intersperse, List.flatten_cons]
  omega

/-- The marker of a root whose path has many control characters is too long to be read again. -/
theorem managed_root_not_loaded : controlRoot.length < 4096 ∧ ∃ σ σ',
    pool.Run (initial configurationSha256 (readMarker controlRoot) controlRoot laterRequests true
      false) σ ∧
    (0, .ok (.prepared ⟨.ccache, controlRoot, dataRoot controlRoot, true,
      "empty_private_root_claimed"⟩)) ∈ σ.results ∧
    σ.running 1 = some ((Request.load .ccache).program configurationSha256 (readMarker controlRoot)
      controlRoot) ∧
    pool.Run σ σ' ∧
    (1, .error (.io "read compiler-cache ownership marker" .tooLarge)) ∈ σ'.results := by
  have hascii : (dataRoot controlRoot).all (· < 0x80) = true := by decide +kernel
  have hutf8 : isUtf8 (dataRoot controlRoot) = true :=
    decide_eq_true (toStringLossy_of_ascii fun b hb =>
      of_decide_eq_true (List.all_eq_true.mp hascii b hb))
  obtain ⟨configuration, hconfiguration⟩ : ∃ configuration,
      configurationContents controlRoot .ccache = .ok configuration := ⟨_, if_pos hutf8⟩
  have hlong : ¬ (ownershipRecord configurationSha256 controlRoot .ccache
      configuration).encode.length ≤ maxOwnershipBytes := by
    have hle := escape_le_encode (ownershipRecord configurationSha256 controlRoot .ccache
      configuration)
    have hroot : ((ownershipRecord configurationSha256 controlRoot .ccache
      configuration).cacheRoot.flatMap Json.escape).length = 16511 := escape_controlRoot
    rw [maxOwnershipBytes]
    omega
  have hclaimed : Owned configurationSha256 controlRoot 0 .ccache configuration
      (exitRoot 0 (claimedRoot configurationSha256 controlRoot configuration)) :=
    ⟨by decide, rfl, hconfiguration, rfl, rfl, rfl, rfl, rfl, rfl⟩
  have hreturns : Returns (Owned configurationSha256 controlRoot 0 .ccache configuration)
      (.error (.io "read compiler-cache ownership marker" .tooLarge))
      ((Request.load .ccache).program configurationSha256 (readMarker controlRoot) controlRoot) :=
    (returns_load_long hlong hclaimed.absolute hclaimed.short).taskError
  refine ⟨by decide +kernel, _, _, run_claimedSystem hclaimed.absolute hconfiguration,
    List.mem_singleton_self _, rfl, Run.solo (i := 1) pool rfl (hreturns.solo hclaimed), ?_⟩
  exact List.mem_append_right _ (List.mem_singleton_self _)


end

end CompilerCache

end ArosTools
