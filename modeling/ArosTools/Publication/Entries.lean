import ArosTools.Publication.Slot

/-!
# The operations of a transaction together

An `Entry` is a slot with the identities its operation records.  The entries of a transaction use
names that are apart from one another, so what is done for one leaves the others as they are
(`Entry.Local`), and the loops of the code over its operations are followed entry by entry:
`Entry.collectErrors_safe` for the loops that collect errors, `applyOperations_safe` for the one
that stops at the first.
-/

namespace ArosTools

open Sys

/-- A change of a transaction with the identities its operation records. -/
structure Entry where
  slot : Slot
  parentIdentity : FileIdentity
  inst : Option FileIdentity

namespace Entry

/-- The journalled operation. -/
def operation (sha256Bytes : Bytes → Sha256Digest) (e : Entry) : JournalOperation :=
  e.slot.operation sha256Bytes e.parentIdentity e.inst

/-- No name in `X` is a name of the entry or contains one. -/
def Away (X : List Path) (e : Entry) : Prop := ∀ p ∈ X, ∀ q ∈ e.slot.names, ¬ p <+: q

/-- The entries have no name in common and none inside one of the other. -/
def Apart (e e' : Entry) : Prop := Away e.slot.names e' ∧ Away e'.slot.names e

/-- The names of some entries. -/
def allNames (es : List Entry) : List Path := es.flatMap fun e => e.slot.names

/-- A property of the filesystem that only the names of the entry matter for. -/
def Local (e : Entry) (P : Fs → Prop) : Prop :=
  ∀ ⦃X fs fs'⦄, Fs.SameOff X fs fs' → Away X e → P fs → P fs'

/-- A combination of files satisfying `K`. -/
def In (K : Entry → Option File → Option Node → Option Node → Prop) (e : Entry) (fs : Fs) : Prop :=
  ∃ t s b, e.slot.At e.parentIdentity t s b fs ∧ K e t s b

/-- A stable combination; under `C` nothing foreign is in the way. -/
abbrev StableAt (C : Prop) (e : Entry) (fs : Fs) : Prop :=
  e.In (fun e => e.slot.Kept C e.inst) fs

/-- A stable combination with the target untouched. -/
abbrev UntouchedAt (C : Prop) (e : Entry) (fs : Fs) : Prop :=
  e.In (fun e => e.slot.Untouched C e.inst) fs

/-- The original at its target and nothing of the transaction beside it. -/
def OriginalAt (e : Entry) (fs : Fs) : Prop :=
  e.slot.At e.parentIdentity e.slot.original none e.slot.occupant fs

/-- A removal whose target is gone. -/
def Moved (e : Entry) (fs : Fs) : Prop := e.slot.desired = .remove ∧ fs.get e.slot.target = none

theorem local_at (e : Entry) (t : Option File) (s b : Option Node) :
    e.Local (e.slot.At e.parentIdentity t s b) := fun _ _ _ hs hX h => h.frame hs hX

theorem local_in (K : Entry → Option File → Option Node → Option Node → Prop) (e : Entry) :
    e.Local (e.In K) := by
  rintro X fs fs' hs hX ⟨t, s, b, hat, hst⟩
  exact ⟨t, s, b, hat.frame hs hX, hst⟩

theorem UntouchedAt.stableAt {C : Prop} {e : Entry} {fs : Fs} (h : e.UntouchedAt C fs) :
    e.StableAt C fs := by
  obtain ⟨t, s, b, hat, hst⟩ := h
  exact ⟨t, s, b, hat, hst.1⟩

theorem get_target_of_away {e : Entry} {X : List Path} {fs fs' : Fs} (hs : Fs.SameOff X fs fs')
    (hX : Away X e) : fs'.get e.slot.target = fs.get e.slot.target :=
  hs.get _ fun h => hX _ h _ e.slot.target_mem (List.prefix_refl _)

theorem moved_iff_of_away {e : Entry} {X : List Path} {fs fs' : Fs} (hs : Fs.SameOff X fs fs')
    (hX : Away X e) : e.Moved fs' ↔ e.Moved fs := by
  unfold Moved
  rw [get_target_of_away hs hX]

theorem mem_allNames {es : List Entry} {p : Path} :
    p ∈ allNames es ↔ ∃ e ∈ es, p ∈ e.slot.names := by simp [allNames]

theorem away_allNames {es : List Entry} {e : Entry} (h : ∀ e' ∈ es, Away e'.slot.names e) :
    Away (allNames es) e := by
  intro p hp q hq
  obtain ⟨e', he', hp⟩ := mem_allNames.1 hp
  exact h e' he' p hp q hq

variable {fail : Bool} {U : Fs → Prop} {sha256Bytes : Bytes → Sha256Digest}

/-- **The loops that collect errors.**  `I` is kept by every call, `D` says what one action does;
both look at nothing but the names of their entry. -/
theorem collectErrors_safe {label : JournalOperation → String} {act : JournalOperation → Io Unit}
    {I : Entry → Fs → Prop} {D : Entry → Fs → Bool → Fs → Prop} {op : Entry → JournalOperation}
    (hI : ∀ e : Entry, e.Local (I e))
    (hD₁ : ∀ (e : Entry) ok fs, e.Local fun fs₁ => D e fs₁ ok fs)
    (hD₂ : ∀ (e : Entry) ok fs, e.Local fun fs₁ => D e fs ok fs₁)
    (es : List Entry) (hapart : es.Pairwise Apart)
    (hact : ∀ e ∈ es, ∀ fs (G : ∀ ⦃β : Type⦄, Sys β → Fs → Prop)
      (Q : Except IoError Unit → Fs → Prop), I e fs →
      (∀ fs', Fs.SameOff e.slot.names fs fs' → I e fs' → AllOk G fs') →
      (∀ r fs', Fs.SameOff e.slot.names fs fs' → I e fs' → D e fs r.isOk fs' → Q r fs') →
      IoSafe fail U G Q (act (op e)) fs)
    {fs : Fs} {G : ∀ ⦃β : Type⦄, Sys β → Fs → Prop} {Q : Except IoError (List String) → Fs → Prop}
    (hinit : ∀ e ∈ es, I e fs)
    (hG : ∀ fs', Fs.SameOff (allNames es) fs fs' → (∀ e ∈ es, I e fs') → AllOk G fs')
    (hQ : ∀ errors fs', Fs.SameOff (allNames es) fs fs' → (∀ e ∈ es, I e fs') →
      (∀ e ∈ es, ∃ ok, D e fs ok fs') → (errors = [] → ∀ e ∈ es, D e fs true fs') →
      (errors ≠ [] → ∃ e ∈ es, D e fs false fs') → Q (.ok errors) fs') :
    IoSafe fail U G Q (collectErrors label act (es.map op)) fs := by
  induction es generalizing fs G Q with
  | nil =>
    refine IoSafe.pure (hQ [] fs (.refl _ _) ?_ ?_ ?_ fun h => absurd rfl h) <;> simp
  | cons e es ih =>
    obtain ⟨hhead, htail⟩ := List.pairwise_cons.1 hapart
    have hmem : e ∈ e :: es := List.mem_cons_self
    have hsub : ∀ e' ∈ es, e' ∈ e :: es := fun e' he' => List.mem_cons_of_mem e he'
    have hnames : ∀ p ∈ e.slot.names, p ∈ allNames (e :: es) :=
      fun p hp => mem_allNames.2 ⟨e, hmem, hp⟩
    have hnames' : ∀ p ∈ allNames es, p ∈ allNames (e :: es) := by
      intro p hp
      obtain ⟨e', he', hp⟩ := mem_allNames.1 hp
      exact mem_allNames.2 ⟨e', hsub e' he', hp⟩
    -- the rest of the list is out of reach of the first action, and the other way round
    have hrest : ∀ e' ∈ es, Away e.slot.names e' := fun e' he' => (hhead e' he').1
    have hfirst : Away (allNames es) e := away_allNames fun e' he' => (hhead e' he').2
    refine IoSafe.bind (IoSafe.attempt (hact e hmem fs _ _ (hinit e hmem)
      (fun fs' hs' hI' => hG fs' (hs'.mono hnames) (List.forall_mem_cons.2 ⟨hI',
        fun e' he' => hI e' hs' (hrest e' he') (hinit e' (hsub e' he'))⟩))
      fun r fs₁ hs₁ hI₁ hd₁ => ?_))
    refine IoSafe.bind (ih htail (fun e' he' => hact e' (hsub e' he'))
      (fun e' he' => hI e' hs₁ (hrest e' he') (hinit e' (hsub e' he')))
      (fun fs' hs' hI' => hG fs' ((hs₁.mono hnames).trans (hs'.mono hnames'))
        (List.forall_mem_cons.2 ⟨hI e hs' hfirst hI₁, hI'⟩))
      fun errors fs₂ hs₂ hI₂ hd₂ hnil hcons => IoSafe.pure ?_)
    have hde : D e fs r.isOk fs₂ := hD₂ e _ fs hs₂ hfirst hd₁
    have hback : ∀ e' ∈ es, ∀ ok, D e' fs₁ ok fs₂ → D e' fs ok fs₂ :=
      fun e' he' ok h => hD₁ e' ok fs₂ hs₁.symm (hrest e' he') h
    refine hQ _ fs₂ ((hs₁.mono hnames).trans (hs₂.mono hnames'))
      (List.forall_mem_cons.2 ⟨hI e hs₂ hfirst hI₁, hI₂⟩)
      (List.forall_mem_cons.2 ⟨⟨_, hde⟩, fun e' he' => (hd₂ e' he').imp (hback e' he')⟩) ?_ ?_
    · intro h
      obtain ⟨hr, herr⟩ := List.append_eq_nil_iff.1 h
      have hok : r.isOk = true := by
        cases r with
        | ok _ => rfl
        | error _ => simp [labelled, errorTexts] at hr
      exact List.forall_mem_cons.2 ⟨hok ▸ hde, fun e' he' => hback e' he' _ (hnil herr e' he')⟩
    · intro h
      by_cases herr : errors = []
      · have hbad : r.isOk = false := by
          cases r with
          | ok _ => simp [labelled, errorTexts, herr] at h
          | error _ => rfl
        exact ⟨e, hmem, hbad ▸ hde⟩
      · obtain ⟨e', he', hd⟩ := hcons herr
        exact ⟨e', hsub e' he', hback e' he' _ hd⟩

/-! ### Undoing all operations -/

/-- What undoing an entry leaves. -/
structure Undone (C : Prop) (fail : Bool) (e : Entry) (fs : Fs) (ok : Bool) (fs' : Fs) : Prop where
  target : fail = false → fs'.get e.slot.target = e.slot.originalNode
  clean : ok = true ∨ C → e.OriginalAt fs'
  not_moved : ok = true → ¬ e.Moved fs
  ok_of : C → ¬ e.Moved fs → ok = true

theorem moved_iff {e : Entry} {fs : Fs} {t : Option File} {s b : Option Node}
    (hat : e.slot.At e.parentIdentity t s b fs) : e.Moved fs ↔ e.slot.MovedRemoval t := by
  unfold Moved Slot.MovedRemoval
  rw [hat.target, Option.map_eq_none_iff]

variable {C : Prop} {K : Entry → Option File → Option Node → Option Node → Prop}

theorem rollbackOperation_entry {e : Entry} {fs : Fs} {G : ∀ ⦃β : Type⦄, Sys β → Fs → Prop}
    {Q : Except IoError Unit → Fs → Prop} (hC : C → fail = false) (hK : e.slot.Undoable C e.inst (K e)) (h : e.In K fs)
    (hG : ∀ fs', Fs.SameOff e.slot.names fs fs' → e.In K fs' → AllOk G fs')
    (hQ : ∀ r fs', Fs.SameOff e.slot.names fs fs' → e.In K fs' →
      Undone C fail e fs r.isOk fs' → Q r fs') :
    IoSafe fail U G Q (rollbackOperation sha256Bytes (e.operation sha256Bytes)) fs := by
  obtain ⟨t, s, b, hat, hst⟩ := h
  refine Slot.rollbackOperation_safe hC (.refl _ _) hat hst hK (fun fs' h => hG fs' h.1 h.2)
    fun r t' s' b' fs' hs' hat' hst' hrb => hQ r fs' hs' ⟨t', s', b', hat', hst'⟩ ⟨?_, ?_, ?_, ?_⟩
  · intro h
    rw [hat'.target, hrb.target h]
    rfl
  · intro h
    obtain ⟨rfl, rfl, rfl⟩ := hrb.clean h
    exact hat'
  · intro h
    rw [moved_iff hat]
    exact hrb.not_moved h
  · intro h
    rw [moved_iff hat]
    exact hrb.ok_of h

/-- **Undoing all operations**, last first.  No error means that every original is back; without
failures every original is back in any case, and under `C` there is an error only if a removal's
target was gone. -/
theorem rollbackOperations_safe {es : List Entry} (hC : C → fail = false)
    (hapart : es.Pairwise Apart) (hK : ∀ e ∈ es, e.slot.Undoable C e.inst (K e)) {fs : Fs}
    {G : ∀ ⦃β : Type⦄, Sys β → Fs → Prop} {Q : Except IoError (List String) → Fs → Prop}
    (hinit : ∀ e ∈ es, e.In K fs)
    (hG : ∀ fs', Fs.SameOff (allNames es) fs fs' → (∀ e ∈ es, e.In K fs') → AllOk G fs')
    (hQ : ∀ errors fs', Fs.SameOff (allNames es) fs fs' → (∀ e ∈ es, e.In K fs') →
      (fail = false → ∀ e ∈ es, fs'.get e.slot.target = e.slot.originalNode) →
      (errors = [] ∨ C → ∀ e ∈ es, e.OriginalAt fs') → (errors = [] → ∀ e ∈ es, ¬ e.Moved fs) →
      (C → errors ≠ [] → ∃ e ∈ es, e.Moved fs) → Q (.ok errors) fs') :
    IoSafe fail U G Q
      (rollbackOperations sha256Bytes (es.map (operation sha256Bytes))) fs := by
  unfold rollbackOperations
  rw [← List.map_reverse]
  have hmem : ∀ {P : Entry → Prop}, (∀ e ∈ es.reverse, P e) ↔ ∀ e ∈ es, P e := by simp
  have hnames : ∀ p, p ∈ allNames es.reverse ↔ p ∈ allNames es := by simp [mem_allNames]
  have hsame : ∀ {fs'}, Fs.SameOff (allNames es.reverse) fs fs' → Fs.SameOff (allNames es) fs fs' :=
    fun h => h.mono fun p hp => (hnames p).1 hp
  refine collectErrors_safe (I := In K) (D := Undone C fail) (local_in K) ?_ ?_ es.reverse
    (List.pairwise_reverse.2 (hapart.imp fun h => ⟨h.2, h.1⟩))
    (fun e he fs G Q h hG hQ => rollbackOperation_entry hC (hK e (List.mem_reverse.1 he)) h hG hQ) (hmem.2 hinit)
    (fun fs' hs' h => hG fs' (hsame hs') (hmem.1 h))
    fun errors fs' hs' hI hd hnil hcons => hQ errors fs' (hsame hs') (hmem.1 hI) ?_ ?_
      (fun h e he => (hmem.1 (hnil h) e he).not_moved rfl) fun hfail h => ?_
  · intro e ok fs' X fs₁ fs₂ hs hX h
    have := moved_iff_of_away hs hX
    exact ⟨h.target, h.clean, fun hok hm => h.not_moved hok (this.1 hm),
      fun hfail hm => h.ok_of hfail fun hm' => hm (this.2 hm')⟩
  · intro e ok fs' X fs₁ fs₂ hs hX h
    exact ⟨fun hfail => (get_target_of_away hs hX).trans (h.target hfail),
      fun hok => local_at e _ _ _ hs hX (h.clean hok), h.not_moved, h.ok_of⟩
  · intro hfail e he
    obtain ⟨ok, hd⟩ := hmem.1 hd e he
    exact hd.target hfail
  · rintro (h | h) e he
    · exact (hmem.1 (hnil h) e he).clean (.inl rfl)
    · obtain ⟨ok, hd⟩ := hmem.1 hd e he
      exact hd.clean (.inr h)
  · obtain ⟨e, he, hd⟩ := hcons h
    refine ⟨e, List.mem_reverse.1 he, ?_⟩
    by_contra hm
    exact Bool.noConfusion (hd.ok_of hfail hm)

/-! ### Applying all operations -/

/-- The stage is complete and the target is untouched. -/
structure ReadyAt (C : Prop) (e : Entry) (fs : Fs) : Prop where
  at_ : e.slot.At e.parentIdentity e.slot.original (e.slot.staged e.inst) e.slot.occupant fs
  kept : e.slot.Kept C e.inst e.slot.original (e.slot.staged e.inst) e.slot.occupant
  recorded : e.slot.Recorded e.inst

/-- The change is applied and its original moved aside. -/
structure AppliedAt (C : Prop) (e : Entry) (fs : Fs) : Prop where
  at_ : e.slot.At e.parentIdentity (e.slot.final e.inst) none e.slot.originalNode fs
  kept : e.slot.Kept C e.inst (e.slot.final e.inst) none e.slot.originalNode

theorem ReadyAt.stableAt {C : Prop} {e : Entry} {fs : Fs} (h : e.ReadyAt C fs) : e.StableAt C fs :=
  ⟨_, _, _, h.at_, h.kept⟩

theorem AppliedAt.stableAt {C : Prop} {e : Entry} {fs : Fs} (h : e.AppliedAt C fs) :
    e.StableAt C fs :=
  ⟨_, _, _, h.at_, h.kept⟩

theorem local_readyAt (C : Prop) (e : Entry) : e.Local (e.ReadyAt C) :=
  fun _ _ _ hs hX h => ⟨h.at_.frame hs hX, h.kept, h.recorded⟩

theorem local_appliedAt (C : Prop) (e : Entry) : e.Local (e.AppliedAt C) :=
  fun _ _ _ hs hX h => ⟨h.at_.frame hs hX, h.kept⟩

theorem applyOperations_safe {ext : Externals} {es : List Entry} (hC : C → fail = false)
    (hapart : es.Pairwise Apart)
    {fs : Fs} {G : ∀ ⦃β : Type⦄, Sys β → Fs → Prop} {Q : Except IoError Unit → Fs → Prop}
    (hinit : ∀ e ∈ es, e.ReadyAt C fs)
    (hG : ∀ fs', Fs.SameOff (allNames es) fs fs' → (∀ e ∈ es, e.StableAt C fs') → AllOk G fs')
    (hok : ∀ fs', Fs.SameOff (allNames es) fs fs' → (∀ e ∈ es, e.AppliedAt C fs') → Q (.ok ()) fs')
    (herr : ¬ C → ∀ e fs', Fs.SameOff (allNames es) fs fs' →
      (∀ e ∈ es, e.StableAt C fs') → Q (.error e) fs') :
    IoSafe fail U G Q (applyOperations ext (es.map (operation ext.sha256Bytes))) fs := by
  induction es generalizing fs G Q with
  | nil => exact IoSafe.pure (hok fs (.refl _ _) (by simp))
  | cons e es ih =>
    obtain ⟨hhead, htail⟩ := List.pairwise_cons.1 hapart
    obtain ⟨hready, hrest⟩ := List.forall_mem_cons.1 hinit
    have hnames : ∀ p ∈ e.slot.names, p ∈ allNames (e :: es) :=
      fun p hp => mem_allNames.2 ⟨e, List.mem_cons_self, hp⟩
    have hnames' : ∀ p ∈ allNames es, p ∈ allNames (e :: es) := by
      intro p hp
      obtain ⟨e', he', hp⟩ := mem_allNames.1 hp
      exact mem_allNames.2 ⟨e', List.mem_cons_of_mem e he', hp⟩
    have haway : ∀ e' ∈ es, Away e.slot.names e' := fun e' he' => (hhead e' he').1
    have hfirst : Away (allNames es) e := away_allNames fun e' he' => (hhead e' he').2
    have hstable : ∀ fs', Fs.SameOff e.slot.names fs fs' → e.StableAt C fs' →
        ∀ e' ∈ e :: es, e'.StableAt C fs' := fun fs' hs' h => List.forall_mem_cons.2 ⟨h,
      fun e' he' => (local_readyAt C e' hs' (haway e' he') (hrest e' he')).stableAt⟩
    refine IoSafe.bind (Slot.applyOperation_safe hC (.refl _ _) hready.at_ hready.kept
      hready.recorded (fun fs' h => hG fs' (h.1.mono hnames) (hstable fs' h.1 h.2))
      (fun fs₁ hs₁ hat₁ hst₁ => ?_) fun hne e' t' s' b' fs' hs' hat' hst' =>
        herr hne e' fs' (hs'.mono hnames) (hstable fs' hs' ⟨t', s', b', hat', hst'⟩))
    have happ : e.AppliedAt C fs₁ := ⟨hat₁, hst₁⟩
    refine ih htail (fun e' he' => local_readyAt C e' hs₁ (haway e' he') (hrest e' he'))
      (fun fs' hs' h => hG fs' ((hs₁.mono hnames).trans (hs'.mono hnames')) ?_)
      (fun fs' hs' h => hok fs' ((hs₁.mono hnames).trans (hs'.mono hnames')) ?_)
      fun hne e' fs' hs' h =>
        herr hne e' fs' ((hs₁.mono hnames).trans (hs'.mono hnames')) ?_
    · exact List.forall_mem_cons.2 ⟨(local_appliedAt C e hs' hfirst happ).stableAt, h⟩
    · exact List.forall_mem_cons.2 ⟨local_appliedAt C e hs' hfirst happ, h⟩
    · exact List.forall_mem_cons.2 ⟨(local_appliedAt C e hs' hfirst happ).stableAt, h⟩

/-! ### Cleaning up after the commit -/

/-- The change is applied; its original may still be at the backup name. -/
def CommittedAt (e : Entry) (fs : Fs) : Prop :=
  ∃ b, (b = e.slot.originalNode ∨ b = none) ∧
    e.slot.At e.parentIdentity (e.slot.final e.inst) none b fs

/-- The change is applied and nothing is left beside the target. -/
def FinalAt (e : Entry) (fs : Fs) : Prop :=
  e.slot.At e.parentIdentity (e.slot.final e.inst) none none fs

theorem AppliedAt.committedAt {C : Prop} {e : Entry} {fs : Fs} (h : e.AppliedAt C fs) : e.CommittedAt fs :=
  ⟨_, .inl rfl, h.at_⟩

theorem local_committedAt (e : Entry) : e.Local e.CommittedAt := by
  rintro X fs fs' hs hX ⟨b, hb, hat⟩
  exact ⟨b, hb, hat.frame hs hX⟩

/-- **Cleaning up** a committed transaction ends, if it reports no error, with nothing beside the
targets; without failures it reports none. -/
theorem cleanupCommitted_safe {es : List Entry} (hapart : es.Pairwise Apart)
    {fs : Fs} {G : ∀ ⦃β : Type⦄, Sys β → Fs → Prop} {Q : Except IoError (List String) → Fs → Prop}
    (hinit : ∀ e ∈ es, e.CommittedAt fs)
    (hG : ∀ fs', Fs.SameOff (allNames es) fs fs' → (∀ e ∈ es, e.CommittedAt fs') → AllOk G fs')
    (hQ : ∀ errors fs', Fs.SameOff (allNames es) fs fs' → (∀ e ∈ es, e.CommittedAt fs') →
      (errors = [] → ∀ e ∈ es, e.FinalAt fs') → (fail = false → errors = []) →
      Q (.ok errors) fs') :
    IoSafe fail U G Q
      (cleanupCommitted sha256Bytes (es.map (operation sha256Bytes))) fs := by
  have hcons : ∀ {errors : List String},
      (errors ≠ [] → ∃ e ∈ es, fail = false → false = true) → fail = false → errors = [] := by
    intro errors h hfail
    by_contra hne
    obtain ⟨e, -, h⟩ := h hne
    exact Bool.noConfusion (h hfail)
  unfold cleanupCommitted cleanupStages
  refine IoSafe.bind (collectErrors_safe (I := CommittedAt)
    (D := fun _ _ ok _ => fail = false → ok = true) local_committedAt
    (fun _ _ _ _ _ _ _ _ h => h) (fun _ _ _ _ _ _ _ _ h => h) es hapart ?_ hinit hG
    fun errors₁ fs₁ hs₁ hI₁ _ _ hcons₁ => ?_)
  · rintro e he fs G Q ⟨b, hb, hat⟩ hG hQ
    refine Slot.cleanupStage_safe hat (hG fs (.refl _ _) ⟨b, hb, hat⟩)
      (hQ _ fs (.refl _ _) ⟨b, hb, hat⟩ fun _ => rfl)
      fun hfail e' => hQ _ fs (.refl _ _) ⟨b, hb, hat⟩ (by simp [hfail])
  refine IoSafe.bind (collectErrors_safe (I := CommittedAt)
    (D := fun e _ ok fs' => (ok = true → e.FinalAt fs') ∧ (fail = false → ok = true))
    local_committedAt (fun _ _ _ _ _ _ _ _ h => h)
    (fun e _ _ _ _ _ hs hX h => ⟨fun hok => local_at e _ _ _ hs hX (h.1 hok), h.2⟩) es hapart ?_
    hI₁ (fun fs' hs' => hG fs' (hs₁.trans hs')) fun errors₂ fs₂ hs₂ hI₂ _ hnil₂ hcons₂ => ?_)
  · rintro e he fs G Q ⟨b, hb, hat⟩ hG hQ
    have hdel : ∀ {fs'}, e.slot.At e.parentIdentity (e.slot.final e.inst) none none fs' →
        e.CommittedAt fs' := fun h => ⟨none, .inr rfl, h⟩
    refine Slot.cleanupBackup_safe hat hb (hG fs (.refl _ _) ⟨b, hb, hat⟩) (fun hne => ?_)
      (fun fs' hs' hat' => hQ _ fs' hs' (hdel hat') ⟨fun _ => hat', fun _ => rfl⟩)
      fun hfail e' fs' hs' hat' => hQ _ fs' hs' ?_ ⟨(fun h => nomatch h), by simp [hfail]⟩
    · have hsome : e.slot.original.isSome = true := by
        have := hb.resolve_right hne
        rw [this, Slot.originalNode] at hne
        exact Option.isSome_iff_ne_none.2 fun h => hne (by rw [h]; rfl)
      exact hG _ (.del (Slot.backup_mem hsome)) (hdel (hat.del_backup hsome))
    · exact hat'.elim (fun h => ⟨b, hb, h⟩) hdel
  refine IoSafe.pure (hQ _ fs₂ (hs₁.trans hs₂) hI₂ (fun h e he => ?_) fun hfail => ?_)
  · exact (hnil₂ (List.append_eq_nil_iff.1 h).2 e he).1 rfl
  · have h₁ := hcons hcons₁ hfail
    have h₂ := hcons (fun h => (hcons₂ h).imp fun _ h => ⟨h.1, h.2.2⟩) hfail
    rw [h₁, h₂]
    rfl

end Entry

end ArosTools
