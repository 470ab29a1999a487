import ArosTools.Publication.Plan
import ArosTools.Publication.Json

/-!
# Crash atomicity of a commit

A commit that stops anywhere leaves its transaction pending (`Transaction.Pending`: resting or
prepared, every original within reach) or decided (`Transaction.Decided`: committed or done).
Recovery of a pending transaction restores the originals, recovery of a decided one completes it.

* `recover_after_commit`: without failing primitives, recovery after a commit stopped at any point
  leaves all originals or all desired files, and nothing else;
* `originals_within_reach`: with any failing primitives and any sequence of interrupted recoveries,
  every original is at its target or at its backup name until a committed journal is visible.
-/

namespace ArosTools

open Sys

/-- The state of the visible journal, if there is one that can be read. -/
def visibleState (ext : Externals) (journal : Path) (fs : Fs) : Option JournalState :=
  match fs.get journal with
  | some (.file f) => (parseJournal ext f.bytes).toOption.map Journal.state
  | _ => none

namespace Transaction

variable {ext : Externals} {T : Transaction ext} {es : List Entry} {fs : Fs} {C : Prop}
  {fail : Bool}

/-- The transaction can still be rolled back. -/
def Pending (T : Transaction ext) (C : Prop) (fs : Fs) : Prop :=
  T.Resting C fs ∨ ∃ es, T.Prepared C es fs

/-- The transaction is committed. -/
def Decided (T : Transaction ext) (fs : Fs) : Prop := ∃ es, T.Committed es fs ∨ T.Done es fs

theorem Visible.visibleState {journal : Journal} (h : T.Visible journal fs) :
    visibleState ext T.journal fs = some journal.state := by
  obtain ⟨f, hf, hparse⟩ := h
  simp [ArosTools.visibleState, hf, hparse, Except.toOption]

theorem visibleState_of_absent (h : fs.get T.journal = none) :
    visibleState ext T.journal fs = none := by simp [visibleState, h]

theorem Pending.not_committed (h : T.Pending C fs) :
    visibleState ext T.journal fs ≠ some .committed := by
  rcases h with h | ⟨es, h⟩
  · rw [visibleState_of_absent h.journal]
    exact fun h => nomatch h
  · rw [h.journal.visibleState]
    exact fun h => nomatch h

/-- A transaction with something to do is not pending and decided at once. -/
theorem Pending.not_decided (h : T.Pending C fs) (hne : T.slots ≠ []) : ¬ T.Decided fs := by
  rintro ⟨es, hd | hd⟩
  · exact h.not_committed hd.journal.visibleState
  · rcases h with h | ⟨es', h⟩
    · obtain ⟨sl, hsl⟩ := List.exists_mem_of_ne_nil _ hne
      obtain ⟨e, he, rfl⟩ := exists_entry hd.entries hsl
      -- the target would be the original and the installed file at once
      have htarget := (hd.applied e he).target
      rw [(h.slots e.slot hsl).target, Slot.originalNode] at htarget
      have heq : e.slot.original = e.slot.final e.inst :=
        Option.map_injective (fun _ _ h => Node.file.inj h) htarget
      have hrec := hd.recorded e he
      cases hi : e.inst with
      | none =>
        rw [hi] at heq hrec
        have hr : e.slot.desired = .remove := by
          have := hrec.isSome
          cases hd : e.slot.desired with
          | write contents mode => simp [Slot.writes, hd] at this
          | remove => rfl
        have := e.slot.original_of_remove hr
        rw [heq] at this
        cases this
      | some i =>
        rw [hi] at heq hrec
        have hw : e.slot.writes = true := hrec.isSome.symm
        cases hd : e.slot.desired with
        | write contents mode =>
          have ho : e.slot.original = some ⟨i, contents, mode⟩ := by
            rw [heq]
            simp [Slot.final, Slot.installed, hd]
          exact hrec.fresh _ ho rfl
        | remove => simp [Slot.writes, hd] at hw
    · obtain ⟨f, hf, -⟩ := h.journal
      rw [hd.journal] at hf
      cases hf

/-! ### The commit -/

theorem commit_pending (hext : ext.Faithful) (hC : C → fail = false)
    (hfree : C → ∀ sl ∈ T.slots, sl.occupant = none) (h : T.Resting C fs)
    (hstage : fs.get T.stage = none) :
    IoSafe fail (fun s => visibleState ext T.journal s = some .committed)
      (fun _ _ s => T.Pending C s ∨ visibleState ext T.journal s = some .committed)
      (fun _ s => T.Pending C s) (commit ext (.ofPath T.journal) T.nonce
        (T.slots.map (Slot.change ext.sha256Bytes))) fs := by
  have hvis : ∀ {es s}, T.Committed es s → visibleState ext T.journal s = some .committed :=
    fun h => h.journal.visibleState
  refine commit_safe ⟨fun s hs _ _ => .inl (.inl hs), fun es s hs _ _ => .inl (.inr ⟨es, hs⟩),
    fun es s hs _ _ _ => .inr (hvis hs), fun e s hs => hs,
    fun es s hs _ => IoSafe.of_until (hvis hs), fun _ es e s hs => IoSafe.of_until (hvis hs)⟩
    hext hC hfree h hstage

/-- As long as no committed journal was visible, a stopped commit is pending. -/
theorem stop_pending (hext : ext.Faithful) (hC : C → fail = false)
    (hfree : C → ∀ sl ∈ T.slots, sl.occupant = none) (h : T.Resting C fs)
    (hstage : fs.get T.stage = none) {env : ℕ → Choice} (henv : ∀ k, permits fail (env k)) {n : ℕ}
    (hn : ∀ m ≤ n, visibleState ext T.journal (machine.stop (commit ext (.ofPath T.journal) T.nonce
      (T.slots.map (Slot.change ext.sha256Bytes))).run env m fs).2 ≠ some .committed) :
    T.Pending C (machine.stop (commit ext (.ofPath T.journal) T.nonce
      (T.slots.map (Slot.change ext.sha256Bytes))).run env n fs).2 := by
  rcases Machine.Safe.stop (commit_pending hext hC hfree h hstage) henv n with
    ⟨m, hm, hU⟩ | ⟨r, -, hp⟩ | ⟨-, -, -, hp | hp⟩
  · exact absurd hU (hn m hm)
  · exact hp
  · exact hp
  · exact absurd hp (hn n (Nat.le_refl n))

/-- Without failing primitives a commit is pending until it is decided, and stays decided. -/
theorem commit_decided (hext : ext.Faithful) (hfree : ∀ sl ∈ T.slots, sl.occupant = none)
    (h : T.Resting True fs) (hstage : fs.get T.stage = none) :
    IoSafe false (fun _ => False) (fun _ op s => (T.Pending True s ∨ T.Decided s) ∧
        (T.slots ≠ [] ∧ T.Decided s → ∀ c, permits false c →
          T.slots ≠ [] ∧ T.Decided (machine.step op c s).2))
      (fun _ s => T.Pending True s ∨ T.Decided s) (commit ext (.ofPath T.journal) T.nonce
        (T.slots.map (Slot.change ext.sha256Bytes))) fs := by
  have hpend : ∀ s, T.Pending True s → AllOk (fun _ op s => (T.Pending True s ∨ T.Decided s) ∧
      (T.slots ≠ [] ∧ T.Decided s → ∀ c, permits false c →
        T.slots ≠ [] ∧ T.Decided (machine.step op c s).2)) s :=
    fun s hs _ op => ⟨.inl hs, fun hd => absurd hd.2 (hs.not_decided hd.1)⟩
  refine commit_safe ⟨fun s hs => hpend s (.inl hs), fun es s hs => hpend s (.inr ⟨es, hs⟩),
    fun es s hs _ op hq => ⟨.inr ⟨es, .inl hs⟩, fun hd c _ => ?_⟩, fun e s hs => .inl hs,
    fun es s hs hst => ?_, fun hfail => nomatch hfail⟩ hext (fun _ => rfl) (fun _ => hfree) h hstage
  · have hstep : (machine.step op c s).2 = s := step_quiet hq c s
    rw [hstep]
    exact hd
  · have hfin : IoSafe false (fun _ => False) (fun _ _ s => T.Decided s) (fun _ s => T.Decided s)
        (finishCommitted ext (.ofPath T.journal) (operations ext es)) s :=
      finishCommitted_safe hs hst (fun s hs _ _ => ⟨es, .inl hs⟩) (fun s hs _ _ => ⟨es, .inr hs⟩)
        (fun s hs _ => ⟨es, .inr hs⟩) fun hfail => nomatch hfail
    refine IoSafe.mono (Machine.Safe.and hfin (Machine.Safe.ahead hfin fun _ _ h => h))
      (fun _ op s hs => ⟨.inr hs.1, fun hd c hc => ⟨hd.1, hs.2 c hc⟩⟩) fun r s hs => .inr hs.1

/-! ### Recovery -/

/-- Recovery keeps a pending transaction pending; if it answers `Ok`, the transaction rests, and
without failures every original is back in any case. -/
theorem recover_pending (hC : C → fail = false) (h : T.Pending C fs) :
    IoSafe fail (fun _ => False) (fun _ _ s => T.Pending C s)
      (fun r s => T.Pending C s ∧ (r.isOk = true → T.Resting C s) ∧
        (fail = false → ∀ sl ∈ T.slots, s.get sl.target = sl.originalNode))
      (recoverIfNeeded ext (.ofPath T.journal)) fs := by
  have htarget : ∀ {s}, T.Resting C s → fail = false →
      ∀ sl ∈ T.slots, s.get sl.target = sl.originalNode := fun h _ sl hsl => (h.slots sl hsl).target
  rcases h with h | ⟨es, h⟩
  · exact recoverIfNeeded_absent h.toReady h.journal
      (fun s hs hr _ _ => .inl (h.restage hs hr))
      (fun s hs hr _ => ⟨.inl (h.restage hs hr), fun _ => h.restage hs hr,
        htarget (h.restage hs hr)⟩)
      fun _ e s hs hr => ⟨.inl (h.restage hs hr), (fun hok => nomatch hok),
        htarget (h.restage hs hr)⟩
  · refine recoverIfNeeded_prepared hC h (fun s hs _ _ => .inr ⟨es, hs⟩) (fun s hs _ _ => .inl hs)
      (fun s hs _ _ _ => ⟨.inl hs, fun _ => hs, htarget hs⟩)
      fun e s hs hback _ => ⟨hs.symm.imp id fun hs => ⟨es, hs⟩, (fun hok => nomatch hok),
        fun hfail sl hsl => ?_⟩
    obtain ⟨e, he, rfl⟩ := exists_entry h.entries hsl
    exact hback hfail e he

theorem recover_resting (h : T.Resting C fs) :
    IoSafe false (fun _ => False) (fun _ _ _ => True)
      (fun r s => r.isOk = true ∧ T.Resting C s ∧ s.get T.stage = none)
      (recoverIfNeeded ext (.ofPath T.journal)) fs :=
  recoverIfNeeded_absent h.toReady h.journal (fun _ _ _ _ _ => trivial)
    (fun _ hs hr hst => ⟨rfl, h.restage hs hr, hst⟩) fun hfail => nomatch hfail

/-- A prepared transaction is rolled back unless the original of a removal is already aside. -/
theorem recover_prepared (h : T.Prepared True es fs) (hmoved : ∀ e ∈ es, ¬ e.Moved fs) :
    IoSafe false (fun _ => False) (fun _ _ _ => True)
      (fun r s => r.isOk = true ∧ T.Resting True s ∧ s.get T.stage = none)
      (recoverIfNeeded ext (.ofPath T.journal)) fs := by
  refine recoverIfNeeded_prepared (fun _ => rfl) h (fun _ _ _ _ => trivial) (fun _ _ _ _ => trivial)
    (fun _ hs hst _ _ => ⟨rfl, hs, hst⟩) fun e s _ _ hcause => ?_
  obtain ⟨⟨e', he', hm⟩, -⟩ := hcause trivial
  exact absurd hm (hmoved e' he')

theorem recover_decided (h : T.Decided fs) :
    IoSafe false (fun _ => False) (fun _ _ _ => True)
      (fun r s => r.isOk = true ∧ (∃ es, T.Done es s) ∧ s.get T.stage = none)
      (recoverIfNeeded ext (.ofPath T.journal)) fs := by
  obtain ⟨es, h | h⟩ := h
  · exact recoverIfNeeded_committed h (fun _ _ _ _ => trivial) (fun _ _ _ _ => trivial)
      (fun _ hs hst => ⟨rfl, ⟨es, hs⟩, hst⟩) fun hfail => nomatch hfail
  · refine recoverIfNeeded_absent h.toReady h.journal (fun _ _ _ _ _ => trivial)
      (fun s hs hr hst => ⟨rfl, ⟨es, hr, h.entries, ?_, h.recorded, fun e he => ?_⟩, hst⟩)
      fun hfail => nomatch hfail
    · rw [hs.get _ journal_not_mem_stage, h.journal]
    · exact Entry.local_at e _ _ _ (hs.mono stage_sub_control) (away_control h.entries he)
        (h.applied e he)

end Transaction

/-! ### Runs of the code on planned changes -/

section Runs

variable (ext : Externals) (dir : Path) (leaf : Name) (nonce : ℕ) (changes : List PlannedChange)

/-- A commit stopped after `n` primitives. -/
def commitStopped (env : ℕ → Choice) (n : ℕ) (fs : Fs) : Option (Except IoError Unit) × Fs :=
  machine.stop (commit ext (.ofPath (dir ++ [leaf])) nonce changes).run env n fs

/-- A committed journal is visible at some point of the first `n` primitives of a commit. -/
def CommittedBy (env : ℕ → Choice) (n : ℕ) (fs : Fs) : Prop :=
  ∃ m ≤ n, visibleState ext (dir ++ [leaf])
    (commitStopped ext dir leaf nonce changes env m fs).2 = some .committed

/-- A complete recovery. -/
def recover (env : ℕ → Choice) (fs : Fs) : Except IoError RecoveryOutcome × Fs :=
  machine.exec (recoverIfNeeded ext (.ofPath (dir ++ [leaf]))).run env fs

/-- A recovery stopped after `n` primitives. -/
def recoverStopped (env : ℕ → Choice) (n : ℕ) (fs : Fs) :
    Option (Except IoError RecoveryOutcome) × Fs :=
  machine.stop (recoverIfNeeded ext (.ofPath (dir ++ [leaf]))).run env n fs

/-- Recoveries one after the other, each stopped somewhere. -/
def recoveries : List ((ℕ → Choice) × ℕ) → Fs → Fs
  | [], fs => fs
  | (env, n) :: runs, fs => recoveries runs (recoverStopped ext dir leaf env n fs).2

/-- No journal and no auxiliary file is left. -/
structure Clean (fs : Fs) : Prop where
  journal : fs.get (dir ++ [leaf]) = none
  journal_stage : fs.get (journalStage ext dir leaf) = none
  auxiliaries : AuxiliariesFree ext fs nonce changes

/-- Every target is as it was in `fs₀`. -/
def AllOriginal (fs₀ fs : Fs) : Prop := ∀ c ∈ changes, fs.get c.target = fs₀.get c.target

instance (fs₀ fs : Fs) : Decidable (AllOriginal changes fs₀ fs) :=
  inferInstanceAs (Decidable (∀ c ∈ changes, fs.get c.target = fs₀.get c.target))

/-- Every target is as it is to become. -/
def AllDesired (fs : Fs) : Prop := ∀ c ∈ changes, c.Desired fs

end Runs

namespace TransactionOf

variable {ext : Externals} {fs s : Fs} {dir : Path} {leaf : Name} {nonce : ℕ}
  {changes : List PlannedChange} {T : Transaction ext}

theorem allOriginal (h : TransactionOf ext fs dir leaf nonce changes T)
    (hp : Planned ext fs dir leaf nonce changes)
    (hs : ∀ sl ∈ T.slots, s.get sl.target = sl.originalNode) : AllOriginal changes fs s := by
  intro c hc
  obtain ⟨i, hi⟩ := List.mem_iff_getElem?.1 hc
  obtain ⟨sl, hsl, hof⟩ := h.exists_slot hi
  rw [← hof.target, hs sl hsl, Slot.originalNode, hof.original, hof.target,
    (hp.snapshots c hc).regular]

theorem clean_of_resting (h : TransactionOf ext fs dir leaf nonce changes T)
    (hfree : AuxiliariesFree ext fs nonce changes) (hs : T.Resting True s)
    (hst : s.get T.stage = none) : Clean ext dir leaf nonce changes s := by
  refine ⟨by rw [← h.journal, hs.journal], by rw [← h.stage, hst], fun i c hc => ?_⟩
  obtain ⟨sl, hsl, hof⟩ := h.exists_slot hc
  have hrest := hs.slots sl hsl
  refine ⟨fun hd => ?_, fun ho => ?_⟩
  · rw [← hof.stage, hrest.stage trivial (hof.writes_iff.2 hd)]
  · rw [← hof.backup, hrest.backup (hof.isSome_iff.2 ho), h.occupant_free hfree sl hsl]

theorem allDesired {es : List Entry} (h : TransactionOf ext fs dir leaf nonce changes T)
    (hs : T.Done es s) : AllDesired changes s := by
  intro c hc
  obtain ⟨i, hi⟩ := List.mem_iff_getElem?.1 hc
  obtain ⟨sl, hsl, hof⟩ := h.exists_slot hi
  obtain ⟨e, he, rfl⟩ := Transaction.exists_entry hs.entries hsl
  have htarget := (hs.applied e he).target
  have hrec := (hs.recorded e he).isSome
  unfold PlannedChange.Desired
  rw [← hof.target, ← hof.desired, htarget]
  unfold Slot.writes at hrec
  unfold Slot.final Slot.installed
  cases hd : e.slot.desired with
  | write contents mode =>
    rw [hd] at hrec
    obtain ⟨i, hi⟩ := Option.isSome_iff_exists.1 hrec
    exact ⟨i, by rw [hi]; rfl⟩
  | remove =>
    rw [hd] at hrec
    rw [Option.isSome_eq_false_iff.1 hrec |> Option.isNone_iff_eq_none.1]
    rfl

theorem clean_of_done {es : List Entry} (h : TransactionOf ext fs dir leaf nonce changes T)
    (hs : T.Done es s) (hst : s.get T.stage = none) : Clean ext dir leaf nonce changes s := by
  refine ⟨by rw [← h.journal, hs.journal], by rw [← h.stage, hst], fun i c hc => ?_⟩
  obtain ⟨sl, hsl, hof⟩ := h.exists_slot hc
  obtain ⟨e, he, rfl⟩ := Transaction.exists_entry hs.entries hsl
  have hat := hs.applied e he
  refine ⟨fun hd => ?_, fun ho => ?_⟩
  · rw [← hof.stage, hat.stage (hof.writes_iff.2 hd)]
  · rw [← hof.backup, hat.backup (hof.isSome_iff.2 ho)]

theorem slots_ne_nil (h : TransactionOf ext fs dir leaf nonce changes T) (hne : changes ≠ []) :
    T.slots ≠ [] := by
  intro hnil
  have := h.length
  rw [hnil] at this
  exact hne (List.length_eq_zero_iff.1 this.symm)

theorem commitStopped_eq (h : TransactionOf ext fs dir leaf nonce changes T) (env : ℕ → Choice)
    (n : ℕ) : commitStopped ext dir leaf nonce changes env n fs =
      machine.stop (commit ext (.ofPath T.journal) T.nonce
        (T.slots.map (Slot.change ext.sha256Bytes))).run env n fs := by
  rw [h.commit_eq, commitStopped]

section NoFailures

variable (h : TransactionOf ext fs dir leaf nonce changes T)
  (hplan : Planned ext fs dir leaf nonce changes) (hfree : AuxiliariesFree ext fs nonce changes)
  (hext : ext.Faithful) {env : ℕ → Choice} (henv : ∀ k, (env k).fail = false)

theorem permits_of (h : ∀ k, (env k).fail = false) (k : ℕ) : permits false (env k) :=
  fun hk => by rw [h k] at hk; cases hk

include h hplan hfree hext henv

theorem pending_or_decided (n : ℕ) :
    T.Pending True (commitStopped ext dir leaf nonce changes env n fs).2 ∨
      T.Decided (commitStopped ext dir leaf nonce changes env n fs).2 := by
  have hsafe := Transaction.commit_decided hext (h.occupant_free hfree)
    (h.resting hplan fun _ => hfree) (by rw [h.stage, hplan.journal_stage])
  rw [h.commitStopped_eq]
  rcases Machine.Safe.stop hsafe (permits_of henv) n with ⟨_, _, hU⟩ | ⟨r, -, hq⟩ | ⟨-, _, _, hg⟩
  · exact hU.elim
  · exact hq
  · exact hg.1

theorem decided_iff (hne : changes ≠ []) (n : ℕ) :
    T.Decided (commitStopped ext dir leaf nonce changes env n fs).2 ↔
      CommittedBy ext dir leaf nonce changes env n fs := by
  have hslots := h.slots_ne_nil hne
  have hrest := h.resting hplan (C := True) fun _ => hfree
  have hst : fs.get T.stage = none := by rw [h.stage, hplan.journal_stage]
  refine ⟨fun hd => ?_, fun ⟨m, hm, hv⟩ => ?_⟩
  · by_contra hno
    have hpend := Transaction.stop_pending (n := n) hext (fun _ => rfl)
      (fun _ => h.occupant_free hfree) hrest hst (permits_of henv) fun m hm hv => hno ⟨m, hm, by
        rw [h.commitStopped_eq, ← h.journal]
        exact hv⟩
    rw [← h.commitStopped_eq] at hpend
    exact hpend.not_decided hslots hd
  · have hsafe := Transaction.commit_decided hext (h.occupant_free hfree) hrest hst
    have hdm := (pending_or_decided h hplan hfree hext henv m).resolve_left fun hp =>
      hp.not_committed (by rw [h.journal]; exact hv)
    -- once decided, it stays decided
    rw [h.commitStopped_eq] at hdm ⊢
    exact (Machine.Safe.stop_of_le (I := fun s => T.slots ≠ [] ∧ T.Decided s)
      (hsafe.mono (fun _ _ _ h => h.2) fun _ _ h => h) (permits_of henv) hm ⟨hslots, hdm⟩).2

omit hext henv in
theorem recover_settles {s : Fs} {env' : ℕ → Choice} (henv' : ∀ k, (env' k).fail = false)
    (hs : T.Pending True s ∨ T.Decided s)
    (hmoved : visibleState ext (dir ++ [leaf]) s = some .prepared →
      ∀ c ∈ changes, c.desired = .remove → s.get c.target ≠ none) :
    (recover ext dir leaf env' s).1.isOk = true ∧
      Clean ext dir leaf nonce changes (recover ext dir leaf env' s).2 ∧
      (T.Pending True s ∧ AllOriginal changes fs (recover ext dir leaf env' s).2 ∨
        T.Decided s ∧ AllDesired changes (recover ext dir leaf env' s).2) := by
  unfold recover
  rw [← h.journal] at hmoved ⊢
  have hpend : T.Pending True s → IoSafe false (fun _ => False) (fun _ _ _ => True)
      (fun r s => r.isOk = true ∧ T.Resting True s ∧ s.get T.stage = none)
      (recoverIfNeeded ext (.ofPath T.journal)) s := by
    rintro (hr | ⟨es, hp⟩)
    · exact Transaction.recover_resting hr
    · refine Transaction.recover_prepared hp fun e he hm => ?_
      obtain ⟨i, c, hc, hof⟩ := h.exists_change (Transaction.mem_slots hp.entries he)
      refine hmoved hp.journal.visibleState c (List.mem_of_getElem? hc) ?_ ?_
      · rw [← hof.desired]
        exact hm.1
      · rw [← hof.target]
        exact hm.2
  rcases hs with hs | hs
  · obtain ⟨hok, hres, hst⟩ := Machine.Safe.exec (hpend hs) (permits_of henv')
    exact ⟨hok, h.clean_of_resting hfree hres hst, .inl ⟨hs, h.allOriginal hplan fun sl hsl =>
      (hres.slots sl hsl).target⟩⟩
  · obtain ⟨hok, ⟨es, hd⟩, hst⟩ :=
      Machine.Safe.exec (Transaction.recover_decided hs) (permits_of henv')
    exact ⟨hok, h.clean_of_done hd hst, .inr ⟨hs, h.allDesired hd⟩⟩

end NoFailures

end TransactionOf

section

variable {ext : Externals} {fs : Fs} {dir : Path} {leaf : Name} {nonce : ℕ}
  {changes : List PlannedChange}

/-- **Crash atomicity.**  No primitive fails.  A commit stops after `n` primitives, not with the
original of a removal aside under a prepared journal.  Then recovery answers `Ok`, leaves nothing
but the targets, and every target is as it is to become if a committed journal has been visible,
and as it was if not; in particular it is as it was under a prepared journal. -/
theorem recover_after_commit (hext : ext.Faithful) (hplan : Planned ext fs dir leaf nonce changes)
    (hfree : AuxiliariesFree ext fs nonce changes) {env env' : ℕ → Choice}
    (henv : ∀ k, (env k).fail = false) (henv' : ∀ k, (env' k).fail = false) {n : ℕ}
    {o : Option (Except IoError Unit)} {s s' : Fs} {r : Except IoError RecoveryOutcome}
    (hs : commitStopped ext dir leaf nonce changes env n fs = (o, s))
    (hr : recover ext dir leaf env' s = (r, s'))
    (hmoved : visibleState ext (dir ++ [leaf]) s = some .prepared →
      ∀ c ∈ changes, c.desired = .remove → s.get c.target ≠ none) :
    r.isOk = true ∧ Clean ext dir leaf nonce changes s' ∧
      (visibleState ext (dir ++ [leaf]) s = some .prepared → AllOriginal changes fs s') ∧
      (¬ CommittedBy ext dir leaf nonce changes env n fs → AllOriginal changes fs s') ∧
      (CommittedBy ext dir leaf nonce changes env n fs → AllDesired changes s') := by
  obtain ⟨T, hT⟩ := hplan.exists_transaction
  have hphase := hT.pending_or_decided hplan hfree hext henv n
  rw [hs] at hphase
  obtain ⟨hok, hclean, hcase⟩ := hT.recover_settles hplan hfree henv' hphase hmoved
  rw [hr] at hok hclean hcase
  -- an empty list of changes has no targets to speak about
  by_cases hne : changes = []
  · subst hne
    exact ⟨hok, hclean, (fun _ _ hc => nomatch hc), (fun _ _ hc => nomatch hc),
      (fun _ _ hc => nomatch hc)⟩
  have hiff := hT.decided_iff hplan hfree hext henv hne n
  rw [hs] at hiff
  refine ⟨hok, hclean, fun hprep => ?_, fun hno => ?_, fun hyes => ?_⟩
  · rcases hcase with ⟨-, ho⟩ | ⟨⟨es, hd | hd⟩, -⟩
    · exact ho
    · rw [← hT.journal, hd.journal.visibleState] at hprep
      cases hprep
    · rw [← hT.journal, Transaction.visibleState_of_absent hd.journal] at hprep
      cases hprep
  · rcases hcase with ⟨-, ho⟩ | ⟨hd, -⟩
    · exact ho
    · exact absurd (hiff.1 hd) hno
  · rcases hcase with ⟨hp, -⟩ | ⟨-, hd⟩
    · exact absurd (hiff.2 hyes) (hp.not_decided (hT.slots_ne_nil hne))
    · exact hd

end

/-! ### Sample runs -/

namespace Sample

def nonce : ℕ := transactionNonce 7 0

/-- The name under which the second change of a transaction stages a file `a`. -/
def stageOfA : Name := ascii ".aros-stage-ca978112ca1bbdca-0000000700000001"

/-- The operation that creates `a`, staged at `stage`. -/
def creation (stage : Name) (inst : Option FileIdentity) : JournalOperation where
  target := .ofPath [ascii "a"]
  stage := some (.ofPath [stage])
  backup := none
  parentIdentity := ⟨1, 2⟩
  original := none
  originalDigest := none
  originalMode := none
  desiredDigest := some digestNew
  desiredMode := some 0o644
  installed := inst

/-- The operation that removes `target`. -/
def removal (target backup : Name) : JournalOperation where
  target := .ofPath [target]
  stage := none
  backup := some (.ofPath [backup])
  parentIdentity := ⟨1, 2⟩
  original := some ⟨1, 11⟩
  originalDigest := some digestOld
  originalMode := some 0o644
  desiredDigest := none
  desiredMode := none
  installed := none

/-- A journal with the given operations. -/
def journal (state : JournalState) (operations : List JournalOperation) : Journal :=
  ⟨"aros-publication-journal-v3", nonce, state, operations⟩

/-- The journals of a transaction that creates `a`: before its file is staged, after that, and
committed. -/
def creating (state : JournalState) (inst : Option FileIdentity) : Journal :=
  journal state [creation (ascii ".aros-stage-ca978112ca1bbdca-0000000700000000") inst]

/-- The journals of a transaction that removes `b`. -/
def removing (state : JournalState) : Journal :=
  journal state [removal (ascii "b") (ascii ".aros-backup-3e23e8160039594a-0000000700000000")]

/-- The journal of a transaction whose first target has the stage name of its second. -/
def colliding : Journal :=
  journal .prepared [removal stageOfA (ascii ".aros-backup-0cc41772ae8a802c-0000000700000000"),
    creation stageOfA none]

/-- The journals of the sample runs, with the digests of their texts. -/
def journals : List (Journal × Sha256Digest) :=
  [(creating .prepared none,
      ascii "ca8a27cb4f040392540d04f806148b56d3a72fdef5ba8bb770bc385accc00793"),
    (creating .prepared (some ⟨1, 4⟩),
      ascii "81406fc7adeeb539c5f8ea7e37c67fe3a4d33f238ee79dfe674e8d39a3a2ce88"),
    (creating .committed (some ⟨1, 4⟩),
      ascii "de84465391ccb6b95e4e824d365a36a865abbe0f34c72216472613d8697a6cdb"),
    (removing .prepared,
      ascii "b4ebbdb77370050e586c0f7b7510f6052298361fd4081c8175a4092764f9f61c"),
    (removing .committed,
      ascii "8be448d54067fa572c41fba6ce03ae40b805aa7c3a4c136c3c01cce83496b77e"),
    (colliding,
      ascii "d11b1cc98c03972e05997e4a354740eba61ef016007afd5680e8fbffbdbe3c0c")]

/-- SHA-256 and the JSON codec on what the sample runs hash, write and read. -/
def externals : Externals := .known
  ([(ascii "a", digestA), (ascii "new\n", digestNew), (ascii "old\n", digestOld),
      (ascii "b", ascii "3e23e8160039594a33894f6564e1b1348bbd7a0088d42c4acb73eeaed59c009d"),
      (leaf, ascii "189f40034be7a199f1fa9891668ee3ab6049f82d38c68be70f596eab2e1857b7"),
      (stageOfA, ascii "0cc41772ae8a802c70bd977444c1d00611dbabd6e3504015a34b707f16a92c68")] ++
    journals.map fun j => (journalStageMagic ++ Json.journal j.1, j.2))
  (journals.map fun j => (j.1, Json.journal j.1)) []

theorem externals_faithful : externals.Faithful := Externals.known_faithful (by decide +kernel)

/-- Create `a`. -/
def create : PlannedChange :=
  ⟨.ofPath [ascii "a"], none, none, none, .write (ascii "new\n") 0o644⟩

/-- Remove a file with the contents `old`. -/
def remove (target : Name) : PlannedChange :=
  ⟨.ofPath [target], some ⟨1, 11⟩, some digestOld, some 0o644, .remove⟩

/-- A directory with that file. -/
def holding (target : Name) : Fs := empty.set [target] (.file ⟨⟨1, 11⟩, ascii "old\n", 0o644⟩)

theorem planned_singleton {ext : Externals} {fs : Fs} {c : PlannedChange} (key : Bytes)
    (hsnap : c.TrueSnapshot ext.sha256Bytes fs)
    (hrem : c.desired = .remove → c.original.isSome = true)
    (hmode : ∀ contents mode, c.desired = .write contents mode → mode = 0o644)
    (hkey : targetKey [] c.target = .ok key)
    (haux : ∀ q ∈ [c.stage ext.sha256Bytes nonce 0, c.backup ext.sha256Bytes nonce 0],
      ¬ q <+: c.target ∧ q ≠ [leaf])
    (hcontrol : ¬ [leaf] <+: c.target ∧ ¬ journalStage ext [] leaf <+: c.target)
    (hstage : [leaf] ≠ journalStage ext [] leaf) (hroot : fs.isDir [] = true)
    (hj : fs.get [leaf] = none) (hjs : fs.get (journalStage ext [] leaf) = none) :
    Planned ext fs [] leaf nonce [c] where
  snapshots c' hc := List.mem_singleton.1 hc ▸ hsnap
  removals c' hc := List.mem_singleton.1 hc ▸ hrem
  modes c' hc contents mode h := .inl (hmode contents mode (List.mem_singleton.1 hc ▸ h))
  registered := ⟨[key], List.nodup_singleton key, .cons ⟨List.nil_prefix, hkey⟩ .nil⟩
  targets i j c₁ c₂ hij hc₁ hc₂ := by
    obtain ⟨hi, -⟩ := List.getElem?_eq_some_iff.1 hc₁
    obtain ⟨hj, -⟩ := List.getElem?_eq_some_iff.1 hc₂
    rw [List.length_singleton] at hi hj
    omega
  auxiliaries i c₁ hc q hq := by
    cases i with
    | zero =>
      cases hc
      exact ⟨fun c' hc' => List.mem_singleton.1 hc' ▸ (haux q hq).1, (haux q hq).2⟩
    | succ i => cases hc
  control c' hc := List.mem_singleton.1 hc ▸ hcontrol
  journal_ne_stage := hstage
  count := by simp
  dirs q hq := List.prefix_nil.1 hq ▸ hroot
  journal := hj
  journal_stage := hjs

theorem create_planned : Planned externals empty [] leaf nonce [create] := by
  refine planned_singleton (ascii "a") ⟨⟨?_, ?_, ?_, ?_, ?_, ?_⟩, ?_⟩ ?_ ?_ rfl ?_ ?_ ?_ ?_ ?_ ?_
  on_goal 9 => intro contents mode h; cases h; rfl
  all_goals decide

theorem remove_planned :
    Planned externals (holding (ascii "b")) [] leaf nonce [remove (ascii "b")] := by
  refine planned_singleton (ascii "b") ⟨⟨?_, ?_, ?_, ?_, ?_, ?_⟩, ?_⟩ ?_ ?_ rfl ?_ ?_ ?_ ?_ ?_ ?_
  on_goal 9 => intro contents mode h; cases h
  all_goals decide

end Sample

open Sample in
theorem recover_after_commit_creation :
    let s := (commitStopped externals [] leaf nonce [create] quiet 100 empty).2
    let s' := (recover externals [] leaf quiet s).2
    (recover externals [] leaf quiet s).1.isOk = true ∧
      Clean externals [] leaf nonce [create] s' ∧
      (¬ CommittedBy externals [] leaf nonce [create] quiet 100 empty →
        AllOriginal [create] empty s') := by
  have hquiet : ∀ k, (quiet k).fail = false := fun _ => rfl
  have h := recover_after_commit externals_faithful create_planned (fun i c hc => by
    cases i with
    | zero =>
      cases hc
      decide
    | succ i => cases hc) hquiet hquiet
    (Prod.eta (commitStopped externals [] leaf nonce [create] quiet 100 empty)).symm
    (Prod.eta (recover externals [] leaf quiet _)).symm (fun _ c hc hr => by
      obtain rfl := List.mem_singleton.1 hc
      cases hr)
  exact ⟨h.1, h.2.1, h.2.2.2.1⟩

open Sample in
/-- Where the targets are not as they were although no committed journal is visible: the commit has
removed its journal, the original of a removal is aside (recovery does not answer `Ok`), a target
has the stage name of another. -/
theorem atomicity_exceptions :
    ((commitStopped externals [] leaf nonce [create] quiet 202 empty).2.get [leaf] = none ∧
        ¬ AllOriginal [create] empty (recover externals [] leaf quiet
          (commitStopped externals [] leaf nonce [create] quiet 202 empty).2).2) ∧
      (visibleState externals [leaf] (commitStopped externals [] leaf nonce [remove (ascii "b")]
          quiet 101 (holding (ascii "b"))).2 = some .prepared ∧
        (recover externals [] leaf quiet (commitStopped externals [] leaf nonce
          [remove (ascii "b")] quiet 101 (holding (ascii "b"))).2).1.isOk = false) ∧
      (visibleState externals [leaf] (commitStopped externals [] leaf nonce
          [remove stageOfA, create] quiet 106 (holding stageOfA)).2 = some .prepared ∧
        ¬ AllOriginal [remove stageOfA, create] (holding stageOfA) (recover externals [] leaf quiet
          (commitStopped externals [] leaf nonce [remove stageOfA, create] quiet 106
            (holding stageOfA)).2).2) := by
  refine ⟨⟨?_, ?_⟩, ⟨?_, ?_⟩, ?_, ?_⟩ <;> decide +kernel

section

variable {ext : Externals} {fs : Fs} {dir : Path} {leaf : Name} {nonce : ℕ}
  {changes : List PlannedChange}

theorem recoveries_pending {T : Transaction ext} (hT : TransactionOf ext fs dir leaf nonce changes T)
    (runs : List ((ℕ → Choice) × ℕ)) {s : Fs} (h : T.Pending False s) :
    T.Pending False (recoveries ext dir leaf runs s) := by
  induction runs generalizing s with
  | nil => exact h
  | cons run runs ih =>
    refine ih ?_
    unfold recoverStopped
    rw [← hT.journal]
    have henv : ∀ k, permits true (run.1 k) := fun _ _ => rfl
    rcases Machine.Safe.stop (Transaction.recover_pending (fun hf => hf.elim) h) henv run.2 with
      ⟨_, _, hU⟩ | ⟨r, -, hq⟩ | ⟨-, _, _, hg⟩
    · exact hU.elim
    · exact hq.1
    · exact hg

/-- In a pending transaction every original is at its target or at its backup name. -/
theorem TransactionOf.within_reach {T : Transaction ext} {s : Fs} {C : Prop}
    (hT : TransactionOf ext fs dir leaf nonce changes T)
    (hplan : Planned ext fs dir leaf nonce changes) (h : T.Pending C s) {i : ℕ} {c : PlannedChange}
    (hc : changes[i]? = some c) (ho : c.original.isSome = true) :
    s.get c.target = fs.get c.target ∨
      s.get (c.backup ext.sha256Bytes nonce i) = fs.get c.target := by
  obtain ⟨sl, hsl, hof⟩ := hT.exists_slot hc
  have horig : fs.get c.target = sl.originalNode := by
    rw [(hplan.snapshots c (List.mem_of_getElem? hc)).regular, Slot.originalNode, hof.original]
  rcases h with h | ⟨es, h⟩
  · left
    rw [horig, ← hof.target, (h.slots sl hsl).target]
  · obtain ⟨e, he, rfl⟩ := Transaction.exists_entry h.entries hsl
    obtain ⟨t, st, b, hat, hst, -⟩ := h.kept e he
    rw [horig, ← hof.target, ← hof.backup, hat.target, hat.backup (hof.isSome_iff.2 ho)]
    rcases hst.cases with ⟨rfl, -⟩ | ⟨-, -, rfl⟩ | ⟨_, _, _, -, -, -, -, rfl, -⟩
    · exact .inl rfl
    · exact .inr rfl
    · exact .inr rfl

/-- **No original is lost.**  A commit stops anywhere, whatever primitives fail in it, before a
committed journal is visible; recoveries follow, each stopped anywhere and with any failures.
Then every original is at its target or at its backup name; whenever a recovery answers `Ok`,
every target is as it was, and that is what an uninterrupted recovery leaves. -/
theorem originals_within_reach (hext : ext.Faithful)
    (hplan : Planned ext fs dir leaf nonce changes) {env : ℕ → Choice} {n : ℕ}
    (hn : ¬ CommittedBy ext dir leaf nonce changes env n fs) (runs : List ((ℕ → Choice) × ℕ))
    {s : Fs} (hs : recoveries ext dir leaf runs
      (commitStopped ext dir leaf nonce changes env n fs).2 = s) :
    (∀ (i : ℕ) (c : PlannedChange), changes[i]? = some c → c.original.isSome = true →
        s.get c.target = fs.get c.target ∨
          s.get (c.backup ext.sha256Bytes nonce i) = fs.get c.target) ∧
      (∀ env' m outcome, (recoverStopped ext dir leaf env' m s).1 = some (.ok outcome) →
        AllOriginal changes fs (recoverStopped ext dir leaf env' m s).2) ∧
      ∀ env', (∀ k, (env' k).fail = false) →
        AllOriginal changes fs (recover ext dir leaf env' s).2 := by
  obtain ⟨T, hT⟩ := hplan.exists_transaction
  have hany : ∀ (env : ℕ → Choice) k, permits true (env k) := fun _ _ _ => rfl
  have hcommit := Transaction.stop_pending (C := False) (n := n) hext (fun hf => hf.elim)
    (fun hf => hf.elim) (hT.resting hplan fun hf => hf.elim)
    (by rw [hT.stage, hplan.journal_stage]) (hany env) fun m hm hv => hn ⟨m, hm, by
      rw [hT.commitStopped_eq, ← hT.journal]
      exact hv⟩
  rw [← hT.commitStopped_eq] at hcommit
  have hpend : T.Pending False s := hs ▸ recoveries_pending hT runs hcommit
  have hsafe : ∀ fail, _ := fun fail =>
    Transaction.recover_pending (fun hf : False => (hf.elim : fail = false)) hpend
  refine ⟨fun i c hc ho => hT.within_reach hplan hpend hc ho, fun env' m outcome hok => ?_,
    fun env' henv' => ?_⟩
  · unfold recoverStopped at hok ⊢
    rw [← hT.journal] at hok ⊢
    rcases Machine.Safe.stop (hsafe true) (hany env') m with
      ⟨_, _, hU⟩ | ⟨r, hr, hq⟩ | ⟨hnone, -⟩
    · exact hU.elim
    · rw [hok, Option.some.injEq] at hr
      subst hr
      exact hT.allOriginal hplan fun sl hsl => ((hq.2.1 rfl).slots sl hsl).target
    · rw [hok] at hnone
      cases hnone
  · unfold recover
    rw [← hT.journal]
    exact hT.allOriginal hplan
      ((Machine.Safe.exec (hsafe false) (TransactionOf.permits_of henv')).2.2 rfl)

end

theorem not_committedBy {ext : Externals} {fs : Fs} {dir : Path} {leaf : Name} {nonce n : ℕ}
    {changes : List PlannedChange} {env : ℕ → Choice}
    (h : machine.always (fun s => visibleState ext (dir ++ [leaf]) s != some .committed)
      (commit ext (.ofPath (dir ++ [leaf])) nonce changes).run env n fs = true) :
    ¬ CommittedBy ext dir leaf nonce changes env n fs := by
  rintro ⟨m, hm, hv⟩
  have := machine.stop_of_always h hm
  rw [bne_iff_ne] at this
  exact this hv

open Sample in
theorem originals_within_reach_removal :
    let s := recoveries externals [] leaf [(quiet, 20)]
      (commitStopped externals [] leaf nonce [remove (ascii "b")] quiet 45 (holding (ascii "b"))).2
    s.get [ascii "b"] = some (.file ⟨⟨1, 11⟩, ascii "old\n", 0o644⟩) ∨
      s.get [ascii ".aros-backup-3e23e8160039594a-0000000700000000"] =
        some (.file ⟨⟨1, 11⟩, ascii "old\n", 0o644⟩) := by
  have hn : ¬ CommittedBy externals [] leaf nonce [remove (ascii "b")] quiet 45
      (holding (ascii "b")) := not_committedBy (by decide +kernel)
  have h := originals_within_reach externals_faithful remove_planned hn [(quiet, 20)] rfl
  exact h.1 0 (remove (ascii "b")) rfl rfl

namespace Sample

/-- The external functions of a run whose only journal is written as one byte. -/
def short : Externals := .known
  [(ascii "a", digestA), (ascii "new\n", digestNew), (ascii "old\n", digestOld),
    (leaf, ascii "189f40034be7a199f1fa9891668ee3ab6049f82d38c68be70f596eab2e1857b7"),
    (stageOfA, ascii "0cc41772ae8a802c70bd977444c1d00611dbabd6e3504015a34b707f16a92c68")]
  [(colliding, [1])] []

end Sample

open Sample in
/-- A target with the stage name of another is lost: creating the stage fails, and the rollback
removes what is there. -/
theorem original_lost :
    (∀ c ∈ [remove stageOfA, create], c.TrueSnapshot short.sha256Bytes (holding stageOfA)) ∧
      ¬ CommittedBy short [] leaf nonce [remove stageOfA, create] quiet 82 (holding stageOfA) ∧
      (commitStopped short [] leaf nonce [remove stageOfA, create] quiet 82
        (holding stageOfA)).2.get [stageOfA] = none ∧
      (commitStopped short [] leaf nonce [remove stageOfA, create] quiet 82
        (holding stageOfA)).2.get
          ((remove stageOfA).backup short.sha256Bytes nonce 0) = none := by
  refine ⟨?_, not_committedBy ?_, ?_, ?_⟩
  · intro c hc
    rcases List.mem_pair.1 hc with rfl | rfl
    · refine ⟨⟨?_, ?_, ?_, ?_, ?_, ?_⟩, ?_⟩ <;> decide
    · refine ⟨⟨?_, ?_, ?_, ?_, ?_, ?_⟩, ?_⟩ <;> decide
  all_goals decide

end ArosTools
