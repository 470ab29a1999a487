import ArosTools.Publication.Entries
import ArosTools.Publication.JournalRules

/-!
# The phases of a transaction

A `Transaction` is a journal and the slots of its changes, with names that are apart from one
another.  At every moment the filesystem is in one of four phases: resting (no journal, every
target as it was), prepared (a prepared journal is visible and every slot is in a stable
combination), committed (a committed journal is visible and every change is applied), done (no
journal, every change applied).  `recover_*` follow recovery from each of them.
-/

namespace ArosTools

open Sys

/-- The JSON reader gives back what the JSON writer wrote. -/
def Externals.Faithful (ext : Externals) : Prop :=
  ∀ journal bytes, ext.journalToVec journal = .ok bytes →
    ext.journalFromSlice bytes = .ok journal

/-- The collision key of a target relative to the directory of the journal. -/
def targetKey (dir target : Path) : Except IoError Bytes :=
  casefoldPathKey ⟨false, (target.drop dir.length).map .normal⟩

/-- A journal and the changes it is written for. -/
structure Transaction (ext : Externals) where
  /-- The directory of the journal. -/
  dir : Path
  /-- The leaf of the journal. -/
  leaf : Name
  nonce : ℕ
  slots : List Slot
  /-- The collision keys of the targets. -/
  keys : List Bytes
  journal_ne_stage : dir ++ [leaf] ≠ journalStage ext dir leaf
  /-- No name of a change is a name of another or inside one. -/
  apart : slots.Pairwise fun a b => ∀ p ∈ a.names, ∀ q ∈ b.names, ¬ p <+: q ∧ ¬ q <+: p
  /-- No name of a change is the journal or its stage, contains one or is inside one. -/
  control_apart : ∀ sl ∈ slots, ∀ q ∈ sl.names, ∀ p ∈ [dir ++ [leaf], journalStage ext dir leaf],
    ¬ p <+: q ∧ ¬ q <+: p
  /-- The auxiliary names are the derived ones. -/
  derived : ∀ i sl, slots[i]? = some sl →
    sl.stageLeaf = siblingName ext.sha256Bytes sl.leaf "stage" (addU64 nonce i) ∧
      sl.backupLeaf = siblingName ext.sha256Bytes sl.leaf "backup" (addU64 nonce i)
  /-- The targets are below the directory of the journal, with portable names. -/
  registered : List.Forall₂ (fun sl key => dir <+: sl.target ∧ targetKey dir sl.target = .ok key)
    slots keys
  keys_nodup : keys.Nodup
  /-- The files are written with portable permission bits. -/
  modes : ∀ sl ∈ slots, ∀ contents mode, sl.desired = .write contents mode →
    mode = 0o644 ∨ mode = 0o755
  original_modes : ∀ sl ∈ slots, ∀ o ∈ sl.original, o.mode ≤ 0o7777

namespace Transaction

variable {ext : Externals} (T : Transaction ext)

/-- The journal. -/
def journal : Path := T.dir ++ [T.leaf]

/-- The stage of the journal. -/
def stage : Path := journalStage ext T.dir T.leaf

/-- The recorded operations. -/
def operations (ext : Externals) (es : List Entry) : List JournalOperation :=
  es.map (Entry.operation ext.sha256Bytes)

/-- The journal as it is written. -/
def record (state : JournalState) (es : List Entry) : Journal where
  schema := "aros-publication-journal-v3"
  nonce := T.nonce
  state := state
  operations := operations ext es

/-- The visible journal is `journal`. -/
def Visible (journal : Journal) (fs : Fs) : Prop :=
  ∃ f, fs.get T.journal = some (.file f) ∧ parseJournal ext f.bytes = .ok journal

/-- The directory of the journal exists and its stage is free or holds a part of a journal. -/
structure Ready (fs : Fs) : Prop where
  dirs : fs.Dirs T.dir
  stage : ∃ js, fs.get T.stage = js.map .file ∧ StageOwned js

/-- Every name of the slot is as it was when the transaction started. -/
structure RestingSlot (C : Prop) (sl : Slot) (fs : Fs) : Prop where
  target : fs.get sl.target = sl.originalNode
  backup : sl.original.isSome = true → fs.get sl.backup = sl.occupant
  stage : C → sl.writes = true → fs.get sl.stage = none

/-- No journal, every target as it was. -/
structure Resting (C : Prop) (fs : Fs) : Prop extends T.Ready fs where
  journal : fs.get T.journal = none
  slots : ∀ sl ∈ T.slots, RestingSlot C sl fs

/-- A prepared journal with the entries `es`. -/
structure Prepared (C : Prop) (es : List Entry) (fs : Fs) : Prop extends T.Ready fs where
  entries : es.map Entry.slot = T.slots
  journal : T.Visible (T.record .prepared es) fs
  kept : ∀ e ∈ es, e.StableAt C fs

/-- A committed journal with the entries `es`. -/
structure Committed (es : List Entry) (fs : Fs) : Prop extends T.Ready fs where
  entries : es.map Entry.slot = T.slots
  journal : T.Visible (T.record .committed es) fs
  recorded : ∀ e ∈ es, e.slot.Recorded e.inst
  applied : ∀ e ∈ es, e.CommittedAt fs

/-- No journal, every change applied. -/
structure Done (es : List Entry) (fs : Fs) : Prop extends T.Ready fs where
  entries : es.map Entry.slot = T.slots
  journal : fs.get T.journal = none
  recorded : ∀ e ∈ es, e.slot.Recorded e.inst
  applied : ∀ e ∈ es, e.FinalAt fs

/-! ### Frames -/

variable {T} {es : List Entry} {fs fs' : Fs} {C : Prop}

/-- The names that belong to the journal. -/
def control (T : Transaction ext) : List Path := [T.journal, T.stage]

theorem apart_of_entries (hes : es.map Entry.slot = T.slots) : es.Pairwise Entry.Apart := by
  have := T.apart
  rw [← hes, List.pairwise_map] at this
  exact this.imp fun h => ⟨fun p hp q hq => (h p hp q hq).1, fun p hp q hq => (h q hq p hp).2⟩

theorem mem_slots (hes : es.map Entry.slot = T.slots) {e : Entry} (he : e ∈ es) :
    e.slot ∈ T.slots := hes ▸ List.mem_map_of_mem he

theorem away_control (hes : es.map Entry.slot = T.slots) {e : Entry} (he : e ∈ es) :
    Entry.Away T.control e :=
  fun p hp q hq => (T.control_apart e.slot (mem_slots hes he) q hq p hp).1

theorem not_mem_allNames (hes : es.map Entry.slot = T.slots) {p q : Path} (hp : p ∈ T.control)
    (hq : q <+: p) : q ∉ Entry.allNames es := by
  intro h
  obtain ⟨e, he, hqe⟩ := Entry.mem_allNames.1 h
  exact (T.control_apart e.slot (mem_slots hes he) q hqe p hp).2 hq

theorem journal_mem : T.journal ∈ T.control := List.mem_cons_self

theorem stage_mem_control : T.stage ∈ T.control := List.mem_cons_of_mem _ List.mem_cons_self

theorem Ready.located_journal (h : T.Ready fs) : Located fs T.journal :=
  ⟨by simp [Transaction.journal], by simpa [Transaction.journal] using h.dirs⟩

theorem Ready.located_stage (h : T.Ready fs) : Located fs T.stage :=
  ⟨by simp [Transaction.stage, journalStage],
    by simpa [Transaction.stage, journalStage] using h.dirs⟩

/-- What happens at the names of the slots leaves the journal as it is. -/
theorem Ready.frame (h : T.Ready fs) (hes : es.map Entry.slot = T.slots)
    (hs : Fs.SameOff (Entry.allNames es) fs fs') : T.Ready fs' := by
  refine ⟨hs.dirs h.dirs fun q hq => ?_, ?_⟩
  · exact not_mem_allNames hes journal_mem (hq.trans (List.prefix_append _ _))
  · rw [hs.get _ (not_mem_allNames hes stage_mem_control (List.prefix_refl _))]
    exact h.stage

theorem Visible.frame {j : Journal} (h : T.Visible j fs) (hes : es.map Entry.slot = T.slots)
    (hs : Fs.SameOff (Entry.allNames es) fs fs') : T.Visible j fs' := by
  unfold Visible
  rw [hs.get _ (not_mem_allNames hes journal_mem (List.prefix_refl _))]
  exact h

theorem RestingSlot.frame {sl : Slot} {X : List Path} (h : RestingSlot C sl fs)
    (hs : Fs.SameOff X fs fs') (hX : ∀ q ∈ sl.names, q ∉ X) : RestingSlot C sl fs' := by
  refine ⟨?_, fun ho => ?_, fun hc hw => ?_⟩
  · rw [hs.get _ (hX _ sl.target_mem), h.target]
  · rw [hs.get _ (hX _ (Slot.backup_mem ho)), h.backup ho]
  · rw [hs.get _ (hX _ (Slot.stage_mem hw)), h.stage hc hw]

theorem not_mem_control {sl : Slot} (hsl : sl ∈ T.slots) {q : Path} (hq : q ∈ sl.names) :
    q ∉ T.control := fun h => (T.control_apart sl hsl q hq q h).1 (List.prefix_refl q)

theorem Ready.stage_free (h : T.Ready fs) (hs : Fs.SameOff [T.stage] fs fs')
    (hget : fs'.get T.stage = none) : T.Ready fs' := by
  refine ⟨hs.dirs h.dirs fun q hq hqX => ?_, none, hget, fun f hf => nomatch hf⟩
  rw [List.mem_singleton] at hqX
  subst hqX
  exact not_snoc_prefix hq

theorem restingSlot_of_original {e : Entry} (h : e.OriginalAt fs) : RestingSlot C e.slot fs :=
  ⟨h.target, h.backup, fun _ hw => h.stage hw⟩

/-! ### The journal is valid -/

theorem stripPrefix_ofPath {p d : Path} (h : d <+: p) :
    (PathBuf.ofPath p).stripPrefix (.ofPath d) =
      some ⟨false, (p.drop d.length).map .normal⟩ := by
  unfold PathBuf.stripPrefix
  rw [if_pos]
  · simp [PathBuf.ofPath, List.map_drop]
  · refine ⟨rfl, ?_⟩
    rw [List.isPrefixOf_iff_prefix]
    exact h.map _

theorem originalProof_complete (e : Entry) :
    originalProofIncomplete true (e.operation ext.sha256Bytes) = false := by
  unfold originalProofIncomplete Entry.operation Slot.operation
  cases e.slot.original <;> rfl

theorem auxiliary_consistent {e : Entry} {stage backup : PathBuf}
    (hmodes : ∀ contents mode, e.slot.desired = .write contents mode → mode = 0o644 ∨ mode = 0o755)
    (hinst : e.inst.isSome = true → e.slot.writes = true)
    (hs : stage = .ofPath e.slot.stage) (hb : backup = .ofPath e.slot.backup) :
    auxiliaryInconsistent true stage backup (e.operation ext.sha256Bytes) = false := by
  subst hs hb
  unfold auxiliaryInconsistent Entry.operation Slot.operation
  unfold Slot.writes at hinst ⊢
  cases hd : e.slot.desired with
  | write contents mode =>
    have := hmodes contents mode hd
    cases e.slot.original <;> simp <;> omega
  | remove =>
    rw [hd] at hinst
    cases e.slot.original <;> simp_all

theorem validateOperation_entry {e : Entry} {index : ℕ} {targets : List PathBuf} {keys : List Bytes}
    {key : Bytes} {dir : Path} (nonce : ℕ) (hdir : dir <+: e.slot.target)
    (hkey : targetKey dir e.slot.target = .ok key) (ht : .ofPath e.slot.target ∉ targets)
    (hk : key ∉ keys)
    (hmodes : ∀ contents mode, e.slot.desired = .write contents mode → mode = 0o644 ∨ mode = 0o755)
    (horig : ∀ o ∈ e.slot.original, o.mode ≤ 0o7777)
    (hinst : e.inst.isSome = true → e.slot.writes = true)
    (hstage : e.slot.stageLeaf = siblingName ext.sha256Bytes e.slot.leaf "stage" (addU64 nonce index))
    (hbackup : e.slot.backupLeaf =
      siblingName ext.sha256Bytes e.slot.leaf "backup" (addU64 nonce index)) :
    validateOperation ext.sha256Bytes true (.ofPath dir) nonce index targets keys
      (e.operation ext.sha256Bytes) = .ok key := by
  have htarget : (e.operation ext.sha256Bytes).target = .ofPath e.slot.target := rfl
  have hstrip := stripPrefix_ofPath hdir
  have hparent : (PathBuf.ofPath e.slot.target).parent = some (.ofPath e.slot.dir) := by
    rw [PathBuf.parent_ofPath (by simp [Slot.target]), Slot.target, List.dropLast_concat]
  have hleaf : (PathBuf.ofPath e.slot.target).fileName = some e.slot.leaf := by
    simp [Slot.target]
  have hmode : ((e.operation ext.sha256Bytes).originalMode.any fun x => decide (x > 0o7777)) = false := by
    have : (e.operation ext.sha256Bytes).originalMode = e.slot.original.map File.mode := rfl
    rw [this]
    cases ho : e.slot.original with
    | none => rfl
    | some o =>
      have := horig o ho
      simp only [Option.map_some, Option.any_some, decide_eq_false_iff_not]
      omega
  have hstart : (PathBuf.ofPath e.slot.target).startsWith (.ofPath dir) = true := by
    rw [PathBuf.startsWith, hstrip]; rfl
  have hc : targets.contains (PathBuf.ofPath e.slot.target) = false := by
    simpa using ht
  have hkc : keys.contains key = false := by simpa using hk
  have haux : auxiliaryInconsistent true
      ((PathBuf.ofPath e.slot.dir).join
        (siblingName ext.sha256Bytes e.slot.leaf "stage" (addU64 nonce index)))
      ((PathBuf.ofPath e.slot.dir).join
        (siblingName ext.sha256Bytes e.slot.leaf "backup" (addU64 nonce index)))
      (e.operation ext.sha256Bytes) = false :=
    auxiliary_consistent hmodes hinst (by rw [PathBuf.join_ofPath, ← hstage]; rfl)
      (by rw [PathBuf.join_ofPath, ← hbackup]; rfl)
  unfold validateOperation
  rw [htarget, hstrip, hstart, hc, hparent, hleaf, originalProof_complete, hmode]
  unfold targetKey at hkey
  simp only [PathBuf.ofPath_absolute, Bool.not_true, Bool.or_self, Bool.false_eq_true, if_false,
    Option.elim_some, hkey, Except.mapError, hkc, bind, Except.bind, haux]
  rfl

theorem validateOperations_entries {dir : Path} {nonce : ℕ} {keys : List Bytes} :
    ∀ {es : List Entry} {index : ℕ} {targets : List PathBuf} {seen : List Bytes},
    List.Forall₂ (fun e key => dir <+: e.slot.target ∧ targetKey dir e.slot.target = .ok key)
      es keys → (∀ key ∈ keys, key ∉ seen) → keys.Nodup →
    (∀ p, dir <+: p → .ofPath p ∈ targets → ∃ key ∈ seen, targetKey dir p = .ok key) →
    (∀ i e, es[i]? = some e →
      e.slot.stageLeaf = siblingName ext.sha256Bytes e.slot.leaf "stage" (addU64 nonce (index + i)) ∧
      e.slot.backupLeaf =
        siblingName ext.sha256Bytes e.slot.leaf "backup" (addU64 nonce (index + i))) →
    (∀ e ∈ es, ∀ contents mode, e.slot.desired = .write contents mode →
      mode = 0o644 ∨ mode = 0o755) →
    (∀ e ∈ es, ∀ o ∈ e.slot.original, o.mode ≤ 0o7777) →
    (∀ e ∈ es, e.inst.isSome = true → e.slot.writes = true) →
    validateOperations ext.sha256Bytes true (.ofPath dir) nonce index targets seen
      (es.map (Entry.operation ext.sha256Bytes)) = .ok () := by
  induction keys with
  | nil =>
    intro es index targets seen h
    cases h
    intros
    rfl
  | cons key keys ih =>
    intro es index targets seen h hseen hnodup hmem hderived hmodes horig hinst
    cases h with
    | @cons e _ es _ hhead htail =>
      obtain ⟨hdir, hkey⟩ := hhead
      obtain ⟨hkey', hnodup⟩ := List.nodup_cons.1 hnodup
      have hd := hderived 0 e rfl
      have hnot : .ofPath e.slot.target ∉ targets := by
        intro ht
        obtain ⟨k, hk, hk'⟩ := hmem _ hdir ht
        rw [hkey, Except.ok.injEq] at hk'
        subst hk'
        exact hseen _ List.mem_cons_self hk
      have hval := validateOperation_entry nonce hdir hkey hnot
        (hseen key List.mem_cons_self) (hmodes e List.mem_cons_self)
        (horig e List.mem_cons_self) (hinst e List.mem_cons_self) hd.1 hd.2
      rw [Nat.add_zero] at hval
      rw [List.map_cons, validateOperations, hval]
      refine ih htail (fun k hk hks => ?_) hnodup (fun p hp hpt => ?_) (fun i e' he' => ?_)
        (fun e' he' => hmodes e' (List.mem_cons_of_mem _ he'))
        (fun e' he' => horig e' (List.mem_cons_of_mem _ he'))
        fun e' he' => hinst e' (List.mem_cons_of_mem _ he')
      · rcases List.mem_cons.1 hks with rfl | hks
        · exact hkey' hk
        · exact hseen k (List.mem_cons_of_mem _ hk) hks
      · rcases List.mem_cons.1 hpt with hpt | hpt
        · have : p = e.slot.target := PathBuf.ofPath_injective hpt
          exact ⟨key, List.mem_cons_self, this ▸ hkey⟩
        · obtain ⟨k, hk, hk'⟩ := hmem p hp hpt
          exact ⟨k, List.mem_cons_of_mem _ hk, hk'⟩
      · have := hderived (i + 1) e' (by simpa using he')
        rwa [Nat.add_assoc, Nat.add_comm 1 i]

/-- **A journal that a commit writes is valid.** -/
theorem validateJournal_record {state : JournalState} (hes : es.map Entry.slot = T.slots)
    (hinst : ∀ e ∈ es, e.inst.isSome = true → e.slot.writes = true) :
    validateJournal ext.sha256Bytes (T.record state es) (.ofPath T.journal) = .ok () := by
  have hparent : (PathBuf.ofPath T.journal).parent = some (.ofPath T.dir) := by
    rw [PathBuf.parent_ofPath (by simp [journal]), journal, List.dropLast_concat]
  have hreg := T.registered
  have hslot : ∀ e ∈ es, e.slot ∈ T.slots := fun e he => mem_slots hes he
  rw [← hes, List.forall₂_map_left_iff] at hreg
  unfold validateJournal
  rw [hparent]
  refine validateOperations_entries hreg (fun _ _ h => nomatch h) T.keys_nodup
    (fun _ _ h => nomatch h) (fun i e he => ?_) (fun e he => T.modes e.slot (hslot e he))
    (fun e he => T.original_modes e.slot (hslot e he)) hinst
  rw [Nat.zero_add]
  exact T.derived i e.slot (by rw [← hes, List.getElem?_map, he]; rfl)

/-! ### Recovery -/

section Recovery

variable {fail : Bool} {U : Fs → Prop} {G : ∀ ⦃β : Type⦄, Sys β → Fs → Prop}
  {Q : Except IoError RecoveryOutcome → Fs → Prop}

theorem Ready.holds_stage (h : T.Ready fs) :
    ∃ js, Holds fs T.stage js ∧ StageOwned js := by
  obtain ⟨js, hjs, hown⟩ := h.stage
  exact ⟨js, ⟨h.located_stage, hjs⟩, hown⟩

/-- The stage of the journal is cleaned first; nothing else changes. -/
theorem cleanupJournalStage_ready {Q : Except IoError Unit → Fs → Prop} (h : T.Ready fs)
    {o : Option File} (hj : fs.get T.journal = o.map .file)
    (hG : ∀ fs', Fs.SameOff [T.stage] fs fs' → T.Ready fs' → AllOk G fs')
    (hok : ∀ fs', Fs.SameOff [T.stage] fs fs' → T.Ready fs' → fs'.get T.stage = none →
      Q (.ok ()) fs')
    (herr : fail = true → ∀ e fs', Fs.SameOff [T.stage] fs fs' → T.Ready fs' → Q (.error e) fs') :
    IoSafe fail U G Q (cleanupJournalStage ext (.ofPath T.journal)) fs := by
  obtain ⟨js, hjs, hown⟩ := h.holds_stage
  have hrefl := Fs.SameOff.refl [T.stage] fs
  have hdel : Fs.SameOff [T.stage] fs (fs.del T.stage) := .del (List.mem_singleton.2 rfl)
  have hready : T.Ready (fs.del T.stage) := h.stage_free hdel (Fs.get_del_self _ _)
  exact cleanupJournalStage_safe ⟨h.located_journal, hj⟩ hjs hown (hG fs hrefl h)
    (fun _ => hG _ hdel hready) (fun hn => hok fs hrefl h (by rw [hjs.get, hn]; rfl))
    (fun _ => hok _ hdel hready (Fs.get_del_self _ _)) (fun hfail e => herr hfail e fs hrefl h)
    fun _ hfail e => herr hfail e _ hdel hready

theorem get_stage_del_journal (fs : Fs) : (fs.del T.journal).get T.stage = fs.get T.stage :=
  Fs.get_del_of_ne (Ne.symm T.journal_ne_stage)

theorem journal_not_mem_stage : T.journal ∉ [T.stage] := by
  rw [List.mem_singleton]
  exact T.journal_ne_stage

/-- **Recovery without a journal** only removes a left-over stage of the journal. -/
theorem recoverIfNeeded_absent (h : T.Ready fs) (hj : fs.get T.journal = none)
    (hG : ∀ fs', Fs.SameOff [T.stage] fs fs' → T.Ready fs' → AllOk G fs')
    (hok : ∀ fs', Fs.SameOff [T.stage] fs fs' → T.Ready fs' → fs'.get T.stage = none →
      Q (.ok .none) fs')
    (herr : fail = true → ∀ e fs', Fs.SameOff [T.stage] fs fs' → T.Ready fs' → Q (.error e) fs') :
    IoSafe fail U G Q (recoverIfNeeded ext (.ofPath T.journal)) fs := by
  refine IoSafe.bind (cleanupJournalStage_ready h (o := none) hj hG (fun fs₁ hs₁ h₁ hstage => ?_)
    herr)
  have hj₁ : Holds fs₁ T.journal none :=
    ⟨h₁.located_journal, by rw [hs₁.get _ journal_not_mem_stage, hj]; rfl⟩
  exact IoSafe.bind (readRegular_holds hj₁ (hG fs₁ hs₁ h₁).quiet
    (IoSafe.pure (hok fs₁ hs₁ h₁ hstage)) fun hfail e => herr hfail e fs₁ hs₁ h₁)

theorem Entry.in_control {K : Entry → Option File → Option Node → Option Node → Prop}
    (hes : es.map Entry.slot = T.slots) (hs : Fs.SameOff T.control fs fs')
    (h : ∀ e ∈ es, e.In K fs) : ∀ e ∈ es, e.In K fs' :=
  fun e he => Entry.local_in K e hs (away_control hes he) (h e he)

theorem stage_sub_control : ∀ p ∈ [T.stage], p ∈ T.control := by
  intro p hp
  rw [List.mem_singleton] at hp
  exact hp ▸ stage_mem_control

theorem journal_sub_control : ∀ p ∈ [T.journal], p ∈ T.control := by
  intro p hp
  rw [List.mem_singleton] at hp
  exact hp ▸ journal_mem

theorem Visible.stage {j : Journal} (h : T.Visible j fs) (hs : Fs.SameOff [T.stage] fs fs') :
    T.Visible j fs' := by
  unfold Visible
  rw [hs.get _ journal_not_mem_stage]
  exact h

theorem Prepared.restage (h : T.Prepared C es fs) (hs : Fs.SameOff [T.stage] fs fs')
    (hr : T.Ready fs') : T.Prepared C es fs' :=
  ⟨hr, h.entries, h.journal.stage hs,
    Entry.in_control h.entries (hs.mono stage_sub_control) h.kept⟩

theorem Prepared.frame (h : T.Prepared C es fs) (hs : Fs.SameOff (Entry.allNames es) fs fs')
    (hk : ∀ e ∈ es, e.StableAt C fs') : T.Prepared C es fs' :=
  ⟨h.toReady.frame h.entries hs, h.entries, h.journal.frame h.entries hs, hk⟩

theorem Ready.del_journal (h : T.Ready fs) : T.Ready (fs.del T.journal) := by
  have hs : Fs.SameOff [T.journal] fs (fs.del T.journal) := .del (List.mem_singleton.2 rfl)
  refine ⟨hs.dirs h.dirs fun q hq hqX => ?_, ?_⟩
  · rw [List.mem_singleton] at hqX
    subst hqX
    exact not_snoc_prefix hq
  · rw [get_stage_del_journal]
    exact h.stage

theorem exists_entry (hes : es.map Entry.slot = T.slots) {sl : Slot} (hsl : sl ∈ T.slots) :
    ∃ e ∈ es, e.slot = sl := by
  rw [← hes] at hsl
  exact List.mem_map.1 hsl

/-- With every original back, removing the journal ends the transaction. -/
theorem Ready.resting (h : T.Ready fs) (hes : es.map Entry.slot = T.slots)
    (ho : ∀ e ∈ es, e.OriginalAt fs) : T.Resting C (fs.del T.journal) := by
  have hs : Fs.SameOff [T.journal] fs (fs.del T.journal) := .del (List.mem_singleton.2 rfl)
  refine ⟨h.del_journal, Fs.get_del_self _ _, fun sl hsl => ?_⟩
  obtain ⟨e, he, rfl⟩ := exists_entry hes hsl
  refine (restingSlot_of_original (ho e he)).frame hs fun q hq hqX => ?_
  exact not_mem_control hsl hq (journal_sub_control q hqX)

theorem writes_of_kept (h : ∀ e ∈ es, e.StableAt C fs) :
    ∀ e ∈ es, e.inst.isSome = true → e.slot.writes = true := by
  intro e he hi
  obtain ⟨t, s, b, -, hst, -⟩ := h e he
  cases hd : e.slot.desired with
  | write contents mode => simp [Slot.writes, hd]
  | remove => rw [hst.inst_of_remove hd] at hi; cases hi

/-- **Recovery of a prepared transaction** rolls it back. -/
theorem recoverIfNeeded_prepared (hC : C → fail = false) (h : T.Prepared C es fs)
    (hG : ∀ fs', T.Prepared C es fs' → AllOk G fs')
    (hG' : ∀ fs', T.Resting C fs' → AllOk G fs')
    (hok : ∀ fs', T.Resting C fs' → fs'.get T.stage = none → (∀ e ∈ es, e.OriginalAt fs') →
      (∀ e ∈ es, ¬ e.Moved fs) → Q (.ok .rolledBack) fs')
    (herr : ∀ e fs', T.Prepared C es fs' ∨ T.Resting C fs' →
      (fail = false → ∀ e ∈ es, fs'.get e.slot.target = e.slot.originalNode) →
      (C → (∃ e ∈ es, e.Moved fs) ∧ ∀ e ∈ es, e.OriginalAt fs') → Q (.error e) fs') :
    IoSafe fail U G Q (recoverIfNeeded ext (.ofPath T.journal)) fs := by
  have hnC : fail = true → ¬ C := fun hfail hc => by rw [hC hc] at hfail; cases hfail
  obtain ⟨f, hf, hparse⟩ := h.journal
  refine IoSafe.bind (cleanupJournalStage_ready h.toReady (o := some f) hf
    (fun fs' hs' hr' => hG fs' (h.restage hs' hr')) (fun fs₁ hs₁ hr₁ hstage₁ => ?_)
    fun hfail e fs' hs' hr' => herr e fs' (.inl (h.restage hs' hr')) (by simp [hfail])
      fun hc => absurd hc (hnC hfail))
  have h₁ : T.Prepared C es fs₁ := h.restage hs₁ hr₁
  have hall₁ := hG fs₁ h₁
  have hj₁ : fs₁.get T.journal = some (.file f) := by rw [hs₁.get _ journal_not_mem_stage, hf]
  have hfail₁ := fun hfail (e : IoError) => herr e fs₁ (.inl h₁) (by simp [hfail])
    fun hc => absurd hc (hnC hfail)
  refine IoSafe.bind (readRegular_holds (o := some f) ⟨hr₁.located_journal, hj₁⟩ hall₁.quiet ?_
    hfail₁)
  -- the journal is the one that was written, and valid
  refine IoSafe.bind (IoSafe.mapErr (IoSafe.liftExcept ?_))
  rw [hparse]
  refine IoSafe.bind (IoSafe.liftExcept ?_)
  rw [validateJournal_record h.entries (writes_of_kept h.kept)]
  refine IoSafe.bind (IoSafe.bind (Entry.rollbackOperations_safe hC (apart_of_entries h.entries)
    (fun e _ => Slot.undoable_kept e.slot C e.inst) h₁.kept
    (fun fs' hs' hk' => hG fs' (h₁.frame hs' hk'))
    fun errors fs₂ hs₂ hk₂ htarget horig hmoved hcause => IoSafe.pure ?_))
  have h₂ : T.Prepared C es fs₂ := h₁.frame hs₂ hk₂
  have hmoved_iff : ∀ e ∈ es, e.Moved fs₁ ↔ e.Moved fs := fun e he =>
    Entry.moved_iff_of_away (hs₁.mono stage_sub_control) (away_control h.entries he)
  refine IoSafe.ite (fun hne => ?_) fun hnil => ?_
  · refine IoSafe.throw (herr _ fs₂ (.inl h₂) htarget fun hc => ?_)
    obtain ⟨e, he, hm⟩ := hcause hc hne
    exact ⟨⟨e, he, (hmoved_iff e he).1 hm⟩, horig (.inr hc)⟩
  · rw [not_not] at hnil
    have horig₂ := horig (.inl hnil)
    have hall₂ := hG fs₂ h₂
    have hj₂ : fs₂.get T.journal = some (.file f) := by
      rw [hs₂.get _ (not_mem_allNames h.entries journal_mem (List.prefix_refl _)), hj₁]
    have hrest : T.Resting C (fs₂.del T.journal) := h₂.toReady.resting h.entries horig₂
    have hfail₂ : fail = true → ∀ e fs', T.Prepared C es fs' ∨ T.Resting C fs' → Q (.error e) fs' :=
      fun hfail e fs' h' => herr e fs' h' (by simp [hfail]) fun hc => absurd hc (hnC hfail)
    refine IoSafe.bind (IoSafe.mapErr (removeJournal_safe (f := f)
      ⟨h₂.toReady.located_journal, hj₂⟩ hall₂ (hG' _ hrest) (IoSafe.pure ?_)
      (fun hfail e => hfail₂ hfail _ fs₂ (.inl h₂)) fun hfail e => hfail₂ hfail _ _ (.inr hrest)))
    refine hok _ hrest ?_ (fun e he => ?_) fun e he hm => ?_
    · refine (get_stage_del_journal fs₂).trans ?_
      rw [hs₂.get _ (not_mem_allNames h.entries stage_mem_control (List.prefix_refl _)), hstage₁]
    · exact Entry.local_at e _ _ _ ((Fs.SameOff.del (List.mem_singleton.2 rfl)).mono
        journal_sub_control) (away_control h.entries he) (horig₂ e he)
    · exact hmoved hnil e he ((hmoved_iff e he).2 hm)

/-- **Recovery of a committed transaction** completes it. -/
theorem recoverIfNeeded_committed (h : T.Committed es fs)
    (hG : ∀ fs', T.Committed es fs' → AllOk G fs') (hG' : ∀ fs', T.Done es fs' → AllOk G fs')
    (hok : ∀ fs', T.Done es fs' → fs'.get T.stage = none → Q (.ok .completedCleanup) fs')
    (herr : fail = true → ∀ e fs', T.Committed es fs' ∨ T.Done es fs' → Q (.error e) fs') :
    IoSafe fail U G Q (recoverIfNeeded ext (.ofPath T.journal)) fs := by
  obtain ⟨f, hf, hparse⟩ := h.journal
  have hstep : ∀ fs', Fs.SameOff [T.stage] fs fs' → T.Ready fs' → T.Committed es fs' := by
    intro fs' hs' hr'
    refine ⟨hr', h.entries, h.journal.stage hs', h.recorded, fun e he => ?_⟩
    exact Entry.local_committedAt e (hs'.mono stage_sub_control) (away_control h.entries he)
      (h.applied e he)
  refine IoSafe.bind (cleanupJournalStage_ready h.toReady (o := some f) hf
    (fun fs' hs' hr' => hG fs' (hstep fs' hs' hr')) (fun fs₁ hs₁ hr₁ hstage₁ => ?_)
    fun hfail e fs' hs' hr' => herr hfail e fs' (.inl (hstep fs' hs' hr')))
  have h₁ := hstep fs₁ hs₁ hr₁
  have hj₁ : fs₁.get T.journal = some (.file f) := by rw [hs₁.get _ journal_not_mem_stage, hf]
  refine IoSafe.bind (readRegular_holds (o := some f) ⟨hr₁.located_journal, hj₁⟩
    (hG fs₁ h₁).quiet ?_ fun hfail e => herr hfail e fs₁ (.inl h₁))
  refine IoSafe.bind (IoSafe.mapErr (IoSafe.liftExcept ?_))
  rw [hparse]
  refine IoSafe.bind (IoSafe.liftExcept ?_)
  rw [validateJournal_record h.entries fun e he hi => (h.recorded e he).isSome.symm.trans hi]
  have hframe : ∀ fs', Fs.SameOff (Entry.allNames es) fs₁ fs' → (∀ e ∈ es, e.CommittedAt fs') →
      T.Committed es fs' := fun fs' hs' hk' => ⟨h₁.toReady.frame h.entries hs', h.entries,
    h₁.journal.frame h.entries hs', h.recorded, hk'⟩
  refine IoSafe.bind (IoSafe.bind (Entry.cleanupCommitted_safe (apart_of_entries h.entries)
    h₁.applied (fun fs' hs' hk' => hG fs' (hframe fs' hs' hk'))
    fun errors fs₂ hs₂ hk₂ hfinal hnil => IoSafe.pure ?_))
  have h₂ := hframe fs₂ hs₂ hk₂
  refine IoSafe.ite (fun hne => IoSafe.throw (herr ?_ _ fs₂ (.inl h₂))) fun hnil' => ?_
  · cases hfail : fail with
    | true => rfl
    | false => exact absurd (hnil hfail) hne
  · rw [not_not] at hnil'
    have hj₂ : fs₂.get T.journal = some (.file f) := by
      rw [hs₂.get _ (not_mem_allNames h.entries journal_mem (List.prefix_refl _)), hj₁]
    have hdone : T.Done es (fs₂.del T.journal) := by
      refine ⟨h₂.toReady.del_journal, h.entries, Fs.get_del_self _ _, h.recorded, fun e he => ?_⟩
      exact Entry.local_at e _ _ _ ((Fs.SameOff.del (List.mem_singleton.2 rfl)).mono
        journal_sub_control) (away_control h.entries he) (hfinal hnil' e he)
    refine IoSafe.bind (IoSafe.mapErr (removeJournal_safe (f := f)
      ⟨h₂.toReady.located_journal, hj₂⟩ (hG fs₂ h₂) (hG' _ hdone) (IoSafe.pure (hok _ hdone ?_))
      (fun hfail e => herr hfail _ fs₂ (.inl h₂)) fun hfail e => herr hfail _ _ (.inr hdone)))
    refine (get_stage_del_journal fs₂).trans ?_
    rw [hs₂.get _ (not_mem_allNames h.entries stage_mem_control (List.prefix_refl _)), hstage₁]

end Recovery

end Transaction

end ArosTools
