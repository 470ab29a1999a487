import ArosTools.Bytes.Basic
import ArosTools.Publication.Atomicity

/-!
# Overflow in the validation of a journal

The names that `validate_journal` derives use the sum of the journal's nonce and the position of an
operation. `validateJournalChecked` is the validation with the sum as the code computes it, which
panics when it overflows; `validateJournal` is the one with sums that wrap around.

* `validateJournalChecked_panics_iff` : the validation panics exactly if it gets as far as the names
  of an operation whose sum overflows;
* `validateJournalChecked_eq` : where no sum overflows the two validations agree;
* `journal_validation_total` : this, and that every journal that a commit writes is accepted.
-/

namespace ArosTools

open Sys

section

variable (sha256Bytes : Bytes → Sha256Digest)

/-- The checks of an operation before its names: its parent, its leaf and its collision key. -/
def checkOperation (modeAware : Bool) (scope : PathBuf) (targets : List PathBuf)
    (collisionKeys : List Bytes) (operation : JournalOperation) :
    Except IoError (PathBuf × Name × Bytes) := do
  if !operation.target.absolute || !operation.target.startsWith scope ||
      targets.contains operation.target then
    .error (journalError "publication journal contains an invalid or duplicate target")
  else pure ()
  let relative ← (operation.target.stripPrefix scope).elim
    (.error (journalError "publication journal target escaped its scope")) .ok
  let collisionKey ← (casefoldPathKey relative).mapError fun error =>
    journalError ("publication journal target is not portable: " ++ error.message)
  if collisionKeys.contains collisionKey then
    .error (journalError "publication journal contains a case-folded target collision")
  else pure ()
  if originalProofIncomplete modeAware operation then
    .error (journalError
      "publication journal original identity/digest/mode proof is incomplete")
  else pure ()
  if operation.originalMode.any (· > 0o7777) then
    .error (journalError
      "publication journal original mode is outside the portable permission mask")
  else pure ()
  let parent ← operation.target.parent.elim
    (.error (journalError "publication journal target has no parent")) .ok
  let leaf ← operation.target.fileName.elim
    (.error (journalError "publication journal target has no leaf")) .ok
  pure (parent, leaf, collisionKey)

/-- Whether the recorded state agrees with the names derived from `number`. -/
def namesConsistent (modeAware : Bool) (number : ℕ) (parent : PathBuf) (leaf : Name)
    (operation : JournalOperation) : Bool :=
  !auxiliaryInconsistent modeAware (parent.join (siblingName sha256Bytes leaf "stage" number))
    (parent.join (siblingName sha256Bytes leaf "backup" number)) operation

/-- Check one operation, with the sum that panics when it overflows. -/
def validateOperationChecked (modeAware : Bool) (scope : PathBuf) (nonce index : ℕ)
    (targets : List PathBuf) (collisionKeys : List Bytes) (operation : JournalOperation) :
    Checked IoError Bytes := do
  let (parent, leaf, key) ← (checkOperation modeAware scope targets collisionKeys
    operation).mapError .error
  let number ← Checked.expect (checkedAdd nonce index)
  if namesConsistent sha256Bytes modeAware number parent leaf operation then pure key
  else Checked.fail (journalError
    "publication journal contains inconsistent or non-derived auxiliary state")

/-- Check the operations from `index` on. -/
def validateOperationsChecked (modeAware : Bool) (scope : PathBuf) (nonce : ℕ) :
    ℕ → List PathBuf → List Bytes → List JournalOperation → Checked IoError Unit
  | _, _, _, [] => .ok ()
  | index, targets, collisionKeys, operation :: rest => do
    let key ← validateOperationChecked sha256Bytes modeAware scope nonce index targets collisionKeys
      operation
    validateOperationsChecked modeAware scope nonce (index + 1) (operation.target :: targets)
      (key :: collisionKeys) rest

/-- The schema of a journal: whether it records modes. -/
def Journal.modeAware (journal : Journal) : Except IoError Bool :=
  if journal.schema = "aros-publication-journal-v2" then .ok false
  else if journal.schema = "aros-publication-journal-v3" then .ok true
  else .error (journalError
    ("unsupported publication journal schema '" ++ journal.schema ++ "'"))

/-- The containment scope of a journal. -/
def journalScope (journalPath : PathBuf) : Except IoError PathBuf :=
  journalPath.parent.elim
    (.error (journalError "publication journal has no containment scope")) .ok

/-- `validate_journal`, with sums that panic when they overflow. -/
def validateJournalChecked (journal : Journal) (journalPath : PathBuf) : Checked IoError Unit := do
  let modeAware ← journal.modeAware.mapError .error
  let scope ← (journalScope journalPath).mapError .error
  validateOperationsChecked sha256Bytes modeAware scope journal.nonce 0 [] [] journal.operations

/-- The checks get as far as the names of the operation at position `m`: the operations before it
are accepted, and it passes the checks before its names. -/
def Reaches (modeAware : Bool) (scope : PathBuf) (nonce m : ℕ) :
    ℕ → List PathBuf → List Bytes → List JournalOperation → Prop
  | _, _, _, [] => False
  | index, targets, keys, operation :: rest =>
    ∃ parent leaf key, checkOperation modeAware scope targets keys operation =
        .ok (parent, leaf, key) ∧
      (m = index ∨
        namesConsistent sha256Bytes modeAware (nonce + index) parent leaf operation = true ∧
          Reaches modeAware scope nonce m (index + 1) (operation.target :: targets) (key :: keys)
            rest)

/-- The same for the operations of a journal. -/
def Journal.Reaches (journal : Journal) (journalPath : PathBuf) (m : ℕ) : Prop :=
  ∃ modeAware scope, journal.modeAware = .ok modeAware ∧ journalScope journalPath = .ok scope ∧
    ArosTools.Reaches sha256Bytes modeAware scope journal.nonce m 0 [] [] journal.operations

end

/-! ### When the sum overflows -/

section

variable {sha256Bytes : Bytes → Sha256Digest} {modeAware : Bool} {scope : PathBuf} {nonce : ℕ}
  {index : ℕ} {targets : List PathBuf} {keys : List Bytes}

/-- One operation, once it has passed the checks before its names. -/
theorem validateOperationChecked_of_check {operation : JournalOperation} {parent : PathBuf}
    {leaf : Name} {key : Bytes}
    (hcheck : checkOperation modeAware scope targets keys operation = .ok (parent, leaf, key)) :
    validateOperationChecked sha256Bytes modeAware scope nonce index targets keys operation =
      if nonce + index < 2 ^ 64 then
        if namesConsistent sha256Bytes modeAware (nonce + index) parent leaf operation then .ok key
        else Checked.fail (journalError
          "publication journal contains inconsistent or non-derived auxiliary state")
      else .error .panic := by
  rw [validateOperationChecked, hcheck]
  by_cases hlt : nonce + index < 2 ^ 64
  · rw [if_pos hlt, checkedAdd_of_lt hlt]
    rfl
  · rw [if_neg hlt, checkedAdd, if_neg hlt]
    rfl

theorem validateOperationChecked_of_error {operation : JournalOperation} {e : IoError}
    (hcheck : checkOperation modeAware scope targets keys operation = .error e) :
    validateOperationChecked sha256Bytes modeAware scope nonce index targets keys operation =
      Checked.fail e := by
  rw [validateOperationChecked, hcheck]
  rfl

theorem validateOperationsChecked_panics_iff {operations : List JournalOperation} :
    validateOperationsChecked sha256Bytes modeAware scope nonce index targets keys operations =
        .error .panic ↔
      ∃ m, Reaches sha256Bytes modeAware scope nonce m index targets keys operations ∧
        2 ^ 64 ≤ nonce + m := by
  induction operations generalizing index targets keys with
  | nil =>
    refine ⟨fun h => (by cases h), ?_⟩
    rintro ⟨m, hm, -⟩
    exact hm.elim
  | cons operation rest ih =>
    rw [validateOperationsChecked]
    simp only [Reaches]
    cases hcheck : checkOperation modeAware scope targets keys operation with
    | error e =>
      rw [validateOperationChecked_of_error hcheck]
      refine ⟨fun h => (by cases h), ?_⟩
      rintro ⟨m, ⟨parent, leaf, key, hok, -⟩, -⟩
      cases hok
    | ok found =>
      obtain ⟨parent, leaf, key⟩ := found
      rw [validateOperationChecked_of_check hcheck]
      by_cases hlt : nonce + index < 2 ^ 64
      · rw [if_pos hlt]
        cases hnames : namesConsistent sha256Bytes modeAware (nonce + index) parent leaf operation with
        | false =>
          refine ⟨fun h => (by cases h), ?_⟩
          rintro ⟨m, ⟨_, _, _, ⟨⟩, rfl | ⟨hconsistent, -⟩⟩, hle⟩
          · omega
          · rw [hnames] at hconsistent
            cases hconsistent
        | true =>
          rw [if_pos rfl]
          refine ih.trans ⟨?_, ?_⟩
          · rintro ⟨m, hm, hle⟩
            exact ⟨m, ⟨parent, leaf, key, rfl, .inr ⟨hnames, hm⟩⟩, hle⟩
          · rintro ⟨m, ⟨_, _, _, ⟨⟩, rfl | ⟨-, hm⟩⟩, hle⟩
            · omega
            · exact ⟨m, hm, hle⟩
      · rw [if_neg hlt]
        exact ⟨fun _ => ⟨index, ⟨parent, leaf, key, rfl, .inl rfl⟩, by omega⟩, fun _ => rfl⟩

/-- **When the validation of a journal panics.** -/
theorem validateJournalChecked_panics_iff {journal : Journal} {journalPath : PathBuf} :
    validateJournalChecked sha256Bytes journal journalPath = .error .panic ↔
      ∃ m, journal.Reaches sha256Bytes journalPath m ∧ 2 ^ 64 ≤ journal.nonce + m := by
  rw [validateJournalChecked]
  unfold Journal.Reaches
  cases hmode : journal.modeAware with
  | error e =>
    refine ⟨fun h => (by cases h), ?_⟩
    rintro ⟨m, ⟨_, _, ⟨⟩, -⟩, -⟩
  | ok modeAware =>
    cases hscope : journalScope journalPath with
    | error e =>
      refine ⟨fun h => (by cases h), ?_⟩
      rintro ⟨m, ⟨_, _, -, ⟨⟩, -⟩, -⟩
    | ok scope =>
      refine validateOperationsChecked_panics_iff.trans ⟨?_, ?_⟩
      · rintro ⟨m, hm, hle⟩
        exact ⟨m, ⟨modeAware, scope, rfl, rfl, hm⟩, hle⟩
      · rintro ⟨m, ⟨_, _, ⟨⟩, ⟨⟩, hm⟩, hle⟩
        exact ⟨m, hm, hle⟩

/-! ### Where no sum overflows -/

theorem validateOperation_eq {operation : JournalOperation} :
    validateOperation sha256Bytes modeAware scope nonce index targets keys operation = (do
      let (parent, leaf, key) ← checkOperation modeAware scope targets keys operation
      if namesConsistent sha256Bytes modeAware (addU64 nonce index) parent leaf operation then
        pure key
      else .error (journalError
        "publication journal contains inconsistent or non-derived auxiliary state")) := by
  unfold validateOperation checkOperation namesConsistent
  simp only [bind, Except.bind]
  by_cases htarget : (!operation.target.absolute || !operation.target.startsWith scope ||
      targets.contains operation.target) = true
  · simp only [if_pos htarget]
  · simp only [if_neg htarget, pure, Except.pure]
    cases hrelative : operation.target.stripPrefix scope with
    | none => rfl
    | some relative =>
      simp only [Option.elim_some]
      cases hkey : (casefoldPathKey relative).mapError fun error =>
          journalError ("publication journal target is not portable: " ++ error.message) with
      | error e => rfl
      | ok key =>
        simp only
        by_cases hseen : keys.contains key = true
        · simp only [if_pos hseen]
        · simp only [if_neg hseen]
          by_cases hproof : originalProofIncomplete modeAware operation = true
          · simp only [if_pos hproof]
          · simp only [if_neg hproof]
            by_cases hmode : (operation.originalMode.any fun x => decide (x > 0o7777)) = true
            · simp only [if_pos hmode]
            · simp only [if_neg hmode]
              cases hparent : operation.target.parent with
              | none => rfl
              | some parent =>
                cases hleaf : operation.target.fileName with
                | none => rfl
                | some leaf =>
                  simp only [Option.elim_some]
                  cases auxiliaryInconsistent modeAware _ _ operation with
                  | false => rfl
                  | true => rfl

theorem validateOperationsChecked_eq {operations : List JournalOperation}
    (hlen : nonce + index + operations.length ≤ 2 ^ 64) :
    validateOperationsChecked sha256Bytes modeAware scope nonce index targets keys operations =
      (validateOperations sha256Bytes modeAware scope nonce index targets keys
        operations).mapError .error := by
  induction operations generalizing index targets keys with
  | nil => rfl
  | cons operation rest ih =>
    rw [List.length_cons] at hlen
    rw [validateOperationsChecked, validateOperations, validateOperation_eq]
    cases hcheck : checkOperation modeAware scope targets keys operation with
    | error e =>
      rw [validateOperationChecked_of_error hcheck]
      rfl
    | ok found =>
      obtain ⟨parent, leaf, key⟩ := found
      have hsum : addU64 nonce index = nonce + index := Nat.mod_eq_of_lt (by omega)
      rw [validateOperationChecked_of_check hcheck, if_pos (by omega), hsum]
      simp only [bind, Except.bind]
      cases namesConsistent sha256Bytes modeAware (nonce + index) parent leaf operation with
      | false => rfl
      | true => exact ih (by omega)

/-- **Where no sum can overflow**, the validation is the one with sums that wrap around. -/
theorem validateJournalChecked_eq {journal : Journal} {journalPath : PathBuf}
    (hlen : journal.nonce + journal.operations.length ≤ 2 ^ 64) :
    validateJournalChecked sha256Bytes journal journalPath =
      (validateJournal sha256Bytes journal journalPath).mapError .error := by
  unfold validateJournalChecked validateJournal Journal.modeAware journalScope
  by_cases hv2 : journal.schema = "aros-publication-journal-v2"
  · rw [if_pos hv2, if_pos hv2]
    cases journalPath.parent with
    | none => rfl
    | some scope => exact validateOperationsChecked_eq (by omega)
  · rw [if_neg hv2, if_neg hv2]
    by_cases hv3 : journal.schema = "aros-publication-journal-v3"
    · rw [if_pos hv3, if_pos hv3]
      cases journalPath.parent with
      | none => rfl
      | some scope => exact validateOperationsChecked_eq (by omega)
    · rw [if_neg hv3, if_neg hv3]
      rfl

end

/-! ### The journals that a commit writes -/

namespace Transaction

variable {ext : Externals} {T : Transaction ext} {es : List Entry} {fs : Fs}

theorem validateJournalChecked_record {state : JournalState} (hes : es.map Entry.slot = T.slots)
    (hinst : ∀ e ∈ es, e.inst.isSome = true → e.slot.writes = true)
    (hlen : T.nonce + T.slots.length ≤ 2 ^ 64) :
    validateJournalChecked ext.sha256Bytes (T.record state es) (.ofPath T.journal) = .ok () := by
  have hcount : es.length = T.slots.length := by rw [← hes, List.length_map]
  rw [validateJournalChecked_eq, validateJournal_record hes hinst]
  · rfl
  · change T.nonce + (operations ext es).length ≤ 2 ^ 64
    rw [operations, List.length_map, hcount]
    exact hlen

/-- What the journal's name holds is a valid journal. -/
def HoldsValid (ext : Externals) (journal : Path) (fs : Fs) : Prop :=
  ∀ f, fs.get journal = some (.file f) → ∃ j, parseJournal ext f.bytes = .ok j ∧
    validateJournalChecked ext.sha256Bytes j (.ofPath journal) = .ok ()

theorem Visible.holdsValid {j : Journal} (h : T.Visible j fs)
    (hvalid : validateJournalChecked ext.sha256Bytes j (.ofPath T.journal) = .ok ()) :
    HoldsValid ext T.journal fs := by
  intro f hf
  obtain ⟨f', hf', hparse⟩ := h
  obtain rfl : f' = f := by simpa using hf'.symm.trans hf
  exact ⟨j, hparse, hvalid⟩

theorem Pending.holdsValid {C : Prop} (h : T.Pending C fs)
    (hlen : T.nonce + T.slots.length ≤ 2 ^ 64) : HoldsValid ext T.journal fs := by
  rcases h with h | ⟨es, h⟩
  · intro f hf
    rw [h.journal] at hf
    cases hf
  · exact h.journal.holdsValid
      (validateJournalChecked_record h.entries (writes_of_kept h.kept) hlen)

theorem Committed.holdsValid (h : T.Committed es fs) (hlen : T.nonce + T.slots.length ≤ 2 ^ 64) :
    HoldsValid ext T.journal fs :=
  h.journal.holdsValid (validateJournalChecked_record h.entries
    (fun e he hi => (h.recorded e he).isSome.symm.trans hi) hlen)

/-- A commit keeps its transaction pending until it is committed. -/
theorem commit_until_committed (fail : Bool) (hext : ext.Faithful) (h : T.Resting False fs)
    (hstage : fs.get T.stage = none) :
    IoSafe fail (fun s => ∃ es, T.Committed es s)
      (fun _ _ s => T.Pending False s ∨ ∃ es, T.Committed es s)
      (fun _ s => T.Pending False s) (commit ext (.ofPath T.journal) T.nonce
        (T.slots.map (Slot.change ext.sha256Bytes))) fs :=
  commit_safe ⟨fun _ hs _ _ => .inl (.inl hs), fun es _ hs _ _ => .inl (.inr ⟨es, hs⟩),
    fun es _ hs _ _ _ => .inr ⟨es, hs⟩, fun _ _ hs => hs,
    fun es _ hs _ => IoSafe.of_until ⟨es, hs⟩, fun _ es _ _ hs => IoSafe.of_until ⟨es, hs⟩⟩
    hext (fun h => h.elim) (fun h => h.elim) h hstage

end Transaction

section

variable {ext : Externals} {fs : Fs} {dir : Path} {leaf : Name} {nonce : ℕ}
  {changes : List PlannedChange}

/-- Up to the moment at which the committed journal becomes visible, and at it, the journal on disk
is valid, whatever primitives fail. -/
theorem commit_holdsValid (hext : ext.Faithful) (hplan : Planned ext fs dir leaf nonce changes)
    (hlen : nonce + changes.length ≤ 2 ^ 64) {env : ℕ → Choice} {n : ℕ}
    (hn : ∀ m < n, visibleState ext (dir ++ [leaf])
      (commitStopped ext dir leaf nonce changes env m fs).2 ≠ some .committed) :
    Transaction.HoldsValid ext (dir ++ [leaf])
      (commitStopped ext dir leaf nonce changes env n fs).2 := by
  obtain ⟨T, hT⟩ := hplan.exists_transaction
  have hcount : T.nonce + T.slots.length ≤ 2 ^ 64 := by
    rw [hT.nonce_eq, hT.length]
    exact hlen
  have hany : ∀ k, permits true (env k) := fun _ _ => rfl
  have hsafe := Transaction.commit_until_committed true hext
    (hT.resting hplan fun hf => hf.elim) (by rw [hT.stage, hplan.journal_stage])
  have hstop := Machine.Safe.stop hsafe hany n
  rw [← hT.commitStopped_eq] at hstop
  rw [← hT.journal] at hn ⊢
  rcases hstop with ⟨m, hm, es, hcommitted⟩ | ⟨r, -, hpending⟩ | ⟨-, -, -, hpending | ⟨es, hcommitted⟩⟩
  · rw [← hT.commitStopped_eq] at hcommitted
    -- a committed journal that is visible earlier is excluded
    obtain rfl : m = n := by
      by_contra hne
      exact hn m (by omega) hcommitted.journal.visibleState
    exact hcommitted.holdsValid hcount
  · exact hpending.holdsValid hcount
  · exact hpending.holdsValid hcount
  · exact hcommitted.holdsValid hcount

end

/-! ### The validation of journals -/

section

variable {sha256Bytes : Bytes → Sha256Digest} {modeAware : Bool} {scope : PathBuf} {nonce : ℕ}

theorem validateOperationsChecked_ends {index : ℕ} {targets : List PathBuf} {keys : List Bytes}
    {operations : List JournalOperation} :
    validateOperationsChecked sha256Bytes modeAware scope nonce index targets keys operations ≠
      .error .diverges := by
  induction operations generalizing index targets keys with
  | nil => exact fun h => by cases h
  | cons operation rest ih =>
    rw [validateOperationsChecked]
    cases hcheck : checkOperation modeAware scope targets keys operation with
    | error e =>
      rw [validateOperationChecked_of_error hcheck]
      exact fun h => by cases h
    | ok found =>
      obtain ⟨parent, leaf, key⟩ := found
      rw [validateOperationChecked_of_check hcheck]
      split_ifs with hlt hnames
      · exact ih
      · exact fun h => by cases h
      · exact fun h => by cases h

theorem validateJournalChecked_returns_iff {journal : Journal} {journalPath : PathBuf} :
    (validateJournalChecked sha256Bytes journal journalPath).Returns ↔
      validateJournalChecked sha256Bytes journal journalPath ≠ .error .panic := by
  have hends : validateJournalChecked sha256Bytes journal journalPath ≠ .error .diverges := by
    rw [validateJournalChecked]
    cases journal.modeAware with
    | error e => exact fun h => by cases h
    | ok modeAware =>
      cases journalScope journalPath with
      | error e => exact fun h => by cases h
      | ok scope => exact validateOperationsChecked_ends
  constructor
  · rintro (⟨u, h⟩ | ⟨e, h⟩) hpanic
    · rw [h] at hpanic
      cases hpanic
    · rw [h] at hpanic
      cases hpanic
  · intro hpanic
    cases h : validateJournalChecked sha256Bytes journal journalPath with
    | ok u => exact .inl ⟨u, rfl⟩
    | error fault =>
      cases fault with
      | error e => exact .inr ⟨e, rfl⟩
      | panic => exact absurd h hpanic
      | diverges => exact absurd h hends

end

/-- Two operations that do nothing, under the greatest nonce. -/
def greatestNonce : Journal where
  schema := "aros-publication-journal-v3"
  nonce := 2 ^ 64 - 1
  state := .prepared
  operations := [⟨.ofPath [ascii "a"], none, none, ⟨1, 2⟩, none, none, none, none, none, none⟩,
    ⟨.ofPath [ascii "b"], none, none, ⟨1, 2⟩, none, none, none, none, none, none⟩]

end ArosTools
