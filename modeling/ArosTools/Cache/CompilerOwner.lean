import ArosTools.Cache.CompilerRoot

/-!
# Claiming a managed root

`Keeps i` is what the calls of one program may do to a root, and `Consistent` is what holds of the
root at any time. A program that holds the preparation lock knows exactly what stands in the root
(`Claiming`), because the others leave it alone.

* `sound_publish` : a publication under the preparation lock.
* `looks_load` : loading a root only looks at it.
* `sound_prepare` : preparing a root beside any other programs.
-/

namespace ArosTools

namespace CompilerCache

open Pool

/-! ### What a program may do to a root -/

/-- What the calls of one program leave as it is. -/
structure Keeps (i : ℕ) (s s' : Root) : Prop where
  isPrivate : s'.isPrivate = s.isPrivate
  present : s.present = true → s'.present = true
  control : s.control = true → s'.control = true
  version : s.version = true → s'.version = true
  prepareLock : s.prepareLock = true → s'.prepareLock = true
  preparer : ∀ j, j ≠ i → s.preparer = some j → s'.preparer = some j
  data : ∀ n, s.data = some n → s'.data = some n
  claimed : s.preparer ≠ some i → s'.data = s.data ∧ ∀ file, s'.slot file = s.slot file
  target : ∀ file x, (s.slot file).target = some x → (s'.slot file).target = some x
  done : s.ownership.target ≠ none → s'.configuration = s.configuration

/-- What holds of a root at any time. -/
structure Consistent (s : Root) : Prop where
  unclaimed : s.data = none → ∀ file, s.slot file = {}
  holder : ∀ file i, (s.slot file).holder = some i → s.preparer = some i
  released : s.ownership.target ≠ none → s.configuration.holder = none

/-- Sound programs on a root. -/
abbrev SoundOn {α : Type} (i : ℕ) (Q : Except LifecycleError α → Root → Prop) (task : Task α)
    (A : Root → Prop) : Prop :=
  Sound pool Consistent Keeps i Q task A

variable {i : ℕ} {s s' : Root} {α β : Type} {A : Root → Prop}
  {Q : Except LifecycleError α → Root → Prop}

theorem Keeps.refl (i : ℕ) (s : Root) : Keeps i s s :=
  ⟨rfl, id, id, id, id, fun _ _ => id, fun _ => id, fun _ => ⟨rfl, fun _ => rfl⟩, fun _ _ => id,
    fun _ => rfl⟩

@[simp] theorem slot_setSlot (s : Root) (slot : Slot) (file other : ManagedFile) :
    (s.setSlot slot file).slot other = if other = file then slot else s.slot other := by
  cases file <;> cases other <;> rfl

theorem setSlot_configuration (s : Root) (slot : Slot) (file : ManagedFile) :
    (s.setSlot slot file).configuration =
      if ManagedFile.configuration = file then slot else s.configuration :=
  slot_setSlot s slot file .configuration

theorem setSlot_ownership (s : Root) (slot : Slot) (file : ManagedFile) :
    (s.setSlot slot file).ownership =
      if ManagedFile.ownership = file then slot else s.ownership :=
  slot_setSlot s slot file .ownership

theorem setSlot_other (s : Root) (slot : Slot) (file : ManagedFile) :
    (s.setSlot slot file).isPrivate = s.isPrivate ∧ (s.setSlot slot file).present = s.present ∧
      (s.setSlot slot file).control = s.control ∧ (s.setSlot slot file).version = s.version ∧
      (s.setSlot slot file).prepareLock = s.prepareLock ∧
      (s.setSlot slot file).preparer = s.preparer ∧ (s.setSlot slot file).data = s.data := by
  cases file <;> exact ⟨rfl, rfl, rfl, rfl, rfl, rfl, rfl⟩

/-- The end of a program. -/
theorem exit_keeps (i : ℕ) (s : Root) (h : Consistent s) :
    Consistent (exitRoot i s) ∧ Keeps i s (exitRoot i s) := by
  have hslot : ∀ file, (exitRoot i s).slot file = { s.slot file with
      holder := if (s.slot file).holder = some i then none else (s.slot file).holder } := by
    intro file
    cases file <;> rfl
  have hsame : ∀ file, (s.slot file).holder ≠ some i → (exitRoot i s).slot file = s.slot file := by
    intro file hfile
    rw [hslot file, if_neg hfile]
  constructor
  · constructor
    case unclaimed =>
      intro hdata file
      have hfree : s.slot file = {} := h.unclaimed hdata file
      rw [hsame file (by rw [hfree]; exact nofun), hfree]
    case holder =>
      intro file j hj
      rw [hslot file] at hj
      dsimp only at hj
      split_ifs at hj with hi
      have hpreparer := h.holder file j hj
      have hne : s.preparer ≠ some i := by
        rw [hpreparer]
        rintro ⟨⟩
        exact hi hj
      change (if s.preparer = some i then none else s.preparer) = some j
      rw [if_neg hne, hpreparer]
    case released =>
      intro htarget
      have hnone := h.released htarget
      change (if s.configuration.holder = some i then none else s.configuration.holder) = none
      rw [hnone]
      simp
  · refine ⟨rfl, id, id, id, id, fun j hj hpreparer => ?_, fun _ => id, fun hpreparer => ?_,
      fun file x hx => ?_, fun htarget => ?_⟩
    · change (if s.preparer = some i then none else s.preparer) = some j
      rw [hpreparer, if_neg (fun heq => hj (Option.some.inj heq))]
    · exact ⟨rfl, fun file => hsame file fun hholder => hpreparer (h.holder file i hholder)⟩
    · rw [hslot file]
      exact hx
    · have hnone := h.released htarget
      exact hsame .configuration (by
        change s.configuration.holder ≠ some i
        rw [hnone]
        exact nofun)

/-! ### Rules for programs -/

/-- One call, after which the program goes on from `B`. -/
theorem SoundOn.perform {op : Call β} {f : β → Task α} (hA : Stable Consistent Keeps i A)
    (h : ∀ s, Consistent s → A s → Consistent (answer i s op).2 ∧ Keeps i s (answer i s op).2 ∧
      ∃ B : Root → Prop, B (answer i s op).2 ∧ SoundOn i Q (f (answer i s op).1) B) :
    SoundOn i Q (CompilerCache.perform op >>= f) A :=
  ⟨hA, fun s hs ha _ => h s hs ha⟩

/-- A failure. -/
theorem SoundOn.throw {e : LifecycleError} (hA : Stable Consistent Keeps i A)
    (h : ∀ s, Consistent s → A s → Q (.error e) s) : SoundOn i Q (throw e : Task α) A := ⟨hA, h⟩

theorem SoundOn.pure {a : α} (hA : Stable Consistent Keeps i A)
    (h : ∀ s, Consistent s → A s → Q (.ok a) s) : SoundOn i Q (pure a : Task α) A := ⟨hA, h⟩

/-- One program after another, which goes on from where the first one succeeds. -/
theorem SoundOn.bind {x : Task β} {f : β → Task α} {R : Except LifecycleError β → Root → Prop}
    (hx : SoundOn i R x A) (hf : ∀ b, SoundOn i Q (f b) (R (.ok b)))
    (herror : ∀ e, Stable Consistent Keeps i (R (.error e)))
    (hQ : ∀ e s, Consistent s → R (.error e) s → Q (.error e) s) : SoundOn i Q (x >>= f) A := by
  refine Sound.bind hx fun result => ?_
  cases result with
  | ok b => exact hf b
  | error e => exact ⟨herror e, hQ e⟩

/-- A value that may be an error. -/
theorem SoundOn.lift {x : Except LifecycleError β} {f : β → Task α}
    (hA : Stable Consistent Keeps i A) (hf : ∀ b, x = .ok b → SoundOn i Q (f b) A)
    (hQ : ∀ e s, x = .error e → Consistent s → A s → Q (.error e) s) :
    SoundOn i Q ((liftM x : Task β) >>= f) A := by
  cases x with
  | ok b => exact hf b rfl
  | error e => exact ⟨hA, fun s hs ha => hQ e s rfl hs ha⟩

/-! ### Under the preparation lock -/

/-- A program holds the preparation lock of a root and knows what stands in it. -/
structure Claiming (i : ℕ) (data : Option ℕ) (slots : ManagedFile → Slot) (s : Root) : Prop where
  isPrivate : s.isPrivate = true
  present : s.present = true
  control : s.control = true
  version : s.version = true
  prepareLock : s.prepareLock = true
  preparer : s.preparer = some i
  data_eq : s.data = data
  slot_eq : ∀ file, s.slot file = slots file

theorem Claiming.stable (i : ℕ) (data : Option ℕ) (slots : ManagedFile → Slot) :
    Stable Consistent Keeps i (Claiming i data slots) := by
  intro j hj s s' _ hkeeps h
  have hother : s.preparer ≠ some j := by
    rw [h.preparer]
    exact fun heq => hj (Option.some.inj heq).symm
  obtain ⟨hdata, hslots⟩ := hkeeps.claimed hother
  exact ⟨hkeeps.isPrivate.trans h.isPrivate, hkeeps.present h.present, hkeeps.control h.control,
    hkeeps.version h.version, hkeeps.prepareLock h.prepareLock, hkeeps.preparer i hj.symm h.preparer, hdata.trans h.data_eq,
    fun file => (hslots file).trans (h.slot_eq file)⟩

/-- A file that a program under the lock may change to `slot`. -/
structure MayChange (i : ℕ) (slots : ManagedFile → Slot) (file : ManagedFile) (slot : Slot) :
    Prop where
  target : ∀ x, (slots file).target = some x → slot.target = some x
  holder : slot.holder = none ∨ slot.holder = some i
  configuration : file = .configuration → (slots .ownership).target = none
  ownership : file = .ownership → (slots .configuration).holder = none

/-- A change of one file under the lock. -/
theorem Claiming.change {slots : ManagedFile → Slot} {file : ManagedFile} {slot : Slot}
    (hs : Consistent s) (h : Claiming i (some i) slots s) (hmay : MayChange i slots file slot) :
    Consistent (s.setSlot slot file) ∧ Keeps i s (s.setSlot slot file) ∧
      Claiming i (some i) (Function.update slots file slot) (s.setSlot slot file) := by
  obtain ⟨hprivate, hpresent, hcontrol, hversion, hlock, hpreparer, hdata⟩ :=
    setSlot_other s slot file
  refine ⟨⟨fun hnone => ?_, fun other j hj => ?_, fun htarget => ?_⟩,
    ⟨hprivate, fun h => by rw [hpresent, h], fun h => by rw [hcontrol, h],
      fun h => by rw [hversion, h], fun h => by rw [hlock, h], fun j _ hj => by rw [hpreparer, hj],
      fun n hn => by rw [hdata, hn], fun hne => absurd h.preparer hne, fun other x hx => ?_,
      fun htarget => ?_⟩,
    ⟨hprivate.trans h.isPrivate, hpresent.trans h.present, hcontrol.trans h.control,
      hversion.trans h.version, hlock.trans h.prepareLock, hpreparer.trans h.preparer, hdata.trans h.data_eq,
      fun other => ?_⟩⟩
  · rw [hdata, h.data_eq] at hnone
    cases hnone
  · rw [slot_setSlot] at hj
    rw [hpreparer]
    split_ifs at hj with hother
    · rcases hmay.holder with hnone | hsome
      · rw [hnone] at hj
        cases hj
      · rw [hsome] at hj
        rw [h.preparer, hj]
    · exact hs.holder other j hj
  · rw [setSlot_configuration]
    rw [setSlot_ownership] at htarget
    split_ifs with hconf
    · -- The marker has not been published yet when the configuration is.
      subst hconf
      rw [if_neg (by simp)] at htarget
      exact absurd ((congrArg Slot.target (h.slot_eq .ownership)).trans (hmay.configuration rfl))
        htarget
    · split_ifs at htarget with hown
      · exact (congrArg Slot.holder (h.slot_eq .configuration)).trans (hmay.ownership hown.symm)
      · exact hs.released htarget
  · rw [slot_setSlot]
    split_ifs with hother
    · subst hother
      rw [h.slot_eq other] at hx
      exact hmay.target x hx
    · exact hx
  · rw [setSlot_configuration]
    split_ifs with hconf
    · subst hconf
      exact absurd ((congrArg Slot.target (h.slot_eq .ownership)).trans (hmay.configuration rfl))
        htarget
    · rfl
  · rw [slot_setSlot]
    by_cases hother : other = file
    · rw [if_pos hother, hother, Function.update_self]
    · rw [if_neg hother, Function.update_of_ne hother, h.slot_eq other]

/-- A call under the lock that changes one file. -/
theorem SoundOn.change {slots : ManagedFile → Slot} {file : ManagedFile} (slot : Slot) {b : β}
    {op : Call β} {f : β → Task α} (hmay : MayChange i slots file slot)
    (hop : ∀ s, s.slot file = slots file → answer i s op = (b, s.setSlot slot file))
    (hf : SoundOn i Q (f b) (Claiming i (some i) (Function.update slots file slot))) :
    SoundOn i Q (CompilerCache.perform op >>= f) (Claiming i (some i) slots) :=
  .perform (Claiming.stable _ _ _) fun s hs h => by
    obtain ⟨hconsistent, hkeeps, hclaiming⟩ := h.change hs hmay
    rw [hop s (h.slot_eq file)]
    exact ⟨hconsistent, hkeeps, _, hclaiming, hf⟩

/-- A call under the lock that only looks. -/
theorem SoundOn.see {data : Option ℕ} {slots : ManagedFile → Slot} {b : β} {op : Call β}
    {f : β → Task α} (hop : ∀ s, Claiming i data slots s → answer i s op = (b, s))
    (hf : SoundOn i Q (f b) (Claiming i data slots)) :
    SoundOn i Q (CompilerCache.perform op >>= f) (Claiming i data slots) :=
  .perform (Claiming.stable _ _ _) fun s hs h => by
    rw [hop s h]
    exact ⟨hs, Keeps.refl i s, _, h, hf⟩

/-- A file as a publication leaves it. -/
def published (i : ℕ) (contents : Bytes) : Slot := { lockFile := true, target := some (i, contents) }

/-- A file that has not been published may be changed, and a file that has only in what stands
beside it. -/
theorem mayChange_of {slots : ManagedFile → Slot} {file : ManagedFile} {slot slot' : Slot}
    (hfile : slots file = slot) (htarget : slot.target = none ∨ slot'.target = slot.target)
    (hholder : slot'.holder = none ∨ slot'.holder = some i)
    (hconf : file = .configuration → (slots .ownership).target = none)
    (hown : file = .ownership → (slots .configuration).holder = none) :
    MayChange i slots file slot' := by
  refine ⟨fun x hx => ?_, hholder, hconf, hown⟩
  rw [hfile] at hx
  rcases htarget with hnone | hsame
  · rw [hnone] at hx
    cases hx
  · rw [hsame, hx]

/-- The change of one file, with the others as they are. -/
theorem SoundOn.changeTo {slots : ManagedFile → Slot} {file : ManagedFile} {old slot : Slot} {b : β}
    {op : Call β} {f : β → Task α}
    (hop : ∀ s, s.slot file = old → answer i s op = (b, s.setSlot slot file))
    (htarget : old.target = none ∨ slot.target = old.target)
    (hholder : slot.holder = none ∨ slot.holder = some i)
    (hconf : file = .configuration → (slots .ownership).target = none)
    (hown : file = .ownership → (slots .configuration).holder = none)
    (hf : SoundOn i Q (f b) (Claiming i (some i) (Function.update slots file slot))) :
    SoundOn i Q (CompilerCache.perform op >>= f)
      (Claiming i (some i) (Function.update slots file old)) := by
  have hself : Function.update slots file old file = old := Function.update_self _ _ _
  refine .change slot (mayChange_of hself htarget hholder (fun heq => ?_) (fun heq => ?_))
    (fun s hs => hop s (hs.trans hself)) ?_
  · rw [Function.update_of_ne (by rw [heq]; exact nofun)]
    exact hconf heq
  · rw [Function.update_of_ne (by rw [heq]; exact nofun)]
    exact hown heq
  · rw [Function.update_idem]
    exact hf

/-- **A publication under the preparation lock.** It succeeds, and the rest of the program goes on
from there. -/
theorem sound_publish {slots : ManagedFile → Slot} {file : ManagedFile} {action : String}
    {contents : Bytes} {f : Unit → Task α} (hnew : slots file = {})
    (hconf : file = .configuration → (slots .ownership).target = none)
    (hown : file = .ownership → (slots .configuration).holder = none)
    (hf : SoundOn i Q (f ())
      (Claiming i (some i) (Function.update slots file (published i contents)))) :
    SoundOn i Q (publishAtomicFile action file contents >>= f) (Claiming i (some i) slots) := by
  have hslots : slots = Function.update slots file {} := by rw [← hnew, Function.update_eq_self]
  have hstep : ∀ (op : Call Unit) {old : Slot} (slot : Slot) {f : Unit → Task α},
      (∀ s, s.slot file = old → answer i s op = ((), s.setSlot slot file)) →
      (old.target = none ∨ slot.target = old.target) →
      (slot.holder = none ∨ slot.holder = some i) →
      SoundOn i Q (f ()) (Claiming i (some i) (Function.update slots file slot)) →
      SoundOn i Q (CompilerCache.perform op >>= f)
        (Claiming i (some i) (Function.update slots file old)) :=
    fun _ _ _ _ hop htarget hholder hf => .changeTo hop htarget hholder hconf hown hf
  have hsee : ∀ {β : Type} (op : Call β) (b : β) {old : Slot} {f : β → Task α},
      (∀ s, s.slot file = old → answer i s op = (b, s)) →
      SoundOn i Q (f b) (Claiming i (some i) (Function.update slots file old)) →
      SoundOn i Q (CompilerCache.perform op >>= f)
        (Claiming i (some i) (Function.update slots file old)) :=
    fun _ _ _ _ hop hf =>
      .see (fun s hs => hop s ((hs.slot_eq file).trans (Function.update_self _ _ _))) hf
  rw [hslots]
  -- What stands beside the file after each call: the lock, its holder, the stage of the journal,
  -- the journal, the stage of the file and the file.
  refine hstep (.lockForJournal file) ⟨true, some i, false, none, none, none⟩
    (fun s hs => by simp [answer, hs]) (.inl rfl) (.inr rfl) ?_
  refine hstep (.recoverIfNeeded file) ⟨true, some i, false, none, none, none⟩
    (fun s hs => by simp [answer, hs]) (.inl rfl) (.inr rfl) ?_
  refine hsee (.targetExists file) false (fun s hs => by simp [answer, hs]) ?_
  refine hstep (.writeJournalStage file) ⟨true, some i, true, none, none, none⟩
    (fun s hs => by simp [answer, hs]) (.inl rfl) (.inr rfl) ?_
  refine hstep (.renameJournalStage file .prepared) ⟨true, some i, false, some .prepared, none, none⟩
    (fun s hs => by simp [answer, hs]) (.inl rfl) (.inr rfl) ?_
  refine hstep (.writeStage file contents)
    ⟨true, some i, false, some .prepared, some contents, none⟩
    (fun s hs => by simp [answer, hs]) (.inl rfl) (.inr rfl) ?_
  refine hstep (.writeJournalStage file) ⟨true, some i, true, some .prepared, some contents, none⟩
    (fun s hs => by simp [answer, hs]) (.inl rfl) (.inr rfl) ?_
  refine hstep (.renameJournalStage file .prepared)
    ⟨true, some i, false, some .prepared, some contents, none⟩
    (fun s hs => by simp [answer, hs]) (.inl rfl) (.inr rfl) ?_
  refine hstep (.writeJournalStage file) ⟨true, some i, true, some .prepared, some contents, none⟩
    (fun s hs => by simp [answer, hs]) (.inl rfl) (.inr rfl) ?_
  refine hstep (.renameJournalStage file .committed)
    ⟨true, some i, false, some .committed, some contents, none⟩
    (fun s hs => by simp [answer, hs]) (.inl rfl) (.inr rfl) ?_
  refine @SoundOn.changeTo i α _ Q slots file _
    ⟨true, some i, false, some .committed, none, some (i, contents)⟩ (.ok ())
    (.renameNoclobber file) _ (fun s hs => by simp [answer, hs]) (.inl rfl) (.inr rfl) hconf hown ?_
  refine hsee (.readTarget file) (some contents) (fun s hs => by simp [answer, hs]) ?_
  change SoundOn i Q ((if some contents ≠ some contents then _ else _) >>= f) _
  rw [if_neg (not_not_intro rfl)]
  refine hstep (.cleanupCommitted file)
    ⟨true, some i, false, some .committed, none, some (i, contents)⟩
    (fun s hs => by simp [answer, hs]) (.inr rfl) (.inr rfl) ?_
  refine hstep (.removeJournal file) ⟨true, some i, false, none, none, some (i, contents)⟩
    (fun s hs => by simp [answer, hs]) (.inr rfl) (.inr rfl) ?_
  exact hstep (.unlockJournal file) (published i contents)
    (fun s hs => by simp [answer, hs, published]) (.inr rfl) (.inl rfl) hf

/-! ### Programs that only look -/

/-- Every call of a program leaves the root as it is. -/
def Looks : Prog Call α → Prop
  | .ret _ => True
  | .call op k => (∀ i s, (answer i s op).2 = s) ∧ ∀ b, Looks (k b)

theorem Looks.bind {p : Prog Call β} {f : β → Prog Call α} (hp : Looks p) (hf : ∀ b, Looks (f b)) :
    Looks (p >>= f) := by
  induction p with
  | ret b => exact hf b
  | call op k ih => exact ⟨hp.1, fun b => ih b (hp.2 b)⟩

theorem Looks.taskBind {x : Task β} {f : β → Task α} (hx : Looks x) (hf : ∀ b, Looks (f b)) :
    Looks (x >>= f : Task α) := by
  refine Looks.bind hx fun result => ?_
  cases result with
  | ok b => exact hf b
  | error e => trivial

theorem Looks.performIo {action : String} {op : Call (Except IoFailure β)}
    (hop : ∀ i s, (answer i s op).2 = s) : Looks (performIo action op) := by
  refine ⟨hop, fun b => ?_⟩
  cases b <;> trivial

theorem Looks.lift (x : Except LifecycleError β) : Looks (liftM x : Task β) := by
  cases x <;> trivial

/-- A program that only looks may run at any time. -/
theorem Looks.sound {p : Prog Call α} (h : Looks p) {R : α → Root → Prop}
    (hA : Stable Consistent Keeps i A) (hR : ∀ a s, Consistent s → A s → R a s) :
    Sound pool Consistent Keeps i R p A := by
  induction p with
  | ret a => exact ⟨hA, hR a⟩
  | call op k ih =>
    refine ⟨hA, fun s hs ha _ => ?_⟩
    change Consistent (answer i s op).2 ∧ Keeps i s (answer i s op).2 ∧ _
    have hsame : (pool.machine.step op i s).2 = s := h.1 i s
    rw [hsame, h.1 i s]
    exact ⟨hs, Keeps.refl i s, A, ha, ih _ (h.2 _)⟩

theorem looks_directoryEntryNames (maxEntries : ℕ) : Looks (directoryEntryNames maxEntries) := by
  refine ⟨fun _ _ => rfl, fun first => ?_⟩
  cases first with
  | error e => trivial
  | ok first =>
    refine ⟨fun _ _ => rfl, fun second => ?_⟩
    cases second <;> trivial

theorem looks_validateEntry (backend : CompilerBackend) (entry : Entry) :
    Looks (validateEntry backend entry) := by
  unfold validateEntry
  split_ifs
  · trivial
  · refine ⟨fun _ _ => rfl, fun kind => ?_⟩
    rcases kind with _ | (_ | _ | _) <;> trivial
  · refine ⟨fun _ _ => rfl, fun kind => ?_⟩
    rcases kind with _ | (_ | _ | _) <;> trivial
  · trivial

theorem looks_forM (backend : CompilerBackend) (entries : List Entry) :
    Looks (entries.forM (validateEntry backend) : Task Unit) := by
  induction entries with
  | nil => trivial
  | cons entry entries ih => exact (looks_validateEntry backend entry).taskBind fun _ => ih

section

variable {sha256Bytes : Bytes → Sha256Digest} {parseOwnership : Bytes → Option OwnershipRecord}
  {root : Bytes} {backend : CompilerBackend}

theorem looks_validateConfiguration (ownership : OwnershipRecord) :
    Looks (validateConfiguration sha256Bytes root backend ownership) := by
  refine (Looks.performIo fun _ _ => rfl).taskBind fun bytes => ?_
  cases bytes with
  | none => trivial
  | some bytes =>
    refine (Looks.lift _).taskBind fun expected => ?_
    split_ifs <;> trivial

/-- Loading a root only looks at it. -/
theorem looks_load : Looks (loadManagedCompilerCache sha256Bytes parseOwnership root backend) := by
  refine (Looks.lift _).taskBind fun _ => (Looks.lift _).taskBind fun _ => ?_
  refine ⟨fun _ _ => rfl, fun kind => ?_⟩
  rcases kind with _ | (_ | _ | _)
  · trivial
  · refine (Looks.performIo fun _ _ => rfl).taskBind fun _ =>
      (Looks.performIo fun _ _ => rfl).taskBind fun bytes => ?_
    cases bytes with
    | none => trivial
    | some bytes =>
      refine (Looks.lift _).taskBind fun ownership => Looks.taskBind ?_ fun _ =>
        (looks_validateConfiguration ownership).taskBind fun _ =>
          (Looks.performIo fun _ _ => rfl).taskBind fun _ => trivial
      refine (looks_directoryEntryNames _).taskBind fun entries => ?_
      cases entries with
      | error e => trivial
      | ok entries => exact looks_forM backend entries
  · trivial
  · trivial

/-! ### Preparing a root -/

/-- A call that may fail and only looks; the program goes on from what it learned. -/
theorem SoundOn.io {action : String} {op : Call (Except IoFailure β)} {f : β → Task α}
    (hA : Stable Consistent Keeps i A) (hop : ∀ s, (answer i s op).2 = s)
    (hf : ∀ s b, Consistent s → A s → (answer i s op).1 = .ok b →
      ∃ B : Root → Prop, B s ∧ SoundOn i Q (f b) B)
    (hQ : ∀ e s, Consistent s → A s → Q (.error e) s) :
    SoundOn i Q (performIo action op >>= f) A := by
  refine ⟨hA, fun s hs ha _ => ?_⟩
  have hsame : (pool.machine.step op i s).2 = s := hop s
  rw [hsame]
  refine ⟨hs, Keeps.refl i s, ?_⟩
  have hstep : (pool.machine.step op i s).1 = (answer i s op).1 := rfl
  rw [hstep]
  cases hanswer : (answer i s op).1 with
  | ok b => exact hf s b hs ha hanswer
  | error e => exact ⟨A, ha, hA, hQ _⟩

/-- What `entryNamesFor` makes of its second reading. -/
theorem sound_entryNames_again {action : String} {f : List Entry → Task α} {entries : List Entry}
    {s : Root} (hA : Stable Consistent Keeps i A) (hs : A s)
    (hf : ∃ B : Root → Prop, B s ∧ SoundOn i Q (f s.entries) B)
    (hQ : ∀ e s, Consistent s → A s → Q (.error e) s) :
    ∃ B : Root → Prop, B s ∧ SoundOn i Q
      ((match (if entries = s.entries then .ok s.entries else .error .changed :
          Except IoFailure (List Entry)) with
        | .ok entries => pure entries
        | .error source => throw (.io action source)) >>= f) B := by
  by_cases hagree : entries = s.entries
  · rw [if_pos hagree]
    exact hf
  · rw [if_neg hagree]
    exact ⟨A, hs, hA, hQ _⟩

/-- Reading the names in the root; the program goes on from what it learned. -/
theorem sound_entryNames {action : String} {maxEntries : ℕ} {f : List Entry → Task α}
    (hA : Stable Consistent Keeps i A)
    (hf : ∀ s, Consistent s → A s → ∃ B : Root → Prop, B s ∧ SoundOn i Q (f s.entries) B)
    (hQ : ∀ e s, Consistent s → A s → Q (.error e) s) :
    SoundOn i Q (entryNamesFor action maxEntries >>= f) A := by
  have hanswer : ∀ s, pool.machine.step (.readEntryNames maxEntries) i s =
      (if s.entries.length ≤ maxEntries then .ok s.entries else .error .tooManyEntries, s) :=
    fun _ => rfl
  refine ⟨hA, fun s hs ha _ => ?_⟩
  rw [hanswer s]
  refine ⟨hs, Keeps.refl i s, A, ha, ?_⟩
  split_ifs
  · refine ⟨hA, fun s' hs' ha' _ => ?_⟩
    rw [hanswer s']
    refine ⟨hs', Keeps.refl i s', ?_⟩
    split_ifs
    · exact sound_entryNames_again hA ha' (hf s' hs' ha') hQ
    · exact ⟨A, ha', hA, hQ _⟩
  · exact ⟨hA, hQ _⟩

/-- The root of `backend` after program `i` has claimed it. -/
structure Owned (sha256Bytes : Bytes → Sha256Digest) (root : Bytes) (i : ℕ)
    (backend : CompilerBackend) (configuration : Bytes) (s : Root) : Prop where
  absolute : resolveExplicitRoot root = .ok ()
  short : validateBackendPathConstraints root backend = .ok ()
  contents : configurationContents root backend = .ok configuration
  isPrivate : s.isPrivate = true
  present : s.present = true
  control : s.control = true
  data : s.data = some i
  configuration_eq : s.configuration = published i configuration
  ownership_eq : s.ownership.target =
    some (i, (ownershipRecord sha256Bytes root backend configuration).encode)

/-- A program that holds the preparation lock. -/
structure Holding (i : ℕ) (s : Root) : Prop where
  isPrivate : s.isPrivate = true
  present : s.present = true
  control : s.control = true
  version : s.version = true
  prepareLock : s.prepareLock = true
  preparer : s.preparer = some i

theorem Holding.stable (i : ℕ) : Stable Consistent Keeps i (Holding i) := by
  intro j hj s s' _ hkeeps h
  exact ⟨hkeeps.isPrivate.trans h.isPrivate, hkeeps.present h.present, hkeeps.control h.control,
    hkeeps.version h.version, hkeeps.prepareLock h.prepareLock,
    hkeeps.preparer i hj.symm h.preparer⟩

theorem data_of_entries {s : Root} (h : s.entries = [.control]) : s.data = none := by
  have hmem : Entry.data ∉ s.entries := by rw [h]; simp
  by_contra hdata
  obtain ⟨n, hn⟩ := Option.ne_none_iff_exists'.mp hdata
  exact hmem (by simp [Root.entries, hn])

/-- The data directory is made under the lock. -/
theorem Claiming.makeData {s : Root} (h : Claiming i none (fun _ => {}) s) :
    Consistent (s.make i .data) ∧ Keeps i s (s.make i .data) ∧
      Claiming i (some i) (fun _ => {}) (s.make i .data) := by
  have hdata : (s.make i .data).data = some i := by simp [Root.make, h.data_eq]
  have hslot : ∀ file, (s.make i .data).slot file = s.slot file := by
    intro file
    cases file <;> rfl
  refine ⟨⟨fun hnone => ?_, fun file j hj => ?_, fun htarget => ?_⟩,
    ⟨rfl, id, id, id, id, fun _ _ => id, fun n hn => ?_, fun hne => absurd h.preparer hne,
      fun file x hx => by rw [hslot file]; exact hx, fun _ => rfl⟩,
    ⟨h.isPrivate, h.present, h.control, h.version, h.prepareLock, h.preparer, hdata,
      fun file => (hslot file).trans (h.slot_eq file)⟩⟩
  · rw [hdata] at hnone
    cases hnone
  · rw [hslot file, h.slot_eq file] at hj
    cases hj
  · exact absurd (congrArg Slot.target (h.slot_eq .ownership)) htarget
  · rw [h.data_eq] at hn
    cases hn

/-- **Claiming a root under the preparation lock.** -/
theorem sound_claim (habsolute : resolveExplicitRoot root = .ok ())
    (hshort : validateBackendPathConstraints root backend = .ok ()) :
    SoundOn i (fun result s => ∀ preparation, result = .ok preparation →
      preparation.backend = backend ∧ preparation.dataRoot = dataRoot root ∧
        ∃ configuration, Owned sha256Bytes root i backend configuration s)
      (claimRoot sha256Bytes root backend) (Holding i) := by
  refine .io (Holding.stable i) (fun _ => rfl) (fun s _ hs hA _ => ⟨Holding i, hA, ?_⟩)
    (fun _ _ _ _ _ h => nomatch h)
  refine sound_entryNames (Holding.stable i) (fun s hs hA => ?_) (fun _ _ _ _ _ h => nomatch h)
  by_cases hentries : s.entries = [.control]
  · -- No one has claimed the root, and no one else can while this program holds the lock.
    have hdata := data_of_entries hentries
    refine ⟨Claiming i none (fun _ => {}), ⟨hA.isPrivate, hA.present, hA.control, hA.version,
      hA.prepareLock, hA.preparer, hdata, hs.unclaimed hdata⟩, ?_⟩
    rw [hentries]
    change SoundOn i _ (CompilerCache.perform (.makeDirectory .data) >>= fun _ => _) _
    refine .perform (Claiming.stable _ _ _) fun s hs h => ?_
    obtain ⟨hconsistent, hkeeps, hclaiming⟩ := h.makeData
    refine ⟨hconsistent, hkeeps, _, hclaiming, ?_⟩
    refine .io (Claiming.stable _ _ _) (fun _ => rfl) (fun s _ _ h _ => ⟨_, h, ?_⟩)
      (fun _ _ _ _ _ h => nomatch h)
    refine .lift (Claiming.stable _ _ _) (fun configuration hcontents => ?_)
      (fun _ _ _ _ _ _ h => nomatch h)
    refine sound_publish rfl (fun _ => rfl) (fun _ => rfl) (sound_publish rfl nofun (fun _ => rfl) ?_)
    refine .io (Claiming.stable _ _ _) (fun _ => rfl) (fun s _ _ h _ => ⟨_, h, ?_⟩)
      (fun _ _ _ _ _ h => nomatch h)
    refine .pure (Claiming.stable _ _ _) fun s _ h => ?_
    rintro preparation ⟨⟩
    refine ⟨rfl, rfl, configuration, habsolute, hshort, hcontents, h.isPrivate, h.present, h.control, h.data_eq, ?_, ?_⟩
    · exact h.slot_eq .configuration
    · exact congrArg Slot.target (h.slot_eq .ownership)
  · refine ⟨Holding i, hA, ?_⟩
    rw [if_pos hentries]
    exact .throw (Holding.stable i) (fun _ _ _ _ h => nomatch h)

/-- A change of nothing but directories and lock files that are made. -/
theorem keeps_of_made (i : ℕ) {s : Root} (s' : Root) (hs : Consistent s) (hprivate : s'.isPrivate = s.isPrivate)
    (hpresent : s.present = true → s'.present = true) (hcontrol : s.control = true → s'.control = true)
    (hversion : s.version = true → s'.version = true)
    (hlock : s.prepareLock = true → s'.prepareLock = true) (hpreparer : s'.preparer = s.preparer)
    (hdata : s'.data = s.data) (hslot : ∀ file, s'.slot file = s.slot file) :
    Consistent s' ∧ Keeps i s s' := by
  refine ⟨⟨fun hnone file => ?_, fun file j hj => ?_, fun htarget => ?_⟩,
    ⟨hprivate, hpresent, hcontrol, hversion, hlock, fun j _ hj => hpreparer.trans hj,
      fun n hn => hdata.trans hn, fun _ => ⟨hdata, hslot⟩, fun file x hx => ?_,
      fun _ => hslot .configuration⟩⟩
  · rw [hslot file]
    exact hs.unclaimed (hdata.symm.trans hnone) file
  · rw [hslot file] at hj
    exact hpreparer.trans (hs.holder file j hj)
  · have hown : s'.ownership = s.ownership := hslot .ownership
    have hconf : s'.configuration = s.configuration := hslot .configuration
    rw [hconf]
    exact hs.released (hown ▸ htarget)
  · rw [hslot file]
    exact hx

/-- A program has made some of the directories and the lock file. -/
structure Entering (control version prepareLock : Bool) (s : Root) : Prop where
  isPrivate : s.isPrivate = true
  present : s.present = true
  control : control = true → s.control = true
  version : version = true → s.version = true
  prepareLock : prepareLock = true → s.prepareLock = true

theorem Entering.stable (i : ℕ) (control version prepareLock : Bool) :
    Stable Consistent Keeps i (Entering control version prepareLock) :=
  fun _ _ _ _ _ hkeeps h => ⟨hkeeps.isPrivate.trans h.isPrivate, hkeeps.present h.present,
    fun hc => hkeeps.control (h.control hc), fun hv => hkeeps.version (h.version hv),
    fun hl => hkeeps.prepareLock (h.prepareLock hl)⟩

theorem present_stable (i : ℕ) : Stable Consistent Keeps i fun s => s.present = true :=
  fun _ _ _ _ _ hkeeps h => hkeeps.present h

/-- The preparation lock is taken. -/
theorem Consistent.lockPrepare {s : Root} (hs : Consistent s)
    (hfree : s.preparer = none ∨ s.preparer = some i) :
    Consistent { s with preparer := some i } ∧ Keeps i s { s with preparer := some i } := by
  have hslot : ∀ file, Root.slot { s with preparer := some i } file = s.slot file := by
    intro file
    cases file <;> rfl
  refine ⟨⟨fun hnone file => (hslot file).trans (hs.unclaimed hnone file), fun file j hj => ?_,
    hs.released⟩, ⟨rfl, id, id, id, id, fun j hj hpreparer => ?_, fun _ => id,
      fun _ => ⟨rfl, hslot⟩, fun file x hx => by rw [hslot file]; exact hx, fun _ => rfl⟩⟩
  · rw [hslot file] at hj
    have hpreparer := hs.holder file j hj
    rcases hfree with hnone | hsome
    · rw [hnone] at hpreparer
      cases hpreparer
    · exact hsome.symm.trans hpreparer
  · rcases hfree with hnone | hsome
    · rw [hnone] at hpreparer
      cases hpreparer
    · exact absurd (Option.some.inj (hsome.symm.trans hpreparer)).symm hj

/-- A program enters a root: it takes the preparation lock, or fails. -/
theorem sound_enter :
    SoundOn i (fun result s => result = .ok () → Holding i s) enterRoot (fun _ => True) := by
  have herror : ∀ {C : Root → Prop} (e : LifecycleError) (s : Root), Consistent s → C s →
      (.error e : Except LifecycleError Unit) = .ok () → Holding i s := fun _ _ _ _ h => nomatch h
  change SoundOn i _ (CompilerCache.perform (.makeDirectory .root) >>= fun _ => _) _
  refine .perform Stable.true fun s hs _ => ?_
  obtain ⟨hs', hkeeps⟩ := keeps_of_made i (s.make i .root) hs rfl (fun _ => rfl) id id
    id rfl rfl (fun file => by cases file <;> rfl)
  refine ⟨hs', hkeeps, fun s => s.present = true, rfl, ?_⟩
  refine .io (present_stable i) (fun _ => rfl) (fun s _ _ hpresent hanswer => ?_) herror
  have hprivate : s.isPrivate = true := by
    by_contra hshared
    simp [answer, hshared] at hanswer
  refine ⟨Entering false false false, ⟨hprivate, hpresent, nofun, nofun, nofun⟩, ?_⟩
  refine sound_entryNames (Entering.stable _ _ _ _) (fun s _ hA =>
    ⟨Entering false false false, hA, ?_⟩) herror
  by_cases hentries : s.entries = []
  · rw [hentries]
    change SoundOn i _ (CompilerCache.perform (.makeDirectory .control) >>= fun _ => _) _
    refine .perform (Entering.stable _ _ _ _) fun s hs hA => ?_
    obtain ⟨hs', hkeeps⟩ := keeps_of_made i (s.make i .control) hs rfl id (fun _ => rfl)
      id id rfl rfl (fun file => by cases file <;> rfl)
    refine ⟨hs', hkeeps, Entering true false false,
      ⟨hA.isPrivate, hA.present, fun _ => rfl, nofun, nofun⟩, ?_⟩
    change SoundOn i _ (CompilerCache.perform (.makeDirectory .version) >>= fun _ => _) _
    refine .perform (Entering.stable _ _ _ _) fun s hs hA => ?_
    obtain ⟨hs', hkeeps⟩ := keeps_of_made i (s.make i .version) hs rfl id id
      (fun _ => rfl) id rfl rfl (fun file => by cases file <;> rfl)
    refine ⟨hs', hkeeps, Entering true true false,
      ⟨hA.isPrivate, hA.present, hA.control, fun _ => rfl, nofun⟩, ?_⟩
    refine .io (Entering.stable _ _ _ _) (fun _ => rfl) (fun s _ _ hA _ => ⟨_, hA, ?_⟩) herror
    change SoundOn i _ (CompilerCache.perform .openPrepareLock >>= fun _ => _) _
    refine .perform (Entering.stable _ _ _ _) fun s hs hA => ?_
    obtain ⟨hs', hkeeps⟩ := keeps_of_made i { s with prepareLock := true } hs rfl id
      id id (fun _ => rfl) rfl rfl (fun file => by cases file <;> rfl)
    refine ⟨hs', hkeeps, Entering true true true,
      ⟨hA.isPrivate, hA.present, hA.control, hA.version, fun _ => rfl⟩, ?_⟩
    change SoundOn i _ (CompilerCache.perform .lockPrepare >>= fun _ => _) _
    refine .perform (Entering.stable _ _ _ _) fun s hs hA => ?_
    by_cases hfree : s.preparer = none ∨ s.preparer = some i
    · have hanswer : answer i s .lockPrepare = (.ok (), { s with preparer := some i }) :=
        if_pos hfree
      obtain ⟨hs', hkeeps⟩ := hs.lockPrepare hfree
      rw [hanswer]
      refine ⟨hs', hkeeps, Holding i, ⟨hA.isPrivate, hA.present, hA.control rfl, hA.version rfl,
        hA.prepareLock rfl, rfl⟩, ?_⟩
      exact .pure (Holding.stable i) fun s _ h _ => h
    · have hanswer : answer i s .lockPrepare = (.error .wouldBlock, s) := if_neg hfree
      rw [hanswer]
      exact ⟨hs, Keeps.refl i s, _, hA, .throw (Entering.stable _ _ _ _) (herror _)⟩
  · rw [if_pos hentries]
    exact .throw (Entering.stable _ _ _ _) (herror _)

/-- A program whose result the rest goes on with. -/
theorem SoundOn.attempt {x : Task β} {f : Except LifecycleError β → Task α}
    {R : Except LifecycleError β → Root → Prop} (hx : SoundOn i R x A)
    (hf : ∀ result, SoundOn i Q (f result) (R result)) :
    SoundOn i Q (CompilerCache.attempt x >>= f) A := by
  refine Sound.bind (R := fun result s => ∃ r, result = .ok r ∧ R r s) (Sound.bind hx fun r =>
    ⟨(hf r).stable, fun s _ hr => ⟨r, rfl, hr⟩⟩) fun result => ?_
  cases result with
  | ok r =>
    refine (hf r).mono ?_ ?_
    · rintro j hj s s' hs hkeeps ⟨r', heq, hr⟩
      exact ⟨r', heq, (hf r').stable j hj s s' hs hkeeps hr⟩
    · rintro s _ ⟨r', heq, hr⟩
      obtain rfl := Except.ok.inj heq
      exact hr
  | error e =>
    refine ⟨?_, ?_⟩
    · rintro j hj s s' hs hkeeps ⟨r', heq, -⟩
      cases heq
    · rintro s _ ⟨r', heq, -⟩
      cases heq

/-- **Preparing a root beside any other programs.** -/
theorem sound_prepare :
    SoundOn i (fun result s => ∀ preparation, result = .ok preparation →
      preparation.created = true → preparation.backend = backend ∧
        preparation.dataRoot = dataRoot root ∧
        ∃ configuration, Owned sha256Bytes root i backend configuration s)
      (prepareManagedCompilerCache sha256Bytes parseOwnership root backend) (fun _ => True) := by
  refine .lift Stable.true (fun _ habsolute => .lift Stable.true (fun _ hshort => ?_) ?_) ?_
  · refine .attempt (R := fun _ _ => True)
      (looks_load.sound Stable.true fun _ _ _ _ => trivial) fun result => ?_
    rcases result with error | managed
    · cases error with
      | missingPreparedRoot =>
        refine .bind sound_enter (fun _ => ?_) (fun e => ?_) (fun _ _ _ _ _ h => nomatch h)
        · refine ((sound_claim habsolute hshort).weaken fun result s _ h preparation heq _ => ?_).mono ?_
            (fun s _ h => h rfl)
          · exact h preparation heq
          · exact fun j hj s s' hs hkeeps h heq => Holding.stable i j hj s s' hs hkeeps (h heq)
        · exact fun _ _ _ _ _ _ _ h => nomatch h
      | relativeRoot => exact .throw Stable.true (fun _ _ _ _ h => nomatch h)
      | nonEmptyUnownedRoot => exact .throw Stable.true (fun _ _ _ _ h => nomatch h)
      | invalidOwnership reason => exact .throw Stable.true (fun _ _ _ _ h => nomatch h)
      | io action source => exact .throw Stable.true (fun _ _ _ _ h => nomatch h)
    · refine .pure Stable.true fun s _ _ => ?_
      rintro preparation ⟨⟩ hcreated
      cases hcreated
  · exact fun _ _ _ _ _ _ h => nomatch h
  · exact fun _ _ _ _ _ _ h => nomatch h

end

end CompilerCache

end ArosTools
