import ArosTools.Publication.CommitRules

/-!
# Planned changes

`Planned` says what a list of changes has to satisfy for its commit to be a transaction: the
snapshots are true, the targets are registered below the journal, and no target is, or lies below,
another target, the journal, its stage or an auxiliary name of the transaction.
`Planned.transaction` is the transaction of such a list.
-/

namespace ArosTools

namespace PlannedChange

/-- The target of a change. -/
def target (c : PlannedChange) : Path := c.path.names?.getD []

/-- The leaf of the target. -/
def leaf (c : PlannedChange) : Name := c.target.getLast?.getD []

/-- The auxiliary name of the change with number `index`. -/
def auxiliary (sha256Bytes : Bytes → Sha256Digest) (nonce index : ℕ) (purpose : String)
    (c : PlannedChange) : Path :=
  c.target.dropLast ++ [siblingName sha256Bytes c.leaf purpose (addU64 nonce index)]

/-- Where the new file is staged. -/
def stage (sha256Bytes : Bytes → Sha256Digest) (nonce index : ℕ) (c : PlannedChange) : Path :=
  c.auxiliary sha256Bytes nonce index "stage"

/-- Where the original is moved. -/
def backup (sha256Bytes : Bytes → Sha256Digest) (nonce index : ℕ) (c : PlannedChange) : Path :=
  c.auxiliary sha256Bytes nonce index "backup"

/-- The recorded snapshot was measured in `fs`. -/
structure Measured (sha256Bytes : Bytes → Sha256Digest) (fs : Fs) (c : PlannedChange) : Prop where
  path : c.path = .ofPath c.target
  ne_nil : c.target ≠ []
  /-- The target is absent or a regular file. -/
  regular : fs.get c.target = (fs.file? c.target).map .file
  original : c.original = (fs.file? c.target).map File.identity
  digest : c.originalDigest = (fs.file? c.target).map fun f => sha256Bytes f.bytes
  mode : c.originalMode = (fs.file? c.target).map File.mode

/-- The recorded snapshot is what the filesystem holds. -/
structure TrueSnapshot (sha256Bytes : Bytes → Sha256Digest) (fs : Fs) (c : PlannedChange) :
    Prop extends Measured sha256Bytes fs c where
  permissions : ∀ o ∈ fs.file? c.target, o.mode ≤ 0o7777

/-- The target is as it is to become. -/
def Desired (c : PlannedChange) (fs : Fs) : Prop :=
  match c.desired with
  | .write contents mode => ∃ i, fs.get c.target = some (.file ⟨i, contents, mode⟩)
  | .remove => fs.get c.target = none

end PlannedChange

section

variable (ext : Externals) (fs : Fs) (dir : Path) (leaf : Name) (nonce : ℕ)
  (changes : List PlannedChange)

/-- A list of changes that `commit` is called with. -/
structure Planned : Prop where
  snapshots : ∀ c ∈ changes, c.TrueSnapshot ext.sha256Bytes fs
  /-- Only an existing file is removed. -/
  removals : ∀ c ∈ changes, c.desired = .remove → c.original.isSome = true
  modes : ∀ c ∈ changes, ∀ contents mode, c.desired = .write contents mode →
    mode = 0o644 ∨ mode = 0o755
  /-- The targets are below the directory of the journal, with portable names that differ even
  after case folding. -/
  registered : ∃ keys : List Bytes, keys.Nodup ∧
    List.Forall₂ (fun c key => dir <+: c.target ∧ targetKey dir c.target = .ok key) changes keys
  /-- No target is inside another. -/
  targets : ∀ (i j : ℕ) (c c' : PlannedChange), i ≠ j → changes[i]? = some c → changes[j]? = some c' →
    ¬ c.target <+: c'.target
  /-- No target is an auxiliary name or inside one, and the journal is none. -/
  auxiliaries : ∀ (i : ℕ) (c : PlannedChange), changes[i]? = some c →
    ∀ q ∈ [c.stage ext.sha256Bytes nonce i, c.backup ext.sha256Bytes nonce i],
      (∀ c' ∈ changes, ¬ q <+: c'.target) ∧ q ≠ dir ++ [leaf]
  /-- No target is the journal or its stage, or inside one. -/
  control : ∀ c ∈ changes, ¬ dir ++ [leaf] <+: c.target ∧
    ¬ journalStage ext dir leaf <+: c.target
  journal_ne_stage : dir ++ [leaf] ≠ journalStage ext dir leaf
  count : changes.length ≤ 2 ^ 64
  dirs : fs.Dirs dir
  journal : fs.get (dir ++ [leaf]) = none
  journal_stage : fs.get (journalStage ext dir leaf) = none

/-- No stage file and no backup file. -/
def AuxiliariesFree : Prop :=
  ∀ (i : ℕ) (c : PlannedChange), changes[i]? = some c →
    (c.desired ≠ .remove → fs.get (c.stage ext.sha256Bytes nonce i) = none) ∧
      (c.original.isSome = true → fs.get (c.backup ext.sha256Bytes nonce i) = none)

end

/-! ### The slots of the changes -/

theorem exists_list_of_getElem? {α β : Type} (l : List α) (P : ℕ → α → β → Prop)
    (h : ∀ i a, l[i]? = some a → ∃ b, P i a b) :
    ∃ l' : List β, l'.length = l.length ∧
      ∀ i a b, l[i]? = some a → l'[i]? = some b → P i a b := by
  induction l generalizing P with
  | nil => exact ⟨[], rfl, fun i a b ha => by simp at ha⟩
  | cons a l ih =>
    obtain ⟨b, hb⟩ := h 0 a rfl
    obtain ⟨l', hlen, hl'⟩ := ih (fun i => P (i + 1)) fun i a ha => h (i + 1) a (by simpa using ha)
    refine ⟨b :: l', by rw [List.length_cons, List.length_cons, hlen], fun i a' b' ha hb' => ?_⟩
    cases i with
    | zero =>
      cases ha
      cases hb'
      exact hb
    | succ i => exact hl' i a' b' (by simpa using ha) (by simpa using hb')

/-- `sl` is the slot of the change `c` with number `i`. -/
structure SlotOf (ext : Externals) (fs : Fs) (nonce i : ℕ) (c : PlannedChange) (sl : Slot) :
    Prop where
  target : sl.target = c.target
  stage : sl.stage = c.stage ext.sha256Bytes nonce i
  backup : sl.backup = c.backup ext.sha256Bytes nonce i
  change : sl.change ext.sha256Bytes = c
  stageLeaf : sl.stageLeaf = siblingName ext.sha256Bytes sl.leaf "stage" (addU64 nonce i)
  backupLeaf : sl.backupLeaf = siblingName ext.sha256Bytes sl.leaf "backup" (addU64 nonce i)
  original : sl.original = fs.file? c.target
  occupant : sl.occupant =
    if sl.original.isSome then fs.get (c.backup ext.sha256Bytes nonce i) else none

namespace SlotOf

variable {ext : Externals} {fs : Fs} {nonce i : ℕ} {c : PlannedChange} {sl : Slot}

theorem desired (h : SlotOf ext fs nonce i c sl) : sl.desired = c.desired := by
  rw [← h.change]
  rfl

theorem writes_iff (h : SlotOf ext fs nonce i c sl) : sl.writes = true ↔ c.desired ≠ .remove := by
  rw [← h.desired, Slot.writes]
  cases sl.desired <;> simp

theorem isSome_iff (h : SlotOf ext fs nonce i c sl) :
    sl.original.isSome = true ↔ c.original.isSome = true := by
  rw [← h.change]
  simp [Slot.change]

end SlotOf

namespace Planned

variable {ext : Externals} {fs : Fs} {dir : Path} {leaf : Name} {nonce : ℕ}
  {changes : List PlannedChange}

theorem exists_slot (h : Planned ext fs dir leaf nonce changes) (i : ℕ) (c : PlannedChange)
    (hc : changes[i]? = some c) : ∃ sl, SlotOf ext fs nonce i c sl := by
  have hmem := List.mem_of_getElem? hc
  have hsnap := h.snapshots c hmem
  have haux := h.auxiliaries i c hc
  have htarget : c.target.dropLast ++ [c.leaf] = c.target := by
    rw [PlannedChange.leaf, List.getLast?_eq_some_getLast hsnap.ne_nil, Option.getD_some,
      List.dropLast_append_getLast]
  have hne : ∀ purpose, purpose = "stage" ∨ purpose = "backup" →
      c.leaf ≠ siblingName ext.sha256Bytes c.leaf purpose (addU64 nonce i) := by
    intro purpose hp heq
    refine (haux (c.auxiliary ext.sha256Bytes nonce i purpose) ?_).1 c hmem ?_
    · rcases hp with rfl | rfl
      · exact List.mem_cons_self
      · exact List.mem_cons_of_mem _ List.mem_cons_self
    · rw [PlannedChange.auxiliary, ← heq, htarget]
  refine ⟨{ dir := c.target.dropLast, leaf := c.leaf,
            stageLeaf := siblingName ext.sha256Bytes c.leaf "stage" (addU64 nonce i),
            backupLeaf := siblingName ext.sha256Bytes c.leaf "backup" (addU64 nonce i),
            original := fs.file? c.target, desired := c.desired,
            occupant := if (fs.file? c.target).isSome then
              fs.get (c.backup ext.sha256Bytes nonce i) else none,
            leaf_ne_stage := hne _ (.inl rfl), leaf_ne_backup := hne _ (.inr rfl),
            stage_ne_backup := siblingName_stage_ne_backup _ _ _ _ _,
            original_of_remove := fun hd => ?_,
            occupant_of_create := fun ho => by rw [ho]; rfl },
    htarget, rfl, rfl, ?_, rfl, rfl, rfl, rfl⟩
  · have := h.removals c hmem hd
    rw [hsnap.original, Option.isSome_map] at this
    exact this
  · obtain ⟨path, original, originalDigest, originalMode, desired⟩ := c
    simp only [Slot.change, PlannedChange.mk.injEq]
    refine ⟨?_, hsnap.original.symm, hsnap.digest.symm, hsnap.mode.symm, trivial⟩
    rw [Slot.target, htarget]
    exact hsnap.path.symm

/-- The names of two changes are apart. -/
theorem names_apart (h : Planned ext fs dir leaf nonce changes) {i j : ℕ} {c c' : PlannedChange}
    {sl sl' : Slot} (hij : i ≠ j) (hc : changes[i]? = some c) (hc' : changes[j]? = some c')
    (hsl : SlotOf ext fs nonce i c sl) (hsl' : SlotOf ext fs nonce j c' sl') {p q : Path}
    (hp : p ∈ sl.names) (hq : q ∈ sl'.names) : ¬ p <+: q := by
  have hlt : ∀ {k : ℕ} {d : PlannedChange}, changes[k]? = some d → k < 2 ^ 64 := fun hk =>
    (List.getElem?_eq_some_iff.1 hk).1.trans_le h.count
  -- nothing of the first change is at or above the target of the second
  have htarget : ¬ p <+: sl'.target := by
    rw [hsl'.target]
    have haux := h.auxiliaries i c hc
    rcases Slot.mem_names.1 hp with rfl | ⟨-, rfl⟩ | ⟨-, rfl⟩
    · rw [hsl.target]
      exact h.targets i j c c' hij hc hc'
    · rw [hsl.stage]
      exact (haux _ List.mem_cons_self).1 c' (List.mem_of_getElem? hc')
    · rw [hsl.backup]
      exact (haux _ (List.mem_cons_of_mem _ List.mem_cons_self)).1 c' (List.mem_of_getElem? hc')
  -- an auxiliary name of the second change is not a name of the first
  have hne : ∀ purpose, purpose = "stage" ∨ purpose = "backup" → p ≠ sl'.dir ++
      [siblingName ext.sha256Bytes sl'.leaf purpose (addU64 nonce j)] := by
    rintro purpose hpur rfl
    have hnonce : ∀ purpose', siblingName ext.sha256Bytes sl.leaf purpose' (addU64 nonce i) ≠
        siblingName ext.sha256Bytes sl'.leaf purpose (addU64 nonce j) := fun _ heq =>
      hij (addU64_left_inj (hlt hc) (hlt hc')
        (siblingName_nonce_inj (addU64_lt _ _) (addU64_lt _ _) heq))
    rcases Slot.mem_names.1 hp with hp | ⟨-, hp⟩ | ⟨-, hp⟩
    · have haux := h.auxiliaries j c' hc'
      refine (haux (sl'.dir ++ [siblingName ext.sha256Bytes sl'.leaf purpose (addU64 nonce j)])
        ?_).1 c (List.mem_of_getElem? hc) ?_
      · rcases hpur with rfl | rfl
        · rw [← hsl'.stageLeaf]
          exact hsl'.stage ▸ List.mem_cons_self
        · rw [← hsl'.backupLeaf]
          exact hsl'.backup ▸ List.mem_cons_of_mem _ List.mem_cons_self
      · rw [hp, hsl.target]
    · have := (List.append_inj' hp rfl).2
      rw [hsl.stageLeaf] at this
      exact hnonce _ (List.singleton_inj.1 this).symm
    · have := (List.append_inj' hp rfl).2
      rw [hsl.backupLeaf] at this
      exact hnonce _ (List.singleton_inj.1 this).symm
  have hsibling : ∀ n, p <+: sl'.dir ++ [n] → p = sl'.dir ++ [n] := fun n hpre =>
    (List.prefix_concat_iff.1 hpre).resolve_right fun hd =>
      htarget (hd.trans (List.prefix_append _ _))
  rcases Slot.mem_names.1 hq with rfl | ⟨-, rfl⟩ | ⟨-, rfl⟩
  · exact htarget
  · exact fun hpre => hne _ (.inl rfl) (hsl'.stageLeaf ▸ hsibling _ hpre)
  · exact fun hpre => hne _ (.inr rfl) (hsl'.backupLeaf ▸ hsibling _ hpre)

theorem dir_prefix (h : Planned ext fs dir leaf nonce changes) {c : PlannedChange}
    (hc : c ∈ changes) : dir <+: c.target.dropLast := by
  obtain ⟨keys, -, hreg⟩ := h.registered
  obtain ⟨n, hn, rfl⟩ := List.getElem_of_mem hc
  obtain ⟨⟨rest, hrest⟩, hkey⟩ := hreg.get hn (hreg.length_eq ▸ hn)
  rw [List.get_eq_getElem] at hrest hkey
  -- the empty path has no key, so the target is strictly below
  have hne : rest ≠ [] := by
    rintro rfl
    rw [← hrest, targetKey, List.append_nil, List.drop_length] at hkey
    cases hkey
  rw [← hrest, List.dropLast_append_of_ne_nil hne]
  exact List.prefix_append _ _

/-- The names of a change are apart from the journal and its stage. -/
theorem names_apart_control (h : Planned ext fs dir leaf nonce changes) {i : ℕ} {c : PlannedChange}
    {sl : Slot} (hc : changes[i]? = some c) (hsl : SlotOf ext fs nonce i c sl) {p q : Path}
    (hq : q ∈ sl.names) (hp : p ∈ [dir ++ [leaf], journalStage ext dir leaf]) :
    ¬ p <+: q ∧ ¬ q <+: p := by
  have hmem := List.mem_of_getElem? hc
  have haux := h.auxiliaries i c hc
  have hdir : dir <+: sl.dir := by
    have := h.dir_prefix hmem
    rwa [← hsl.target, Slot.target, List.dropLast_concat] at this
  obtain ⟨l, hl⟩ : ∃ l, p = dir ++ [l] := by
    rcases List.mem_pair.1 hp with rfl | rfl
    · exact ⟨_, rfl⟩
    · exact ⟨_, rfl⟩
  obtain ⟨n, hn⟩ : ∃ n, q = sl.dir ++ [n] := by
    rcases Slot.mem_names.1 hq with rfl | ⟨-, rfl⟩ | ⟨-, rfl⟩
    · exact ⟨_, rfl⟩
    · exact ⟨_, rfl⟩
    · exact ⟨_, rfl⟩
  have htarget : ¬ p <+: sl.target := by
    rw [hsl.target]
    rcases List.mem_pair.1 hp with rfl | rfl
    · exact (h.control c hmem).1
    · exact (h.control c hmem).2
  have hne : p ≠ q := by
    rcases Slot.mem_names.1 hq with rfl | ⟨-, rfl⟩ | ⟨-, rfl⟩
    · exact fun heq => htarget (heq ▸ List.prefix_refl _)
    · rcases List.mem_pair.1 hp with rfl | rfl
      · exact fun heq => (haux _ (hsl.stage ▸ List.mem_cons_self)).2 heq.symm
      · intro heq
        have := (List.append_inj' heq rfl).2
        rw [hsl.stageLeaf] at this
        exact siblingName_ne_journalStage _ _ _ (.inl rfl) _ _ (List.singleton_inj.1 this).symm
    · rcases List.mem_pair.1 hp with rfl | rfl
      · exact fun heq => (haux _ (hsl.backup ▸ List.mem_cons_of_mem _ List.mem_cons_self)).2
          heq.symm
      · intro heq
        have := (List.append_inj' heq rfl).2
        rw [hsl.backupLeaf] at this
        exact siblingName_ne_journalStage _ _ _ (.inr rfl) _ _ (List.singleton_inj.1 this).symm
  refine ⟨fun hpre => ?_, fun hpre => hne (hpre.eq_of_length_le ?_).symm⟩
  · rw [hn] at hpre hne
    rcases List.prefix_concat_iff.1 hpre with heq | hd
    · exact hne heq
    · exact htarget (hd.trans (List.prefix_append _ _))
  · have := hdir.length_le
    rw [hl, hn, List.length_append, List.length_append]
    exact Nat.add_le_add_right this _

end Planned

/-- `T` is the transaction of the changes. -/
structure TransactionOf (ext : Externals) (fs : Fs) (dir : Path) (leaf : Name) (nonce : ℕ)
    (changes : List PlannedChange) (T : Transaction ext) : Prop where
  dir_eq : T.dir = dir
  leaf_eq : T.leaf = leaf
  nonce_eq : T.nonce = nonce
  length : T.slots.length = changes.length
  slots : ∀ (i : ℕ) c sl, changes[i]? = some c → T.slots[i]? = some sl → SlotOf ext fs nonce i c sl

@[simp] theorem Slot.change_target (sl : Slot) (sha256Bytes : Bytes → Sha256Digest) :
    (sl.change sha256Bytes).target = sl.target := by simp [PlannedChange.target, Slot.change]

namespace Planned

variable {ext : Externals} {fs : Fs} {dir : Path} {leaf : Name} {nonce : ℕ}
  {changes : List PlannedChange}

theorem map_change {slots : List Slot} (hlen : slots.length = changes.length)
    (hslots : ∀ (i : ℕ) c sl, changes[i]? = some c → slots[i]? = some sl → SlotOf ext fs nonce i c sl) :
    slots.map (Slot.change ext.sha256Bytes) = changes := by
  refine List.ext_getElem? fun i => ?_
  rw [List.getElem?_map]
  cases hc : changes[i]? with
  | none =>
    rw [List.getElem?_eq_none_iff, ← hlen, ← List.getElem?_eq_none_iff] at hc
    rw [hc]
    rfl
  | some c =>
    have hi : i < slots.length := hlen ▸ (List.getElem?_eq_some_iff.1 hc).1
    have hsl : slots[i]? = some slots[i] := List.getElem?_eq_getElem hi
    rw [hsl, Option.map_some, (hslots i c _ hc hsl).change]

/-- **Planned changes are a transaction.** -/
theorem exists_transaction (h : Planned ext fs dir leaf nonce changes) :
    ∃ T, TransactionOf ext fs dir leaf nonce changes T := by
  obtain ⟨slots, hlen, hslots⟩ := exists_list_of_getElem? changes (SlotOf ext fs nonce) h.exists_slot
  have hmap := map_change hlen hslots
  have hchange : ∀ {i : ℕ} {sl}, slots[i]? = some sl → ∃ c, changes[i]? = some c := by
    intro i sl hsl
    have hi : i < changes.length := hlen ▸ (List.getElem?_eq_some_iff.1 hsl).1
    exact ⟨_, List.getElem?_eq_getElem hi⟩
  have hmem : ∀ sl ∈ slots, ∃ i c, changes[i]? = some c ∧ SlotOf ext fs nonce i c sl := by
    intro sl hsl
    obtain ⟨i, hi⟩ := List.mem_iff_getElem?.1 hsl
    obtain ⟨c, hc⟩ := hchange hi
    exact ⟨i, c, hc, hslots i c sl hc hi⟩
  obtain ⟨keys, hnodup, hreg⟩ := h.registered
  rw [← hmap, List.forall₂_map_left_iff] at hreg
  refine ⟨{ dir := dir, leaf := leaf, nonce := nonce, slots := slots, keys := keys,
            journal_ne_stage := h.journal_ne_stage,
            apart := ?_, control_apart := ?_, derived := ?_, registered := ?_,
            keys_nodup := hnodup, modes := ?_, original_modes := ?_ }, rfl, rfl, rfl, hlen, hslots⟩
  · refine List.pairwise_iff_getElem.2 fun i j hi hj hij p hp q hq => ?_
    have hsi : slots[i]? = some slots[i] := List.getElem?_eq_getElem hi
    have hsj : slots[j]? = some slots[j] := List.getElem?_eq_getElem hj
    obtain ⟨c, hc⟩ := hchange hsi
    obtain ⟨c', hc'⟩ := hchange hsj
    have hsl := hslots i c _ hc hsi
    have hsl' := hslots j c' _ hc' hsj
    exact ⟨h.names_apart (by omega) hc hc' hsl hsl' hp hq,
      h.names_apart (by omega) hc' hc hsl' hsl hq hp⟩
  · intro sl hsl q hq p hp
    obtain ⟨i, c, hc, hof⟩ := hmem sl hsl
    exact h.names_apart_control hc hof hq hp
  · intro i sl hsl
    obtain ⟨c, hc⟩ := hchange hsl
    exact ⟨(hslots i c sl hc hsl).stageLeaf, (hslots i c sl hc hsl).backupLeaf⟩
  · exact hreg.imp fun sl key hk => by rwa [Slot.change_target] at hk
  · intro sl hsl contents mode hd
    obtain ⟨i, c, hc, hof⟩ := hmem sl hsl
    refine h.modes c (List.mem_of_getElem? hc) contents mode ?_
    rw [← hof.change]
    exact hd
  · intro sl hsl o ho
    obtain ⟨i, c, hc, hof⟩ := hmem sl hsl
    rw [hof.original] at ho
    exact (h.snapshots c (List.mem_of_getElem? hc)).permissions o ho

end Planned

namespace TransactionOf

variable {ext : Externals} {fs : Fs} {dir : Path} {leaf : Name} {nonce : ℕ}
  {changes : List PlannedChange} {T : Transaction ext}

theorem journal (h : TransactionOf ext fs dir leaf nonce changes T) :
    T.journal = dir ++ [leaf] := by rw [Transaction.journal, h.dir_eq, h.leaf_eq]

theorem stage (h : TransactionOf ext fs dir leaf nonce changes T) :
    T.stage = journalStage ext dir leaf := by rw [Transaction.stage, h.dir_eq, h.leaf_eq]

theorem commit_eq (h : TransactionOf ext fs dir leaf nonce changes T) :
    commit ext (.ofPath T.journal) T.nonce (T.slots.map (Slot.change ext.sha256Bytes)) =
      commit ext (.ofPath (dir ++ [leaf])) nonce changes := by
  rw [h.journal, h.nonce_eq, Planned.map_change h.length h.slots]

theorem exists_slot (h : TransactionOf ext fs dir leaf nonce changes T) {i : ℕ} {c : PlannedChange}
    (hc : changes[i]? = some c) : ∃ sl ∈ T.slots, SlotOf ext fs nonce i c sl := by
  have hi : i < T.slots.length := h.length ▸ (List.getElem?_eq_some_iff.1 hc).1
  exact ⟨_, List.getElem_mem hi, h.slots i c _ hc (List.getElem?_eq_getElem hi)⟩

theorem exists_change (h : TransactionOf ext fs dir leaf nonce changes T) {sl : Slot}
    (hsl : sl ∈ T.slots) : ∃ i c, changes[i]? = some c ∧ SlotOf ext fs nonce i c sl := by
  obtain ⟨i, hi⟩ := List.mem_iff_getElem?.1 hsl
  have hi' : i < changes.length := h.length ▸ (List.getElem?_eq_some_iff.1 hi).1
  exact ⟨i, _, List.getElem?_eq_getElem hi', h.slots i _ sl (List.getElem?_eq_getElem hi') hi⟩

/-- Before the commit the transaction is resting. -/
theorem resting {C : Prop} (h : TransactionOf ext fs dir leaf nonce changes T)
    (hp : Planned ext fs dir leaf nonce changes)
    (hfree : C → AuxiliariesFree ext fs nonce changes) : T.Resting C fs := by
  refine ⟨⟨h.dir_eq ▸ hp.dirs, none, by rw [h.stage]; exact hp.journal_stage, fun f hf => nomatch hf⟩,
    by rw [h.journal]; exact hp.journal, fun sl hsl => ?_⟩
  obtain ⟨i, c, hc, hof⟩ := h.exists_change hsl
  have hsnap := hp.snapshots c (List.mem_of_getElem? hc)
  refine ⟨?_, fun ho => ?_, fun hC hw => ?_⟩
  · rw [hof.target, Slot.originalNode, hof.original]
    exact hsnap.regular
  · rw [hof.backup, hof.occupant, if_pos ho]
  · rw [hof.stage]
    exact (hfree hC i c hc).1 (hof.writes_iff.1 hw)

theorem occupant_free (h : TransactionOf ext fs dir leaf nonce changes T)
    (hfree : AuxiliariesFree ext fs nonce changes) : ∀ sl ∈ T.slots, sl.occupant = none := by
  intro sl hsl
  obtain ⟨i, c, hc, hof⟩ := h.exists_change hsl
  rw [hof.occupant]
  split
  · next ho => exact (hfree i c hc).2 (hof.isSome_iff.1 ho)
  · rfl

end TransactionOf

end ArosTools
