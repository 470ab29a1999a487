import ArosTools.Publication.Phases

/-!
# Rules for the commit

`commit` walks through the phases of its transaction: it builds its operations and stages its
files with every target untouched, applies the operations under a prepared journal, and writes
the committed journal last.  Every failure before that leads back to a resting or a prepared
transaction.
-/

namespace ArosTools

open Sys

namespace Slot

variable (sha256Bytes : Bytes → Sha256Digest)

/-- The planned change of a slot. -/
def change (sl : Slot) : PlannedChange where
  path := .ofPath sl.target
  original := sl.original.map File.identity
  originalDigest := sl.original.map fun f => sha256Bytes f.bytes
  originalMode := sl.original.map File.mode
  desired := sl.desired

/-- The contents to be staged. -/
def contents (sl : Slot) : Option Bytes :=
  match sl.desired with
  | .write contents _ => some contents
  | .remove => none

end Slot

namespace Entry

/-- The entry before its staged identity is known. -/
def forget (e : Entry) : Entry := { e with inst := none }

@[simp] theorem forget_slot (e : Entry) : e.forget.slot = e.slot := rfl

theorem UntouchedAt.forget {C : Prop} {e : Entry} {fs : Fs} (h : e.UntouchedAt C fs) :
    e.forget.UntouchedAt C fs := by
  obtain ⟨t, s, b, hat, ⟨hst, htidy⟩, ht, hb⟩ := h
  refine ⟨t, s, b, hat, ⟨?_, htidy⟩, ht, hb⟩
  cases hd : e.slot.desired with
  | write contents mode => exact (Slot.stable_staging hd).2 ⟨ht, hb⟩
  | remove =>
    have hi := hst.inst_of_remove hd
    rw [hi] at hst
    exact hst

/-- What a commit builds for an entry. -/
def built (sha256Bytes : Bytes → Sha256Digest) (e : Entry) : JournalOperation × Option Bytes :=
  (e.operation sha256Bytes, e.slot.contents)

/-- The directory of the entry is the recorded one. -/
structure Rooted (e : Entry) (fs : Fs) : Prop where
  dirs : fs.Dirs e.slot.dir
  dir : fs.get e.slot.dir = some (.dir e.parentIdentity)

theorem Rooted.grown {D : Path → Prop} {e : Entry} {fs fs' : Fs} (h : e.Rooted fs)
    (hg : Grown D fs fs') : e.Rooted fs' := ⟨hg.dirs h.dirs, hg.get_of_some h.dir⟩

end Entry

namespace Transaction

variable {ext : Externals} {T : Transaction ext} {es : List Entry} {fs fs' : Fs} {C : Prop}
  {fail : Bool} {U : Fs → Prop} {G : ∀ ⦃β : Type⦄, Sys β → Fs → Prop}

/-! ### Building the operations -/

/-- A directory on the way to a target. -/
def OnTheWay (T : Transaction ext) (q : Path) : Prop := ∃ sl ∈ T.slots, q <+: sl.dir

theorem not_onTheWay {sl : Slot} (hsl : sl ∈ T.slots) {p : Path} (hp : p ∈ sl.names) :
    ¬ T.OnTheWay p := by
  rintro ⟨sl', hsl', hpre⟩
  let R : Slot → Slot → Prop := fun a b =>
    (∀ p ∈ a.names, ¬ p <+: b.dir) ∧ ∀ p ∈ b.names, ¬ p <+: a.dir
  have hpair : T.slots.Pairwise R := T.apart.imp fun {a b} h =>
    ⟨fun p hp hpre => (h p hp _ b.target_mem).1 (hpre.trans (List.prefix_append _ _)),
      fun p hp hpre => (h _ a.target_mem p hp).2 (hpre.trans (List.prefix_append _ _))⟩
  have hrefl : ∀ a ∈ T.slots, R a a := fun a _ =>
    ⟨fun p hp hpre => Slot.not_mem_names_of_above hpre hp,
      fun p hp hpre => Slot.not_mem_names_of_above hpre hp⟩
  have hsymm : Std.Symm R := ⟨fun _ _ h => ⟨h.2, h.1⟩⟩
  exact (hpair.forall_of_forall hrefl hsl hsl').1 p hp hpre

theorem not_onTheWay_control {p : Path} (hp : p ∈ T.control) : ¬ T.OnTheWay p := by
  rintro ⟨sl, hsl, hpre⟩
  exact (T.control_apart sl hsl _ sl.target_mem p hp).1 (hpre.trans (List.prefix_append _ _))

theorem Resting.grown (h : T.Resting C fs) (hg : Grown T.OnTheWay fs fs') : T.Resting C fs' := by
  have hget : ∀ p, ¬ T.OnTheWay p → fs'.get p = fs.get p := fun p hp => hg.get_of_not hp
  refine ⟨⟨hg.dirs h.dirs, ?_⟩, ?_, fun sl hsl => ⟨?_, fun ho => ?_, fun hc hw => ?_⟩⟩
  · rw [hget _ (not_onTheWay_control stage_mem_control)]
    exact h.stage
  · rw [hget _ (not_onTheWay_control journal_mem), h.journal]
  · rw [hget _ (not_onTheWay hsl sl.target_mem), (h.slots sl hsl).target]
  · rw [hget _ (not_onTheWay hsl (Slot.backup_mem ho)), (h.slots sl hsl).backup ho]
  · rw [hget _ (not_onTheWay hsl (Slot.stage_mem hw)), (h.slots sl hsl).stage hc hw]

theorem Resting.restage (h : T.Resting C fs) (hs : Fs.SameOff [T.stage] fs fs')
    (hr : T.Ready fs') : T.Resting C fs' := by
  refine ⟨hr, ?_, fun sl hsl => ?_⟩
  · rw [hs.get _ journal_not_mem_stage, h.journal]
  · exact (h.slots sl hsl).frame hs fun q hq hqX =>
      not_mem_control hsl hq (stage_sub_control q hqX)

theorem buildOperation_safe {sl : Slot} {index : ℕ}
    {Q : Except IoError (JournalOperation × Option Bytes) → Fs → Prop} (hsl : sl ∈ T.slots)
    (hstage : sl.stageLeaf = siblingName ext.sha256Bytes sl.leaf "stage" (addU64 T.nonce index))
    (hbackup : sl.backupLeaf =
      siblingName ext.sha256Bytes sl.leaf "backup" (addU64 T.nonce index))
    (hG : ∀ fs', Grown T.OnTheWay fs fs' → AllOk G fs')
    (hok : ∀ (e : Entry) fs', Grown T.OnTheWay fs fs' → e.slot = sl → e.inst = none → e.Rooted fs' →
      Q (.ok (e.built ext.sha256Bytes)) fs')
    (herr : ∀ e fs', Grown T.OnTheWay fs fs' → Q (.error e) fs') :
    IoSafe fail U G Q (buildOperation ext T.nonce index (sl.change ext.sha256Bytes)) fs := by
  refine IoSafe.bind (openParent_create_safe (D := T.OnTheWay) (fun names _ hp => ⟨sl, hsl, ?_⟩)
    (fun s hs => ⟨(hG s hs).quiet, fun p => hG s hs _⟩) (fun h fs₁ hs₁ ho => ?_) herr)
  · -- only directories on the way to the target are created
    have hc : ((PathBuf.ofPath fs.cwd).joinPath (sl.change ext.sha256Bytes).path).components =
        (sl.dir ++ [sl.leaf]).map .normal := by
      simp [PathBuf.joinPath, Slot.change, Slot.target, PathBuf.ofPath]
    rw [hc, ← List.map_dropLast, List.dropLast_concat] at hp
    exact (List.prefix_map_iff_of_injective fun _ _ h => Component.normal.inj h).1 hp
  · obtain ⟨hdir, hleaf⟩ := handle_eq (d := sl.dir) (n := sl.leaf) ho.file_eq
    refine IoSafe.bind (fstat_safe (hG fs₁ hs₁).quiet ?_ fun _ => herr _ fs₁ hs₁)
    have hrooted : (⟨sl, h.fd, none⟩ : Entry).Rooted fs₁ := ⟨hdir ▸ ho.dirs, hdir ▸ ho.dir⟩
    have hbuilt := hok ⟨sl, h.fd, none⟩ fs₁ hs₁ rfl rfl hrooted
    have hb : ((sl.change ext.sha256Bytes).original.map fun _ =>
        PathBuf.ofPath (sl.dir ++ [sl.backupLeaf])) = sl.original.map fun _ => .ofPath sl.backup := by
      cases ho : sl.original <;> simp [Slot.change, Slot.backup, ho]
    rw [hdir, hleaf, ← hstage, ← hbackup, hb]
    cases hd : sl.desired with
    | write contents mode =>
      have hd' : (sl.change ext.sha256Bytes).desired = .write contents mode := hd
      rw [hd']
      simp only [Entry.built, Entry.operation, Slot.operation, Slot.contents, Slot.writes, hd] at hbuilt
      exact IoSafe.pure hbuilt
    | remove =>
      have hd' : (sl.change ext.sha256Bytes).desired = .remove := hd
      rw [hd']
      simp only [Entry.built, Entry.operation, Slot.operation, Slot.contents, Slot.writes, hd] at hbuilt
      exact IoSafe.pure hbuilt

theorem buildOperations_safe {slots : List Slot} {index : ℕ}
    {Q : Except IoError (List (JournalOperation × Option Bytes)) → Fs → Prop}
    (hslots : T.slots.drop index = slots)
    (hG : ∀ fs', Grown T.OnTheWay fs fs' → AllOk G fs')
    (hok : ∀ (es : List Entry) fs', Grown T.OnTheWay fs fs' → es.map Entry.slot = slots →
      (∀ e ∈ es, e.inst = none ∧ e.Rooted fs') →
      Q (.ok (es.map (Entry.built ext.sha256Bytes))) fs')
    (herr : ∀ e fs', Grown T.OnTheWay fs fs' → Q (.error e) fs') :
    IoSafe fail U G Q
      (buildOperations ext T.nonce index (slots.map (Slot.change ext.sha256Bytes))) fs := by
  induction slots generalizing index fs Q with
  | nil => exact IoSafe.pure (hok [] fs (.refl _ _) rfl (fun _ h => nomatch h))
  | cons sl slots ih =>
    have hget : T.slots[index]? = some sl := by
      have : (T.slots.drop index)[0]? = some sl := by rw [hslots]; rfl
      rwa [List.getElem?_drop, Nat.add_zero] at this
    have hrest : T.slots.drop (index + 1) = slots := by
      rw [← List.drop_drop, hslots, List.drop_one, List.tail_cons]
    obtain ⟨hstage, hbackup⟩ := T.derived index sl hget
    refine IoSafe.bind (buildOperation_safe (List.mem_of_getElem? hget) hstage hbackup hG
      (fun e fs₁ hs₁ hsl hinst hrooted => ?_) herr)
    refine IoSafe.bind (ih hrest (fun fs' hs' => hG fs' (hs₁.trans hs'))
      (fun es fs₂ hs₂ hes hall => IoSafe.pure ?_) fun e' fs' hs' => herr e' fs' (hs₁.trans hs'))
    refine hok (e :: es) fs₂ (hs₁.trans hs₂) (by rw [List.map_cons, hsl, hes]) ?_
    exact List.forall_mem_cons.2 ⟨⟨hinst, hrooted.grown hs₂⟩, hall⟩

/-- In a resting transaction every entry is untouched. -/
theorem Resting.untouched (h : T.Resting C fs) (hfree : C → ∀ sl ∈ T.slots, sl.occupant = none)
    (hes : es.map Entry.slot = T.slots) {e : Entry} (he : e ∈ es) (hinst : e.inst = none)
    (hrooted : e.Rooted fs) : e.UntouchedAt C fs := by
  have hsl := mem_slots hes he
  have hrest := h.slots e.slot hsl
  refine ⟨e.slot.original, if e.slot.writes then fs.get e.slot.stage else none, e.slot.occupant,
    ⟨hrooted.dirs, hrooted.dir, hrest.target, fun hw => by rw [if_pos hw], hrest.backup⟩,
    ⟨?_, fun hc => ⟨hfree hc e.slot hsl, ?_⟩⟩, rfl, rfl⟩
  · rw [hinst]
    cases hd : e.slot.desired with
    | write contents mode => exact (Slot.stable_staging hd).2 ⟨rfl, rfl⟩
    | remove =>
      have hw : e.slot.writes = false := by simp [Slot.writes, hd]
      rw [hw]
      unfold Slot.Stable
      rw [hd]
      exact ⟨rfl, .inl ⟨rfl, rfl⟩⟩
  · intro n hn
    split at hn
    · next hw => rw [hrest.stage hc hw] at hn; cases hn
    · cases hn

/-! ### Writing the journal -/

theorem encodeJournal_ok {journal : Journal} {bytes : Bytes}
    (h : encodeJournal ext journal = .ok bytes) :
    ∃ json, ext.journalToVec journal = .ok json ∧ journalStageMagic ++ json = bytes := by
  unfold encodeJournal at h
  cases hj : ext.journalToVec journal with
  | error e => rw [hj] at h; cases h
  | ok json =>
    rw [hj] at h
    exact ⟨json, rfl, Except.ok.inj h⟩

theorem ownedJournalStage_of_prefix {journal : Journal} {bytes part : Bytes}
    (henc : encodeJournal ext journal = .ok bytes) (hpart : part <+: bytes) :
    ownedJournalStage part = true := by
  obtain ⟨json, -, hb⟩ := encodeJournal_ok henc
  have hmagic : journalStageMagic <+: bytes := ⟨json, hb⟩
  unfold ownedJournalStage
  rw [Bool.or_eq_true, Bool.or_eq_true, List.isPrefixOf_iff_prefix, List.isPrefixOf_iff_prefix]
  -- two prefixes of one list are comparable
  rcases List.prefix_or_prefix_of_prefix hpart hmagic with h | h
  · exact .inl (.inr h)
  · exact .inr h

theorem Ready.writing (h : T.Ready fs) {journal : Journal} {bytes : Bytes}
    (henc : encodeJournal ext journal = .ok bytes) (hw : Writing fs T.stage bytes fs') :
    T.Ready fs' := by
  refine ⟨hw.same.dirs h.dirs fun q hq hqX => ?_, ?_⟩
  · rw [List.mem_singleton] at hqX
    subst hqX
    exact not_snoc_prefix hq
  · rcases hw.get with hn | ⟨f, hf, -, hb⟩
    · exact ⟨none, hn, fun f hf => nomatch hf⟩
    · refine ⟨some f, hf, fun g hg => ?_⟩
      cases hg
      exact ownedJournalStage_of_prefix henc hb

theorem Ready.replaced (h : T.Ready fs) {f : File}
    (hr : Replaced fs T.journal T.stage f fs') : T.Ready fs' := by
  refine ⟨hr.same.dirs h.dirs fun q hq hqX => ?_, none, hr.stage, fun f hf => nomatch hf⟩
  rcases List.mem_pair.1 hqX with rfl | rfl
  · exact not_snoc_prefix hq
  · exact not_snoc_prefix hq

theorem visible_of_encode (hext : ext.Faithful) {journal : Journal} {f : File}
    (henc : encodeJournal ext journal = .ok f.bytes) (hf : fs.get T.journal = some (.file f)) :
    T.Visible journal fs := by
  refine ⟨f, hf, ?_⟩
  obtain ⟨json, hj, hb⟩ := encodeJournal_ok henc
  rw [← hb, parseJournal, stripBytes_append]
  exact hext journal json hj

/-- **Writing the next journal** of a transaction. -/
theorem writeJournal_phase (hext : ext.Faithful) {journal : Journal} {o : Option File}
    {Q : Except IoError Unit → Fs → Prop} (h : T.Ready fs) (hj : fs.get T.journal = o.map .file)
    (hstage : fs.get T.stage = none)
    (hG : ∀ fs', Fs.SameOff [T.stage] fs fs' → T.Ready fs' → AllOk G fs')
    (hG' : ∀ fs', Fs.SameOff T.control fs fs' → T.Ready fs' → T.Visible journal fs' → QuietOk G fs')
    (hok : ∀ fs', Fs.SameOff T.control fs fs' → T.Ready fs' → fs'.get T.stage = none →
      T.Visible journal fs' → Q (.ok ()) fs')
    (herr : ∀ e fs', Fs.SameOff [T.stage] fs fs' → T.Ready fs' → Q (.error e) fs')
    (herr' : fail = true → ∀ e fs', Fs.SameOff T.control fs fs' → T.Ready fs' →
      fs'.get T.stage = none → T.Visible journal fs' → Q (.error e) fs') :
    IoSafe fail U G Q (writeJournal ext (.ofPath T.journal) journal) fs :=
  writeJournal_safe (o := o) T.journal_ne_stage ⟨h.located_journal, hj⟩ ⟨h.located_stage, hstage⟩
    (hG fs (.refl _ _) h) (fun _ s henc hw => hG s hw.same (h.writing henc hw))
    (fun _ s henc hr => hG' s hr.same (h.replaced hr) (visible_of_encode hext henc hr.journal))
    (fun _ s henc hr => hok s hr.same (h.replaced hr) hr.stage
      (visible_of_encode hext henc hr.journal))
    (fun e _ => herr e fs (.refl _ _) h)
    (fun _ _ e s henc hw => herr e s hw.same (h.writing henc hw))
    fun hfail _ e s henc hr => herr' hfail e s hr.same (h.replaced hr) hr.stage
      (visible_of_encode hext henc hr.journal)

/-! ### Staging the new files -/

/-- While the stage is written, its entry stays untouched. -/
theorem untouched_writing {e : Entry} {contents : Bytes} (h : e.UntouchedAt C fs)
    (hinst : e.inst = none) (hw : e.slot.writes = true)
    (hs : Writing fs e.slot.stage contents fs') : e.UntouchedAt C fs' := by
  obtain ⟨t, s, b, hat, ⟨hst, htidy⟩, rfl, rfl⟩ := h
  have hsame : Fs.SameOff e.slot.names fs fs' := hs.same.mono fun p hp => by
    rw [List.mem_singleton] at hp
    exact hp ▸ Slot.stage_mem hw
  have hne : ∀ p, p ≠ e.slot.stage → fs'.get p = fs.get p := fun p hp =>
    hs.same.get p (by simpa using hp)
  refine ⟨_, fs'.get e.slot.stage, _, hat.of_sameOff hsame ?_ (fun _ => rfl) fun ho => ?_,
    ⟨?_, fun hc => ⟨(htidy hc).1, ?_⟩⟩, rfl, rfl⟩
  · rw [hne _ e.slot.target_ne_stage, hat.target]
  · rw [hne _ e.slot.stage_ne_backup_path.symm, hat.backup ho]
  · rw [hinst]
    cases hd : e.slot.desired with
    | write contents mode => exact (Slot.stable_staging hd).2 ⟨rfl, rfl⟩
    | remove => simp [Slot.writes, hd] at hw
  · rcases hs.get with hn | ⟨f, hf, -, -⟩
    · rw [hn]
      exact fun n hn => by cases hn
    · rw [hf]
      rintro n ⟨⟩
      exact ⟨f, rfl⟩

/-- A complete stage under a new identity makes its entry ready. -/
theorem ready_written {e : Entry} {contents : Bytes} {mode : ℕ} {i : FileIdentity}
    (h : e.UntouchedAt C fs) (hd : e.slot.desired = .write contents mode)
    (hs : Written fs e.slot.stage ⟨i, contents, mode⟩ fs') :
    ({ e with inst := some i } : Entry).ReadyAt C fs' := by
  have hw : e.slot.writes = true := by simp [Slot.writes, hd]
  obtain ⟨t, s, b, hat, ⟨hst, htidy⟩, rfl, rfl⟩ := h
  have hsame : Fs.SameOff e.slot.names fs fs' := hs.same.mono fun p hp => by
    rw [List.mem_singleton] at hp
    exact hp ▸ Slot.stage_mem hw
  have hne : ∀ p, p ≠ e.slot.stage → fs'.get p = fs.get p := fun p hp =>
    hs.same.get p (by simpa using hp)
  have hstaged : e.slot.staged (some i) = some (.file ⟨i, contents, mode⟩) := by
    simp [Slot.staged, Slot.final, Slot.installed, hd]
  -- the original has been there longer than the new identity
  have hfresh : ∀ o ∈ e.slot.original, o.identity ≠ i := fun o ho =>
    hs.unused e.slot.target (.file o) (by rw [hat.target, ho]; rfl)
  refine ⟨hat.of_sameOff hsame ?_ (fun _ => ?_) fun ho => ?_, ⟨?_, fun hc => ⟨(htidy hc).1, ?_⟩⟩,
    ⟨hw.symm, fun o ho hi => hfresh o ho (Option.some.inj hi).symm⟩⟩
  · rw [hne _ e.slot.target_ne_stage, hat.target]
  · rw [hs.get, hstaged]
  · rw [hne _ e.slot.stage_ne_backup_path.symm, hat.backup ho]
  · refine (Slot.stable_write hd).2 ⟨hfresh, .inl ⟨rfl, rfl, .inr ?_⟩⟩
    simp [Slot.staged, Slot.final]
  · rw [hstaged]
    rintro n ⟨⟩
    exact ⟨_, rfl⟩

theorem ready_removal {e : Entry} (h : e.UntouchedAt C fs) (hd : e.slot.desired = .remove)
    (hinst : e.inst = none) : e.ReadyAt C fs := by
  have hw : e.slot.writes = false := by simp [Slot.writes, hd]
  obtain ⟨t, s, b, hat, ⟨hst, htidy⟩, rfl, rfl⟩ := h
  have hs : s = none := by
    rw [hinst] at hst
    unfold Slot.Stable at hst
    rw [hd] at hst
    exact hst.1
  have hstaged : e.slot.staged e.inst = none := by rw [hinst]; rfl
  subst hs
  refine ⟨?_, ?_, ⟨by rw [hinst, hw]; rfl, fun o _ => by simp [hinst]⟩⟩
  · rwa [hstaged]
  · rw [hstaged]
    exact ⟨hst, htidy⟩

/-- **Staging the new files**: every target stays untouched, and without an error every entry is
ready. -/
theorem stageFiles_safe {l : List Entry} (hapart : l.Pairwise Entry.Apart)
    {Q : Except IoError (List JournalOperation × Option IoError) → Fs → Prop}
    (hinit : ∀ e ∈ l, e.inst = none ∧ e.UntouchedAt C fs)
    (hG : ∀ fs', Fs.SameOff (Entry.allNames l) fs fs' → (∀ e ∈ l, e.UntouchedAt C fs') →
      AllOk G fs')
    (hQ : ∀ (l' : List Entry) error fs', Fs.SameOff (Entry.allNames l) fs fs' →
      l'.map Entry.forget = l → (∀ e ∈ l', e.UntouchedAt C fs') →
      (error = none → ∀ e ∈ l', e.ReadyAt C fs') → Q (.ok (operations ext l', error)) fs') :
    IoSafe fail U G Q (stageFiles ext (l.map (Entry.built ext.sha256Bytes))) fs := by
  induction l generalizing fs G Q with
  | nil => exact IoSafe.pure (hQ [] none fs (.refl _ _) rfl (by simp) (by simp))
  | cons e l ih =>
    obtain ⟨hhead, htail⟩ := List.pairwise_cons.1 hapart
    obtain ⟨⟨hinst, hun⟩, hrest⟩ := List.forall_mem_cons.1 hinit
    have hforget : e.forget = e := by
      cases e
      cases hinst
      rfl
    have hnames : ∀ p ∈ e.slot.names, p ∈ Entry.allNames (e :: l) :=
      fun p hp => Entry.mem_allNames.2 ⟨e, List.mem_cons_self, hp⟩
    have hnames' : ∀ p ∈ Entry.allNames l, p ∈ Entry.allNames (e :: l) := by
      intro p hp
      obtain ⟨e', he', hp⟩ := Entry.mem_allNames.1 hp
      exact Entry.mem_allNames.2 ⟨e', List.mem_cons_of_mem e he', hp⟩
    have haway : ∀ e' ∈ l, Entry.Away e.slot.names e' := fun e' he' => (hhead e' he').1
    have hfirst : Entry.Away (Entry.allNames l) e := Entry.away_allNames fun e' he' => (hhead e' he').2
    -- what staging the rest does once the head is `e₁`, ready in `fs₁`
    have hnext : ∀ (e₁ : Entry) fs₁, Fs.SameOff e.slot.names fs fs₁ → e₁.forget = e →
        e₁.ReadyAt C fs₁ → IoSafe fail U G Q (
          stageFiles ext (l.map (Entry.built ext.sha256Bytes)) >>= fun rest =>
            pure (e₁.operation ext.sha256Bytes :: rest.1, rest.2)) fs₁ := by
      intro e₁ fs₁ hs₁ he₁ hready
      have hslot : e₁.slot = e.slot := by rw [← he₁]; rfl
      have hfirst₁ : Entry.Away (Entry.allNames l) e₁ := by
        unfold Entry.Away
        rw [hslot]
        exact hfirst
      have hrun : ∀ {fs'}, e₁.ReadyAt C fs' → e₁.UntouchedAt C fs' := fun h =>
        ⟨_, _, _, h.at_, h.kept, rfl, rfl⟩
      have hloc : ∀ {fs'}, Fs.SameOff (Entry.allNames l) fs₁ fs' → e₁.ReadyAt C fs' :=
        fun hs' => Entry.local_readyAt C e₁ hs' hfirst₁ hready
      have hl₁ : ∀ e' ∈ l, e'.inst = none ∧ e'.UntouchedAt C fs₁ := fun e' he' =>
        ⟨(hrest e' he').1, Entry.local_in _ e' hs₁ (haway e' he') (hrest e' he').2⟩
      refine IoSafe.bind (ih htail hl₁ (fun fs' hs' hun' => hG fs' ?_ ?_)
        fun l' error fs' hs' hl' hun' hready' => IoSafe.pure ?_)
      · exact (hs₁.mono hnames).trans (hs'.mono hnames')
      · exact List.forall_mem_cons.2 ⟨he₁ ▸ (hrun (hloc hs')).forget, hun'⟩
      · refine hQ (e₁ :: l') error fs' ((hs₁.mono hnames).trans (hs'.mono hnames'))
          (by rw [List.map_cons, he₁, hl']) (List.forall_mem_cons.2 ⟨hrun (hloc hs'), hun'⟩)
          fun hnone => List.forall_mem_cons.2 ⟨hloc hs', hready' hnone⟩
    cases hd : e.slot.desired with
    | remove =>
      have hb : e.built ext.sha256Bytes = (e.operation ext.sha256Bytes, none) := by
        simp [Entry.built, Slot.contents, hd]
      rw [List.map_cons, hb]
      exact hnext e fs (.refl _ _) hforget (ready_removal hun hd hinst)
    | write contents mode =>
      have hw : e.slot.writes = true := by simp [Slot.writes, hd]
      have hb : e.built ext.sha256Bytes = (e.operation ext.sha256Bytes, some contents) := by
        simp [Entry.built, Slot.contents, hd]
      have hstage : (e.operation ext.sha256Bytes).stage = some (.ofPath e.slot.stage) := by
        simp [Entry.operation, Slot.operation, hw]
      have hmode : (e.operation ext.sha256Bytes).desiredMode = some mode := by
        simp [Entry.operation, Slot.operation, hd]
      have hsub : ∀ p ∈ [e.slot.stage], p ∈ e.slot.names := by
        intro p hp
        rw [List.mem_singleton] at hp
        exact hp ▸ Slot.stage_mem hw
      have hwrite : ∀ fs', Writing fs e.slot.stage contents fs' →
          ∀ e' ∈ e :: l, e'.UntouchedAt C fs' := fun fs' hs' => List.forall_mem_cons.2
        ⟨untouched_writing hun hinst hw hs', fun e' he' =>
          Entry.local_in _ e' (hs'.same.mono hsub) (haway e' he') (hrest e' he').2⟩
      have hstop : ∀ error fs', Fs.SameOff e.slot.names fs fs' →
          (∀ e' ∈ e :: l, e'.UntouchedAt C fs') → IoSafe fail U G Q (pure
            (e.operation ext.sha256Bytes :: (l.map (Entry.built ext.sha256Bytes)).map Prod.fst,
              some error)) fs' := by
        intro error fs' hs' hun'
        have hops : e.operation ext.sha256Bytes ::
            (l.map (Entry.built ext.sha256Bytes)).map Prod.fst =
              operations ext (e :: l) := by
          simp [operations, Entry.built]
        rw [hops]
        refine IoSafe.pure (hQ (e :: l) (some error) fs' (hs'.mono hnames) ?_ hun'
          (fun h => by cases h))
        rw [List.map_cons, hforget]
        congr 1
        refine (List.map_congr_left fun e' he' => ?_).trans (List.map_id l)
        have := (hrest e' he').1
        cases e'
        cases this
        rfl
      obtain ⟨t, s, b, hat, -⟩ := hun
      have hun : e.UntouchedAt C fs := (List.forall_mem_cons.1 hinit).1.2
      rw [List.map_cons, hb, stageFiles]
      refine IoSafe.bind (IoSafe.okOr (fun stage hs => ?_) fun h => by rw [hstage] at h; cases h)
      refine IoSafe.bind (IoSafe.okOr (fun mode' hm => ?_) fun h => by rw [hmode] at h; cases h)
      rw [hstage, Option.some.injEq] at hs
      rw [hmode, Option.some.injEq] at hm
      subst hs hm
      refine IoSafe.bind (IoSafe.attempt (writeNewFileMode_located hat.located_stage
        (hG fs (.refl _ _) fun e' he' => (hinit e' he').2)
        (fun _ s hs => hG s ((hs.same.mono hsub).mono hnames) (hwrite s hs))
        (fun _ i s hs => ?_) (fun _ _ error s hs => ?_) fun error _ => ?_))
      · exact hnext { e with inst := some i } s (hs.same.mono hsub)
          (by rw [← hforget]; rfl) (ready_written hun hd hs)
      · exact hstop error s (hs.same.mono hsub) (hwrite s hs)
      · exact hstop error fs (.refl _ _) fun e' he' => (hinit e' he').2

/-! ### Rolling back and finishing -/

/-- The journal `journal` is visible and every entry is in a combination satisfying `K`. -/
structure Under (T : Transaction ext) (journal : Journal)
    (K : Entry → Option File → Option Node → Option Node → Prop) (es : List Entry)
    (fs : Fs) : Prop extends T.Ready fs where
  visible : T.Visible journal fs
  entries : ∀ e ∈ es, e.In K fs

variable {journal : Journal} {K : Entry → Option File → Option Node → Option Node → Prop}

theorem Under.frame (h : T.Under journal K es fs) (hes : es.map Entry.slot = T.slots)
    (hs : Fs.SameOff (Entry.allNames es) fs fs') (hk : ∀ e ∈ es, e.In K fs') :
    T.Under journal K es fs' := ⟨h.toReady.frame hes hs, h.visible.frame hes hs, hk⟩

theorem Under.restage (h : T.Under journal K es fs) (hes : es.map Entry.slot = T.slots)
    (hs : Fs.SameOff [T.stage] fs fs') (hr : T.Ready fs') : T.Under journal K es fs' :=
  ⟨hr, h.visible.stage hs, Entry.in_control hes (hs.mono stage_sub_control) h.entries⟩

/-- **Rolling back on the spot**: the transaction ends where it was, or with its journal. -/
theorem rollbackTransaction_safe (hC : C → fail = false) (hes : es.map Entry.slot = T.slots)
    {Q : Except IoError Unit → Fs → Prop} {primary : IoError}
    (hK : ∀ e ∈ es, e.slot.Undoable C e.inst (K e)) (h : T.Under journal K es fs)
    (hG : ∀ fs', T.Under journal K es fs' → AllOk G fs') (hG' : ∀ fs', T.Resting C fs' → AllOk G fs')
    (hQ : ∀ e fs', T.Under journal K es fs' ∨ T.Resting C fs' → Q (.error e) fs') :
    IoSafe fail U G Q (rollbackTransaction ext (.ofPath T.journal) (operations ext es)
      primary) fs := by
  refine IoSafe.bind (Entry.rollbackOperations_safe hC (apart_of_entries hes) hK h.entries
    (fun fs' hs' hk' => hG fs' (h.frame hes hs' hk'))
    fun errors fs₁ hs₁ hk₁ _ horig _ _ => ?_)
  have h₁ := h.frame hes hs₁ hk₁
  unfold finishFailedTransaction
  refine IoSafe.ite (fun _ => IoSafe.throw (hQ _ fs₁ (.inl h₁))) fun hnil => ?_
  rw [not_not] at hnil
  have horig₁ := horig (.inl hnil)
  obtain ⟨f, hf, -⟩ := h₁.visible
  refine IoSafe.bind (IoSafe.mapErr (cleanupJournalStage_ready h₁.toReady (o := some f) hf
    (fun fs' hs' hr' => hG fs' (h₁.restage hes hs' hr')) (fun fs₂ hs₂ hr₂ _ => ?_)
    fun _ e fs' hs' hr' => hQ _ fs' (.inl (h₁.restage hes hs' hr'))))
  have h₂ := h₁.restage hes hs₂ hr₂
  have hall₂ := hG fs₂ h₂
  have hf₂ : fs₂.get T.journal = some (.file f) := by rw [hs₂.get _ journal_not_mem_stage, hf]
  have hholds : Holds fs₂ T.journal (some f) := ⟨hr₂.located_journal, hf₂⟩
  have hrest : T.Resting C (fs₂.del T.journal) := hr₂.resting hes fun e he =>
    Entry.local_at e _ _ _ (hs₂.mono stage_sub_control) (away_control hes he) (horig₁ e he)
  refine IoSafe.bind (IoSafe.mapErr (readRegular_holds hholds hall₂.quiet ?_
    fun _ e => hQ _ fs₂ (.inl h₂)))
  exact IoSafe.bind (IoSafe.mapErr (removeJournal_safe hholds hall₂ (hG' _ hrest)
    (IoSafe.throw (hQ _ _ (.inr hrest))) (fun _ e => hQ _ fs₂ (.inl h₂))
    fun _ e => hQ _ _ (.inr hrest)))

theorem Committed.frame (h : T.Committed es fs) (hs : Fs.SameOff (Entry.allNames es) fs fs')
    (hk : ∀ e ∈ es, e.CommittedAt fs') : T.Committed es fs' :=
  ⟨h.toReady.frame h.entries hs, h.entries, h.journal.frame h.entries hs, h.recorded, hk⟩

/-- **Finishing** a committed transaction. -/
theorem finishCommitted_safe {Q : Except IoError Unit → Fs → Prop} (h : T.Committed es fs)
    (hstage : fs.get T.stage = none)
    (hG : ∀ fs', T.Committed es fs' → AllOk G fs') (hG' : ∀ fs', T.Done es fs' → AllOk G fs')
    (hok : ∀ fs', T.Done es fs' → fs'.get T.stage = none → Q (.ok ()) fs')
    (herr : fail = true → ∀ e fs', T.Committed es fs' ∨ T.Done es fs' → Q (.error e) fs') :
    IoSafe fail U G Q
      (finishCommitted ext (.ofPath T.journal) (operations ext es)) fs := by
  obtain ⟨f, hf, -⟩ := h.journal
  refine IoSafe.bind (Entry.cleanupCommitted_safe (apart_of_entries h.entries) h.applied
    (fun fs' hs' hk' => hG fs' (h.frame hs' hk')) fun errors fs₁ hs₁ hk₁ hfinal hnil => ?_)
  have h₁ := h.frame hs₁ hk₁
  refine IoSafe.ite (fun hne => IoSafe.throw (herr ?_ _ fs₁ (.inl h₁))) fun hnil' => ?_
  · cases hfail : fail with
    | true => rfl
    | false => exact absurd (hnil hfail) hne
  · rw [not_not] at hnil'
    have hf₁ : fs₁.get T.journal = some (.file f) := by
      rw [hs₁.get _ (not_mem_allNames h.entries journal_mem (List.prefix_refl _)), hf]
    have hholds : Holds fs₁ T.journal (some f) := ⟨h₁.toReady.located_journal, hf₁⟩
    have hdone : T.Done es (fs₁.del T.journal) := by
      refine ⟨h₁.toReady.del_journal, h.entries, Fs.get_del_self _ _, h.recorded, fun e he => ?_⟩
      exact Entry.local_at e _ _ _ ((Fs.SameOff.del (List.mem_singleton.2 rfl)).mono
        journal_sub_control) (away_control h.entries he) (hfinal hnil' e he)
    refine IoSafe.bind (readRegular_holds hholds (hG fs₁ h₁).quiet ?_
      fun hfail e => herr hfail e fs₁ (.inl h₁))
    refine IoSafe.bind (IoSafe.pure ?_)
    refine IoSafe.mapErr (removeJournal_safe hholds (hG fs₁ h₁) (hG' _ hdone) (hok _ hdone ?_)
      (fun hfail e => herr hfail _ fs₁ (.inl h₁)) fun hfail e => herr hfail _ _ (.inr hdone))
    refine (get_stage_del_journal fs₁).trans ?_
    rw [hs₁.get _ (not_mem_allNames h.entries stage_mem_control (List.prefix_refl _)), hstage]

/-! ### The whole commit -/

/-- What is asked of the guard `G` and the postcondition `Q` of a commit: they hold in the phases
it goes through, and of what it does once a committed journal is visible. -/
structure Obligations (T : Transaction ext) (C : Prop) (fail : Bool) (U : Fs → Prop)
    (G : ∀ ⦃β : Type⦄, Sys β → Fs → Prop) (Q : Except IoError Unit → Fs → Prop) : Prop where
  resting : ∀ fs, T.Resting C fs → AllOk G fs
  prepared : ∀ es fs, T.Prepared C es fs → AllOk G fs
  committed : ∀ es fs, T.Committed es fs → QuietOk G fs
  error : ∀ e fs, T.Resting C fs ∨ (∃ es, T.Prepared C es fs) → Q (.error e) fs
  finish : ∀ es fs, T.Committed es fs → fs.get T.stage = none → IoSafe fail U G Q
    (finishCommitted ext (.ofPath T.journal) (operations ext es)) fs
  failed : fail = true → ∀ es error fs, T.Committed es fs → IoSafe fail U G Q
    (commitFailed ext (.ofPath T.journal) (T.record .prepared es) (T.record .committed es) error) fs

section Commit

variable {Q : Except IoError Unit → Fs → Prop} (ob : T.Obligations C fail U G Q)
  (hext : ext.Faithful) (hC : C → fail = false)

theorem Prepared.under (h : T.Prepared C es fs) :
    T.Under (T.record .prepared es) (fun e => e.slot.Kept C e.inst) es fs :=
  ⟨h.toReady, h.journal, h.kept⟩

theorem Under.prepared (hes : es.map Entry.slot = T.slots)
    (h : T.Under (T.record .prepared es) (fun e => e.slot.Kept C e.inst) es fs) :
    T.Prepared C es fs := ⟨h.toReady, hes, h.visible, h.entries⟩

include ob hC in
theorem rollbackTransaction_prepared {primary : IoError} (h : T.Prepared C es fs) :
    IoSafe fail U G Q (rollbackTransaction ext (.ofPath T.journal) (operations ext es)
      primary) fs :=
  rollbackTransaction_safe hC h.entries (fun e _ => Slot.undoable_kept e.slot C e.inst) h.under
    (fun fs' h' => ob.prepared es fs' (h'.prepared h.entries)) ob.resting
    fun e fs' h' => ob.error e fs' (h'.symm.imp id fun h' => ⟨es, h'.prepared h.entries⟩)

include ob hC in
theorem commitFailed_prepared {error : IoError} (h : T.Prepared C es fs) :
    IoSafe fail U G Q (commitFailed ext (.ofPath T.journal) (T.record .prepared es)
      (T.record .committed es) error) fs := by
  obtain ⟨f, hf, hparse⟩ := h.journal
  have hback : IoSafe fail U G Q (rollbackTransaction ext (.ofPath T.journal)
      (operations ext es) error) fs := rollbackTransaction_prepared ob hC h
  refine IoSafe.bind (IoSafe.bind (IoSafe.attempt (readRegular_holds (o := some f)
    ⟨h.toReady.located_journal, hf⟩ (ob.prepared es fs h).quiet (IoSafe.pure ?_)
    fun _ e => IoSafe.pure ?_)))
  · refine IoSafe.ite (fun heq => ?_) fun _ => hback
    -- the visible journal is still the prepared one
    rw [hparse] at heq
    exact absurd (congrArg Journal.state (Option.some.inj heq)) (fun h => nomatch h)
  · exact IoSafe.ite (fun heq => nomatch heq) fun _ => hback

include ob hext hC in
theorem commitJournal_safe (h : T.Prepared C es fs) (hstage : fs.get T.stage = none)
    (happ : ∀ e ∈ es, e.AppliedAt C fs) (hrec : ∀ e ∈ es, e.slot.Recorded e.inst) :
    IoSafe fail U G Q (commitJournal ext (.ofPath T.journal) (T.record .prepared es)) fs := by
  obtain ⟨f, hf, -⟩ := h.journal
  have hcomm : ∀ fs', Fs.SameOff T.control fs fs' → T.Ready fs' →
      T.Visible (T.record .committed es) fs' → T.Committed es fs' := fun fs' hs' hr' hv' =>
    ⟨hr', h.entries, hv', hrec, fun e he =>
      Entry.local_committedAt e hs' (away_control h.entries he) (happ e he).committedAt⟩
  refine IoSafe.bind (IoSafe.attempt (writeJournal_phase hext (o := some f) h.toReady hf hstage
    (fun fs' hs' hr' => ob.prepared es fs' (h.restage hs' hr'))
    (fun fs' hs' hr' hv' => ob.committed es fs' (hcomm fs' hs' hr' hv'))
    (fun fs' hs' hr' hst' hv' => ob.finish es fs' (hcomm fs' hs' hr' hv') hst')
    (fun e fs' hs' hr' => commitFailed_prepared ob hC (h.restage hs' hr'))
    fun hfail e fs' hs' hr' _ hv' => ob.failed hfail es e fs' (hcomm fs' hs' hr' hv')))

/-- The entries before their staged identities are known. -/
theorem entries_forget (hes : (es.map Entry.forget).map Entry.slot = T.slots) :
    es.map Entry.slot = T.slots := by
  rw [List.map_map] at hes
  exact hes

include ob hext hC in
theorem applyJournal_safe (hes : es.map Entry.slot = T.slots)
    (h : T.Under (T.record .prepared (es.map Entry.forget))
      (fun e => e.slot.Untouched C e.inst) es fs)
    (hstage : fs.get T.stage = none) (hready : ∀ e ∈ es, e.ReadyAt C fs) :
    IoSafe fail U G Q (applyJournal ext (.ofPath T.journal) (T.record .prepared es)) fs := by
  have hforget : ∀ fs', T.Under (T.record .prepared (es.map Entry.forget))
      (fun e => e.slot.Untouched C e.inst) es fs' → T.Prepared C (es.map Entry.forget) fs' := by
    intro fs' h'
    refine ⟨h'.toReady, by rw [List.map_map]; exact hes, h'.visible, fun e he => ?_⟩
    obtain ⟨e', he', rfl⟩ := List.mem_map.1 he
    exact (Entry.UntouchedAt.forget (h'.entries e' he')).stableAt
  have hprep : ∀ fs', Fs.SameOff T.control fs fs' → T.Ready fs' →
      T.Visible (T.record .prepared es) fs' → T.Prepared C es fs' := fun fs' hs' hr' hv' =>
    ⟨hr', hes, hv', fun e he => Entry.local_in _ e hs' (away_control hes he)
      (hready e he).stableAt⟩
  obtain ⟨f, hf, -⟩ := h.visible
  refine IoSafe.bind (IoSafe.attempt (writeJournal_phase hext (o := some f) h.toReady hf hstage
    (fun fs' hs' hr' => ob.prepared _ fs' (hforget fs' (h.restage hes hs' hr')))
    (fun fs' hs' hr' hv' => (ob.prepared es fs' (hprep fs' hs' hr' hv')).quiet)
    (fun fs₁ hs₁ hr₁ hst₁ hv₁ => ?_) (fun e fs' hs' hr' => ?_)
    fun _ e fs' hs' hr' _ hv' => rollbackTransaction_prepared ob hC (hprep fs' hs' hr' hv')))
  · have h₁ := hprep fs₁ hs₁ hr₁ hv₁
    refine IoSafe.bind (IoSafe.attempt (Entry.applyOperations_safe hC (apart_of_entries hes)
      (fun e he => Entry.local_readyAt C e hs₁ (away_control hes he) (hready e he))
      (fun fs' hs' hk' => ob.prepared es fs' (h₁.frame hs' hk')) (fun fs₂ hs₂ happ => ?_)
      fun _ e fs' hs' hk' => rollbackTransaction_prepared ob hC (h₁.frame hs' hk')))
    refine commitJournal_safe ob hext hC (h₁.frame hs₂ fun e he => (happ e he).stableAt) ?_ happ
      fun e he => (hready e he).recorded
    rw [hs₂.get _ (not_mem_allNames hes stage_mem_control (List.prefix_refl _)), hst₁]
  · -- the journal without the identities stays visible
    exact rollbackTransaction_safe hC hes (fun e _ => Slot.undoable_untouched e.slot C e.inst)
      (h.restage hes hs' hr') (fun fs' h' => ob.prepared _ fs' (hforget fs' h')) ob.resting
      fun e fs' h' => ob.error e fs' (h'.symm.imp id fun h' => ⟨_, hforget fs' h'⟩)

include ob hext hC in
/-- **The commit** goes through the phases of its transaction. -/
theorem commit_safe (hfree : C → ∀ sl ∈ T.slots, sl.occupant = none) (h : T.Resting C fs)
    (hstage : fs.get T.stage = none) :
    IoSafe fail U G Q (commit ext (.ofPath T.journal) T.nonce
      (T.slots.map (Slot.change ext.sha256Bytes))) fs := by
  refine IoSafe.bind (buildOperations_safe (List.drop_zero (l := T.slots))
    (fun fs' hg => ob.resting fs' (h.grown hg)) (fun es fs₁ hg₁ hes hbuilt => ?_)
    fun e fs' hg => ob.error e fs' (.inl (h.grown hg)))
  have h₁ := h.grown hg₁
  have hstage₁ : fs₁.get T.stage = none := by
    rw [hg₁.get_of_not (not_onTheWay_control stage_mem_control), hstage]
  have hun₁ : ∀ e ∈ es, e.inst = none ∧ e.UntouchedAt C fs₁ := fun e he =>
    ⟨(hbuilt e he).1, h₁.untouched hfree hes he (hbuilt e he).1 (hbuilt e he).2⟩
  have hops : (es.map (Entry.built ext.sha256Bytes)).map Prod.fst = operations ext es := by
    simp [operations, Entry.built]
  simp only [IoSafe.Then, hops]
  have hun : ∀ fs', Fs.SameOff T.control fs₁ fs' → T.Ready fs' →
      T.Visible (T.record .prepared es) fs' → T.Under (T.record .prepared es)
        (fun e => e.slot.Untouched C e.inst) es fs' := fun fs' hs' hr' hv' =>
    ⟨hr', hv', fun e he => Entry.local_in _ e hs' (away_control hes he) (hun₁ e he).2⟩
  have hprep : ∀ fs', T.Under (T.record .prepared es) (fun e => e.slot.Untouched C e.inst) es fs' →
      T.Prepared C es fs' := fun fs' h' =>
    ⟨h'.toReady, hes, h'.visible, fun e he => Entry.UntouchedAt.stableAt (h'.entries e he)⟩
  refine IoSafe.bind (writeJournal_phase hext (o := none) h₁.toReady h₁.journal hstage₁
    (fun fs' hs' hr' => ob.resting fs' (h₁.restage hs' hr'))
    (fun fs' hs' hr' hv' => (ob.prepared es fs' (hprep fs' (hun fs' hs' hr' hv'))).quiet)
    (fun fs₂ hs₂ hr₂ hst₂ hv₂ => ?_) (fun e fs' hs' hr' => ob.error e fs' (.inl (h₁.restage hs' hr')))
    fun _ e fs' hs' hr' _ hv' => ob.error e fs' (.inr ⟨es, hprep fs' (hun fs' hs' hr' hv')⟩))
  have h₂ := hun fs₂ hs₂ hr₂ hv₂
  refine IoSafe.bind (stageFiles_safe (apart_of_entries hes)
    (fun e he => ⟨(hbuilt e he).1, h₂.entries e he⟩)
    (fun fs' hs' hk' => ob.prepared es fs' (hprep fs' (h₂.frame hes hs' hk')))
    fun es' error fs₃ hs₃ hes' hun₃ hready => ?_)
  -- from here on the operations carry the staged identities, the visible journal does not
  have hslots : es'.map Entry.slot = T.slots := entries_forget (hes' ▸ hes)
  have h₃ : T.Under (T.record .prepared (es'.map Entry.forget))
      (fun e => e.slot.Untouched C e.inst) es' fs₃ :=
    ⟨h₂.toReady.frame hes hs₃, hes'.symm ▸ h₂.visible.frame hes hs₃, hun₃⟩
  cases error with
  | none =>
    refine applyJournal_safe ob hext hC hslots h₃ ?_ (hready rfl)
    rw [hs₃.get _ (not_mem_allNames hes stage_mem_control (List.prefix_refl _)), hst₂]
  | some primary =>
    have hforget : ∀ fs', T.Under (T.record .prepared (es'.map Entry.forget))
        (fun e => e.slot.Untouched C e.inst) es' fs' → T.Prepared C es fs' := by
      intro fs' h'
      refine ⟨h'.toReady, hes, hes' ▸ h'.visible, fun e he => ?_⟩
      rw [← hes'] at he
      obtain ⟨e', he', rfl⟩ := List.mem_map.1 he
      exact (Entry.UntouchedAt.forget (h'.entries e' he')).stableAt
    exact rollbackTransaction_safe hC hslots
      (fun e _ => Slot.undoable_untouched e.slot C e.inst) h₃
      (fun fs' h' => ob.prepared es fs' (hforget fs' h')) ob.resting
      fun e fs' h' => ob.error e fs' (h'.symm.imp id fun h' => ⟨es, hforget fs' h'⟩)

end Commit

end Transaction

end ArosTools
