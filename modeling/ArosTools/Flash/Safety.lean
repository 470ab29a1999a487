import ArosTools.Flash.Plan
import ArosTools.Program.Except

/-!
# An accepted flash plan erases only what it owns

The checks of a layout and of the artifacts are read as order-free conditions (`ValidLayout`,
`place`); from these follow the ranges of an accepted plan (`plan_placements`) and that the order
of the slots and of the artifacts does not matter (`plan_perm`).
-/

namespace ArosTools

namespace Flash

/-! ### Layouts -/

/-- The role of a slot is a short portable token and its range a non-empty run of sectors. -/
structure ValidSlot (layout : FlashLayout) (slot : FlashSlot) : Prop where
  nonempty : slot.role ≠ []
  short : slot.role.length ≤ 64
  portable : slot.role.all roleByte = true
  lt : slot.range.start < slot.range.stop
  le : slot.range.stop ≤ layout.flashBytes
  start : slot.range.start % layout.eraseSectorBytes = 0
  stop : slot.range.stop % layout.eraseSectorBytes = 0

/-- Two slots have different roles and disjoint ranges. -/
def Apart (a b : FlashSlot) : Prop := a.role ≠ b.role ∧ overlaps b.range a.range = false

theorem overlaps_comm (a b : FlashRange) : overlaps a b = overlaps b a :=
  Bool.and_comm _ _

theorem Apart.symm {a b : FlashSlot} (h : Apart a b) : Apart b a :=
  ⟨h.1.symm, overlaps_comm a.range b.range ▸ h.2⟩

instance : Std.Symm Apart := ⟨fun _ _ h => h.symm⟩

/-- A layout that passes its checks. -/
structure ValidLayout (layout : FlashLayout) : Prop where
  geometry : (layout.flashBytes = 0 || layout.eraseSectorBytes = 0 ||
    !isPowerOfTwo layout.eraseSectorBytes ||
    layout.flashBytes % layout.eraseSectorBytes ≠ 0) = false
  roles : (layout.slots = [] || layout.slots.length > maxRoles ||
    !layout.slots.any (fun slot => slot.nativeBuild)) = false
  slots : ∀ slot ∈ layout.slots, ValidSlot layout slot
  apart : layout.slots.Pairwise Apart

theorem validSlot_iff (layout : FlashLayout) (slot : FlashSlot) :
    ValidSlot layout slot ↔
      (slot.role = [] || slot.role.length > 64 || !slot.role.all roleByte) = false ∧
      (slot.range.start ≥ slot.range.stop || slot.range.stop > layout.flashBytes ||
        slot.range.start % layout.eraseSectorBytes ≠ 0 ||
        slot.range.stop % layout.eraseSectorBytes ≠ 0) = false := by
  constructor
  · rintro ⟨h₁, h₂, h₃, h₄, h₅, h₆, h₇⟩
    simp [h₁, h₂, h₃, h₄, h₅, h₆, h₇]
  · simp only [Bool.or_eq_false_iff, decide_eq_false_iff_not, Bool.not_eq_false', not_lt,
      ge_iff_le, UInt64.not_le, UInt64.not_lt, gt_iff_lt, ne_eq, not_not]
    rintro ⟨⟨⟨h₁, h₂⟩, h₃⟩, ⟨⟨h₄, h₅⟩, h₆⟩, h₇⟩
    exact ⟨h₁, h₂, h₃, h₄, h₅, h₆, h₇⟩

theorem validateSlots_cons {layout : FlashLayout} {previous rest r : List FlashSlot}
    {slot : FlashSlot} :
    validateSlots layout previous (slot :: rest) = .ok r ↔
      ValidSlot layout slot ∧ (∀ s ∈ previous, Apart s slot) ∧
        validateSlots layout (previous ++ [slot]) rest = .ok r := by
  have hapart : (∀ s ∈ previous, Apart s slot) ↔
      previous.any (fun s => s.role == slot.role) = false ∧
        previous.any (fun s => overlaps slot.range s.range) = false := by
    simp only [List.any_eq_false, beq_iff_eq, Bool.not_eq_true, ← forall_and]
    rfl
  rw [validateSlots, validSlot_iff, hapart, Bool.or_eq_false_iff]
  split_ifs with h₁ h₂ h₃
  · refine ⟨nofun, ?_⟩
    rintro ⟨⟨⟨h, h'⟩, -⟩, ⟨h'', -⟩, -⟩
    simp [h, h', h''] at h₁
  · refine ⟨nofun, ?_⟩
    rintro ⟨⟨-, h⟩, -⟩
    rw [h] at h₂
    cases h₂
  · refine ⟨nofun, ?_⟩
    rintro ⟨-, ⟨-, h⟩, -⟩
    rw [h] at h₃
    cases h₃
  · rw [Bool.not_eq_true] at h₁ h₂ h₃
    rw [Bool.or_eq_false_iff, Bool.or_eq_false_iff] at h₁
    exact ⟨fun h => ⟨⟨h₁.1, h₂⟩, ⟨h₁.2, h₃⟩, h⟩, fun h => h.2.2⟩

theorem validateSlots_ok {layout : FlashLayout} {previous rest r : List FlashSlot} :
    validateSlots layout previous rest = .ok r ↔
      r = previous ++ rest ∧ (∀ slot ∈ rest, ValidSlot layout slot) ∧
      (∀ slot ∈ rest, ∀ s ∈ previous, Apart s slot) ∧ rest.Pairwise Apart := by
  induction rest generalizing previous with
  | nil => simp [validateSlots, eq_comm]
  | cons slot rest ih =>
    rw [validateSlots_cons, ih]
    simp only [List.mem_cons, forall_eq_or_imp, List.pairwise_cons, List.mem_append,
      List.append_assoc, List.cons_append, List.nil_append]
    constructor
    · rintro ⟨hv, ha, rfl, hvs, has, hp⟩
      exact ⟨rfl, ⟨hv, hvs⟩, ⟨ha, fun s hs p hp => has s hs p (.inl hp)⟩,
        fun s hs => has s hs slot (.inr (.inl rfl)), hp⟩
    · rintro ⟨rfl, ⟨hv, hvs⟩, ⟨ha, has⟩, hslot, hp⟩
      refine ⟨hv, ha, rfl, hvs, fun s hs p hp => ?_, hp⟩
      rcases hp with hp | rfl | hp
      · exact has s hs p hp
      · exact hslot s hs
      · cases hp

theorem validateLayout_ok {layout : FlashLayout} {slots : List FlashSlot} :
    validateLayout layout = .ok slots ↔ ValidLayout layout ∧ slots = layout.slots := by
  rw [validateLayout, ite_error_eq_ok, validateSlots_ok, Bool.not_eq_true]
  constructor
  · rintro ⟨hg, rfl, hv, -, ha⟩
    simp only [Bool.or_eq_false_iff] at hg
    refine ⟨⟨?_, ?_, hv, ha⟩, List.nil_append _⟩
    · simp only [Bool.or_eq_false_iff]
      exact hg.1.1.1
    · simp only [Bool.or_eq_false_iff]
      exact ⟨⟨hg.1.1.2, hg.1.2⟩, hg.2⟩
  · rintro ⟨⟨hg, hr, hv, ha⟩, rfl⟩
    simp only [Bool.or_eq_false_iff] at hg hr ⊢
    exact ⟨⟨⟨⟨hg, hr.1.1⟩, hr.1.2⟩, hr.2⟩, rfl, hv, by simp, ha⟩

/-- The order of the slots does not matter to the checks. -/
theorem ValidLayout.perm {layout : FlashLayout} {slots : List FlashSlot}
    (h : ValidLayout layout) (hp : slots.Perm layout.slots) :
    ValidLayout { layout with slots := slots } where
  geometry := h.geometry
  roles := by
    have hr := h.roles
    simp only [Bool.or_eq_false_iff, decide_eq_false_iff_not, Bool.not_eq_false',
      List.any_eq_true] at hr ⊢
    refine ⟨⟨fun h0 => hr.1.1 ?_, by rw [hp.length_eq]; exact hr.1.2⟩, ?_⟩
    · exact List.nil_perm.mp (h0 ▸ hp)
    · obtain ⟨slot, hs, hn⟩ := hr.2
      exact ⟨slot, hp.mem_iff.mpr hs, hn⟩
  slots := fun slot hs =>
    let v := h.slots slot (hp.mem_iff.mp hs)
    ⟨v.nonempty, v.short, v.portable, v.lt, v.le, v.start, v.stop⟩
  apart := (hp.pairwise_iff fun h => h.symm).mpr h.apart

/-! ### Placing one artifact -/

section Plan

variable (env : Environment) (root : PathBuf) (layout : FlashLayout)
  (nativeBuildSet : Sha256Digest) (slots : List FlashSlot)

/-- What the loop does with one artifact, apart from the comparison with the others: its folded
path and its placement. -/
def place (artifact : FlashArtifact) : Option (Bytes × FlashPlacement) := do
  let slot ← slots.find? fun slot => slot.role == artifact.role
  if artifact.relativePath.length > 4096 then none
  else do
    let path := PathBuf.ofBytes artifact.relativePath
    let key ← (casefoldPathKey path).toOption
    if artifact.nativeBuildSetSha256 ≠
        (if slot.nativeBuild then some nativeBuildSet else none) then none
    else do
      let payloadStop ← payloadEnd slot.range artifact.sizeBytes
      let eraseStop ← eraseEnd slot.range layout.eraseSectorBytes payloadStop
      (verifyFile env (root.joinPath path) artifact).toOption
      pure (key,
        { role := artifact.role, relativePath := artifact.relativePath,
          sha256 := artifact.sha256, sizeBytes := artifact.sizeBytes,
          receiptSha256 := artifact.receiptSha256,
          payload := ⟨slot.range.start, payloadStop⟩,
          erase := ⟨slot.range.start, eraseStop⟩ })

variable {env root layout nativeBuildSet slots}

theorem placeArtifacts_cons {roles paths : List Bytes} {placements out : List FlashPlacement}
    {artifact : FlashArtifact} {rest : List FlashArtifact} :
    placeArtifacts env root layout nativeBuildSet slots roles paths placements
        (artifact :: rest) = .ok out ↔
      ∃ key placement,
        place env root layout nativeBuildSet slots artifact = some (key, placement) ∧
        artifact.role ∉ roles ∧ key ∉ paths ∧
        placeArtifacts env root layout nativeBuildSet slots (roles ++ [artifact.role])
          (paths ++ [key]) (placements ++ [placement]) rest = .ok out := by
  have htoOption : ∀ {ε α : Type} {x : Except ε α} {a : α},
      x.toOption = some a ↔ x = .ok a := by
    intro ε α x a
    cases x <;> simp [Except.toOption]
  rw [placeArtifacts, Except.bind_eq_ok]
  simp only [ite_error_eq_ok, Except.bind_eq_ok, elim_error_eq_ok, mapError_eq_ok, place,
    Option.bind_eq_bind, Option.bind_eq_some_iff, htoOption, Option.ite_none_left_eq_some,
    Option.pure_def, Option.some.injEq, Prod.mk.injEq, List.contains_eq_mem, decide_eq_true_eq]
  constructor
  · rintro ⟨slot, hslot, hrole, hlen, key, hkey, hpath, horigin, p, hp, e, he, u, hu, h⟩
    exact ⟨key, _, ⟨slot, hslot, hlen, key, hkey, horigin, p, hp, e, he, u, hu, rfl, rfl⟩,
      hrole, hpath, h⟩
  · rintro ⟨key, _, ⟨slot, hslot, hlen, _, hkey, horigin, p, hp, e, he, u, hu, rfl, rfl⟩,
      hrole, hpath, h⟩
    exact ⟨slot, hslot, hrole, hlen, _, hkey, hpath, horigin, p, hp, e, he, u, hu, h⟩

/-- Every artifact has a placement, and no two share a role or a folded path. -/
structure Placeable (place : FlashArtifact → Option (Bytes × FlashPlacement))
    (artifacts : List FlashArtifact) : Prop where
  some : ∀ a ∈ artifacts, (place a).isSome
  roles : (artifacts.map fun a => a.role).Nodup
  paths : ((artifacts.filterMap place).map Prod.fst).Nodup

theorem placeArtifacts_ok {roles paths : List Bytes} {placements out : List FlashPlacement}
    {artifacts : List FlashArtifact} :
    placeArtifacts env root layout nativeBuildSet slots roles paths placements artifacts =
        .ok out ↔
      Placeable (place env root layout nativeBuildSet slots) artifacts ∧
      (∀ a ∈ artifacts, a.role ∉ roles) ∧
      (∀ r ∈ artifacts.filterMap (place env root layout nativeBuildSet slots), r.1 ∉ paths) ∧
      out = placements ++
        (artifacts.filterMap (place env root layout nativeBuildSet slots)).map Prod.snd := by
  induction artifacts generalizing roles paths placements out with
  | nil =>
    simp only [placeArtifacts, Except.ok.injEq, List.filterMap_nil, List.map_nil,
      List.append_nil, List.not_mem_nil, false_implies, implies_true, true_and]
    exact ⟨fun h => ⟨⟨by simp, by simp, by simp⟩, h.symm⟩, fun h => h.2.symm⟩
  | cons a rest ih =>
    rw [placeArtifacts_cons]
    constructor
    · rintro ⟨key, placement, hplace, hrole, hpath, h⟩
      obtain ⟨hok, hroles, hpaths, rfl⟩ := ih.mp h
      rw [List.filterMap_cons_some hplace]
      refine ⟨⟨?_, ?_, ?_⟩, ?_, ?_, by simp⟩
      · simp only [List.mem_cons, forall_eq_or_imp, hplace, Option.isSome_some, true_and]
        exact hok.some
      · rw [List.map_cons, List.nodup_cons, List.mem_map]
        refine ⟨?_, hok.roles⟩
        rintro ⟨b, hb, hab⟩
        exact hroles b hb (by simp [hab])
      · rw [List.filterMap_cons_some hplace, List.map_cons, List.nodup_cons, List.mem_map]
        refine ⟨?_, hok.paths⟩
        rintro ⟨r, hr, hkey⟩
        exact hpaths r hr (by simp [hkey])
      · simp only [List.mem_cons, forall_eq_or_imp]
        exact ⟨hrole, fun b hb hmem => hroles b hb (by simp [hmem])⟩
      · simp only [List.mem_cons, forall_eq_or_imp]
        exact ⟨hpath, fun r hr hmem => hpaths r hr (by simp [hmem])⟩
    · rintro ⟨⟨hsome, hnodup, hkeys⟩, hroles, hpaths, rfl⟩
      obtain ⟨⟨key, placement⟩, hplace⟩ := Option.isSome_iff_exists.mp (hsome a (by simp))
      rw [List.filterMap_cons_some hplace] at hkeys hpaths ⊢
      rw [List.map_cons, List.nodup_cons] at hnodup hkeys
      refine ⟨key, placement, hplace, hroles a (by simp), hpaths (key, placement) (by simp),
        ih.mpr ?_⟩
      refine ⟨⟨fun b hb => hsome b (by simp [hb]), hnodup.2, hkeys.2⟩, fun b hb hmem => ?_,
        fun r hr hmem => ?_, by simp⟩
      · rcases List.mem_append.mp hmem with hmem | hmem
        · exact hroles b (by simp [hb]) hmem
        · exact hnodup.1 (List.mem_map.mpr ⟨b, hb, List.mem_singleton.mp hmem⟩)
      · rcases List.mem_append.mp hmem with hmem | hmem
        · exact hpaths r (by simp [hr]) hmem
        · exact hkeys.1 (List.mem_map.mpr ⟨r, hr, List.mem_singleton.mp hmem⟩)

theorem Placeable.perm {place : FlashArtifact → Option (Bytes × FlashPlacement)}
    {artifacts artifacts' : List FlashArtifact} (h : Placeable place artifacts)
    (hp : artifacts'.Perm artifacts) : Placeable place artifacts' where
  some := fun a ha => h.some a (hp.mem_iff.mp ha)
  roles := ((hp.map _).nodup_iff).mpr h.roles
  paths := (((hp.filterMap _).map _).nodup_iff).mpr h.paths

/-! ### The ranges of one placement -/

theorem checkedAdd64_eq_some {a b c : UInt64} :
    checkedAdd64 a b = .some c ↔ c.toNat = a.toNat + b.toNat := by
  unfold checkedAdd64
  have hc := c.toNat_lt
  split_ifs with h
  · rw [Option.some.injEq, ← UInt64.toNat_inj, UInt64.toNat_add, Nat.mod_eq_of_lt h, eq_comm]
  · exact ⟨nofun, fun h' => absurd (h' ▸ hc) h⟩

/-- The ranges of a payload of `size` bytes in a slot: the payload fills the slot from its start,
and the erase range is the payload's end rounded up to a sector, with no sum leaving 64 bits. -/
structure Ranges (sector size : UInt64) (slot : FlashRange) (payload erase : FlashRange) :
    Prop where
  payloadStart : payload.start = slot.start
  eraseStart : erase.start = slot.start
  nonempty : 0 < size.toNat
  payloadStop : payload.stop.toNat = payload.start.toNat + size.toNat
  noOverflow : payload.stop.toNat + (sector.toNat - 1) < 2 ^ 64
  eraseStop : erase.stop.toNat = (payload.stop.toNat + (sector.toNat - 1)) / sector.toNat *
    sector.toNat
  inSlot : erase.stop ≤ slot.stop

theorem ranges_of_ends {sector size p e : UInt64} {slot : FlashRange} (hsector : sector ≠ 0)
    (hp : payloadEnd slot size = .some p) (he : eraseEnd slot sector p = .some e) :
    Ranges sector size slot ⟨slot.start, p⟩ ⟨slot.start, e⟩ := by
  unfold payloadEnd at hp
  unfold eraseEnd at he
  rw [Option.filter_eq_some_iff] at hp he
  obtain ⟨hadd, hp⟩ := hp
  obtain ⟨hround, he⟩ := he
  obtain ⟨sum, hsum, rfl⟩ := Option.map_eq_some_iff.mp hround
  simp only [Bool.and_eq_true, decide_eq_true_eq] at hp he
  rw [checkedAdd64_eq_some] at hadd hsum
  have hpos : 0 < sector.toNat := by
    rw [Nat.pos_iff_ne_zero]
    exact fun h => hsector (UInt64.toNat_inj.mp h)
  have hpred : (sector - 1).toNat = sector.toNat - 1 := by
    have hle : (1 : UInt64) ≤ sector := by
      rw [UInt64.le_iff_toNat_le]
      exact hpos
    rw [UInt64.toNat_sub_of_le _ _ hle]
    rfl
  rw [hpred] at hsum
  refine ⟨rfl, rfl, ?_, hadd, ?_, ?_, he⟩
  · rw [Nat.pos_iff_ne_zero]
    exact fun h => hp.1 (UInt64.toNat_inj.mp h)
  · exact hsum ▸ sum.toNat_lt
  · have hle : sum.toNat / sector.toNat * sector.toNat ≤ sum.toNat := Nat.div_mul_le_self _ _
    have := sum.toNat_lt
    rw [UInt64.toNat_mul, UInt64.toNat_div, Nat.mod_eq_of_lt (by omega), hsum]

/-- The facts an accepted artifact establishes. -/
theorem place_spec {artifact : FlashArtifact} {key : Bytes} {placement : FlashPlacement}
    (hsector : layout.eraseSectorBytes ≠ 0)
    (h : place env root layout nativeBuildSet slots artifact = .some (key, placement)) :
    placement.role = artifact.role ∧ ∃ slot ∈ slots, slot.role = artifact.role ∧
      Ranges layout.eraseSectorBytes artifact.sizeBytes slot.range placement.payload
        placement.erase := by
  simp only [place, Option.bind_eq_bind, Option.bind_eq_some_iff, Option.ite_none_left_eq_some,
    Option.pure_def, Option.some.injEq, Prod.mk.injEq] at h
  obtain ⟨slot, hslot, -, _, -, -, p, hp, e, he, _, -, -, rfl⟩ := h
  refine ⟨rfl, slot, List.mem_of_find?_eq_some hslot, ?_, ranges_of_ends hsector hp he⟩
  have hrole := List.find?_some hslot
  exact beq_iff_eq.mp hrole

/-! ### Sorting by a start address -/

/-- Sorting by distinct keys forgets the order of the input. -/
theorem mergeSort_perm_eq {α : Type} (key : α → UInt64) {l l' : List α} (hp : l.Perm l')
    (hkey : l.Pairwise fun a b => key a ≠ key b) :
    l.mergeSort (fun a b => key a ≤ key b) = l'.mergeSort fun a b => key a ≤ key b := by
  have hsorted : ∀ m : List α,
      (m.mergeSort fun a b => key a ≤ key b).Pairwise fun a b => decide (key a ≤ key b) := by
    intro m
    apply List.pairwise_mergeSort
    · intro a b c hab hbc
      simp only [decide_eq_true_eq, UInt64.le_iff_toNat_le] at *
      omega
    · intro a b
      simp only [Bool.or_eq_true, decide_eq_true_eq, UInt64.le_iff_toNat_le]
      omega
  refine List.Perm.eq_of_pairwise ?_ (hsorted l) (hsorted l')
    ((List.mergeSort_perm _ _).trans (hp.trans (List.mergeSort_perm _ _).symm))
  intro a b ha hb hab hba
  by_contra hne
  have ha' : a ∈ l := (List.mergeSort_perm _ _).mem_iff.mp ha
  have hb' : b ∈ l := hp.mem_iff.mpr ((List.mergeSort_perm _ _).mem_iff.mp hb)
  have hsymm : Std.Symm fun a b => key a ≠ key b := ⟨fun _ _ h => h.symm⟩
  have hdistinct := hkey.forall ha' hb' hne
  simp only [decide_eq_true_eq, UInt64.le_iff_toNat_le] at hab hba
  exact hdistinct (UInt64.toNat_inj.mp (by omega))

theorem sector_ne_zero (h : ValidLayout layout) : layout.eraseSectorBytes ≠ 0 := by
  have hg := h.geometry
  simp only [Bool.or_eq_false_iff, decide_eq_false_iff_not] at hg
  exact hg.1.1.2

theorem starts_ne {a b : FlashSlot} (ha : ValidSlot layout a) (hb : ValidSlot layout b)
    (h : Apart a b) : a.range.start ≠ b.range.start := by
  intro heq
  have hov := h.2
  rw [overlaps, heq, Bool.and_eq_false_iff] at hov
  have hla := ha.lt
  rw [heq] at hla
  rcases hov with hov | hov
  · exact absurd hla (of_decide_eq_false hov)
  · exact absurd hb.lt (of_decide_eq_false hov)

theorem find_slot_iff (h : ValidLayout layout) {role : Bytes} {slot : FlashSlot} :
    layout.slots.find? (fun s => s.role == role) = .some slot ↔
      slot ∈ layout.slots ∧ slot.role = role := by
  constructor
  · intro hf
    exact ⟨List.mem_of_find?_eq_some hf, beq_iff_eq.mp (List.find?_some hf :)⟩
  · rintro ⟨hmem, rfl⟩
    have hsome : (layout.slots.find? fun s => s.role == slot.role).isSome :=
      List.find?_isSome.mpr ⟨slot, hmem, beq_self_eq_true slot.role⟩
    obtain ⟨s, hs⟩ := Option.isSome_iff_exists.mp hsome
    have hrole : s.role = slot.role := beq_iff_eq.mp (List.find?_some hs :)
    have hsame : s = slot := by
      by_contra hne
      exact (h.apart.forall (List.mem_of_find?_eq_some hs) hmem hne).1 hrole
    rw [hs, hsame]

variable (env root nativeBuildSet) in
theorem place_perm (h : ValidLayout layout) {slots' : List FlashSlot}
    (hp : slots'.Perm layout.slots) :
    place env root { layout with slots := slots' } nativeBuildSet slots' =
      place env root layout nativeBuildSet layout.slots := by
  have hfind : ∀ role : Bytes, slots'.find? (fun s => s.role == role) =
      layout.slots.find? fun s => s.role == role := by
    intro role
    apply Option.ext
    intro slot
    rw [find_slot_iff h, ← hp.mem_iff]
    exact find_slot_iff (h.perm hp)
  funext artifact
  unfold place
  rw [hfind]

/-! ### Whole plans -/

/-- The placements of a list of artifacts, in the artifacts' order. -/
def placements (place : FlashArtifact → Option (Bytes × FlashPlacement))
    (artifacts : List FlashArtifact) : List FlashPlacement :=
  (artifacts.filterMap place).map Prod.snd

theorem placements_perm (place : FlashArtifact → Option (Bytes × FlashPlacement))
    {artifacts artifacts' : List FlashArtifact} (hp : artifacts.Perm artifacts') :
    (placements place artifacts).Perm (placements place artifacts') :=
  (hp.filterMap place).map Prod.snd

theorem planFlashArtifacts_ok {artifacts : List FlashArtifact} {plan : FlashPlan} :
    planFlashArtifacts env root layout nativeBuildSet artifacts = .ok plan ↔
      ValidLayout layout ∧ artifacts.length = layout.slots.length ∧
      Placeable (place env root layout nativeBuildSet layout.slots) artifacts ∧
      ∃ layoutBytes,
        env.toJson { layout with
          slots := layout.slots.mergeSort fun a b => a.range.start ≤ b.range.start } =
            .some layoutBytes ∧
        plan =
          { sourceContractSha256 := layout.sourceContractSha256
            resolvedLayoutSha256 := env.sha256Bytes layoutBytes
            nativeBuildSetSha256 := nativeBuildSet
            flashBytes := layout.flashBytes
            eraseSectorBytes := layout.eraseSectorBytes
            placements :=
              (placements (place env root layout nativeBuildSet layout.slots)
                artifacts).mergeSort fun a b => a.payload.start ≤ b.payload.start } := by
  rw [planFlashArtifacts, Except.bind_eq_ok]
  simp only [validateLayout_ok, ite_error_eq_ok, Except.bind_eq_ok, elim_error_eq_ok,
    placeArtifacts_ok, ne_eq, not_not]
  constructor
  · rintro ⟨slots, ⟨hv, rfl⟩, hlen, ps, ⟨hok, -, -, rfl⟩, bytes, hjson, h⟩
    exact ⟨hv, hlen, hok, bytes, hjson, (Except.ok.inj h).symm⟩
  · rintro ⟨hv, hlen, hok, bytes, hjson, rfl⟩
    exact ⟨_, ⟨hv, rfl⟩, hlen, _, ⟨hok, by simp, by simp, rfl⟩, bytes, hjson, rfl⟩

section Accepted

variable {artifacts : List FlashArtifact}

theorem mem_placements {placement : FlashPlacement}
    (h : placement ∈ placements (place env root layout nativeBuildSet slots) artifacts) :
    ∃ a ∈ artifacts, ∃ key,
      place env root layout nativeBuildSet slots a = .some (key, placement) := by
  obtain ⟨⟨key, _⟩, hr, rfl⟩ := List.mem_map.mp h
  obtain ⟨a, ha, hplace⟩ := List.mem_filterMap.mp hr
  exact ⟨a, ha, key, hplace⟩

/-- The roles of the placements are the roles of the artifacts. -/
theorem placements_roles (hsector : layout.eraseSectorBytes ≠ 0)
    (h : ∀ a ∈ artifacts, (place env root layout nativeBuildSet slots a).isSome) :
    (placements (place env root layout nativeBuildSet slots) artifacts).map (fun p => p.role) =
      artifacts.map fun a => a.role := by
  induction artifacts with
  | nil => rfl
  | cons a rest ih =>
    obtain ⟨⟨key, p⟩, hplace⟩ := Option.isSome_iff_exists.mp (h a (by simp))
    have hrest := ih fun b hb => h b (by simp [hb])
    unfold placements at hrest ⊢
    rw [List.filterMap_cons_some hplace, List.map_cons, List.map_cons, hrest, List.map_cons,
      (place_spec hsector hplace).1]

/-- Two placements of different roles start in different slots. -/
theorem placements_apart (hv : ValidLayout layout)
    (hok : Placeable (place env root layout nativeBuildSet layout.slots) artifacts) :
    (placements (place env root layout nativeBuildSet layout.slots) artifacts).Pairwise
      fun a b => ∃ s ∈ layout.slots, ∃ t ∈ layout.slots, Apart s t ∧
        (∃ n, Ranges layout.eraseSectorBytes n s.range a.payload a.erase) ∧
        ∃ n, Ranges layout.eraseSectorBytes n t.range b.payload b.erase := by
  have hroles := hok.roles
  rw [← placements_roles (sector_ne_zero hv) hok.some] at hroles
  rw [List.Nodup, List.pairwise_map] at hroles
  refine hroles.imp_of_mem fun {a b} ha hb hne => ?_
  obtain ⟨x, -, key, hx⟩ := mem_placements ha
  obtain ⟨y, -, key', hy⟩ := mem_placements hb
  obtain ⟨hrx, s, hs, hsr, hrs⟩ := place_spec (sector_ne_zero hv) hx
  obtain ⟨hry, t, ht, htr, hrt⟩ := place_spec (sector_ne_zero hv) hy
  refine ⟨s, hs, t, ht, ?_, ⟨_, hrs⟩, _, hrt⟩
  refine hv.apart.forall hs ht fun hst => hne ?_
  rw [hrx, hry, ← hsr, ← htr, hst]

theorem placements_starts (hv : ValidLayout layout)
    (hok : Placeable (place env root layout nativeBuildSet layout.slots) artifacts) :
    (placements (place env root layout nativeBuildSet layout.slots) artifacts).Pairwise
      fun a b => a.payload.start ≠ b.payload.start := by
  refine (placements_apart hv hok).imp fun {a b} h => ?_
  obtain ⟨s, hs, t, ht, hst, ⟨_, ra⟩, _, rb⟩ := h
  rw [ra.payloadStart, rb.payloadStart]
  exact starts_ne (hv.slots s hs) (hv.slots t ht) hst

theorem plan_perm_ok {slots' : List FlashSlot} {artifacts' : List FlashArtifact}
    {plan : FlashPlan} (hslots : slots'.Perm layout.slots) (hartifacts : artifacts'.Perm artifacts)
    (h : planFlashArtifacts env root layout nativeBuildSet artifacts = .ok plan) :
    planFlashArtifacts env root { layout with slots := slots' } nativeBuildSet artifacts' =
      .ok plan := by
  obtain ⟨hv, hlen, hok, bytes, hjson, rfl⟩ := planFlashArtifacts_ok.mp h
  have hplace := place_perm env root nativeBuildSet hv hslots
  refine planFlashArtifacts_ok.mpr ⟨hv.perm hslots, ?_, ?_, bytes, ?_, ?_⟩
  · rw [hartifacts.length_eq, hslots.length_eq, hlen]
  · rw [hplace]
    exact hok.perm hartifacts
  · rw [← hjson, mergeSort_perm_eq (fun s : FlashSlot => s.range.start) hslots.symm]
    exact hv.apart.imp_of_mem fun {a b} ha hb hab => starts_ne (hv.slots a ha) (hv.slots b hb) hab
  · have hsort := mergeSort_perm_eq (fun p : FlashPlacement => p.payload.start)
      (placements_perm _ hartifacts.symm) (placements_starts hv hok)
    rw [hplace, hsort]

/-- **Order independence.** Any order of the same slots and of the same artifacts gives the same
plan, or fails as well. -/
theorem plan_perm {slots' : List FlashSlot} {artifacts' : List FlashArtifact}
    (hslots : slots'.Perm layout.slots) (hartifacts : artifacts'.Perm artifacts) :
    (planFlashArtifacts env root { layout with slots := slots' } nativeBuildSet
        artifacts').toOption =
      (planFlashArtifacts env root layout nativeBuildSet artifacts).toOption := by
  apply Option.ext
  intro plan
  have htoOption : ∀ x : Except String FlashPlan, x.toOption = .some plan ↔ x = .ok plan := by
    intro x
    cases x <;> simp [Except.toOption]
  rw [htoOption, htoOption]
  exact ⟨plan_perm_ok hslots.symm hartifacts.symm, plan_perm_ok hslots hartifacts⟩

end Accepted

/-- What an accepted plan guarantees of one placement, made for the artifact `a` in the slot
`s`. -/
structure Sound (layout : FlashLayout) (a : FlashArtifact) (s : FlashSlot) (p : FlashPlacement) :
    Prop where
  artifactRole : a.role = p.role
  slotRole : s.role = p.role
  payloadLt : p.payload.start < p.payload.stop
  payloadIn : p.erase.start ≤ p.payload.start ∧ p.payload.stop ≤ p.erase.stop
  eraseIn : s.range.start ≤ p.erase.start ∧ p.erase.stop ≤ s.range.stop
  capacity : p.erase.stop ≤ layout.flashBytes
  alignedStart : layout.eraseSectorBytes.toNat ∣ p.erase.start.toNat
  alignedStop : layout.eraseSectorBytes.toNat ∣ p.erase.stop.toNat
  slack : p.erase.stop.toNat - p.payload.stop.toNat < layout.eraseSectorBytes.toNat
  size : p.payload.stop.toNat = p.payload.start.toNat + a.sizeBytes.toNat
  noOverflow : p.payload.stop.toNat + (layout.eraseSectorBytes.toNat - 1) < 2 ^ 64
  rounded : p.erase.stop.toNat = (p.payload.stop.toNat + (layout.eraseSectorBytes.toNat - 1)) /
    layout.eraseSectorBytes.toNat * layout.eraseSectorBytes.toNat

theorem sound_of_ranges (hv : ValidLayout layout) {a : FlashArtifact} {s : FlashSlot}
    {p : FlashPlacement} (hs : s ∈ layout.slots) (ha : a.role = p.role) (hr : s.role = p.role)
    (r : Ranges layout.eraseSectorBytes a.sizeBytes s.range p.payload p.erase) :
    Sound layout a s p := by
  have hslot := hv.slots s hs
  have hpos : 0 < layout.eraseSectorBytes.toNat := by
    rw [Nat.pos_iff_ne_zero]
    exact fun h => sector_ne_zero hv (UInt64.toNat_inj.mp h)
  have hdiv := Nat.div_add_mod (p.payload.stop.toNat + (layout.eraseSectorBytes.toNat - 1))
    layout.eraseSectorBytes.toNat
  have hmod := Nat.mod_lt (p.payload.stop.toNat + (layout.eraseSectorBytes.toNat - 1)) hpos
  rw [Nat.mul_comm, ← r.eraseStop] at hdiv
  have hstart : layout.eraseSectorBytes.toNat ∣ p.erase.start.toNat := by
    have h0 := congrArg UInt64.toNat hslot.start
    rw [UInt64.toNat_mod] at h0
    rw [r.eraseStart]
    exact Nat.dvd_of_mod_eq_zero h0
  have hstop := r.payloadStop
  have hne := r.nonempty
  refine ⟨ha, hr, ?_, ⟨?_, ?_⟩, ⟨?_, r.inSlot⟩, ?_, hstart, ?_, ?_, hstop, r.noOverflow,
    r.eraseStop⟩
  · rw [UInt64.lt_iff_toNat_lt]
    omega
  · rw [r.eraseStart, r.payloadStart]
    exact UInt64.le_refl _
  · rw [UInt64.le_iff_toNat_le]
    omega
  · rw [r.eraseStart]
    exact UInt64.le_refl _
  · have h₁ := r.inSlot
    have h₂ := hslot.le
    rw [UInt64.le_iff_toNat_le] at h₁ h₂ ⊢
    omega
  · rw [r.eraseStop]
    exact Nat.dvd_mul_left _ _
  · omega

/-- The ranges of an accepted plan. -/
theorem plan_placements {artifacts : List FlashArtifact} {plan : FlashPlan}
    (h : planFlashArtifacts env root layout nativeBuildSet artifacts = .ok plan) :
    (plan.placements.map fun p => p.role).Nodup ∧
    (plan.placements.map fun p => p.role).Perm (layout.slots.map fun s => s.role) ∧
    (plan.placements.map fun p => p.role).Perm (artifacts.map fun a => a.role) ∧
    (∀ p ∈ plan.placements, ∃ a ∈ artifacts, ∃ s ∈ layout.slots, Sound layout a s p) ∧
    plan.placements.Pairwise fun p q =>
      p.erase.stop ≤ q.erase.start ∨ q.erase.stop ≤ p.erase.start := by
  obtain ⟨hv, hlen, hok, bytes, -, rfl⟩ := planFlashArtifacts_ok.mp h
  have hsector := sector_ne_zero hv
  have hsort := List.mergeSort_perm
    (placements (place env root layout nativeBuildSet layout.slots) artifacts)
    fun a b => decide (a.payload.start ≤ b.payload.start)
  have hroles := (hsort.map fun p => p.role).trans
    (.of_eq (placements_roles hsector hok.some))
  have hnodup := hroles.nodup_iff.mpr hok.roles
  have hsound : ∀ p ∈ placements (place env root layout nativeBuildSet layout.slots) artifacts,
      ∃ a ∈ artifacts, ∃ s ∈ layout.slots, Sound layout a s p := by
    intro p hp
    obtain ⟨a, ha, key, hplace⟩ := mem_placements hp
    obtain ⟨hrole, s, hs, hsr, hranges⟩ := place_spec hsector hplace
    exact ⟨a, ha, s, hs, sound_of_ranges hv hs hrole.symm (hsr.trans hrole.symm) hranges⟩
  refine ⟨hnodup, ?_, hroles, fun p hp => hsound p (hsort.mem_iff.mp hp), ?_⟩
  · -- as many distinct roles as slots, each the role of a slot
    refine List.Subperm.perm_of_length_le (List.subperm_of_subset hnodup fun role hrole => ?_) ?_
    · obtain ⟨p, hp, rfl⟩ := List.mem_map.mp hrole
      obtain ⟨a, -, s, hs, hsnd⟩ := hsound p (hsort.mem_iff.mp hp)
      exact List.mem_map.mpr ⟨s, hs, hsnd.slotRole⟩
    · rw [List.length_map, hroles.length_eq, List.length_map, hlen]
  · have hsymm : ∀ {p q : FlashPlacement},
        (p.erase.stop ≤ q.erase.start ∨ q.erase.stop ≤ p.erase.start) →
        (q.erase.stop ≤ p.erase.start ∨ p.erase.stop ≤ q.erase.start) := fun h => h.symm
    refine (hsort.pairwise_iff hsymm).mpr ((placements_apart hv hok).imp fun {p q} hpq => ?_)
    obtain ⟨s, hs, t, ht, hst, ⟨_, rp⟩, _, rq⟩ := hpq
    -- disjoint slots, and each erase range inside its slot
    have hov := hst.2
    rw [overlaps, Bool.and_eq_false_iff] at hov
    have hp := rp.inSlot
    have hq := rq.inSlot
    rw [UInt64.le_iff_toNat_le] at hp hq
    simp only [decide_eq_false_iff_not, UInt64.not_lt, UInt64.le_iff_toNat_le, rp.eraseStart,
      rq.eraseStart] at hov ⊢
    omega

/-- **Flash plans are safe.** An accepted plan has exactly one placement for each required role;
every payload lies in its erase range, every erase range in its slot and in the flash; erase
bounds are sector-aligned with less than a sector of slack; erase ranges are pairwise disjoint; no
sum left 64 bits.  The order of the slots and of the artifacts changes neither the plan nor
whether there is one. -/
theorem flash_plan_safe (env : Environment) (root : PathBuf) (layout : FlashLayout)
    (nativeBuildSet : Sha256Digest) (artifacts : List FlashArtifact) :
    (∀ plan, planFlashArtifacts env root layout nativeBuildSet artifacts = .ok plan →
      (plan.placements.map fun p => p.role).Nodup ∧
      (plan.placements.map fun p => p.role).Perm (layout.slots.map fun s => s.role) ∧
      (plan.placements.map fun p => p.role).Perm (artifacts.map fun a => a.role) ∧
      (∀ p ∈ plan.placements, ∃ a ∈ artifacts, ∃ s ∈ layout.slots, Sound layout a s p) ∧
      plan.placements.Pairwise fun p q =>
        p.erase.stop ≤ q.erase.start ∨ q.erase.stop ≤ p.erase.start) ∧
    ∀ slots' artifacts', slots'.Perm layout.slots → artifacts'.Perm artifacts →
      (planFlashArtifacts env root { layout with slots := slots' } nativeBuildSet
          artifacts').toOption =
        (planFlashArtifacts env root layout nativeBuildSet artifacts).toOption :=
  ⟨fun _ h => plan_placements h, fun _ _ hslots hartifacts => plan_perm hslots hartifacts⟩

end Plan

namespace Sample

/-- A native slot of two sectors and an external one behind it. -/
def layout : FlashLayout where
  sourceContractSha256 := []
  flashBytes := 0x10000
  eraseSectorBytes := 0x1000
  slots := [⟨ascii "bsp", ⟨0x3000, 0x4000⟩, false⟩, ⟨ascii "core", ⟨0x1000, 0x3000⟩, true⟩]

/-- One file for each role. -/
def artifacts : List FlashArtifact :=
  [⟨ascii "core", ascii "core.bin", [], 3, [], some []⟩,
    ⟨ascii "bsp", ascii "bsp.bin", [], 3, [], none⟩]

/-- Every file has three bytes, and the digests are empty. -/
def env : Environment where
  openRegularFileNofollow := fun _ => some ⟨some ⟨3, none⟩, some [1, 2, 3], some ⟨3, none⟩⟩
  sha256Bytes := fun _ => []
  toJson := fun _ => some []

end Sample

/-- Two files in two slots, given in either order. -/
theorem flash_plan_safe_sample : ∃ plan,
    planFlashArtifacts Sample.env ⟨true, []⟩ Sample.layout [] Sample.artifacts = .ok plan ∧
    (plan.placements.Pairwise fun p q =>
      p.erase.stop ≤ q.erase.start ∨ q.erase.stop ≤ p.erase.start) ∧
    (planFlashArtifacts Sample.env ⟨true, []⟩
      { Sample.layout with slots := Sample.layout.slots.reverse } []
      Sample.artifacts.reverse).toOption = some plan := by
  obtain ⟨hsafe, hperm⟩ :=
    flash_plan_safe Sample.env ⟨true, []⟩ Sample.layout [] Sample.artifacts
  cases hplan : planFlashArtifacts Sample.env ⟨true, []⟩ Sample.layout [] Sample.artifacts with
  | error e =>
    have hok : (planFlashArtifacts Sample.env ⟨true, []⟩ Sample.layout []
        Sample.artifacts).toOption.isSome := by decide
    rw [hplan] at hok
    cases hok
  | ok plan =>
    refine ⟨plan, rfl, (hsafe plan hplan).2.2.2.2, ?_⟩
    rw [hperm _ _ (List.reverse_perm _) (List.reverse_perm _), hplan]
    rfl

end Flash

end ArosTools
