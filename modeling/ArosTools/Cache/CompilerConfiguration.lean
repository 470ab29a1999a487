import ArosTools.Bytes.Toml
import ArosTools.Cache.CompilerLoad

/-!
# The generated configuration of sccache

`configuration_contents` puts the path of the data directory between quotation marks as it is. The
file is read as TOML, where a quotation mark, a backslash or a control character does not stand for
itself in a string.

* `configuration_denotes_iff` : the file denotes the local disk cache in the data directory exactly
  if the root holds none of these.
* `configuration_not_local` : a root whose configuration names a remote storage.
-/

namespace ArosTools

namespace CompilerCache

open Pool Toml

/-! ### The lines of the file -/

def commentLine : Bytes :=
  ascii "# Generated by aros-tools. This namespace has local disk storage only.\n"

def headerLine : Bytes := ascii "[cache.disk]\n"

def sizeLine : Bytes := ascii "size = 5368709120\n"

/-- The file for a data directory. -/
def sccacheConfiguration (dir : Bytes) : Bytes :=
  commentLine ++ (headerLine ++ (ascii "dir = \"" ++ (dir ++ 0x22 :: 0x0a :: sizeLine)))

variable {root configuration : Bytes} {other : List UInt8 → Option (Value × List UInt8)}

theorem configurationContents_sccache
    (h : configurationContents root .sccache = .ok configuration) :
    configuration = sccacheConfiguration (dataRoot root) := by
  unfold configurationContents at h
  split_ifs at h
  obtain rfl := Except.ok.inj h
  have hhead : ascii ("# Generated by aros-tools. This namespace has local disk storage " ++
      "only.\n[cache.disk]\ndir = \"") = commentLine ++ (headerLine ++ ascii "dir = \"") := by
    decide
  have htail : ascii "\"\nsize = 5368709120\n" = 0x22 :: 0x0a :: sizeLine := by decide
  rw [hhead, htail, sccacheConfiguration]
  simp only [List.append_assoc]

/-! ### What it denotes -/

/-- The path of `cache.disk`. -/
def cacheDisk : Toml.Path := [.name (ascii "cache"), .name (ascii "disk")]

def dirPath : Toml.Path := cacheDisk ++ [.name (ascii "dir")]

def sizePath : Toml.Path := cacheDisk ++ [.name (ascii "size")]

/-- The text is well formed and denotes one table, `cache.disk`, with this directory and the fixed
size and nothing else. -/
def DenotesDisk (other : List UInt8 → Option (Value × List UInt8)) (text dir : Bytes) : Prop :=
  ∃ doc, document other text = some doc ∧ doc.tables = [cacheDisk] ∧
    doc.bindings.Perm [(dirPath, .string dir), (sizePath, .integer 5368709120)]

theorem DenotesDisk.unique {text dir dir' : Bytes} (h : DenotesDisk other text dir)
    (h' : DenotesDisk other text dir') : dir = dir' := by
  obtain ⟨doc, hdoc, -, hperm⟩ := h
  obtain ⟨doc', hdoc', -, hperm'⟩ := h'
  obtain rfl : doc = doc' := Option.some.inj (hdoc.symm.trans hdoc')
  have hmem := (hperm'.symm.trans hperm).mem_iff.mp 
    (List.mem_cons_self (a := (dirPath, Value.string dir')))
  rcases List.mem_cons.mp hmem with heq | hmem
  · obtain ⟨-, hvalue⟩ := Prod.mk.inj heq
    exact (Value.string.inj hvalue).symm
  · obtain ⟨-, hvalue⟩ := Prod.mk.inj (List.mem_singleton.mp hmem)
    cases hvalue

/-! ### Reading the lines -/

theorem expressions_cons {fuel : ℕ} {doc next : Document} {text rest : Bytes} (hne : text ≠ [])
    (h : expression other doc text = some (next, rest)) :
    expressions other (fuel + 1) doc text = expressions other fuel next rest := by
  obtain ⟨b, tail, rfl⟩ := List.exists_cons_of_ne_nil hne
  rw [expressions, h]
  rfl

theorem expression_comment (doc : Document) (rest : Bytes) :
    expression other doc (commentLine ++ rest) = some (doc, rest) := rfl

theorem expression_header (doc : Document) (rest : Bytes) :
    expression other doc (headerLine ++ rest) =
      some (doc.openTable [ascii "cache", ascii "disk"], rest) := rfl

/-- The directory is what a basic string gives, a slash at its start. -/
theorem expression_dir (doc : Document) (rest : Bytes) :
    expression other doc (ascii "dir = \"" ++ 0x2f :: rest) =
      ((basicString (rest.length + 2) (0x2f :: rest)).map fun read =>
        (Value.string read.1, read.2)).bind fun found =>
          (lineEnd found.2).map fun rest => (doc.bind [ascii "dir"] found.1, rest) := rfl

theorem expression_size (doc : Document) :
    expression other doc sizeLine = some (doc.bind [ascii "size"] (.integer 5368709120), []) := rfl

/-- The document at the first key. -/
def opened : Document := ({} : Document).openTable [ascii "cache", ascii "disk"]

/-- The file up to its first key. -/
theorem expressions_start (other : List UInt8 → Option (Value × List UInt8)) (dir : Bytes) : ∃ fuel,
    expressions other (sccacheConfiguration dir).length {} (sccacheConfiguration dir) =
      expressions other (fuel + 2) opened
        (ascii "dir = \"" ++ (dir ++ 0x22 :: 0x0a :: sizeLine)) := by
  obtain ⟨fuel, hfuel⟩ : ∃ fuel, (sccacheConfiguration dir).length = fuel + 2 + 1 + 1 := by
    refine ⟨(sccacheConfiguration dir).length - 4, ?_⟩
    have hcomment : 4 ≤ commentLine.length := by decide
    have hle : commentLine.length ≤ (sccacheConfiguration dir).length := by
      rw [sccacheConfiguration, List.length_append]
      exact Nat.le_add_right _ _
    omega
  refine ⟨fuel, ?_⟩
  rw [hfuel, sccacheConfiguration, expressions_cons (by simp [commentLine, ascii]) (expression_comment _ _),
    expressions_cons (by simp [headerLine, ascii]) (expression_header _ _)]
  rfl

/-- A directory whose bytes all stand for themselves is read back. -/
theorem denotesDisk_of_plain {dir : Bytes} (hslash : dir.head? = some 0x2f)
    (hplain : ∀ b ∈ dir, Plain b) : DenotesDisk other (sccacheConfiguration dir) dir := by
  obtain ⟨fuel, hstart⟩ := expressions_start other dir
  obtain ⟨tail, rfl⟩ := List.head?_eq_some_iff.mp hslash
  have hstring : basicString ((tail ++ 0x22 :: 0x0a :: sizeLine).length + 2)
      (0x2f :: tail ++ 0x22 :: 0x0a :: sizeLine) = some (0x2f :: tail, 0x0a :: sizeLine) :=
    basicString_plain hplain (by rw [List.length_cons, List.length_append]; omega)
  have hdir : expression other opened
      (ascii "dir = \"" ++ (0x2f :: tail ++ 0x22 :: 0x0a :: sizeLine)) =
        some (opened.bind [ascii "dir"] (.string (0x2f :: tail)), sizeLine) := by
    rw [List.cons_append] at hstring ⊢
    rw [expression_dir, hstring]
    rfl
  rw [expressions_cons (by simp [ascii]) hdir,
    expressions_cons (by decide) (expression_size _)] at hstart
  refine ⟨(opened.bind [ascii "dir"] (.string (0x2f :: tail))).bind [ascii "size"]
    (.integer 5368709120), ?_, rfl, List.Perm.refl _⟩
  rw [document, hstart]
  cases fuel <;> rfl

/-- A directory that is read back holds no byte that does not stand for itself. -/
theorem plain_of_denotesDisk {dir : Bytes} (hslash : dir.head? = some 0x2f)
    (h : DenotesDisk other (sccacheConfiguration dir) dir) : ∀ b ∈ dir, Plain b := by
  obtain ⟨fuel, hstart⟩ := expressions_start other dir
  obtain ⟨doc, hdoc, -, hperm⟩ := h
  have hread := (Option.filter_eq_some_iff.mp hdoc).1
  rw [hstart] at hread
  obtain ⟨tail, rfl⟩ := List.head?_eq_some_iff.mp hslash
  obtain ⟨⟨next, rest⟩, hdir, hrest⟩ := Option.bind_eq_some_iff.mp
    (show (expression other opened (ascii "dir = \"" ++
      (0x2f :: tail ++ 0x22 :: 0x0a :: sizeLine))).bind
        (fun read => expressions other (fuel + 1) read.1 read.2) = some doc from hread)
  rw [List.cons_append, expression_dir] at hdir
  obtain ⟨found, hfound, hend⟩ := Option.bind_eq_some_iff.mp hdir
  obtain ⟨⟨read, after⟩, hstring, rfl⟩ := Option.map_eq_some_iff.mp hfound
  obtain ⟨_, -, hnext⟩ := Option.map_eq_some_iff.mp hend
  obtain ⟨rfl, rfl⟩ := Prod.mk.inj hnext
  have hmem : (dirPath, Value.string read) ∈ doc.bindings :=
    (prefix_expressions hrest).2.subset (List.mem_singleton.mpr rfl)
  have hsame : read = 0x2f :: tail := by
    rcases List.mem_cons.mp (hperm.mem_iff.mp hmem) with heq | hother
    · exact Value.string.inj (Prod.mk.inj heq).2
    · obtain ⟨-, hvalue⟩ := Prod.mk.inj (List.mem_singleton.mp hother)
      cases hvalue
  have hbody : basicString _ (0x2f :: tail ++ 0x22 :: 0x0a :: sizeLine) = some (read, after) := hstring
  exact (length_basicString hbody).2 (by rw [hsame])

/-! ### The condition on the root -/

theorem plain_dataRoot : (∀ b ∈ dataRoot root, Plain b) ↔ ∀ b ∈ root, Plain b := by
  have hname : ∀ b ∈ dataDirectory, Plain b :=
    @of_decide_eq_true _ (List.decidableBAll _ _) rfl
  have hslash : Plain 0x2f := by decide
  unfold dataRoot joinPath
  split_ifs
  · simp only [List.mem_append]
    exact ⟨fun h b hb => h b (.inl hb), fun h b hb => hb.elim (h b) (hname b)⟩
  · simp only [List.mem_append, List.mem_singleton]
    refine ⟨fun h b hb => h b (.inl (.inl hb)), fun h b hb => ?_⟩
    rcases hb with (hb | rfl) | hb
    · exact h b hb
    · exact hslash
    · exact hname b hb

theorem head?_dataRoot (h : resolveExplicitRoot root = .ok ()) : (dataRoot root).head? = some 0x2f := by
  have hroot : root.head? = some 0x2f := by
    unfold resolveExplicitRoot at h
    split_ifs at h with hhead
    exact hhead
  obtain ⟨tail, rfl⟩ := List.head?_eq_some_iff.mp hroot
  unfold dataRoot joinPath
  split_ifs <;> rfl

/-- **When the configuration is local.** For every absolute UTF-8 root the generated file is TOML
that denotes one table, `cache.disk`, with the data directory and the fixed size, exactly if the
root holds no quotation mark, no backslash and no control character but the tab. Two such roots
with different data directories have files that denote different directories. -/
theorem configuration_denotes_iff (habsolute : resolveExplicitRoot root = .ok ())
    (hcontents : configurationContents root .sccache = .ok configuration) :
    (DenotesDisk other configuration (dataRoot root) ↔ ∀ b ∈ root, Plain b) ∧
      ((∀ b ∈ root, Plain b) → ∀ root' configuration', resolveExplicitRoot root' = .ok () →
        configurationContents root' .sccache = .ok configuration' → (∀ b ∈ root', Plain b) →
          dataRoot root ≠ dataRoot root' →
            ∃ dir dir', DenotesDisk other configuration dir ∧
              DenotesDisk other configuration' dir' ∧ dir ≠ dir' ∧
              (∀ d, DenotesDisk other configuration d → d = dir) ∧
              ∀ d, DenotesDisk other configuration' d → d = dir') := by
  have hdenotes : ∀ {root configuration : Bytes}, resolveExplicitRoot root = .ok () →
      configurationContents root .sccache = .ok configuration → (∀ b ∈ root, Plain b) →
        DenotesDisk other configuration (dataRoot root) := by
    intro root configuration habsolute hcontents hplain
    rw [configurationContents_sccache hcontents]
    exact denotesDisk_of_plain (head?_dataRoot habsolute) (plain_dataRoot.mpr hplain)
  refine ⟨⟨fun h => ?_, hdenotes habsolute hcontents⟩, ?_⟩
  · rw [configurationContents_sccache hcontents] at h
    exact plain_dataRoot.mp (plain_of_denotesDisk (head?_dataRoot habsolute) h)
  · intro hplain root' configuration' habsolute' hcontents' hplain' hne
    have h := hdenotes habsolute hcontents hplain
    have h' := hdenotes habsolute' hcontents' hplain'
    exact ⟨_, _, h, h', hne, fun d hd => hd.unique h, fun d hd => hd.unique h'⟩

theorem configuration_denotes_iff_plain : ∃ configuration,
    configurationContents (ascii "/c") .sccache = .ok configuration ∧
    DenotesDisk (fun _ => none) configuration (ascii "/c/data") := by
  obtain ⟨configuration, hcontents⟩ : ∃ configuration,
      configurationContents (ascii "/c") .sccache = .ok configuration := ⟨_, rfl⟩
  exact ⟨configuration, hcontents,
    (configuration_denotes_iff (show resolveExplicitRoot (ascii "/c") = .ok () from rfl)
      hcontents).1.mpr (@of_decide_eq_true _ (List.decidableBAll _ _) rfl)⟩

/-- A root whose name ends the string of the directory and goes on with a table of its own. -/
def remoteRoot : Bytes := ascii "/x\"\n[cache.s3]\nbucket = \"evil"

/-- `cache.s3`, a remote storage. -/
def cacheS3 : Toml.Path := [.name (ascii "cache"), .name (ascii "s3")]

set_option maxRecDepth 4000 in
/-- An empty root is claimed for sccache. -/
theorem solo_prepare_sccache {sha256Bytes : Bytes → Sha256Digest}
    {parseOwnership : Bytes → Option OwnershipRecord} (habsolute : resolveExplicitRoot root = .ok ())
    (hshort : validateBackendPathConstraints root .sccache = .ok ())
    (hcontents : configurationContents root .sccache = .ok configuration) :
    ∃ s, pool.solo 0 ((Request.prepare .sccache).program sha256Bytes parseOwnership root)
        { isPrivate := true, present := false } =
      some (.ok (.prepared ⟨.sccache, root, dataRoot root, true, "empty_private_root_claimed"⟩),
        s) := by
  rw [Request.program]
  unfold prepareManagedCompilerCache claimRoot enterRoot loadManagedCompilerCache
  rw [hcontents, habsolute, hshort]
  simp [lift_ok_bind, attempt_perform, attempt_throw, entryNamesFor, directoryEntryNames, performIo,
    publishAtomicFile, writeJournal, bind_assoc, solo_perform, answer, waits, Root.has, Root.make,
    Root.entries, Root.setSlot, Root.slot, solo_pure, maxRootEntriesDuringPrepare]

/-- The root is accepted, and its configuration names a remote storage. -/
theorem configuration_not_local : ∃ configuration preparation s doc,
    configurationContents remoteRoot .sccache = .ok configuration ∧
    pool.solo 0 ((Request.prepare .sccache).program configurationSha256 (readMarker remoteRoot)
      remoteRoot) { isPrivate := true, present := false } = some (.ok (.prepared preparation), s) ∧
    document (fun _ => none) configuration = some doc ∧ cacheS3 ∈ doc.tables ∧
    (cacheS3 ++ [.name (ascii "bucket")], .string (ascii "evil/data")) ∈ doc.bindings ∧
    ¬ DenotesDisk (fun _ => none) configuration (dataRoot remoteRoot) := by
  obtain ⟨configuration, hcontents⟩ : ∃ configuration,
      configurationContents remoteRoot .sccache = .ok configuration := ⟨_, rfl⟩
  have hconfiguration := configurationContents_sccache hcontents
  obtain ⟨s, hprepare⟩ : ∃ s, pool.solo 0 ((Request.prepare .sccache).program configurationSha256
      (readMarker remoteRoot) remoteRoot) { isPrivate := true, present := false } =
        some (.ok (.prepared ⟨.sccache, remoteRoot, dataRoot remoteRoot, true,
          "empty_private_root_claimed"⟩), s) :=
    solo_prepare_sccache rfl (by decide) hcontents
  have hdocument : document (fun _ => none) (sccacheConfiguration (dataRoot remoteRoot)) =
      some ⟨[cacheDisk, cacheS3], cacheS3, [(dirPath, .string (ascii "/x")),
        (cacheS3 ++ [.name (ascii "bucket")], .string (ascii "evil/data")),
        (cacheS3 ++ [.name (ascii "size")], .integer 5368709120)]⟩ := by decide +kernel
  refine ⟨configuration, _, s, _, hcontents, hprepare, hconfiguration ▸ hdocument, ?_, ?_, ?_⟩
  · exact List.mem_cons_of_mem _ (List.mem_singleton_self _)
  · exact List.mem_cons_of_mem _ List.mem_cons_self
  · intro h
    rw [hconfiguration] at h
    have hplain := plain_of_denotesDisk rfl h 0x22 (by decide)
    exact hplain.1 rfl

end CompilerCache

end ArosTools
