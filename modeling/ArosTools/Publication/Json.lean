import ArosTools.Publication.JsonText
import ArosTools.Publication.Phases

/-!
# The journal and the tree marker as JSON

What the derived serializers write: the fields in the order of their declaration, without blanks,
the permission bits left out where none are recorded.  `Externals.known` is an instance of the
external functions that knows the digests of given byte strings and the texts of given journals
and markers; it is faithful as soon as the journals have different texts.
-/

namespace ArosTools

namespace Json

/-- The bytes of a component. -/
def component : Component → Bytes
  | .normal n => n
  | .parentDir => ascii ".."
  | .curDir => ascii "."

/-- A path. -/
def path (p : PathBuf) : Bytes :=
  string ((if p.absolute then [0x2f] else []) ++ [0x2f].intercalate (p.components.map component))

/-- A file identity. -/
def identity (i : FileIdentity) : Bytes :=
  object [(ascii "device", number i.device), (ascii "inode", number i.inode)]

/-- An operation of a journal. -/
def operation (o : JournalOperation) : Bytes :=
  object ([(ascii "target", path o.target), (ascii "stage", option path o.stage),
      (ascii "backup", option path o.backup), (ascii "parent_identity", identity o.parentIdentity),
      (ascii "original", option identity o.original),
      (ascii "original_digest", option string o.originalDigest)] ++
    optionalField "original_mode" number o.originalMode ++
    [(ascii "desired_digest", option string o.desiredDigest)] ++
    optionalField "desired_mode" number o.desiredMode ++
    [(ascii "installed", option identity o.installed)])

/-- The state of a journal. -/
def state : JournalState → Bytes
  | .prepared => string (ascii "prepared")
  | .committed => string (ascii "committed")

/-- A journal. -/
def journal (j : Journal) : Bytes :=
  object [(ascii "schema", string (ascii j.schema)), (ascii "nonce", number j.nonce),
    (ascii "state", state j.state), (ascii "operations", array (j.operations.map operation))]

end Json

namespace Externals

/-- The external functions on known byte strings, journals and markers. -/
def known (digests : List (Bytes × Sha256Digest)) (journals : List (Journal × Bytes))
    (markers : List (TreeStageMarker × Bytes)) : Externals where
  sha256Bytes bytes := (digests.lookup bytes).getD []
  journalToVec journal := (journals.lookup journal).elim (.error (.ofMessage "unknown")) .ok
  journalFromSlice bytes :=
    (journals.find? (·.2 == bytes)).elim (.error (.ofMessage "unknown")) (.ok ·.1)
  markerToVec marker := (markers.lookup marker).elim (.error (.ofMessage "unknown")) .ok
  markerFromSlice bytes :=
    (markers.find? (·.2 == bytes)).elim (.error (.ofMessage "unknown")) (.ok ·.1)

theorem mem_of_lookup {α β : Type} [DecidableEq α] {l : List (α × β)} {a : α} {b : β}
    (h : l.lookup a = some b) : (a, b) ∈ l := by
  induction l with
  | nil => cases h
  | cons x l ih =>
    rw [List.lookup_cons] at h
    split at h
    · next heq =>
      cases h
      rw [beq_iff_eq] at heq
      exact heq ▸ List.mem_cons_self
    · exact List.mem_cons_of_mem _ (ih h)

theorem known_faithful {digests : List (Bytes × Sha256Digest)} {journals : List (Journal × Bytes)}
    {markers : List (TreeStageMarker × Bytes)} (h : (journals.map Prod.snd).Nodup) :
    (known digests journals markers).Faithful := by
  intro journal bytes hj
  have hmem : (journal, bytes) ∈ journals := by
    refine mem_of_lookup ?_
    cases hl : journals.lookup journal with
    | none => simp [known, hl] at hj
    | some b =>
      simp only [known, hl, Option.elim_some, Except.ok.injEq] at hj
      rw [hj]
  cases hf : journals.find? (·.2 == bytes) with
  | none =>
    have := List.find?_eq_none.1 hf _ hmem
    simp at this
  | some x =>
    have hx : x.2 = bytes := by simpa using List.find?_some hf
    have : x = (journal, bytes) :=
      List.inj_on_of_nodup_map h (List.mem_of_find?_eq_some hf) hmem hx
    simp [known, hf, this]

end Externals

/-! ### Sample values -/

namespace Sample

/-- An empty root directory. -/
def empty : Fs := ⟨(∅ : AList fun _ : Path => Node).insert [] (.dir ⟨1, 2⟩), []⟩

/-- The leaf of the journal. -/
def leaf : Name := ascii "j"

/-- No primitive fails. -/
def quiet : ℕ → Choice := fun _ => ⟨false, ⟨1, 3⟩, 0o022, 0x1000⟩

/-- The digest of `a`. -/
def digestA : Sha256Digest :=
  ascii "ca978112ca1bbdcafac231b39a23dc4da786eff8147c4e72b9807785afee48bb"

/-- The digest of `new` and a line feed. -/
def digestNew : Sha256Digest :=
  ascii "7aa7a5359173d05b63cfd682e3c38487f3cb4f7f1d60659fe59fab1505977d4c"

/-- The digest of `old` and a line feed. -/
def digestOld : Sha256Digest :=
  ascii "01d09d19c2139a46aebfb577780d123d7396e97201bc7ead210a2ebff8239dee"

end Sample

end ArosTools
