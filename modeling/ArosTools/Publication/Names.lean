import ArosTools.Publication.Error
import Mathlib.Algebra.Group.Nat.Defs

/-!
# Paths and derived names

A `PathBuf` is a path as it is written, component by component; `..` and a leading `.` survive in
it, and the code rejects them where it walks or compares paths.  A portable name is a component
that is safe on every host.  The names of stage and backup files are derived from the target's
leaf, a purpose and a number (`siblingName`), so that recovery can recompute them.

The digest is a parameter: `Externals.sha256Bytes` stands for the hash function, the other fields
for the JSON reader and writer.
-/

namespace ArosTools

/-- A lower-case hexadecimal SHA-256 digest. -/
abbrev Sha256Digest := Bytes

/-- A component of a written path. -/
inductive Component where
  | normal (n : Name)
  | parentDir
  | curDir
  deriving DecidableEq, Repr

/-- A path as it is written. -/
structure PathBuf where
  absolute : Bool
  components : List Component
  deriving DecidableEq, Repr

/-- Bytes as text, for messages. -/
def displayBytes (n : Bytes) : String := String.ofList (n.map fun b => Char.ofNat b.toNat)

namespace PathBuf

/-- The text of a component. -/
def displayComponent : Component → String
  | .normal n => displayBytes n
  | .parentDir => ".."
  | .curDir => "."

/-- The text of a path. -/
def display (p : PathBuf) : String :=
  (if p.absolute then "/" else "") ++ "/".intercalate (p.components.map displayComponent)

/-- The absolute path with the given components. -/
def ofPath (p : Path) : PathBuf := ⟨true, p.map .normal⟩

/-- The last component, if it is a name. -/
def fileName (p : PathBuf) : Option Name :=
  match p.components.getLast? with
  | some (.normal n) => some n
  | _ => none

/-- The path without its last component. -/
def parent (p : PathBuf) : Option PathBuf :=
  if p.components = [] then none else some ⟨p.absolute, p.components.dropLast⟩

/-- Append a name. -/
def join (p : PathBuf) (n : Name) : PathBuf := ⟨p.absolute, p.components ++ [.normal n]⟩

/-- Append a relative path; an absolute one replaces.  A leading `.` does not survive. -/
def joinPath (p q : PathBuf) : PathBuf :=
  if q.absolute then q
  else ⟨p.absolute, p.components ++ q.components.filter (· ≠ .curDir)⟩

/-- The component a piece between two separators stands for.  A `.` survives only as the first
piece of a relative path. -/
def component? (first : Bool) (piece : Bytes) : Option Component :=
  if piece = [] then none
  else if piece = ascii "." then if first then some .curDir else none
  else if piece = ascii ".." then some .parentDir
  else some (.normal piece)

/-- The path that a text spells. -/
def ofBytes (text : Bytes) : PathBuf :=
  ⟨text.head? == some 0x2f,
    match text.splitOn 0x2f with
    | [] => []
    | piece :: rest => (component? true piece).toList ++ rest.filterMap (component? false)⟩

/-- The path relative to `base`. -/
def stripPrefix (p base : PathBuf) : Option PathBuf :=
  if p.absolute = base.absolute ∧ base.components.isPrefixOf p.components then
    some ⟨false, p.components.drop base.components.length⟩
  else none

/-- `base` is `p` or one of its ancestors. -/
def startsWith (p base : PathBuf) : Bool := (p.stripPrefix base).isSome

/-- The components as names, if all of them are. -/
def names? (p : PathBuf) : Option Path :=
  p.components.mapM fun
    | .normal n => some n
    | _ => none

@[simp] theorem ofPath_absolute (p : Path) : (ofPath p).absolute = true := rfl

@[simp] theorem fileName_ofPath (p : Path) : (ofPath p).fileName = p.getLast? := by
  unfold fileName ofPath
  rw [List.getLast?_map]
  cases p.getLast? <;> rfl

theorem parent_ofPath {p : Path} (h : p ≠ []) : (ofPath p).parent = some (ofPath p.dropLast) := by
  simp [parent, ofPath, h, List.map_dropLast]

theorem join_ofPath (p : Path) (n : Name) : (ofPath p).join n = ofPath (p ++ [n]) := by
  simp [join, ofPath]

theorem ofPath_injective {p q : Path} (h : ofPath p = ofPath q) : p = q := by
  have hc : p.map Component.normal = q.map Component.normal := congrArg components h
  exact List.map_injective_iff.2 (fun _ _ h => Component.normal.inj h) hc

end PathBuf

/-! ### Portable names -/

/-- A control character or one of the characters some host reserves. -/
def invalidCharacter (b : UInt8) : Bool :=
  b < 0x20 || b == 0x7f || (ascii "<>:\"/\\|?*").contains b

/-- ASCII lower case. -/
def asciiLower (b : UInt8) : UInt8 := if 0x41 ≤ b ∧ b ≤ 0x5a then b + 0x20 else b

/-- ASCII upper case. -/
def asciiUpper (b : UInt8) : UInt8 := if 0x61 ≤ b ∧ b ≤ 0x7a then b - 0x20 else b

/-- The part of a name before its first dot, in upper case. -/
def deviceStem (value : Name) : Name := (value.takeWhile (· != 0x2e)).map asciiUpper

/-- A device name some host reserves. -/
def reservedStem (stem : Name) : Bool :=
  [ascii "CON", ascii "PRN", ascii "AUX", ascii "NUL"].contains stem ||
    ((ascii "COM").isPrefixOf stem || (ascii "LPT").isPrefixOf stem) && stem.length == 4 &&
      (match stem[3]? with
        | some b => decide (0x31 ≤ b ∧ b ≤ 0x39)
        | none => false)

/-- A single filesystem component that is safe on every supported host. -/
def portableOutputName (value : Name) : Except IoError Name :=
  if value == [] || value.any (· ≥ 0x80) || value == ascii "." || value == ascii ".." ||
      value.getLast? == some 0x2e || value.getLast? == some 0x20 ||
      value.any invalidCharacter || value.length > 255 then
    .error (.new .invalidInput ("'" ++ displayBytes value ++ "' is not a portable output name"))
  else if reservedStem (deviceStem value) then
    .error (.new .invalidInput
      ("'" ++ displayBytes value ++ "' is a reserved Windows device name"))
  else .ok value

/-- The case-folded components of a relative path, joined by slashes. -/
def casefoldPathKey (path : PathBuf) : Except IoError Bytes := do
  let notRelative : IoError :=
    .new .invalidInput ("'" ++ path.display ++ "' is not a relative output path")
  if path.absolute then .error notRelative else pure ()
  let folded ← path.components.mapM fun
    | .normal value => do
      let portable ← portableOutputName value
      pure (portable.map asciiLower)
    | _ => .error notRelative
  if folded = [] then
    .error (.new .invalidInput "an output path must contain at least one component")
  else pure ([0x2f].intercalate folded)

/-! ### Derived names -/

/-- A lower-case hexadecimal digit. -/
def hexDigit (d : ℕ) : UInt8 := (if d < 10 then 0x30 + d else 0x57 + d).toUInt8

/-- The last `w` hexadecimal digits of `n`. -/
def hexDigits : ℕ → ℕ → Bytes
  | 0, _ => []
  | w + 1, n => hexDigits w (n / 16) ++ [hexDigit (n % 16)]

theorem length_hexDigits (w n : ℕ) : (hexDigits w n).length = w := by
  induction w generalizing n with
  | zero => rfl
  | succ w ih => simp [hexDigits, ih]

theorem hexDigit_inj {a b : ℕ} (ha : a < 16) (hb : b < 16) (h : hexDigit a = hexDigit b) :
    a = b := by
  revert h
  have key : ∀ a < 16, ∀ b < 16, hexDigit a = hexDigit b → a = b := by decide
  exact key a ha b hb

theorem hexDigits_inj {w m n : ℕ} (hm : m < 16 ^ w) (hn : n < 16 ^ w)
    (h : hexDigits w m = hexDigits w n) : m = n := by
  induction w generalizing m n with
  | zero => simp at hm hn; omega
  | succ w ih =>
    obtain ⟨h₁, h₂⟩ := List.append_inj' h rfl
    have hd := ih (Nat.div_lt_of_lt_mul (by rwa [Nat.pow_succ'] at hm))
      (Nat.div_lt_of_lt_mul (by rwa [Nat.pow_succ'] at hn)) h₁
    have hr := hexDigit_inj (Nat.mod_lt m (by omega)) (Nat.mod_lt n (by omega)) (List.cons.inj h₂).1
    omega

/-- `u64` addition as the release build performs it. -/
def addU64 (a b : ℕ) : ℕ := (a + b) % 2 ^ 64

theorem addU64_lt (a b : ℕ) : addU64 a b < 2 ^ 64 := Nat.mod_lt _ (Nat.two_pow_pos 64)

theorem addU64_left_inj {a b c : ℕ} (hb : b < 2 ^ 64) (hc : c < 2 ^ 64)
    (h : addU64 a b = addU64 a c) : b = c := by
  unfold addU64 at h
  omega

/-- The name of an auxiliary file beside `leaf`. -/
def siblingName (sha256Bytes : Bytes → Sha256Digest) (leaf : Name) (purpose : String)
    (nonce : ℕ) : Name :=
  ascii ".aros-" ++ ascii purpose ++ ascii "-" ++ (sha256Bytes leaf).take 16 ++ ascii "-" ++
    hexDigits 16 nonce

theorem siblingName_nonce_inj {sha256Bytes : Bytes → Sha256Digest} {leaf leaf' : Name}
    {purpose purpose' : String} {m n : ℕ} (hm : m < 2 ^ 64) (hn : n < 2 ^ 64)
    (h : siblingName sha256Bytes leaf purpose m = siblingName sha256Bytes leaf' purpose' n) :
    m = n := by
  have hlen : (hexDigits 16 m).length = (hexDigits 16 n).length := by
    rw [length_hexDigits, length_hexDigits]
  exact hexDigits_inj hm hn (List.append_inj' h hlen).2

/-- The first letter of the purpose tells derived names apart. -/
theorem siblingName_get (sha256Bytes : Bytes → Sha256Digest) (leaf : Name) {purpose : String}
    (n : ℕ) {b : UInt8} (h : (ascii purpose).head? = some b) :
    (siblingName sha256Bytes leaf purpose n)[6]? = some b := by
  unfold siblingName
  cases hp : ascii purpose with
  | nil => rw [hp] at h; cases h
  | cons c rest =>
    rw [hp] at h
    cases h
    rfl

theorem siblingName_stage_ne_backup (sha256Bytes : Bytes → Sha256Digest) (leaf leaf' : Name)
    (m n : ℕ) :
    siblingName sha256Bytes leaf "stage" m ≠ siblingName sha256Bytes leaf' "backup" n := by
  intro h
  have hs : (siblingName sha256Bytes leaf "stage" m)[6]? = some 0x73 :=
    siblingName_get sha256Bytes leaf m (by decide)
  have hb : (siblingName sha256Bytes leaf' "backup" n)[6]? = some 0x62 :=
    siblingName_get sha256Bytes leaf' n (by decide)
  rw [h, hb] at hs
  cases hs

theorem siblingName_ne_journalStage (sha256Bytes : Bytes → Sha256Digest) (leaf leaf' : Name)
    {purpose : String} (hp : purpose = "stage" ∨ purpose = "backup") (m n : ℕ) :
    siblingName sha256Bytes leaf purpose m ≠ siblingName sha256Bytes leaf' "journal-stage" n := by
  intro h
  have hj : (siblingName sha256Bytes leaf' "journal-stage" n)[6]? = some 0x6a :=
    siblingName_get sha256Bytes leaf' n (by decide)
  have hs : (siblingName sha256Bytes leaf purpose m)[6]? ≠ some 0x6a := by
    rcases hp with rfl | rfl
    · rw [siblingName_get sha256Bytes leaf m (b := 0x73) (by decide)]
      decide
    · rw [siblingName_get sha256Bytes leaf m (b := 0x62) (by decide)]
      decide
  rw [h] at hs
  exact hs hj

end ArosTools
