import ArosTools.Bytes.Decimal

/-!
# TAR streams

The POSIX `ustar` format: a member is a 512-byte header block followed by its payload, padded with
zeros to a whole number of blocks, and a block of zeros ends the archive. A header holds texts that
end at the first zero byte or fill their field, and numbers in octal; its checksum is the sum of
its bytes with the checksum field taken as spaces.

`readStream` reads a stream into its members and what follows the end of the archive. A member that
cannot be read is absent from the result and ends it. `Spells` says that bytes are read as a list of
members whatever follows them; such bytes can be put one after another (`spells_append`) and a stream
of them is read back (`readStream_spells`).
-/

namespace ArosTools

namespace Ustar

/-- The part of a header block from `offset`, `width` bytes long. -/
def field (offset width : ℕ) (block : List UInt8) : List UInt8 := (block.drop offset).take width

/-- A text field up to its first zero byte. -/
def text (offset width : ℕ) (block : List UInt8) : List UInt8 :=
  (field offset width block).takeWhile (· ≠ 0)

/-- White space around a number. -/
def isSpace (b : UInt8) : Bool := b = 0x20 || (0x09 ≤ b && b ≤ 0x0d)

/-- A number field: octal digits up to the first zero byte, white space around them ignored. -/
def number (offset width : ℕ) (block : List UInt8) : Option ℕ :=
  parseUnsigned 8 (2 ^ 64)
    (((text offset width block).dropWhile isSpace).reverse.dropWhile isSpace).reverse

/-- The sum of the bytes of a block, the checksum field taken as spaces. -/
def checksum (block : List UInt8) : ℕ :=
  ((block.take 148 ++ List.replicate 8 0x20 ++ block.drop 156).map UInt8.toNat).sum

/-- The block says that it follows the format. -/
def isUstar (block : List UInt8) : Bool :=
  field 257 8 block = [0x75, 0x73, 0x74, 0x61, 0x72, 0, 0x30, 0x30]

/-- The path of a member: its prefix, if it has one, and its name. -/
def path (block : List UInt8) : List UInt8 :=
  if isUstar block && text 345 155 block ≠ [] then
    text 345 155 block ++ [0x2f] ++ text 0 100 block
  else text 0 100 block

/-- The link target of a member. -/
def linkName (block : List UInt8) : Option (List UInt8) :=
  if text 157 100 block = [] then none else some (text 157 100 block)

/-- The type of a member. -/
def typeFlag (block : List UInt8) : UInt8 := block.getD 156 0

/-- The size of the payload. -/
def size (block : List UInt8) : Option ℕ := number 124 12 block

/-- The zeros after a payload of `n` bytes. -/
def padding (n : ℕ) : ℕ := (512 - n % 512) % 512

/-- A member: its header block, its size and its payload. -/
structure Entry where
  block : List UInt8
  size : ℕ
  payload : List UInt8
  deriving DecidableEq, Repr

/-- The members of a stream, the last one absent where it cannot be read, and the bytes after the
end of the archive. -/
structure Stream where
  entries : List (Option Entry)
  trailer : Option (List UInt8)
  deriving DecidableEq, Repr

/-- A stream that cannot be read further. -/
def Stream.broken : Stream := ⟨[none], none⟩

/-- A member in front of a stream. -/
def Stream.cons (entry : Entry) (s : Stream) : Stream := { s with entries := some entry :: s.entries }

/-- The member at the beginning of the bytes, and the bytes after it. -/
def readEntry (bytes : List UInt8) : Option (Entry × List UInt8) := do
  let block := bytes.take 512
  if number 148 8 block ≠ some (checksum block) then none
  let size ← size block
  let rest := bytes.drop 512
  if rest.length < size + padding size then none
  some (⟨block, size, rest.take size⟩, rest.drop (size + padding size))

/-- Reads at most `fuel` members. -/
def readFrom : ℕ → List UInt8 → Stream
  | _, [] => ⟨[], some []⟩
  | 0, _ :: _ => .broken
  | fuel + 1, b :: bytes =>
    if (b :: bytes).length < 512 then .broken
    else if ((b :: bytes).take 512).all (· = 0) then ⟨[], some ((b :: bytes).drop 512)⟩
    else match readEntry (b :: bytes) with
      | none => .broken
      | some (entry, rest) => (readFrom fuel rest).cons entry

/-- Reads a stream; every member takes at least one block. -/
def readStream (bytes : List UInt8) : Stream := readFrom (bytes.length / 512) bytes

/-! ### What is read back -/

/-- The bytes are whole blocks that are read as the members, whatever follows. -/
structure Spells (bytes : List UInt8) (entries : List Entry) : Prop where
  enough : 512 * entries.length ≤ bytes.length
  blocks : bytes.length % 512 = 0
  read : ∀ fuel rest, readFrom (entries.length + fuel) (bytes ++ rest) =
    entries.foldr Stream.cons (readFrom fuel rest)

theorem spells_nil : Spells [] [] :=
  ⟨Nat.le_refl _, rfl, fun fuel rest => by rw [List.length_nil, Nat.zero_add]; rfl⟩

theorem spells_append {bytes bytes' : List UInt8} {entries entries' : List Entry}
    (h : Spells bytes entries) (h' : Spells bytes' entries') :
    Spells (bytes ++ bytes') (entries ++ entries') := by
  refine ⟨?_, ?_, fun fuel rest => ?_⟩
  · have := h.enough
    have := h'.enough
    rw [List.length_append, List.length_append]
    omega
  · rw [List.length_append, Nat.add_mod, h.blocks, h'.blocks]
  · rw [List.length_append, List.append_assoc, Nat.add_assoc, h.read, h'.read, List.foldr_append]

theorem readEntry_block {block payload : List UInt8} (rest : List UInt8)
    (hlength : block.length = 512) (hsum : number 148 8 block = some (checksum block))
    (hsize : size block = some payload.length) :
    readEntry (block ++ payload ++ List.replicate (padding payload.length) 0 ++ rest) =
      some (⟨block, payload.length, payload⟩, rest) := by
  have htake : (block ++ (payload ++ (List.replicate (padding payload.length) 0 ++ rest))).take 512 =
      block := List.take_left' hlength
  have hdrop : (block ++ (payload ++ (List.replicate (padding payload.length) 0 ++ rest))).drop 512 =
      payload ++ (List.replicate (padding payload.length) 0 ++ rest) := List.drop_left' hlength
  have hlong : ¬ (payload ++ (List.replicate (padding payload.length) (0 : UInt8) ++ rest)).length <
      payload.length + padding payload.length := by
    rw [List.length_append, List.length_append, List.length_replicate]
    omega
  have hrest : (payload ++ (List.replicate (padding payload.length) 0 ++ rest)).drop
      (payload.length + padding payload.length) = rest := by
    rw [← List.append_assoc]
    exact List.drop_left' (by rw [List.length_append, List.length_replicate])
  simp only [readEntry, List.append_assoc, htake, hdrop, hsum, hsize, ne_eq, not_true_eq_false,
    if_false, bind, Option.bind, if_neg hlong, List.take_left, hrest]

theorem spells_entry {block payload : List UInt8} (hlength : block.length = 512)
    (hsum : number 148 8 block = some (checksum block)) (hsize : size block = some payload.length)
    (hblock : block.all (· = 0) = false) :
    Spells (block ++ payload ++ List.replicate (padding payload.length) 0)
      [⟨block, payload.length, payload⟩] := by
  refine ⟨by simp only [List.length_append, List.length_singleton]; omega, ?_, fun fuel rest => ?_⟩
  · simp only [List.length_append, List.length_replicate, hlength, padding]
    omega
  have hread := @readEntry_block block payload rest hlength hsum hsize
  have htake : (block ++ payload ++ List.replicate (padding payload.length) 0 ++ rest).take 512 =
      block := by
    rw [List.append_assoc, List.append_assoc]
    exact List.take_left' hlength
  have hlong : ¬ (block ++ payload ++ List.replicate (padding payload.length) 0 ++ rest).length <
      512 := by
    simp only [List.length_append]
    omega
  rw [List.length_singleton, Nat.add_comm]
  generalize block ++ payload ++ List.replicate (padding payload.length) 0 ++ rest = bytes at *
  cases bytes with
  | nil => exact absurd (by decide) hlong
  | cons b bytes =>
    rw [readFrom, if_neg hlong, htake, hblock, hread]
    rfl

theorem foldr_cons_eq (entries : List Entry) (trailer : Option (List UInt8)) :
    entries.foldr Stream.cons ⟨[], trailer⟩ = ⟨entries.map some, trailer⟩ := by
  induction entries with
  | nil => rfl
  | cons entry entries ih => rw [List.foldr_cons, ih]; rfl

/-- **A stream of members is read back.** -/
theorem readStream_spells {bytes zeros : List UInt8} {entries : List Entry}
    (h : Spells bytes entries) (hzeros : zeros.all (· = 0) = true) (hlength : 512 ≤ zeros.length) :
    readStream (bytes ++ zeros) = ⟨entries.map some, some (zeros.drop 512)⟩ := by
  obtain ⟨fuel, hfuel⟩ : ∃ fuel, (bytes ++ zeros).length / 512 = entries.length + (fuel + 1) := by
    have hbytes := h.enough
    refine ⟨(bytes ++ zeros).length / 512 - entries.length - 1, ?_⟩
    have : (512 * entries.length + 512) / 512 ≤ (bytes ++ zeros).length / 512 := by
      refine Nat.div_le_div_right ?_
      rw [List.length_append]
      omega
    omega
  have hlast : readFrom (fuel + 1) zeros = ⟨[], some (zeros.drop 512)⟩ := by
    cases zeros with
    | nil => exact absurd hlength (by decide)
    | cons b zeros =>
      have htake : ((b :: zeros).take 512).all (· = 0) = true := by
        rw [List.all_eq_true] at hzeros ⊢
        exact fun c hc => hzeros c (List.mem_of_mem_take hc)
      rw [readFrom, if_neg (by omega), htake]
      rfl
  rw [readStream, hfuel, h.read, hlast, foldr_cons_eq]

end Ustar

end ArosTools
