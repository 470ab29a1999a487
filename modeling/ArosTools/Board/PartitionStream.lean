import ArosTools.Bytes.Basic
import ArosTools.Fs.Basic
import Mathlib.Data.List.GetD

/-!
# A partition seen as a file

`PartitionStream` gives the filesystem library one partition of a raw image as if it were a file.
Whatever is read, written and sought in it, in whatever pieces the image file transfers it, the
stream behaves as a file of the partition's size that holds the partition's bytes
(`partition_stream_refines`): nothing outside of the partition is read or changed, and no
arithmetic overflows.
-/

namespace ArosTools

namespace Board

/-! ### Files -/

/-- `io::Error`: one that the stream makes, or one of the file below. -/
inductive StreamError where
  | invalidInput (message : String)
  | invalidData (message : String)
  | unexpectedEof (message : String)
  | file
  deriving DecidableEq, Repr

/-- A file that is open: its content and its position. -/
structure OpenFile where
  content : Bytes
  position : ℕ
  deriving DecidableEq, Repr

/-- `seek` from the start. -/
def OpenFile.seekStart (f : OpenFile) (position : ℕ) : OpenFile := { f with position := position }

/-- `read` into `length` bytes, of which at most `count` arrive: the file after it and the bytes. -/
def OpenFile.read (f : OpenFile) (length count : ℕ) : OpenFile × Bytes :=
  let bytes := ((f.content.drop f.position).take length).take count
  (⟨f.content, f.position + bytes.length⟩, bytes)

/-- The content with some bytes put in; a gap before them is filled with zeros. -/
def putAt (content : Bytes) (position : ℕ) (bytes : Bytes) : Bytes :=
  content.take position ++ List.replicate (position - content.length) 0 ++ bytes ++
    content.drop (position + bytes.length)

/-- `write` of the first `length` bytes of a buffer, of which at most `count` are taken: the file
after it and the bytes. -/
def OpenFile.write (buffer : Bytes) (f : OpenFile) (length count : ℕ) : OpenFile × Bytes :=
  let bytes := (buffer.take length).take count
  (⟨putAt f.content f.position bytes, f.position + bytes.length⟩, bytes)

/-- What the system makes of one transfer: whether it can seek, and how many bytes it transfers at
most, if the transfer does not fail. -/
structure Transfer where
  seeks : Bool
  bytes : Option ℕ
  deriving DecidableEq, Repr

/-- A buffer; its length fits a `usize` of 64 bits. -/
structure Buffer where
  bytes : Bytes
  fits : bytes.length < 2 ^ 64

/-- `SeekFrom`. -/
inductive SeekFrom where
  | start (position : UInt64)
  | current (offset : Int64)
  | fromEnd (offset : Int64)

/-- One call, with what the system makes of it. -/
inductive Call where
  | read (buffer : Buffer) (t : Transfer)
  | write (buffer : Buffer) (t : Transfer)
  | flush (succeeds : Bool)
  | seek (seekFrom : SeekFrom)

/-- What the caller of the stream sees. -/
inductive Reply where
  | read (result : Except StreamError Bytes)
  | wrote (result : Except StreamError ℕ)
  | flushed (result : Except StreamError Unit)
  | sought (result : Except StreamError ℕ)

/-! ### `PartitionStream` -/

/-- `PartitionStream`. -/
structure PartitionStream where
  file : OpenFile
  start : ℕ
  length : ℕ
  position : ℕ
  deriving DecidableEq, Repr

namespace PartitionStream

/-- `PartitionStream::new`. -/
def new (file : OpenFile) (start length : UInt64) : Except StreamError PartitionStream :=
  match checkedAdd start.toNat length.toNat with
  | none => .error (.invalidInput "partition range overflows u64")
  | some stop =>
    if file.content.length < stop then
      .error (.unexpectedEof "partition extends beyond the image file")
    else .ok ⟨file, start.toNat, length.toNat, 0⟩

/-- `absolute_position`. -/
def absolutePosition (s : PartitionStream) : Except StreamError ℕ :=
  match checkedAdd s.start s.position with
  | none => .error (.invalidInput "partition offset overflows u64")
  | some absolute => .ok absolute

/-- `bounded_buffer_length`; the subtraction panics if the position is beyond the length. -/
def boundedBufferLength (s : PartitionStream) (buffer : Buffer) : Option ℕ :=
  if s.position ≤ s.length then some (min (s.length - s.position) buffer.bytes.length) else none

/-- The stream after a call, what it returned, and the bytes of the file that were read or written
for it: where they start and how many they are. -/
structure Answer (β : Type) where
  after : PartitionStream
  result : Except StreamError β
  touched : ℕ × ℕ

/-- What `read` and `write` have in common; nothing if it panics. -/
def transfer (perform : OpenFile → ℕ → ℕ → OpenFile × Bytes) (overflow : String)
    (s : PartitionStream) (buffer : Buffer) (t : Transfer) : Option (Answer Bytes) := do
  let length ← s.boundedBufferLength buffer
  if length = 0 then some ⟨s, .ok [], (0, 0)⟩
  else
    match s.absolutePosition with
    | .error e => some ⟨s, .error e, (0, 0)⟩
    | .ok absolute =>
      if !t.seeks then some ⟨s, .error .file, (0, 0)⟩
      else
        let sought := s.file.seekStart absolute
        match t.bytes with
        | none => some ⟨{ s with file := sought }, .error .file, (0, 0)⟩
        | some count =>
          let (file, bytes) := perform sought length count
          match checkedAdd s.position bytes.length with
          | none =>
            some ⟨{ s with file := file }, .error (.invalidData overflow), (absolute, bytes.length)⟩
          | some position =>
            some ⟨{ s with file := file, position := position }, .ok bytes, (absolute, bytes.length)⟩

/-- `Read::read`. -/
def read (s : PartitionStream) (buffer : Buffer) (t : Transfer) : Option (Answer Bytes) :=
  s.transfer OpenFile.read "partition read overflow" buffer t

/-- `Write::write`. -/
def write (s : PartitionStream) (buffer : Buffer) (t : Transfer) : Option (Answer ℕ) :=
  (s.transfer (OpenFile.write buffer.bytes) "partition write overflow" buffer t).map fun a =>
    ⟨a.after, a.result.map List.length, a.touched⟩

/-- Where `Seek::seek` goes, in 128 bits. -/
def target (s : PartitionStream) : SeekFrom → ℤ
  | .start position => position.toNat
  | .current offset => s.position + offset.toInt
  | .fromEnd offset => s.length + offset.toInt

/-- `Seek::seek`. -/
def seek (s : PartitionStream) (seekFrom : SeekFrom) : Answer ℕ :=
  let position := s.target seekFrom
  if position < 0 ∨ (s.length : ℤ) < position then
    ⟨s, .error (.invalidInput "seek crosses the partition boundary"), (0, 0)⟩
  else if position < 2 ^ 64 then
    ⟨{ s with position := position.toNat }, .ok position.toNat, (0, 0)⟩
  else ⟨s, .error (.invalidInput "seek position does not fit u64"), (0, 0)⟩

/-- One call: the stream after it, the reply and the bytes touched. -/
def call (s : PartitionStream) : Call → Option (PartitionStream × Reply × (ℕ × ℕ))
  | .read buffer t => (s.read buffer t).map fun a => (a.after, .read a.result, a.touched)
  | .write buffer t => (s.write buffer t).map fun a => (a.after, .wrote a.result, a.touched)
  | .flush true => some (s, .flushed (.ok ()), (0, 0))
  | .flush false => some (s, .flushed (.error .file), (0, 0))
  | .seek seekFrom =>
    let a := s.seek seekFrom
    some (a.after, .sought a.result, a.touched)

/-- A run of calls: the stream after it, the replies and the bytes touched; nothing if a call
panics. -/
def run : PartitionStream → List Call → Option (PartitionStream × List Reply × List (ℕ × ℕ))
  | s, [] => some (s, [], [])
  | s, c :: rest =>
    match s.call c with
    | none => none
    | some (s, reply, touched) =>
      (run s rest).map fun r => (r.1, reply :: r.2.1, touched :: r.2.2)

end PartitionStream

/-! ### The file it stands for -/

/-- A file in memory whose size is fixed. -/
structure RangeFile where
  data : Bytes
  position : ℕ
  inside : position ≤ data.length

/-- The data with some bytes put in, as far as they fit. -/
def overwrite (data : Bytes) (position : ℕ) (bytes : Bytes) : Bytes :=
  data.mapIdx fun i b => if i < position then b else bytes.getD (i - position) b

theorem length_overwrite (data : Bytes) (position : ℕ) (bytes : Bytes) :
    (overwrite data position bytes).length = data.length := List.length_mapIdx

namespace RangeFile

/-- How many bytes a transfer moves, if it succeeds. -/
def moves (m : RangeFile) (buffer : Buffer) (t : Transfer) : Except StreamError ℕ :=
  let length := min (m.data.length - m.position) buffer.bytes.length
  if length = 0 then .ok 0
  else if t.seeks then t.bytes.elim (.error .file) fun count => .ok (min count length)
  else .error .file

/-- The position moves on, at most to the end. -/
def advance (m : RangeFile) (n : ℕ) : RangeFile :=
  ⟨m.data, min (m.position + n) m.data.length, min_le_right _ _⟩

def read (m : RangeFile) (buffer : Buffer) (t : Transfer) : RangeFile × Except StreamError Bytes :=
  match m.moves buffer t with
  | .error e => (m, .error e)
  | .ok n => (m.advance n, .ok ((m.data.drop m.position).take n))

/-- Some bytes are put in at the position. -/
def put (m : RangeFile) (bytes : Bytes) : RangeFile :=
  ⟨overwrite m.data m.position bytes, m.position, by rw [length_overwrite]; exact m.inside⟩

def write (m : RangeFile) (buffer : Buffer) (t : Transfer) : RangeFile × Except StreamError ℕ :=
  match m.moves buffer t with
  | .error e => (m, .error e)
  | .ok n => ((m.put (buffer.bytes.take n)).advance n, .ok n)

/-- Where `seek` goes. -/
def target (m : RangeFile) : SeekFrom → ℤ
  | .start position => position.toNat
  | .current offset => m.position + offset.toInt
  | .fromEnd offset => m.data.length + offset.toInt

/-- Any position up to the end can be sought. -/
def seek (m : RangeFile) (seekFrom : SeekFrom) : RangeFile × Except StreamError ℕ :=
  if h : 0 ≤ m.target seekFrom ∧ m.target seekFrom ≤ m.data.length then
    (⟨m.data, (m.target seekFrom).toNat, by omega⟩, .ok (m.target seekFrom).toNat)
  else (m, .error (.invalidInput "seek crosses the partition boundary"))

/-- One call. -/
def call (m : RangeFile) : Call → RangeFile × Reply
  | .read buffer t => ((m.read buffer t).1, .read (m.read buffer t).2)
  | .write buffer t => ((m.write buffer t).1, .wrote (m.write buffer t).2)
  | .flush succeeds => (m, .flushed (if succeeds then .ok () else .error .file))
  | .seek seekFrom => ((m.seek seekFrom).1, .sought (m.seek seekFrom).2)

/-- A run of calls: the file after it and the replies. -/
def run : RangeFile → List Call → RangeFile × List Reply
  | m, [] => (m, [])
  | m, c :: rest => ((run (m.call c).1 rest).1, (m.call c).2 :: (run (m.call c).1 rest).2)

end RangeFile

/-! ### The stream is a window -/

/-- The stream shows the file in memory. -/
structure Window (s : PartitionStream) (m : RangeFile) : Prop where
  fits : s.start + s.length ≤ s.file.content.length
  bits : s.start + s.length < 2 ^ 64
  data : m.data = (s.file.content.drop s.start).take s.length
  position : m.position = s.position

/-- From one state of the stream to another the image is the same outside of the window. -/
structure SameOutside (s s' : PartitionStream) : Prop where
  start : s'.start = s.start
  length : s'.length = s.length
  size : s'.file.content.length = s.file.content.length
  before : s'.file.content.take s.start = s.file.content.take s.start
  behind : s'.file.content.drop (s.start + s.length) = s.file.content.drop (s.start + s.length)

/-- The bytes touched lie in the window. -/
def Inside (s : PartitionStream) (touched : ℕ × ℕ) : Prop :=
  touched.2 = 0 ∨ s.start ≤ touched.1 ∧ touched.1 + touched.2 ≤ s.start + s.length

theorem SameOutside.refl (s : PartitionStream) : SameOutside s s := ⟨rfl, rfl, rfl, rfl, rfl⟩

theorem SameOutside.trans {s t u : PartitionStream} (h : SameOutside s t) (h' : SameOutside t u) :
    SameOutside s u where
  start := h'.start.trans h.start
  length := h'.length.trans h.length
  size := h'.size.trans h.size
  before := by
    rw [← h.start, h'.before, h.start, h.before]
  behind := by
    rw [← h.start, ← h.length, h'.behind, h.start, h.length, h.behind]

section

variable {s : PartitionStream} {m : RangeFile} {buffer : Buffer} {t : Transfer}

theorem Window.length_data (h : Window s m) : m.data.length = s.length := by
  have := h.fits
  rw [h.data, List.length_take, List.length_drop]
  omega

theorem Window.position_le (h : Window s m) : s.position ≤ s.length := by
  rw [← h.position, ← h.length_data]
  exact m.inside

/-- **What a transfer does**, case by case. -/
theorem transfer_cases (buffer : Buffer) (t : Transfer) (overflow : String)
    {perform : OpenFile → ℕ → ℕ → OpenFile × Bytes} (h : Window s m) (hperform : ∀ f n k, (perform f n k).2.length ≤ n) :
    let length := min (s.length - s.position) buffer.bytes.length
    let absolute := s.start + s.position
    (m.moves buffer t = .ok 0 ∧ length = 0 ∧
        s.transfer perform overflow buffer t = some ⟨s, .ok [], (0, 0)⟩) ∨
      (m.moves buffer t = .error .file ∧ ∃ file : OpenFile, file.content = s.file.content ∧
        s.transfer perform overflow buffer t =
          some ⟨{ s with file := file }, .error .file, (0, 0)⟩) ∨
      ∃ count, m.moves buffer t = .ok (min count length) ∧
        ∃ done, done = perform ⟨s.file.content, absolute⟩ length count ∧
          s.transfer perform overflow buffer t =
            some ⟨{ s with file := done.1, position := s.position + done.2.length }, .ok done.2,
              (absolute, done.2.length)⟩ := by
  intro length absolute
  have hposition := h.position_le
  have hbits := h.bits
  have hlength : s.boundedBufferLength buffer = some length := if_pos hposition
  have habsolute : s.absolutePosition = .ok absolute := by
    rw [PartitionStream.absolutePosition, checkedAdd_of_lt (by omega)]
  have hmoves : m.moves buffer t = if length = 0 then .ok 0
      else if t.seeks then t.bytes.elim (.error .file) fun count => .ok (min count length)
      else .error .file := by
    unfold RangeFile.moves
    rw [h.length_data, h.position]
  rw [PartitionStream.transfer, hlength, hmoves]
  simp only [Option.bind_eq_bind, Option.bind_some, habsolute]
  by_cases hzero : length = 0
  · rw [if_pos hzero, if_pos hzero]
    exact .inl ⟨rfl, hzero, rfl⟩
  · rw [if_neg hzero, if_neg hzero]
    cases hseeks : t.seeks with
    | false => exact .inr (.inl ⟨rfl, s.file, rfl, rfl⟩)
    | true =>
      cases hbytes : t.bytes with
      | none => exact .inr (.inl ⟨rfl, s.file.seekStart absolute, rfl, rfl⟩)
      | some count =>
        refine .inr (.inr ⟨count, rfl, _, rfl, ?_⟩)
        have hdone := hperform ⟨s.file.content, absolute⟩ length count
        have hadd : checkedAdd s.position
            (perform (s.file.seekStart absolute) length count).2.length =
            some (s.position + (perform (s.file.seekStart absolute) length count).2.length) := by
          refine checkedAdd_of_lt ?_
          have : (perform (s.file.seekStart absolute) length count).2.length ≤ length := hdone
          omega
        simp only [Bool.not_true, Bool.false_eq_true, if_false, hadd]
        rfl

/-! ### Reading -/

theorem Window.bytes (h : Window s m) {n : ℕ} (hn : n ≤ s.length - s.position) :
    (m.data.drop m.position).take n =
      (s.file.content.drop (s.start + s.position)).take n := by
  rw [h.data, h.position, List.drop_take, List.drop_drop, List.take_take, min_eq_left hn]

/-- The stream after a transfer that leaves the image as it is shows the file moved on. -/
theorem Window.advance (h : Window s m) {file : OpenFile} {n : ℕ}
    (hcontent : file.content = s.file.content) (hn : n ≤ s.length - s.position) :
    Window { s with file := file, position := s.position + n } (m.advance n) := by
  have hposition := h.position_le
  refine ⟨?_, h.bits, ?_, ?_⟩
  · rw [hcontent]
    exact h.fits
  · rw [hcontent]
    exact h.data
  · change min (m.position + n) m.data.length = s.position + n
    rw [h.length_data, h.position]
    omega

theorem RangeFile.advance_zero (m : RangeFile) : m.advance 0 = m := by
  obtain ⟨data, position, inside⟩ := m
  simp [RangeFile.advance, inside]

/-- Only the position of the image file matters to neither side. -/
theorem Window.sameContent (h : Window s m) {file : OpenFile}
    (hcontent : file.content = s.file.content) : Window { s with file := file } m where
  fits := by
    rw [hcontent]
    exact h.fits
  bits := h.bits
  data := by
    rw [hcontent]
    exact h.data
  position := h.position

theorem sameOutside_sameContent {file : OpenFile} {position : ℕ}
    (hcontent : file.content = s.file.content) :
    SameOutside s { s with file := file, position := position } where
  start := rfl
  length := rfl
  size := by rw [hcontent]
  before := by rw [hcontent]
  behind := by rw [hcontent]

theorem RangeFile.read_ok {n : ℕ} (h : m.moves buffer t = .ok n) :
    m.read buffer t = (m.advance n, .ok ((m.data.drop m.position).take n)) := by
  rw [read, h]

theorem RangeFile.read_error {e : StreamError} (h : m.moves buffer t = .error e) :
    m.read buffer t = (m, .error e) := by
  rw [read, h]

theorem read_spec (h : Window s m) (buffer : Buffer) (t : Transfer) :
    ∃ a, s.read buffer t = some a ∧ a.result = (m.read buffer t).2 ∧
      Window a.after (m.read buffer t).1 ∧ SameOutside s a.after ∧ Inside s a.touched := by
  have hposition := h.position_le
  have hfits := h.fits
  have hperform : ∀ (f : OpenFile) n k, (f.read n k).2.length ≤ n := by
    intro f n k
    simp only [OpenFile.read, List.length_take]
    omega
  unfold PartitionStream.read
  rcases transfer_cases buffer t "partition read overflow" h
    hperform with ⟨hmoves, -, hs⟩ | ⟨hmoves, file, hfile, hs⟩ | ⟨count, hmoves, done, hdone, hs⟩
  · rw [RangeFile.read_ok hmoves, m.advance_zero]
    exact ⟨_, hs, rfl, h, .refl s, .inl rfl⟩
  · rw [RangeFile.read_error hmoves]
    exact ⟨_, hs, rfl, h.sameContent hfile, sameOutside_sameContent hfile, .inl rfl⟩
  · -- the bytes read are those of the window
    have hbytes : done.2 = (m.data.drop m.position).take
        (min count (min (s.length - s.position) buffer.bytes.length)) := by
      rw [h.bytes (by omega), hdone]
      simp only [OpenFile.read, List.take_take]
    have hlength : done.2.length = min count (min (s.length - s.position) buffer.bytes.length) := by
      rw [hbytes, List.length_take, List.length_drop, h.length_data, h.position]
      omega
    have hcontent : done.1.content = s.file.content := by rw [hdone]; rfl
    rw [RangeFile.read_ok hmoves, ← hbytes]
    refine ⟨_, hs, rfl, ?_, sameOutside_sameContent hcontent, .inr ⟨by simp only; omega, ?_⟩⟩
    · rw [hlength]
      exact h.advance hcontent (by omega)
    · simp only
      omega

/-! ### Writing -/

theorem getElem?_putAt (content bytes : Bytes) (position : ℕ)
    (hfits : position + bytes.length ≤ content.length) (i : ℕ) :
    (putAt content position bytes)[i]? =
      if i < position then content[i]?
      else if i < position + bytes.length then bytes[i - position]? else content[i]? := by
  rw [putAt, Nat.sub_eq_zero_of_le (by omega), List.replicate_zero, List.append_nil]
  have htake : (content.take position).length = position := by
    rw [List.length_take]
    omega
  rw [List.getElem?_append, List.length_append, htake]
  split_ifs with h₁ h₂ h₂
  · rw [List.getElem?_append_left (by omega), List.getElem?_take_of_lt h₂]
  · rw [List.getElem?_append_right (by omega), htake]
  · omega
  · rw [List.getElem?_drop]
    congr 1
    omega

theorem getElem?_overwrite (data bytes : Bytes) (position i : ℕ) :
    (overwrite data position bytes)[i]? =
      data[i]?.map fun b => if i < position then b else bytes.getD (i - position) b :=
  List.getElem?_mapIdx

/-- Writing into the image inside of the window is writing into what the window shows. -/
theorem drop_take_putAt {content bytes : Bytes} {start length position : ℕ}
    (hfits : start + length ≤ content.length) (hinside : position + bytes.length ≤ length) :
    ((putAt content (start + position) bytes).drop start).take length =
      overwrite ((content.drop start).take length) position bytes := by
  refine List.ext_getElem? fun i => ?_
  rw [getElem?_overwrite]
  by_cases hi : i < length
  · obtain ⟨b, hb⟩ : ∃ b, content[start + i]? = some b :=
      ⟨_, List.getElem?_eq_getElem (by omega)⟩
    rw [List.getElem?_take_of_lt hi, List.getElem?_take_of_lt hi, List.getElem?_drop,
      List.getElem?_drop, getElem?_putAt _ _ _ (by omega), hb, Option.map_some]
    by_cases hbefore : i < position
    · rw [if_pos (by omega), if_pos hbefore]
    · rw [if_neg (by omega), if_neg hbefore]
      by_cases hbytes : i - position < bytes.length
      · rw [if_pos (by omega), show start + i - (start + position) = i - position by omega,
          List.getElem?_eq_getElem hbytes, List.getD_eq_getElem _ _ hbytes]
      · rw [if_neg (by omega), List.getD_eq_default _ _ (by omega)]
  · have hnone : ∀ l : Bytes, (l.take length)[i]? = none := fun l =>
      List.getElem?_eq_none (by rw [List.length_take]; omega)
    rw [hnone, hnone, Option.map_none]

/-- Writing inside of the window changes nothing outside of it. -/
theorem sameOutside_putAt {file : OpenFile} (position : ℕ) {bytes : Bytes}
    (hfits : s.start + s.length ≤ s.file.content.length)
    (hinside : s.position + bytes.length ≤ s.length)
    (hcontent : file.content = putAt s.file.content (s.start + s.position) bytes) :
    SameOutside s { s with file := file, position := position } := by
  have hget := getElem?_putAt s.file.content bytes (s.start + s.position) (by omega)
  refine ⟨rfl, rfl, ?_, ?_, ?_⟩
  · rw [hcontent, putAt, Nat.sub_eq_zero_of_le (by omega)]
    simp only [List.length_append, List.length_take, List.length_drop, List.length_replicate]
    omega
  · refine List.ext_getElem? fun i => ?_
    rw [hcontent, List.getElem?_take, List.getElem?_take, hget]
    split_ifs <;> first | rfl | omega
  · refine List.ext_getElem? fun i => ?_
    rw [hcontent, List.getElem?_drop, List.getElem?_drop, hget, if_neg (by omega), if_neg (by omega)]

theorem RangeFile.write_ok {n : ℕ} (h : m.moves buffer t = .ok n) :
    m.write buffer t = ((m.put (buffer.bytes.take n)).advance n, .ok n) := by
  rw [write, h]

theorem RangeFile.write_error {e : StreamError} (h : m.moves buffer t = .error e) :
    m.write buffer t = (m, .error e) := by
  rw [write, h]

theorem RangeFile.put_nil (m : RangeFile) : m.put [] = m := by
  obtain ⟨data, position, inside⟩ := m
  have hsame : overwrite data position [] = data := by
    refine List.ext_getElem? fun i => ?_
    rw [getElem?_overwrite]
    simp
  simp only [RangeFile.put, hsame]

/-- The stream after bytes were written inside of the window. -/
theorem Window.put (h : Window s m) {file : OpenFile} {bytes : Bytes}
    (hinside : s.position + bytes.length ≤ s.length)
    (hcontent : file.content = putAt s.file.content (s.start + s.position) bytes) :
    Window { s with file := file } (m.put bytes) where
  fits := by
    have hsame := (sameOutside_putAt s.position h.fits hinside hcontent).size
    simp only at hsame ⊢
    rw [hsame]
    exact h.fits
  bits := h.bits
  data := by
    rw [hcontent, drop_take_putAt h.fits hinside, ← h.data, ← h.position]
    rfl
  position := h.position

theorem write_spec (h : Window s m) (buffer : Buffer) (t : Transfer) :
    ∃ a, s.write buffer t = some a ∧ a.result = (m.write buffer t).2 ∧
      Window a.after (m.write buffer t).1 ∧ SameOutside s a.after ∧ Inside s a.touched := by
  have hposition := h.position_le
  have hfits := h.fits
  have hperform : ∀ (f : OpenFile) n k, (f.write buffer.bytes n k).2.length ≤ n := by
    intro f n k
    simp only [OpenFile.write, List.length_take]
    omega
  unfold PartitionStream.write
  rcases transfer_cases buffer t "partition write overflow" h
    hperform with ⟨hmoves, -, hs⟩ | ⟨hmoves, file, hfile, hs⟩ | ⟨count, hmoves, done, hdone, hs⟩
  · rw [RangeFile.write_ok hmoves, List.take_zero, m.put_nil, m.advance_zero, hs]
    exact ⟨_, rfl, rfl, h, .refl s, .inl rfl⟩
  · rw [RangeFile.write_error hmoves, hs]
    exact ⟨_, rfl, rfl, h.sameContent hfile, sameOutside_sameContent hfile, .inl rfl⟩
  · have hbytes : done.2 = buffer.bytes.take
        (min count (min (s.length - s.position) buffer.bytes.length)) := by
      rw [hdone]
      simp only [OpenFile.write, List.take_take]
    have hlength : done.2.length = min count (min (s.length - s.position) buffer.bytes.length) := by
      rw [hbytes, List.length_take]
      omega
    have hcontent : done.1.content = putAt s.file.content (s.start + s.position) done.2 := by
      rw [hdone]
      rfl
    have hinside : s.position + done.2.length ≤ s.length := by omega
    rw [RangeFile.write_ok hmoves, ← hbytes, hs]
    refine ⟨_, rfl, ?_, ?_, sameOutside_putAt _ h.fits hinside hcontent, .inr ⟨by simp only; omega, ?_⟩⟩
    · rw [← hlength]
      rfl
    · rw [← hlength]
      exact (h.put hinside hcontent).advance rfl (by simp only; omega)
    · simp only
      omega

/-! ### Runs -/

theorem seek_spec (h : Window s m) (seekFrom : SeekFrom) :
    (s.seek seekFrom).result = (m.seek seekFrom).2 ∧
      Window (s.seek seekFrom).after (m.seek seekFrom).1 ∧ SameOutside s (s.seek seekFrom).after ∧
      Inside s (s.seek seekFrom).touched := by
  have hbits := h.bits
  have htarget : m.target seekFrom = s.target seekFrom := by
    unfold RangeFile.target
    rw [h.position, h.length_data]
    cases seekFrom <;> rfl
  unfold PartitionStream.seek RangeFile.seek
  by_cases hinside : 0 ≤ s.target seekFrom ∧ s.target seekFrom ≤ s.length
  · have hinside' : 0 ≤ m.target seekFrom ∧ m.target seekFrom ≤ m.data.length := by
      rwa [htarget, h.length_data]
    simp only [dif_pos hinside']
    rw [if_neg (by omega), if_pos (by omega)]
    refine ⟨by rw [htarget], ⟨h.fits, h.bits, h.data, ?_⟩, ⟨rfl, rfl, rfl, rfl, rfl⟩, .inl rfl⟩
    exact congrArg Int.toNat htarget
  · have hinside' : ¬(0 ≤ m.target seekFrom ∧ m.target seekFrom ≤ m.data.length) := by
      rwa [htarget, h.length_data]
    simp only [dif_neg hinside']
    rw [if_pos (by omega)]
    exact ⟨rfl, h, .refl s, .inl rfl⟩

/-- **One call.** -/
theorem call_spec (h : Window s m) (c : Call) :
    ∃ s' reply touched, s.call c = some (s', reply, touched) ∧ reply = (m.call c).2 ∧
      Window s' (m.call c).1 ∧ SameOutside s s' ∧ Inside s touched := by
  cases c with
  | read buffer t =>
    obtain ⟨a, ha, hresult, hafter⟩ := read_spec h buffer t
    refine ⟨a.after, .read a.result, a.touched, ?_, ?_, hafter⟩
    · rw [PartitionStream.call, ha]
      rfl
    · rw [hresult]
      rfl
  | write buffer t =>
    obtain ⟨a, ha, hresult, hafter⟩ := write_spec h buffer t
    refine ⟨a.after, .wrote a.result, a.touched, ?_, ?_, hafter⟩
    · rw [PartitionStream.call, ha]
      rfl
    · rw [hresult]
      rfl
  | flush succeeds =>
    cases succeeds with
    | true => exact ⟨s, _, _, rfl, rfl, h, .refl s, .inl rfl⟩
    | false => exact ⟨s, _, _, rfl, rfl, h, .refl s, .inl rfl⟩
  | seek seekFrom =>
    obtain ⟨hresult, hafter⟩ := seek_spec h seekFrom
    refine ⟨_, _, _, rfl, ?_, hafter⟩
    rw [hresult]
    rfl

theorem run_spec (h : Window s m) (calls : List Call) :
    ∃ s' touched, s.run calls = some (s', (m.run calls).2, touched) ∧
      Window s' (m.run calls).1 ∧ SameOutside s s' ∧ ∀ bytes ∈ touched, Inside s bytes := by
  induction calls generalizing s m with
  | nil => exact ⟨s, [], rfl, h, .refl s, fun bytes hb => by cases hb⟩
  | cons c rest ih =>
    obtain ⟨s₁, reply, touched, hcall, rfl, hwindow, hsame, hinside⟩ := call_spec h c
    obtain ⟨s₂, all, hrun, hwindow₂, hsame₂, hall⟩ := ih hwindow
    refine ⟨s₂, touched :: all, ?_, hwindow₂, hsame.trans hsame₂, ?_⟩
    · rw [PartitionStream.run, hcall]
      simp only [hrun, Option.map_some]
      rfl
    · intro bytes hb
      rcases List.mem_cons.mp hb with rfl | hb
      · exact hinside
      · have := hall bytes hb
        rwa [Inside, hsame.start, hsame.length] at this

end

/-! ### The partition does not leak -/

/-- The file in memory that a new stream stands for. -/
def RangeFile.ofFile (file : OpenFile) (start length : UInt64) : RangeFile :=
  ⟨(file.content.drop start.toNat).take length.toNat, 0, Nat.zero_le _⟩

theorem new_window {file : OpenFile} {start length : UInt64} {s : PartitionStream}
    (h : PartitionStream.new file start length = .ok s) :
    s = ⟨file, start.toNat, length.toNat, 0⟩ ∧ Window s (.ofFile file start length) := by
  unfold PartitionStream.new at h
  cases hadd : checkedAdd start.toNat length.toNat with
  | none =>
    rw [hadd] at h
    cases h
  | some stop =>
    obtain ⟨rfl, hlt⟩ := checkedAdd_eq_some.mp hadd
    rw [hadd] at h
    simp only at h
    split_ifs at h with hshort
    obtain rfl := Except.ok.inj h
    exact ⟨rfl, ⟨Nat.le_of_not_lt hshort, hlt, rfl, rfl⟩⟩

/-- **A partition behaves as a file of its own**: for every stream that `new` accepts and every run
of calls, no call panics, every reply is that of a file in memory that holds the partition's bytes,
the partition holds what that file holds, the position is not beyond the end, and only bytes of the
partition are read or changed. -/
theorem partition_stream_refines (file : OpenFile) (start length : UInt64) (s : PartitionStream)
    (hnew : PartitionStream.new file start length = .ok s) (calls : List Call) :
    ∃ s' touched m', (RangeFile.ofFile file start length).run calls = m' ∧
      s.run calls = some (s', m'.2, touched) ∧
      s'.position = m'.1.position ∧ s'.position ≤ length.toNat ∧
      (s'.file.content.drop start.toNat).take length.toNat = m'.1.data ∧
      s'.file.content.length = file.content.length ∧
      s'.file.content.take start.toNat = file.content.take start.toNat ∧
      s'.file.content.drop (start.toNat + length.toNat) =
        file.content.drop (start.toNat + length.toNat) ∧
      ∀ bytes ∈ touched, bytes.2 = 0 ∨
        start.toNat ≤ bytes.1 ∧ bytes.1 + bytes.2 ≤ start.toNat + length.toNat := by
  obtain ⟨rfl, hwindow⟩ := new_window hnew
  obtain ⟨s', touched, hrun, hwindow', hsame, hinside⟩ := run_spec hwindow calls
  refine ⟨s', touched, _, rfl, hrun, hwindow'.position.symm, ?_, ?_, hsame.size, hsame.before,
    hsame.behind, hinside⟩
  · have := hwindow'.position_le
    rwa [hsame.length] at this
  · have := hwindow'.data
    rw [hsame.start, hsame.length] at this
    exact this.symm

/-- Two bytes written at the last byte of a partition of three: one is taken, and the byte behind
the partition stays. -/
theorem partition_stream_refines_end :
    ∃ s' touched, PartitionStream.run ⟨⟨[0, 1, 2, 3, 4], 0⟩, 1, 3, 0⟩
        [.seek (.fromEnd (-1)), .write ⟨[9, 8], by decide⟩ ⟨true, some 2⟩] =
          some (s', [.sought (.ok 2), .wrote (.ok 1)], touched) ∧
      s'.file.content.drop 4 = [4] := by
  obtain ⟨s', touched, m', rfl, hrun, -, -, -, -, -, hbehind, -⟩ :=
    partition_stream_refines ⟨[0, 1, 2, 3, 4], 0⟩ 1 3 _ rfl
      [.seek (.fromEnd (-1)), .write ⟨[9, 8], by decide⟩ ⟨true, some 2⟩]
  exact ⟨s', touched, hrun, hbehind⟩

end Board

end ArosTools
