import ArosTools.Collect.Arguments
import ArosTools.Fs.Machine

/-!
# The machine the collector runs on

The collector reads, writes, renames and removes files by path, appends to a log, and runs tools.
`Host.machine` says what each of these does to a `World`: a filesystem, and the files that the
tools run so far have left.

What the collector does not control is a choice: whether a call fails, how much of a write was done
before it failed, what a tool leaves and how it exits. A tool writes only to the output its command
line names, or, if it names none, to its last argument in place. Links are not followed, and tools
leave regular files.
-/

namespace ArosTools

namespace Engine

/-! ### Paths -/

/-- The byte `/`. -/
def slash : UInt8 := 0x2f

/-- Enter one component of a path. -/
def enter (dir : Path) (component : Name) : Path :=
  if component = [] ∨ component = ascii "." then dir
  else if component = ascii ".." then dir.dropLast
  else dir ++ [component]

/-- Follow a path: the directory reached, and the last component, not yet entered. -/
def follow : Path → Name → OsString → Path × Name
  | dir, component, [] => (dir, component)
  | dir, component, b :: rest =>
    if b = slash then follow (enter dir component) [] rest
    else follow dir (component ++ [b]) rest

/-- Where a path starts. -/
def start (cwd : Path) (path : OsString) : Path := if path.head? = some slash then [] else cwd

/-- The place a path names. -/
def locate (cwd : Path) (path : OsString) : Path :=
  enter (follow (start cwd path) [] path).1 (follow (start cwd path) [] path).2

/-- The path with `suffix` appended. -/
def adjacent (output : OsString) (suffix : String) : OsString := output ++ ascii suffix

/-! ### Primitives -/

/-- How a tool ended. -/
structure ExitStatus where
  code : Option ℕ
  deriving DecidableEq, Repr

/-- The tool succeeded. -/
def ExitStatus.success (status : ExitStatus) : Bool := status.code == some 0

/-- The levels of the log. -/
inductive LogLevel where
  | off
  | error
  | warn
  | info
  | debug
  | trace
  deriving DecidableEq, Repr

/-- The levels in order. -/
def LogLevel.rank : LogLevel → ℕ
  | off => 0
  | error => 1
  | warn => 2
  | info => 3
  | debug => 4
  | trace => 5

/-- The calls the collector makes. -/
inductive Host : Type → Type
  /-- Remove a file. -/
  | removeFile (path : OsString) : Host (Except Errno Unit)
  /-- Read a file. -/
  | readFile (path : OsString) : Host (Except Errno Bytes)
  /-- Create or truncate a file and write to it. -/
  | writeFile (path : OsString) (bytes : Bytes) : Host (Except Errno Unit)
  /-- Rename a file, replacing another. -/
  | rename (source target : OsString) : Host (Except Errno Unit)
  /-- Open a file for reading and writing. -/
  | openFile (path : OsString) : Host (Except Errno Unit)
  /-- Read a number of bytes from the start of an open file. -/
  | readExact (path : OsString) (count : ℕ) : Host (Except Errno Bytes)
  /-- Move in an open file. -/
  | seek (path : OsString) : Host (Except Errno Unit)
  /-- Overwrite bytes of an open file. -/
  | writeAt (path : OsString) (offset : ℕ) (bytes : Bytes) : Host (Except Errno Unit)
  /-- Set permission bits. -/
  | setPermissions (path : OsString) (mode : ℕ) : Host (Except Errno Unit)
  /-- Whether a path names a regular file. -/
  | isFile (path : OsString) : Host Bool
  /-- Append to the log. -/
  | log (level : LogLevel) (message : Bytes) : Host (Except Errno Unit)
  /-- Run a tool. -/
  | execute (tool : OsString) (args : List OsString) : Host (Except Errno ExitStatus)

/-- A run of a tool: what it may write, and what it left there. -/
structure Pass where
  path : OsString
  left : Option Node
  deriving DecidableEq

/-- What the collector acts on. -/
structure World where
  fs : Fs
  /-- The level of the log. -/
  logLevel : LogLevel
  /-- The log file. -/
  logFile : Option OsString
  /-- The tools run so far. -/
  passes : List Pass

/-- What a tool does to the file it may write. -/
inductive Effect where
  | none
  | remove
  | leave (file : File)
  deriving DecidableEq, Repr

/-- What the collector does not control. -/
structure Event where
  /-- The call fails. -/
  fail : Bool
  /-- If it is a removal, it fails. -/
  failRemove : Bool
  /-- How far a write that fails got. -/
  count : ℕ
  /-- The identity of a file the call creates. -/
  identity : FileIdentity
  /-- The permission bits of a file the call creates. -/
  mode : ℕ
  /-- What a tool does. -/
  effect : Effect
  /-- How a tool ends. -/
  status : ExitStatus

/-- The output a linker command line names. -/
def toolOutput (args : List OsString) : Option OsString :=
  match readArgs {} args with
  | .ok reading => reading.selections.output
  | .error _ => none

/-- The file a tool may write. -/
def toolTarget (args : List OsString) : OsString :=
  (toolOutput args).getD (args.getLast?.getD [])

/-- The bytes with `patch` written over them from `offset` on. -/
def overwrite (bytes : Bytes) (offset : ℕ) (patch : Bytes) : Bytes :=
  bytes.take offset ++ patch ++ bytes.drop (offset + patch.length)

namespace World

/-- The place a path names. -/
def locate (w : World) (path : OsString) : Path := Engine.locate w.fs.cwd path

/-- The node at a path. -/
def get (w : World) (path : OsString) : Option Node := w.fs.get (w.locate path)

/-- Bind a path. -/
def set (w : World) (path : OsString) (node : Node) : World :=
  { w with fs := w.fs.set (w.locate path) node }

/-- Unbind a path. -/
def del (w : World) (path : OsString) : World := { w with fs := w.fs.del (w.locate path) }

/-- Write a file at a path, keeping what an existing one has. -/
def store (w : World) (c : Event) (path : OsString) (bytes : Bytes) : Except Errno World :=
  match w.get path with
  | some (.file f) => .ok (w.set path (.file { f with bytes := bytes }))
  | some _ => .error .isdir
  | none =>
    if w.fs.isDir (w.locate path).dropLast then
      .ok (w.set path (.file ⟨w.fs.fresh c.identity, bytes, c.mode⟩))
    else .error .noent

/-- Apply what a tool does. -/
def apply (w : World) (path : OsString) : Effect → World
  | .none => w
  | .remove => w.del path
  | .leave f => w.set path (.file f)

end World

namespace Host

/-- A call that only reads. -/
def peek {γ : Type} (c : Event) (w : World) (r : Except Errno γ) : Except Errno γ × World :=
  (if c.fail then .error .io else r, w)

/-- A call on a regular file. -/
def onFile {γ : Type} (w : World) (path : OsString) (f : File → γ) : Except Errno γ :=
  match w.get path with
  | some (.file file) => .ok (f file)
  | some _ => .error .isdir
  | none => .error .noent

/-- A call that writes; if it fails it has gone as far as `partly`. -/
def alter (c : Event) (w : World) (r partly : Except Errno World) : Except Errno Unit × World :=
  if c.fail then (.error .io, partly.toOption.getD w) else
    match r with
    | .ok w => (.ok (), w)
    | .error e => (.error e, w)

/-- What the calls do. -/
def step : {β : Type} → Host β → Event → World → β × World
  | _, removeFile path, c, w =>
    if c.failRemove then (.error .io, w) else
      match w.get path with
      | some (.dir _) => (.error .isdir, w)
      | some _ => (.ok (), w.del path)
      | none => (.error .noent, w)
  | _, readFile path, c, w => peek c w (onFile w path File.bytes)
  | _, writeFile path bytes, c, w => alter c w (w.store c path bytes)
    (if c.count = 0 then .ok w else w.store c path (bytes.take (c.count - 1)))
  | _, rename source target, c, w => alter c w
    (match w.get source with
    | some n =>
      match w.get target with
      | some (.dir _) => .error .isdir
      | _ =>
        if w.fs.isDir (w.locate target).dropLast then
          .ok { w with fs := w.fs.move (w.locate source) (w.locate target) n }
        else .error .noent
    | none => .error .noent) (.ok w)
  | _, openFile path, c, w => peek c w (onFile w path fun _ => ())
  | _, readExact path count, c, w => peek c w <|
    match onFile w path File.bytes with
    | .ok bytes => if count ≤ bytes.length then .ok (bytes.take count) else .error .io
    | .error e => .error e
  | _, seek _, c, w => peek c w (.ok ())
  | _, writeAt path offset bytes, c, w => alter c w
    (onFile w path fun f =>
      w.set path (.file { f with bytes := overwrite f.bytes offset bytes }))
    (onFile w path fun f =>
      w.set path (.file { f with bytes := overwrite f.bytes offset (bytes.take c.count) }))
  | _, setPermissions path mode, c, w => alter c w
    (onFile w path fun f => w.set path (.file { f with mode := mode })) (.ok w)
  | _, isFile path, _, w => (((w.get path).any fun n => match n with
    | .file _ => true
    | _ => false), w)
  | _, log level message, c, w =>
    match w.logFile with
    | none => (.ok (), w)
    | some path =>
      if w.logLevel = .off ∨ w.logLevel.rank < level.rank then (.ok (), w) else alter c w
      (onFile w path fun f => w.set path (.file { f with bytes := f.bytes ++ message }))
      (onFile w path fun f =>
        w.set path (.file { f with bytes := f.bytes ++ message.take c.count }))
  | _, execute _ args, c, w =>
    let target := toolTarget args
    let w := w.apply target c.effect
    (if c.fail then .error .io else .ok c.status,
      { w with passes := w.passes ++ [⟨target, w.get target⟩] })

/-- The machine. -/
def machine : Machine Host World Event where
  step := step

end Host

end Engine

end ArosTools
