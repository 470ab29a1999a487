import ArosTools.Fs.Machine

/-!
# Publication errors

`IoError` is an input/output error as the publication code builds and inspects it: a kind, a
text, and for a publication failure the payload with its remediation class.  `Io` is the monad of
programs over the filesystem primitives that may throw such an error.
-/

namespace ArosTools

/-- The kinds of input/output errors the code distinguishes. -/
inductive ErrorKind where
  | notFound
  | alreadyExists
  | invalidInput
  | invalidData
  | permissionDenied
  | notADirectory
  | isADirectory
  | directoryNotEmpty
  | other
  deriving DecidableEq, Repr

/-- Stable remediation class of a publication error. -/
inductive PublicationFailureClass where
  | conflict
  | unsafeTarget
  | unsupported
  | recoveryIncomplete
  | commitStateUncertain
  | io
  deriving DecidableEq, Repr

/-- Failure of a durable publication operation. -/
structure PublicationError where
  message : String
  rollbackIncomplete : Bool
  failureClass : PublicationFailureClass
  deriving DecidableEq, Repr

/-- An input/output error. -/
structure IoError where
  kind : ErrorKind
  message : String
  /-- The wrapped publication failure, if there is one. -/
  source : Option PublicationError
  deriving DecidableEq, Repr

namespace PublicationError

/-- Recovery or rollback could not restore every affected target. -/
def rollback (message : String) : PublicationError :=
  ⟨message, true, .recoveryIncomplete⟩

/-- The rename happened but its durability is unproven. -/
def uncertain (message : String) : PublicationError :=
  ⟨message, false, .commitStateUncertain⟩

end PublicationError

namespace IoError

/-- An error of a given kind. -/
def new (kind : ErrorKind) (message : String) : IoError := ⟨kind, message, none⟩

/-- An error without a more precise kind. -/
def ofMessage (message : String) : IoError := ⟨.other, message, none⟩

/-- The error a failed system call is reported as. -/
def ofErrno : Errno → IoError
  | .noent => new .notFound "No such file or directory"
  | .exist => new .alreadyExists "File exists"
  | .notdir => new .notADirectory "Not a directory"
  | .isdir => new .isADirectory "Is a directory"
  | .notempty => new .directoryNotEmpty "Directory not empty"
  | .io => new .other "Input/output error"

end IoError

/-- Wrap a publication failure. -/
def ioFailure (e : PublicationError) : IoError := ⟨.other, e.message, some e⟩

/-- Programs over the filesystem primitives that may throw. -/
abbrev Io := ExceptT IoError (Prog Sys)

/-- Call a primitive, throwing the error it reports. -/
def sys {α : Type} (op : Sys (Except Errno α)) : Io α :=
  ExceptT.mk (Prog.call op fun
    | .ok a => .ret (.ok a)
    | .error e => .ret (.error (.ofErrno e)))

/-- Call a primitive and return what it reports. -/
def sysResult {α : Type} (op : Sys (Except Errno α)) : Io (Except Errno α) :=
  ExceptT.mk (Prog.call op fun r => .ret (.ok r))

/-- Run a program and return its result or its error. -/
def attempt {α : Type} (p : Io α) : Io (Except IoError α) :=
  ExceptT.mk (p.run >>= fun r => .ret (.ok r))

/-- Replace the error a program throws. -/
def mapErr {α : Type} (f : IoError → IoError) (p : Io α) : Io α :=
  ExceptT.mk (p.run >>= fun
    | .ok a => .ret (.ok a)
    | .error e => .ret (.error (f e)))

/-- The value of an option, or an error. -/
def okOr {α : Type} (o : Option α) (e : IoError) : Io α :=
  match o with
  | some a => pure a
  | none => throw e

/-- A result computed without touching the filesystem. -/
def liftExcept {α : Type} : Except IoError α → Io α
  | .ok a => pure a
  | .error e => throw e

end ArosTools
