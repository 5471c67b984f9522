import RecordWire.Event

/-!
What the program asks of the machine that it runs on: files by path, the standard streams and a
log.  Every call can fail.
-/

namespace RecordWire

inductive FileError where
  | notFound
  | notDirectory
  | isDirectory
  | nameTooLong
  | nulInName
  | notText
  | other (text : String)
  deriving DecidableEq

def FileError.message : FileError → String
  | notFound => "No such file or directory (os error 2)"
  | notDirectory => "Not a directory (os error 20)"
  | isDirectory => "Is a directory (os error 21)"
  | nameTooLong => "File name too long (os error 36)"
  | nulInName => "file name contained an unexpected NUL byte"
  | notText => "stream did not contain valid UTF-8"
  | other text => text

/-- The text that is spelled by bytes. -/
def textOf (bytes : ByteArray) : Except FileError String :=
  match String.fromUTF8? bytes with
  | some text => .ok text
  | none => .error .notText

/-! ## Paths -/

/-- Splits at each slash.  `part` holds what has been read of the current component, last character
first. -/
def splitSlashes (part : List Char) : List Char → List String
  | [] => [String.ofList part.reverse]
  | c :: rest =>
    if c = '/' then String.ofList part.reverse :: splitSlashes [] rest
    else splitSlashes (c :: part) rest

structure Path where
  absolute : Bool
  components : List String
  /-- Written with a slash at the end, so that it can only name a directory. -/
  trailingSlash : Bool

def Path.ofText (text : String) : Path :=
  { absolute := text.toList.head? == some '/'
    components := (splitSlashes [] text.toList).filter (· ≠ "")
    trailingSlash := text.toList.getLast? == some '/' }

/-- The last component of a path that is not `.`, unless it is `..`. -/
def Path.fileName? (text : String) : Option String :=
  let path := Path.ofText text
  let names := path.components.filter (· ≠ ".")
  match names.getLast? with
  | some name => if name = ".." then none else some name
  | none => none

/-! ## Calls -/

structure Files (m : Type → Type) where
  read : String → m (Except FileError ByteArray)
  /-- Replaces what the file holds, or makes the file. -/
  write : String → ByteArray → m (Except FileError Unit)

structure Host (m : Type → Type) extends Files m where
  /-- All of standard input. -/
  readInput : m (Except FileError ByteArray)
  /-- Writes everything to standard output and flushes it. -/
  print : ByteArray → m (Except FileError Unit)
  /-- Writes to standard error, and tells whether that went well. -/
  report : String → m Bool
  log : Event → m Bool

variable {m : Type → Type} [Monad m]

def Files.readText (files : Files m) (path : String) : m (Except FileError String) := do
  return (← files.read path).bind textOf

/-- Logs one event after the other, for as long as that goes well. -/
def Host.logAll (host : Host m) : List Event → m Bool
  | [] => pure true
  | event :: rest => do
    if ← host.log event then host.logAll rest else pure false

end RecordWire
