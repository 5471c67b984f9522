import RecordWire.Generate

/-!
The command line: a schema is read from a file or from standard input, and the generated code goes
to a file or to standard output.  Nothing is written unless the code is complete.
-/

namespace RecordWire
namespace CommandLine

/-! ## Options -/

structure Options where
  input : Option String := none
  output : Option String := none
  moduleName : Option String := none
  runtimePath : Option String := none
  deriving DecidableEq

inductive Flag where
  | input
  | output
  | moduleName
  | runtimePath
  deriving DecidableEq

def longFlags : List (String × Flag) :=
  [("input", .input), ("output", .output), ("module", .moduleName), ("runtime", .runtimePath)]

def shortFlags : List (Char × Flag) :=
  [('i', .input), ('o', .output), ('m', .moduleName)]

/-- The flag of an argument, and its value if that is part of the same argument. -/
def flag? (arg : String) : Option (Flag × Option String) :=
  match arg.toList with
  | '-' :: '-' :: body =>
    let name := body.takeWhile (· ≠ '=')
    (longFlags.lookup (String.ofList name)).map fun flag =>
      (flag, match body.dropWhile (· ≠ '=') with
        | [] => none
        | _ :: value => some (String.ofList value))
  | '-' :: c :: body =>
    (shortFlags.lookup c).map fun flag =>
      (flag, match body with
        | [] => none
        | '=' :: value => some (String.ofList value)
        | value => some (String.ofList value))
  | _ => none

/-- Gives a flag its value.  No flag comes twice, and a file needs a name. -/
def Options.set? (o : Options) (flag : Flag) (value : String) : Option Options :=
  match flag with
  | .input =>
    if o.input.isSome || value.isEmpty then none else some { o with input := some value }
  | .output =>
    if o.output.isSome || value.isEmpty then none else some { o with output := some value }
  | .moduleName => if o.moduleName.isSome then none else some { o with moduleName := some value }
  | .runtimePath =>
    if o.runtimePath.isSome then none else some { o with runtimePath := some value }

/-- A value that stands alone must not look like a flag. -/
def isFlagLike (value : String) : Bool :=
  match value.toList with
  | '-' :: _ :: _ => true
  | _ => false

/-- Reads the arguments from here on.  There are no positional arguments, so nothing may follow
`--`. -/
def parseFrom (o : Options) : List String → Option Options
  | [] => some o
  | arg :: rest =>
    if arg = "--" then if rest.isEmpty then some o else none
    else
      match flag? arg, rest with
      | none, _ => none
      | some (flag, some value), rest => (o.set? flag value).bind fun o' => parseFrom o' rest
      | some (_, none), [] => none
      | some (flag, none), value :: rest' =>
        if isFlagLike value then none
        else (o.set? flag value).bind fun o' => parseFrom o' rest'

def parse (args : List String) : Option Options :=
  parseFrom {} args

def Options.config (o : Options) : Emit.Config :=
  let c : Emit.Config := { moduleName := o.moduleName, source := o.input }
  match o.runtimePath with
  | some path => { c with runtimePath := path }
  | none => c

/-! ## Running -/

/-- What is said when the schema cannot be read. -/
def Options.readFailure (o : Options) (e : FileError) : String :=
  match o.input with
  | some path => s!"failed to read {path}: {e.message}"
  | none => s!"failed to read schema from stdin: {e.message}"

def Options.writeFailure (o : Options) (e : FileError) : String :=
  match o.output with
  | some path => s!"failed to write {path}: {e.message}"
  | none => e.message

/-- The code for a schema that was read as `document`, or what to say instead, with the events on
the way. -/
def Options.compile (o : Options) (document : Except FileError ByteArray) :
    Traced String String := do
  let text ← .ofExcept ((document.bind textOf).mapError o.readFailure)
  let schema ← .ofExcept ((Schema.ofText text).mapError fun e =>
    "invalid schema document: " ++ e.message)
  let resolved ← schema.resolve.mapError SchemaError.message
  let code ← (Emit.generate resolved o.config).mapError fun e => "generation error: " ++ e.message
  .raise (.generated resolved.records.length code.utf8ByteSize)
  return code

def failure (message : String) : String :=
  "error: " ++ message ++ "\n"

/-- The exit status of a run that cannot say what it has to say. -/
def unheard : Nat := 101

section

variable {m : Type → Type} [Monad m]

def Options.document (o : Options) (host : Host m) : m (Except FileError ByteArray) :=
  match o.input with
  | some path => host.read path
  | none => host.readInput

/-- Puts the code where it belongs. -/
def Options.send (o : Options) (host : Host m) (code : String) : m (Except FileError Unit) :=
  match o.output with
  | some path => host.write path code.toUTF8
  | none => host.print code.toUTF8

def fail (host : Host m) (message : String) : m Nat := do
  if ← host.report (failure message) then return 1 else return unheard

/-- Ends a run that has come to this result, and gives its exit status. -/
def Options.finish (o : Options) (host : Host m) : Except String String → m Nat
  | .error message => fail host message
  | .ok code => do
    match ← o.send host code with
    | .error e => fail host (o.writeFailure e)
    | .ok () => return 0

def Options.run (o : Options) (host : Host m) : m Nat := do
  let traced := o.compile (← o.document host)
  if ← host.logAll traced.events then o.finish host traced.result else return unheard

def usage : String :=
  "usage: [--input FILE] [--output FILE] [--module NAME] [--runtime PATH]\n"

/-- Runs the program with these arguments.  Arguments that make no sense give exit status 2. -/
def start (host : Host m) (args : List String) : m Nat := do
  match parse args with
  | some o => o.run host
  | none =>
    let _ ← host.report usage
    return 2

end

end CommandLine
end RecordWire
