import RecordWire.Event
import RecordWire.Emit.Codec
import RecordWire.Emit.Record
import RecordWire.Schema.Resolved
import RecordWire.Text.Lines

/-!
The Rust module generated for a schema: a banner, the byte order and every record in document
order.  Nothing is generated if the module name or the path of the runtime is not legal Rust, or if
a record would hide a name that the generated code uses.
-/

namespace RecordWire
namespace Emit

structure Config where
  /-- Takes the place of the module name of the schema. -/
  moduleName : Option String := none
  /-- Path of the runtime as seen from the generated module. -/
  runtimePath : String := "ironrec_core"
  /-- Named in the banner, usually the schema file. -/
  source : Option String := none

inductive GenerationError where
  | moduleName (name : String)
  | runtimePath (path : String)
  | clash (record typeName : String)
  deriving DecidableEq

def GenerationError.message : GenerationError → String
  | moduleName name => s!"invalid module name '{name}'"
  | runtimePath path => s!"invalid runtime path '{path}'"
  | clash record typeName =>
    s!"record '{record}' clashes with the type name '{typeName}' used by generated code"

/-! ## Legal names and paths -/

/-- The rest of a raw identifier. -/
def rawRest? : List Char → Option (List Char)
  | 'r' :: '#' :: rest => some rest
  | _ => none

/-- An ASCII identifier other than a low bar, which may be raw. -/
def isIdent (s : String) : Bool :=
  match (rawRest? s.toList).getD s.toList with
  | [] => false
  | c :: rest => Name.isStart c && c :: rest != ['_'] && rest.all Name.isPart

/-- Splits a path at each `::`.  `segment` holds what has been read of the current segment, last
character first. -/
def splitPath (segment : List Char) : List Char → List String
  | ':' :: ':' :: rest => String.ofList segment.reverse :: splitPath [] rest
  | c :: rest => splitPath (c :: segment) rest
  | [] => [String.ofList segment.reverse]

/-- Whether the segments can stand in front of the names of a `use`.  `first` holds for the first
segment, and `leading` while only `self` and `super` came before. -/
def isUsePath (first leading : Bool) : List String → Bool
  | [] => true
  | segment :: rest =>
    (if segment = "crate" || segment = "self" then first
      else if segment = "super" then leading
      else isIdent segment && !Name.isKeyword segment) &&
    isUsePath false (leading && (segment = "self" || segment = "super")) rest

def isRuntimePath (path : String) : Bool :=
  isUsePath true true (splitPath [] path.toList)

/-! ## The module -/

def imports : List String :=
  ["ByteOrder", "SequenceLen", "WireDecode", "WireEncode", "WireReader", "WireWriter"]

def preludeNames : List String :=
  ["Default", "Ok", "Vec"]

def usedNames : List String :=
  imports ++ preludeNames

def moduleName (s : Resolved) (c : Config) : String :=
  c.moduleName.getD s.moduleName

def banner (c : Config) : List String :=
  [match c.source with
    | some source => s!"// @generated by ironrec-codegen from {source}."
    | none => "// @generated by ironrec-codegen.",
    "// Do not edit by hand; edit the schema and regenerate.",
    ""]

def headLines (s : Resolved) (c : Config) : List String :=
  ["use " ++ c.runtimePath ++ "::" ++
      Text.braced ("self as wire, " ++ ", ".intercalate imports) ++ ";",
    "",
    "/// Byte order of the encoded stream.",
    s!"pub const BYTE_ORDER: ByteOrder = ByteOrder::{s.byteOrder.name};",
    ""]

def bodyLines (s : Resolved) (c : Config) : List String :=
  headLines s c ++
  s.records.flatMap fun r => recordLines r.layout ++ codecLines r.layout.typeName r.plan

/-- The whole output.  Comments and foreign type names may hold line breaks of their own, so the
body is split into lines again before it is indented. -/
def output (s : Resolved) (c : Config) (name : String) : String :=
  Text.unlines (banner c ++
    ["#[allow(dead_code, unused_imports, clippy::all)]", Text.opened s!"pub mod {name}"] ++
    (Text.lines (Text.trimEnd (Text.unlines (bodyLines s c)))).map Text.indent ++
    [Text.closing])

def recordEvent (r : ResolvedRecord) : Event :=
  .generatingRecord r.name r.layout.typeName r.layout.packed r.layout.slots.length
    r.layout.allocators.length

def generate (s : Resolved) (c : Config) : Traced GenerationError String :=
  let given := moduleName s c
  let name := Name.fieldIdent given
  if !isIdent given then .ofExcept (.error (.moduleName given))
  else if !isRuntimePath c.runtimePath then .ofExcept (.error (.runtimePath c.runtimePath))
  else
    match s.records.find? fun r => usedNames.contains r.typeName with
    | some r => .ofExcept (.error (.clash r.name r.typeName))
    | none =>
      let code := output s c name
      ⟨s.records.map recordEvent ++ [.generationComplete name s.records.length code.utf8ByteSize],
        .ok code⟩

end Emit
end RecordWire
