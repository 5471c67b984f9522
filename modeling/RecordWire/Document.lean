import RecordWire.Json.Shape
import RecordWire.Schema.Basic
import RecordWire.Text.Lines

/-!
Schema documents.  A document is a JSON object with an optional module name, an optional byte order
and a list of records.  Three members have a second spelling, unknown members are skipped, and
blank comments and a blank module name count as absent.
-/

namespace RecordWire

inductive DocumentError where
  | json (error : Json.ReadError)
  | unknownByteOrder (value : String)
  /-- The bytes of the document are not UTF-8. -/
  | notText
  deriving DecidableEq

def DocumentError.message : DocumentError → String
  | json (.fault .truncated) => "JSON decode error: the document ends too early"
  | json (.fault .malformed) => "JSON decode error: the document is malformed"
  | json (.mismatch m) => "JSON decode error: " ++ m.message
  | unknownByteOrder value =>
    s!"invalid value '{value}' for attribute 'byteOrder' on element 'schema'"
  | notText => "IO error: stream did not contain valid UTF-8"

namespace Document

open Json

def unlessBlank (s : Option String) : Option String :=
  s.filter fun t => !Text.allBlank t

def fieldShape : ObjectShape FieldDef where
  title := "struct RawField"
  blank := { name := "", typeName := "" }
  members :=
    [{ name := "name"
       required := true
       value := Shape.text.map fun s f => { f with name := s } },
    { name := "type"
      required := true
      value := Shape.text.map fun s f => { f with typeName := Text.trim s } },
    { name := "length"
      otherName := some "arraySize"
      value := Shape.optionalSize.map fun n f => { f with length := n } },
    { name := "comment"
      value := Shape.optionalText.map fun s f => { f with comment := unlessBlank s } }]

def recordShape : ObjectShape RecordDef where
  title := "struct RawRecord"
  blank := { name := "" }
  members :=
    [{ name := "name"
       required := true
       value := Shape.text.map fun s r => { r with name := s } },
    { name := "comment"
      value := Shape.optionalText.map fun s r => { r with comment := unlessBlank s } },
    { name := "fields"
      otherName := some "members"
      value := (Shape.list fieldShape.shape).map fun fs r => { r with fields := fs } }]

/-- A document as it was written, before its byte order is looked up. -/
structure Draft where
  moduleName : Option String := none
  byteOrder : Option String := none
  records : List RecordDef := []

def draftShape : ObjectShape Draft where
  title := "struct RawSchema"
  blank := {}
  members :=
    [{ name := "module"
       value := Shape.optionalText.map fun s d => { d with moduleName := unlessBlank s } },
    { name := "byteOrder"
      value := Shape.optionalText.map fun s d => { d with byteOrder := s } },
    { name := "records"
      otherName := some "structs"
      required := true
      value := (Shape.list recordShape.shape).map fun rs d => { d with records := rs } }]

/-- Reads the draft that takes up a whole text. -/
def readDraft (text : String) : Except ReadError Draft :=
  match draftShape.read (tokens text.toList) with
  | .ok (draft, []) => .ok draft
  | .ok (_, _ :: _) => .error (.fault .malformed)
  | .error e => .error e

def Draft.toSchema (d : Draft) : Except DocumentError Schema :=
  let start : Schema :=
    match d.moduleName with
    | some name => { moduleName := name }
    | none => {}
  match d.byteOrder with
  | none => .ok (d.records.foldl Schema.addRecord start)
  | some value =>
    match ByteOrder.ofName? value with
    | some order => .ok (d.records.foldl Schema.addRecord { start with byteOrder := order })
    | none => .error (.unknownByteOrder value)

end Document

def Schema.ofText (text : String) : Except DocumentError Schema :=
  match Document.readDraft text with
  | .ok draft => draft.toSchema
  | .error e => .error (.json e)

def Schema.ofBytes (bytes : ByteArray) : Except DocumentError Schema :=
  match String.fromUTF8? bytes with
  | some text => Schema.ofText text
  | none => .error .notText

end RecordWire
