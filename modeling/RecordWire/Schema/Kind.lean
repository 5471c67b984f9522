import RecordWire.Name
import RecordWire.Primitive
import RecordWire.Schema.Basic
import RecordWire.Schema.Error
import RecordWire.Text.Lines

/-!
What a field holds.  `FieldDef.kind` reads it off the declared type name, the declared array
length and the record names of the schema: a fixed array if a length is declared, a sequence if
the type is written as one, and otherwise a single element.  An element is a primitive if its name
spells one, a record if a record has that name, and else a foreign type whose name is kept as it
is.
-/

namespace RecordWire

inductive Element where
  | primitive (type : Primitive)
  | record (name : String)
  /-- A type the schema does not declare, with a codec of its own. -/
  | foreign (name : String)
  deriving DecidableEq

namespace Element

def rustType : Element → String
  | primitive type => type.rustType
  | record name => Name.typeIdent name
  | foreign name => name

def recordName? : Element → Option String
  | record name => some name
  | _ => none

def foreignName? : Element → Option String
  | foreign name => some name
  | _ => none

end Element

inductive FieldKind where
  | single (element : Element)
  | array (element : Element) (length : Nat)
  | sequence (element : Element)
  deriving DecidableEq

namespace FieldKind

def element : FieldKind → Element
  | single e => e
  | array e _ => e
  | sequence e => e

def recordName? (k : FieldKind) : Option String :=
  k.element.recordName?

def foreignName? (k : FieldKind) : Option String :=
  k.element.foreignName?

def isForeign (k : FieldKind) : Bool :=
  k.foreignName?.isSome

def isSequence : FieldKind → Bool
  | sequence _ => true
  | _ => false

def isArray : FieldKind → Bool
  | array _ _ => true
  | _ => false

/-- The integer type of a field that can count a sequence right after it. -/
def countType? : FieldKind → Option Primitive
  | single (.primitive p) => if p.isInteger then some p else none
  | _ => none

def rustType : FieldKind → String
  | single e => e.rustType
  | array e length => s!"[{e.rustType}; {length}]"
  | sequence e => s!"Vec<{e.rustType}>"

end FieldKind

/-! ## Reading type names -/

def sequenceOpenings : List String :=
  ["sequence<", "QVector<"]

/-- What is left of `cs` between the two ends, if it has both. -/
def between? (opening : List Char) (closing : Char) (cs : List Char) : Option (List Char) :=
  if opening.isPrefixOf cs then
    match (cs.drop opening.length).reverse with
    | c :: rest => if c = closing then some rest.reverse else none
    | [] => none
  else
    none

/-- The element named by a type in sequence syntax. -/
def sequenceElement? (typeName : String) : Option String :=
  sequenceOpenings.findSome? fun opening =>
    (between? opening.toList '>' (Text.trim typeName).toList).map fun inner =>
      Text.trim (String.ofList inner)

def Element.ofName (records : List String) (typeName : String) : Element :=
  let name := Text.trim typeName
  match Primitive.ofName? name with
  | some p => .primitive p
  | none => if records.contains name then .record name else .foreign name

/-- The kind of a field of `record`, where `records` are the record names of the schema. -/
def FieldDef.kind (field : FieldDef) (records : List String) (record : String) :
    Except SchemaError FieldKind :=
  let name := Text.trim field.typeName
  match field.length, sequenceElement? name with
  | some 0, _ => .error (.invalidArrayLength record field.name 0)
  | some _, some _ => .error (.unsupportedElement record field.name name)
  | some length, none => .ok (.array (.ofName records name) length)
  | none, some inner =>
    if (sequenceElement? inner).isSome then
      .error (.unsupportedElement record field.name name)
    else
      .ok (.sequence (.ofName records inner))
  | none, none => .ok (.single (.ofName records name))

/-- The kinds of all fields, record by record, or the first error in document order. -/
def Schema.kinds (s : Schema) : Except SchemaError (List (List FieldKind)) :=
  s.records.mapM fun record =>
    record.fields.mapM fun field => field.kind (s.records.map (·.name)) record.name

end RecordWire
