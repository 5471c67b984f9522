/-!
Why a schema is refused.
-/

namespace RecordWire

/-- What a name belongs to. -/
inductive NameKind where
  | module
  | record
  | field
  | type
  deriving DecidableEq

def NameKind.word : NameKind → String
  | module => "module"
  | record => "record"
  | field => "field"
  | type => "type"

inductive SchemaError where
  | emptyName (kind : NameKind) (context : String)
  | invalidName (kind : NameKind) (name : String)
  | duplicateDefinition (kind : NameKind) (name : String)
  | invalidArrayLength (record field : String) (length : Nat)
  | unsupportedElement (record field typeName : String)
  | circularReference (path : List String)
  deriving DecidableEq

def SchemaError.message : SchemaError → String
  | emptyName kind context => s!"empty name for {kind.word} in '{context}'"
  | invalidName kind name => s!"invalid {kind.word} name: '{name}'"
  | duplicateDefinition kind name => s!"duplicate {kind.word} definition: '{name}'"
  | invalidArrayLength record field length =>
    s!"field '{record}.{field}' declares invalid array length {length}"
  | unsupportedElement record field typeName =>
    s!"field '{record}.{field}' has unsupported element type '{typeName}'"
  | circularReference path =>
    "circular type reference detected: " ++ " -> ".intercalate path

end RecordWire
