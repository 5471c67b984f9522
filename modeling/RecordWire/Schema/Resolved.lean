import RecordWire.Event
import RecordWire.Name
import RecordWire.Schema.Basic
import RecordWire.Schema.Kind
import RecordWire.Schema.Naming
import RecordWire.Schema.Order

/-!
A resolved schema: every field has its kind, its identifier and, for a counted sequence, the
position of the field that counts it.  Whatever is built from a schema starts here.
-/

namespace RecordWire

structure ResolvedField where
  name : String
  snakeName : String
  ident : String
  typeName : String
  comment : Option String
  kind : FieldKind
  /-- Position of the field that counts this sequence. -/
  countField : Option Nat
  deriving DecidableEq

def ResolvedField.allocator? (f : ResolvedField) : Option String :=
  f.countField.map fun _ => "allocate_" ++ f.snakeName

structure ResolvedRecord where
  name : String
  typeName : String
  comment : Option String
  fields : List ResolvedField
  /-- No sequence and no foreign type anywhere in the record. -/
  fixedLayout : Bool
  deriving DecidableEq

/-- A sequence is counted by the field right before it when that is a single integer. -/
def countPosition (previous : Option FieldKind) (position : Nat) (kind : FieldKind) :
    Option Nat :=
  if kind.isSequence && (previous.bind FieldKind.countType?).isSome then some (position - 1)
  else none

/-- Resolves the fields from `position` on. -/
def resolveFields (previous : Option FieldKind) (position : Nat) :
    List (FieldDef × FieldKind) → List ResolvedField
  | [] => []
  | (field, kind) :: rest =>
    let snakeName := Name.snake field.name
    { name := field.name
      snakeName := snakeName
      ident := Name.fieldIdent snakeName
      typeName := field.typeName
      comment := field.comment
      kind := kind
      countField := countPosition previous position kind } ::
      resolveFields (some kind) (position + 1) rest

namespace ResolvedRecord

/-- Resolves one record.  Whether its layout is fixed depends on the records it embeds and is
settled by `Schema.resolve`. -/
def ofDef (record : RecordDef) (kinds : List FieldKind) : ResolvedRecord :=
  { name := record.name
    typeName := Name.typeIdent record.name
    comment := record.comment
    fields := resolveFields none 0 (record.fields.zip kinds)
    fixedLayout := false }

/-- One warning per field whose type, or element type, is foreign. -/
def foreignWarnings (r : ResolvedRecord) : List Event :=
  r.fields.filterMap fun f => f.kind.foreignName?.map (.foreignType r.name f.name)

/-- Counted sequences, each with the field that counts it. -/
def countedSequences (r : ResolvedRecord) : List (ResolvedField × ResolvedField) :=
  r.fields.filterMap fun f =>
    f.countField.bind fun i => r.fields[i]?.map fun count => (f, count)

/-- Resolves one record and warns about its foreign types. -/
def resolve (record : RecordDef) (kinds : List FieldKind) : Traced SchemaError ResolvedRecord :=
  ⟨(ofDef record kinds).foreignWarnings, .ok (ofDef record kinds)⟩

end ResolvedRecord

/-- A fixed layout is made of primitives, of records with a fixed layout and of arrays of these. -/
def FieldKind.hasFixedLayout (recordFixed : String → Bool) : FieldKind → Bool
  | single (.primitive _) | array (.primitive _) _ => true
  | single (.record name) | array (.record name) _ => recordFixed name
  | single (.foreign _) | array (.foreign _) _ | sequence _ => false

structure Resolved where
  moduleName : String
  byteOrder : ByteOrder
  /-- In document order. -/
  records : List ResolvedRecord
  /-- Positions of the records, each after the records it embeds. -/
  dependencyOrder : List Nat
  /-- Position of the last record of each name. -/
  positions : List (String × Nat)

/-- Position of each name, where the last of several records with one name is found first. -/
def lastPositions (records : List ResolvedRecord) : List (String × Nat) :=
  (records.zipIdx.map fun (r, i) => (r.name, i)).reverse

/-- Settles whether the record at position `i` has a fixed layout, given that this is settled for
the records it embeds. -/
def settleLayout (positions : List (String × Nat)) (records : List ResolvedRecord) (i : Nat) :
    List ResolvedRecord :=
  records.modify i fun r =>
    { r with
      fixedLayout := r.fields.all fun f =>
        f.kind.hasFixedLayout fun name =>
          ((positions.lookup name).bind (records[·]?)).any (·.fixedLayout) }

/-- Checks names, finds the kind of every field, orders the records and resolves them. -/
def Schema.resolve (s : Schema) : Traced SchemaError Resolved := do
  s.checkNames
  let kinds ← .ofExcept s.kinds
  let order ← .ofExcept (s.dependencyOrder kinds)
  let records ← (s.records.zip kinds).mapM fun (record, kinds) =>
    ResolvedRecord.resolve record kinds
  let positions := lastPositions records
  pure
    { moduleName := s.moduleName
      byteOrder := s.byteOrder
      records := order.foldl (settleLayout positions) records
      dependencyOrder := order
      positions := positions }

/-- Checks all that `Schema.resolve` checks. -/
def Schema.validate (s : Schema) : Traced SchemaError Unit := do
  s.checkNames
  let kinds ← .ofExcept s.kinds
  let _ ← .ofExcept (s.dependencyOrder kinds)
  pure ()

namespace Resolved

def getRecord? (r : Resolved) (name : String) : Option ResolvedRecord :=
  (r.positions.lookup name).bind fun i => r.records[i]?

def recordsInDependencyOrder (r : Resolved) : List ResolvedRecord :=
  r.dependencyOrder.filterMap fun i => r.records[i]?

/-- Foreign types in order of first use. -/
def foreignTypes (r : Resolved) : List String :=
  ((r.records.flatMap (·.fields)).filterMap (·.kind.foreignName?)).foldl
    (fun names name => if names.contains name then names else names ++ [name]) []

end Resolved
end RecordWire
