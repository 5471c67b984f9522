import RecordWire.Event
import RecordWire.Name
import RecordWire.Primitive
import RecordWire.Schema.Basic
import RecordWire.Schema.Error
import RecordWire.Text.Lines

/-!
Checks on the names of a schema.  The module is a plain identifier, records and fields are
identifiers whose converted form is plain, and no two records, and no two fields of one record,
have the same converted form.
-/

namespace RecordWire

/-- How a repeated definition is shown: with the earlier name when the two are spelled
differently. -/
def collisionLabel (previous current : String) : String :=
  if previous = current then current else s!"{current} (collides with {previous})"

/-- Checks the fields of a record from here on.  `seen` has the snake case of every earlier field
with its name. -/
def checkFieldNames (record : String) (seen : List (String × String)) :
    List FieldDef → Except SchemaError Unit
  | [] => .ok ()
  | field :: rest =>
    let place := s!"{record}.{field.name}"
    let key := Name.snake field.name
    if Text.allBlank field.name then .error (.emptyName .field record)
    else if field.typeName.isEmpty then .error (.emptyName .type place)
    else if !Name.isIdentifier field.name || !Name.isPlain key then
      .error (.invalidName .field place)
    else
      match seen.lookup key with
      | some previous =>
        let label := collisionLabel previous field.name
        .error (.duplicateDefinition .field s!"{record}.{label}")
      | none => checkFieldNames record ((key, field.name) :: seen) rest

/-- Checks the records from here on.  `seen` has the Pascal case of every earlier record with its
name.  A record named like a primitive is allowed but raises a warning, because a field of that
type holds the primitive. -/
def checkRecordNames (moduleName : String) (seen : List (String × String)) :
    List RecordDef → Traced SchemaError Unit
  | [] => pure ()
  | record :: rest =>
    let key := Name.pascal record.name
    if Text.allBlank record.name then .ofExcept (.error (.emptyName .record moduleName))
    else if !Name.isIdentifier record.name || !Name.isPlain key then
      .ofExcept (.error (.invalidName .record record.name))
    else
      match seen.lookup key with
      | some previous =>
        .ofExcept (.error (.duplicateDefinition .record (collisionLabel previous record.name)))
      | none => do
        if (Primitive.ofName? record.name).isSome then
          Traced.raise (.shadowedPrimitive record.name)
        .ofExcept (checkFieldNames record.name [] record.fields)
        checkRecordNames moduleName ((key, record.name) :: seen) rest

def Schema.checkNames (s : Schema) : Traced SchemaError Unit :=
  if Name.isPlain s.moduleName then
    checkRecordNames s.moduleName [] s.records
  else
    .ofExcept (.error (.invalidName .module s.moduleName))

end RecordWire
