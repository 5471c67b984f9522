import RecordWire.Wire.ByteOrder

/-!
A schema: records with named fields, each field with the name of its type.  Nothing is checked
here, so names may be malformed and may repeat.
-/

namespace RecordWire

structure FieldDef where
  name : String
  typeName : String
  /-- Declares a fixed array of so many elements. -/
  length : Option Nat := none
  comment : Option String := none
  deriving DecidableEq

structure RecordDef where
  name : String
  comment : Option String := none
  fields : List FieldDef := []
  deriving DecidableEq

/-- Records in the order they were added.  `positions` has the position of the first record of
each name. -/
structure Schema where
  moduleName : String := "generated_structs"
  byteOrder : ByteOrder := .bigEndian
  records : List RecordDef := []
  positions : List (String × Nat) := []

namespace Schema

def addRecord (s : Schema) (record : RecordDef) : Schema :=
  { s with
    records := s.records ++ [record]
    positions :=
      if (s.positions.lookup record.name).isSome then s.positions
      else s.positions ++ [(record.name, s.records.length)] }

def recordIndex? (s : Schema) (name : String) : Option Nat :=
  s.positions.lookup name

def hasRecord (s : Schema) (name : String) : Bool :=
  (s.recordIndex? name).isSome

def getRecord? (s : Schema) (name : String) : Option RecordDef :=
  (s.recordIndex? name).bind fun i => s.records[i]?

end Schema
end RecordWire
