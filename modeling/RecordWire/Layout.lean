import RecordWire.Schema.Resolved

/-!
How a record is stored: its slots in declared order, what each starts out as, and the routines that
size a counted sequence from its count.
-/

namespace RecordWire

/-- What a slot starts out as. -/
inductive ZeroInit where
  | zero (literal : String)
  | zeroBlock (length : Nat)
  | fillArray (literal : String) (length : Nat)
  | defaultArray
  | record (typeName : String)
  | default
  | empty
  deriving DecidableEq

def ZeroInit.expression : ZeroInit → String
  | zero literal => literal
  | zeroBlock length => s!"[0u8; {length}]"
  | fillArray literal length => s!"[{literal}; {length}]"
  | defaultArray => "::core::array::from_fn(|_| Default::default())"
  | record typeName => typeName ++ "::default()"
  | default => "Default::default()"
  | empty => "Vec::new()"

def FieldKind.zeroInit : FieldKind → ZeroInit
  | single (.primitive p) => .zero p.zeroLiteral
  | single (.record name) => .record (Name.typeIdent name)
  | single (.foreign _) => .default
  | array (.primitive p) length =>
    if p.isByte then .zeroBlock length else .fillArray p.zeroLiteral length
  | array (.record _) _ | array (.foreign _) _ => .defaultArray
  | sequence _ => .empty

structure Slot where
  ident : String
  kind : FieldKind
  comment : Option String
  deriving DecidableEq

/-- A routine that gives a sequence as many elements as its count field says. -/
structure Allocator where
  routine : String
  sequence : String
  count : String
  element : Element
  deriving DecidableEq

structure RecordLayout where
  typeName : String
  comment : Option String
  /-- Stored without gaps, so that fields may be misaligned. -/
  packed : Bool
  slots : List Slot
  allocators : List Allocator
  deriving DecidableEq

namespace ResolvedRecord

def allocator? (r : ResolvedRecord) (f : ResolvedField) : Option Allocator :=
  f.countField.bind fun i =>
    r.fields[i]?.bind fun count =>
      f.allocator?.map fun routine => ⟨routine, f.ident, count.ident, f.kind.element⟩

def layout (r : ResolvedRecord) : RecordLayout :=
  { typeName := r.typeName
    comment := r.comment
    packed := r.fixedLayout
    slots := r.fields.map fun f => ⟨f.ident, f.kind, f.comment⟩
    allocators := r.fields.filterMap r.allocator? }

end ResolvedRecord

namespace RecordLayout

def derives (l : RecordLayout) : String :=
  if l.packed then "Debug, Clone, Copy, PartialEq" else "Debug, Clone, PartialEq"

def repr (l : RecordLayout) : String :=
  if l.packed then "C, packed" else "C"

end RecordLayout
end RecordWire
