import RecordWire.Layout
import RecordWire.Text.Lines

/-!
The Rust text of a record type: the struct, its `Default` impl and its allocate routines.
-/

namespace RecordWire
namespace Emit

/-- A comment as doc comment lines. -/
def docLines (margin comment : String) : List String :=
  (Text.lines comment).map fun line =>
    let line := Text.trimEnd line
    if line.isEmpty then margin ++ "///" else margin ++ "/// " ++ line

def slotLines (slot : Slot) : List String :=
  (match slot.comment with
    | some comment => docLines "    " comment
    | none => []) ++
  [s!"    pub {slot.ident}: {slot.kind.rustType},"]

def structLines (l : RecordLayout) : List String :=
  (match l.comment with
    | some comment => docLines "" comment
    | none => [s!"/// {l.typeName} record."]) ++
  [s!"#[repr({l.repr})]",
    s!"#[derive({l.derives})]",
    Text.opened s!"pub struct {l.typeName}"] ++
  l.slots.flatMap slotLines ++
  [Text.closing, ""]

def defaultLines (l : RecordLayout) : List String :=
  [Text.opened s!"impl Default for {l.typeName}",
    Text.opened "    fn default() -> Self"] ++
  (if l.slots.isEmpty then ["        Self {}"]
    else
      [Text.opened "        Self"] ++
      l.slots.map (fun slot => s!"            {slot.ident}: {slot.kind.zeroInit.expression},") ++
      ["        " ++ Text.closing]) ++
  ["    " ++ Text.closing, Text.closing, ""]

/-- An identifier without its raw marks. -/
def dropRaw : List Char → List Char
  | 'r' :: '#' :: rest => dropRaw rest
  | cs => cs

def plainIdent (s : String) : String :=
  String.ofList (dropRaw s.toList)

def allocatorLines (a : Allocator) : List String :=
  [s!"    /// Resizes `{plainIdent a.sequence}` to the current value of `{plainIdent a.count}`.",
    Text.opened s!"    pub fn {a.routine}(&mut self)",
    s!"        let len = SequenceLen::sequence_len(&self.{a.count});",
    s!"        self.{a.sequence}.resize_with(len, Default::default);",
    "    " ++ Text.closing]

/-- The impl block of the allocate routines, with a blank line between two of them. -/
def allocatorsLines (l : RecordLayout) : List String :=
  if l.allocators.isEmpty then []
  else
    [Text.opened s!"impl {l.typeName}"] ++
    ((l.allocators.map allocatorLines).intersperse [""]).flatten ++
    [Text.closing, ""]

def recordLines (l : RecordLayout) : List String :=
  structLines l ++ defaultLines l ++ allocatorsLines l

end Emit
end RecordWire
