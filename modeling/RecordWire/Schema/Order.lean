import RecordWire.Schema.Basic
import RecordWire.Schema.Error
import RecordWire.Schema.Kind

/-!
The order in which every record follows the records it embeds.  A depth-first search from each
record in document order lists a record once all records it refers to are listed.  A reference to
a record whose search is still under way closes a cycle, and the cycle is the part of the search
path from that record on.
-/

namespace RecordWire

/-- For each record, the positions of the records its fields refer to, in field order and with
repeats. -/
def Schema.references (s : Schema) (kinds : List (List FieldKind)) : List (List Nat) :=
  kinds.map fun fields => (fields.filterMap FieldKind.recordName?).filterMap s.recordIndex?

inductive Mark where
  | unvisited
  | inProgress
  | done
  deriving DecidableEq

/-- State of the search.  `path` is the chain of records under way, outermost first. -/
structure Search where
  marks : List Mark
  path : List Nat := []
  order : List Nat := []

namespace Search

def start (n : Nat) : Search :=
  { marks := List.replicate n .unvisited }

def enter (s : Search) (node : Nat) : Search :=
  { s with marks := s.marks.set node .inProgress, path := s.path ++ [node] }

def leave (s : Search) (node : Nat) : Search :=
  { marks := s.marks.set node .done, path := s.path.dropLast, order := s.order ++ [node] }

/-- The cycle closed by a reference back to `node`. -/
def cycle (s : Search) (node : Nat) : List Nat :=
  s.path.drop ((s.path.idxOf? node).getD 0) ++ [node]

/-- Searches from each node of a list in turn, stopping at the first cycle. -/
def visitAll (visit : Search → Nat → Except (List Nat) Search) :
    Search → List Nat → Except (List Nat) Search
  | s, [] => .ok s
  | s, node :: rest =>
    match visit s node with
    | .ok s' => visitAll visit s' rest
    | .error c => .error c

/-- Searches from `node`.  The nodes under way are distinct, so a search over `n` nodes never goes
deeper than `n` and `n + 1` levels of `fuel` are always enough. -/
def visit (edges : List (List Nat)) : Nat → Search → Nat → Except (List Nat) Search
  | 0, s, _ => .ok s
  | fuel + 1, s, node =>
    match s.marks[node]? with
    | some .unvisited =>
      match visitAll (visit edges fuel) (s.enter node) (edges[node]?.getD []) with
      | .ok s' => .ok (s'.leave node)
      | .error c => .error c
    | some .inProgress => .error (s.cycle node)
    | some .done | none => .ok s

end Search

/-- A topological order of the graph in which node `i` refers to the nodes `edges[i]`, or a
cycle. -/
def topologicalOrder (edges : List (List Nat)) : Except (List Nat) (List Nat) :=
  let n := edges.length
  match Search.visitAll (Search.visit edges (n + 1)) (Search.start n) (List.range n) with
  | .ok s => .ok s.order
  | .error c => .error c

def Schema.dependencyOrder (s : Schema) (kinds : List (List FieldKind)) :
    Except SchemaError (List Nat) :=
  match topologicalOrder (s.references kinds) with
  | .ok order => .ok order
  | .error c => .error (.circularReference (c.filterMap fun i => s.records[i]?.map (·.name)))

end RecordWire
