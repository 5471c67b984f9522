import RecordWire.Proofs.DependencyOrder

/-!
The cycle that is reported when the records of a schema have no order.  The search is followed call
by call.  Every call finds the marks and the path in agreement, so a node that is under way is on
the path, and the part of the path from that node on is a cycle without repeats.
-/

namespace RecordWire

variable {edges : List (List Nat)}

namespace Search

variable {s s' : Search} {fuel node : Nat} {nodes c : List Nat}

/-- The visits that make up a search: with `fuel` levels left, the state `s` is reached and `node`
is visited next.  A visit follows those of the nodes before it, all of which came to their end. -/
inductive Call (edges : List (List Nat)) : Nat → Search → Nat → Prop
  | root {s : Search} {node : Nat} :
    visitAll (visit edges (edges.length + 1)) (start edges.length) (List.range node) = .ok s →
    node < edges.length → Call edges (edges.length + 1) s node
  | inner {fuel node next : Nat} {s s' : Search} {before after : List Nat} :
    Call edges (fuel + 1) s node → s.marks[node]? = some .unvisited →
    edges[node]?.getD [] = before ++ next :: after →
    visitAll (visit edges fuel) (s.enter node) before = .ok s' → Call edges fuel s' next

/-- What holds when a node is visited. -/
structure Ready (edges : List (List Nat)) (fuel : Nat) (s : Search) (node : Nat) : Prop where
  valid : Valid edges s
  lt_length : node < edges.length
  leads : Leads edges s node
  fuel_suffices : edges.length < fuel + s.path.length

/-- A node that is under way is on the path. -/
theorem Ready.exists_idxOf? (h : Ready edges fuel s node)
    (hm : s.marks[node]? = some .inProgress) : ∃ i, s.path.idxOf? node = some i :=
  Option.isSome_iff_exists.mp (List.isSome_idxOf?.mpr ((h.valid.mem_path node).mp hm))

theorem Ready.isCycle (h : Ready edges fuel s node) (hm : s.marks[node]? = some .inProgress) :
    IsCycle edges (s.cycle node) :=
  h.valid.cycle ((h.valid.mem_path node).mp hm) h.leads

theorem Ready.lt_of_mem_cycle (h : Ready edges fuel s node) {i : Nat} (hi : i ∈ s.cycle node) :
    i < edges.length := by
  rw [cycle, List.mem_append, List.mem_singleton] at hi
  rcases hi with hi | rfl
  · exact h.valid.lt_of_mem_path (List.mem_of_mem_drop hi)
  · exact h.lt_length

/-- Visits one after the other, each from a state with the same path. -/
theorem visitAll_outcome_of_ready (hc : ClosedGraph edges) (hs : Valid edges s)
    (hfuel : edges.length < fuel + s.path.length)
    (hn : ∀ node ∈ nodes, node < edges.length ∧ Leads edges s node) :
    Outcome edges s nodes (visitAll (visit edges fuel) s nodes) := by
  have hvisit : ∀ t node, node ∈ nodes → Valid edges t → t.path = s.path →
      Outcome edges t [node] (visit edges fuel t node) := by
    intro t node hnode ht hp
    obtain ⟨hlt, hl⟩ := hn node hnode
    refine visit_outcome hc ht hlt ?_ (hp ▸ hfuel)
    rw [Leads, hp]
    exact hl
  exact visitAll_outcome hvisit hs rfl

theorem Call.ready (hc : ClosedGraph edges) (h : Call edges fuel s node) :
    Ready edges fuel s node := by
  induction h with
  | @root s node hall hlt =>
    have hstart : ∀ i ∈ List.range node,
        i < edges.length ∧ Leads edges (start edges.length) i := by
      intro i hi
      have := List.mem_range.mp hi
      exact ⟨by omega, by simp [Leads, start]⟩
    have hfuel : edges.length < edges.length + 1 + (start edges.length).path.length := by omega
    have houtcome := visitAll_outcome_of_ready hc start_valid hfuel hstart
    rw [hall] at houtcome
    have hpath : s.path = [] := houtcome.path_eq
    exact ⟨houtcome.valid, hlt, by simp [Leads, hpath], by omega⟩
  | @inner fuel node next s s' before after _ hm hsplit hall ih =>
    have hrefers : ∀ i ∈ before ++ next :: after, RefersTo edges node i := by
      intro i hi
      rw [RefersTo, hsplit]
      exact hi
    have hfuel : edges.length < fuel + (s.enter node).path.length := by
      have := ih.fuel_suffices
      rw [enter, List.length_append, List.length_singleton]
      omega
    have hlast : ∀ i, Leads edges (s.enter node) i ↔ RefersTo edges node i := by
      simp [Leads, enter]
    have hbefore : ∀ i ∈ before, i < edges.length ∧ Leads edges (s.enter node) i := by
      intro i hi
      have hi' := hrefers i (List.mem_append_left _ hi)
      exact ⟨hc node i hi', (hlast i).mpr hi'⟩
    have houtcome := visitAll_outcome_of_ready hc (ih.valid.enter hm ih.leads) hfuel hbefore
    rw [hall] at houtcome
    have hnext := hrefers next (List.mem_append_right _ (List.mem_cons_self ..))
    refine ⟨houtcome.valid, hc node next hnext, ?_, ?_⟩
    · rw [Leads, houtcome.path_eq]
      exact (hlast next).mpr hnext
    · rw [houtcome.path_eq]
      exact hfuel

theorem visitAll_error {visit : Search → Nat → Except (List Nat) Search}
    (h : visitAll visit s nodes = .error c) :
    ∃ before node after s', nodes = before ++ node :: after ∧ visitAll visit s before = .ok s' ∧
      visit s' node = .error c := by
  induction nodes generalizing s with
  | nil => cases h
  | cons node rest ih =>
    rw [visitAll] at h
    cases hv : visit s node with
    | error c' =>
      rw [hv] at h
      cases h
      exact ⟨[], node, rest, s, rfl, rfl, hv⟩
    | ok s₁ =>
      rw [hv] at h
      obtain ⟨before, node', after, s', rfl, hall, herror⟩ := ih h
      refine ⟨node :: before, node', after, s', rfl, ?_, herror⟩
      rw [visitAll, hv]
      exact hall

/-- A visit fails only in a visit of a node that is under way. -/
theorem Call.exists_inProgress (h : Call edges fuel s node)
    (herror : visit edges fuel s node = .error c) :
    ∃ fuel' s' node', Call edges fuel' s' node' ∧ s'.marks[node']? = some .inProgress ∧
      c = s'.cycle node' := by
  induction fuel generalizing s node with
  | zero => cases herror
  | succ fuel ih =>
    rw [visit] at herror
    cases hm : s.marks[node]? with
    | none =>
      rw [hm] at herror
      cases herror
    | some mark =>
      rw [hm] at herror
      cases mark with
      | done => cases herror
      | inProgress =>
        cases herror
        exact ⟨fuel + 1, s, node, h, hm, rfl⟩
      | unvisited =>
        cases hall : visitAll (visit edges fuel) (s.enter node) (edges[node]?.getD []) with
        | ok s₁ => simp [hall] at herror
        | error c' =>
          simp only [hall] at herror
          cases herror
          obtain ⟨before, next, after, s', hsplit, hbefore, hnext⟩ := visitAll_error hall
          exact ih (.inner h hm hsplit hbefore) hnext

end Search

theorem range_eq_append_cons {n i : Nat} {before after : List Nat}
    (h : List.range n = before ++ i :: after) : before = List.range i ∧ i < n := by
  rw [List.range_eq_range', List.range'_eq_append_iff] at h
  obtain ⟨k, hk, rfl, hafter⟩ := h
  cases hn : n - k with
  | zero => simp [hn] at hafter
  | succ m =>
    rw [hn, List.range'_succ, List.cons.injEq, Nat.zero_add, Nat.mul_one] at hafter
    rw [hafter.1, List.range_eq_range']
    exact ⟨rfl, by omega⟩

theorem exists_call_of_topologicalOrder {c : List Nat} (h : topologicalOrder edges = .error c) :
    ∃ fuel s node, Search.Call edges fuel s node ∧ s.marks[node]? = some .inProgress ∧
      c = s.cycle node := by
  rw [topologicalOrder] at h
  cases hall : Search.visitAll (Search.visit edges (edges.length + 1))
      (Search.start edges.length) (List.range edges.length) with
  | ok s => simp [hall] at h
  | error c' =>
    simp only [hall] at h
    cases h
    obtain ⟨before, node, after, s, hsplit, hbefore, hnode⟩ := Search.visitAll_error hall
    obtain ⟨rfl, hlt⟩ := range_eq_append_cons hsplit
    exact (Search.Call.root hbefore hlt).exists_inProgress hnode

namespace Schema

variable {s : Schema} {kinds : List (List FieldKind)}

theorem dependencyOrder_error {e : SchemaError} (h : s.dependencyOrder kinds = .error e) :
    ∃ c, topologicalOrder (s.references kinds) = .error c ∧
      e = .circularReference (c.filterMap fun i => s.records[i]?.map (·.name)) := by
  rw [dependencyOrder] at h
  cases hc : topologicalOrder (s.references kinds) with
  | ok order => simp [hc] at h
  | error c =>
    simp only [hc] at h
    exact ⟨c, rfl, (Except.error.inj h).symm⟩

/-- Every record of the schema is named. -/
theorem map_name_eq {c : List Nat} (hc : ∀ i ∈ c, i < s.records.length) :
    c.map (fun i => s.records[i]?.map (·.name)) =
      (c.filterMap fun i => s.records[i]?.map (·.name)).map some := by
  rw [List.map_filterMap_some_eq_filter_map_isSome, eq_comm, List.filter_eq_self]
  intro name hname
  obtain ⟨i, hi, rfl⟩ := List.mem_map.mp hname
  rw [Option.isSome_map, isSome_getElem?]
  exact hc i hi

end Schema

/-- When a schema has no order, the records named are those of a cycle of references that no record
is on twice.  Wherever the search comes to a record under way, the record is on the path. -/
theorem reported_cycle_simple {s : Schema} {kinds : List (List FieldKind)} (built : s.Built)
    (classified : s.kinds = .ok kinds) :
    (∀ e, s.dependencyOrder kinds = .error e →
      ∃ first rest names, (first :: rest).Nodup ∧ (first :: rest ++ [first]).IsChain s.Refers ∧
        (first :: rest ++ [first]).map (fun i => s.records[i]?.map (·.name)) = names.map some ∧
        e = .circularReference names ∧
        e.message = "circular type reference detected: " ++ " -> ".intercalate names) ∧
    ∀ fuel search node, Search.Call (s.references kinds) fuel search node →
      search.marks[node]? = some .inProgress → ∃ i, search.path.idxOf? node = some i := by
  have hk := Schema.kinds_of_ok classified
  have hc := built.closedGraph hk.length_eq.symm
  refine ⟨fun e he => ?_, fun fuel search node hcall => (hcall.ready hc).exists_idxOf?⟩
  obtain ⟨c, hcycle, rfl⟩ := Schema.dependencyOrder_error he
  obtain ⟨fuel, search, node, hcall, hm, rfl⟩ := exists_call_of_topologicalOrder hcycle
  have hready := hcall.ready hc
  have hlen : (s.references kinds).length = s.records.length := by
    rw [Schema.references, List.length_map, hk.length_eq]
  have hnames := Schema.map_name_eq fun i hi => hlen ▸ hready.lt_of_mem_cycle hi
  obtain ⟨first, rest, heq, hnodup, hchain⟩ := hready.isCycle hm
  rw [heq] at hchain hnames ⊢
  exact ⟨first, rest, _, hnodup, hchain.imp fun i j => (built.refersTo_iff hk).mp, hnames, rfl, rfl⟩

namespace Sample

/-- The search starts at a record that is on no cycle, and two records share a name. -/
def entered : Schema :=
  (((({} : Schema).addRecord
    { name := "entry"
      fields := [{ name := "first", typeName := "node" }] }).addRecord
    { name := "node"
      fields := [{ name := "edges", typeName := "sequence<edge>" }] }).addRecord
    { name := "edge"
      fields := [{ name := "ends", typeName := "node", length := some 2 }] }).addRecord
    { name := "edge" }

def enteredKinds : List (List FieldKind) :=
  [[.single (.record "node")], [.sequence (.record "edge")], [.array (.record "node") 2], []]

end Sample

theorem entered_cycle :
    Sample.entered.dependencyOrder Sample.enteredKinds =
      .error (.circularReference ["node", "edge", "node"]) ∧
    (∃ first rest, (first :: rest).Nodup ∧
      (first :: rest ++ [first]).IsChain Sample.entered.Refers ∧
      (first :: rest ++ [first]).map (fun i => Sample.entered.records[i]?.map (·.name)) =
        [some "node", some "edge", some "node"]) ∧
    ∃ fuel search node,
      Search.Call (Sample.entered.references Sample.enteredKinds) fuel search node ∧
      search.marks[node]? = some .inProgress ∧ ∃ i, search.path.idxOf? node = some i := by
  have built : Sample.entered.Built := .add _ (.add _ (.add _ (.add _ (.new _ _))))
  have classified : Sample.entered.kinds = .ok Sample.enteredKinds := by decide +kernel
  have hcycle : Sample.entered.dependencyOrder Sample.enteredKinds =
      .error (.circularReference ["node", "edge", "node"]) := by
    decide +kernel
  obtain ⟨hreport, hpath⟩ := reported_cycle_simple built classified
  refine ⟨hcycle, ?_, ?_⟩
  · obtain ⟨first, rest, names, hnodup, hchain, hnames, he, -⟩ := hreport _ hcycle
    obtain rfl : ["node", "edge", "node"] = names := SchemaError.circularReference.inj he
    exact ⟨first, rest, hnodup, hchain, hnames⟩
  · obtain ⟨c, hc, -⟩ := Schema.dependencyOrder_error hcycle
    obtain ⟨fuel, search, node, hcall, hm, -⟩ := exists_call_of_topologicalOrder hc
    exact ⟨fuel, search, node, hcall, hm, hpath fuel search node hcall hm⟩

end RecordWire
