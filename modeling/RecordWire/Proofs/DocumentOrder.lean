import RecordWire.Proofs.ReportedCycle
import RecordWire.Proofs.Values

/-!
How the order of the records keeps to the document.  The search starts from the records in document
order, and for each it lists only records that are reached from it.  So a record that comes before
an earlier one was pulled forward by a record that stands no later than that one, and records that
refer only backward stay as they are.
-/

namespace RecordWire

variable {edges : List (List Nat)}

namespace Search

variable {s s' : Search} {fuel node : Nat} {nodes : List Nat}

/-- Every node that `s'` lists and `s` does not is reached from one of `roots`. -/
def ListsFrom (edges : List (List Nat)) (roots : List Nat) (s s' : Search) : Prop :=
  ∀ n ∈ s'.order, n ∈ s.order ∨ ∃ root ∈ roots, Relation.ReflTransGen (RefersTo edges) root n

theorem listsFrom_refl (roots : List Nat) (s : Search) : ListsFrom edges roots s s :=
  fun _ hn => .inl hn

theorem visitAll_listsFrom {visit : Search → Nat → Except (List Nat) Search}
    (hv : ∀ s node s', visit s node = .ok s' → ListsFrom edges [node] s s')
    (h : visitAll visit s nodes = .ok s') : ListsFrom edges nodes s s' := by
  induction nodes generalizing s with
  | nil =>
    cases h
    exact listsFrom_refl [] _
  | cons node rest ih =>
    rw [visitAll] at h
    cases hnode : visit s node with
    | error c =>
      rw [hnode] at h
      cases h
    | ok s₁ =>
      rw [hnode] at h
      intro n hn
      rcases ih h n hn with hn | ⟨root, hroot, hreach⟩
      · rcases hv s node s₁ hnode n hn with hn | ⟨root, hroot, hreach⟩
        · exact .inl hn
        · exact .inr ⟨root, List.mem_cons.mpr (.inl (List.mem_singleton.mp hroot)), hreach⟩
      · exact .inr ⟨root, List.mem_cons_of_mem _ hroot, hreach⟩

/-- A visit lists nothing that its node does not reach. -/
theorem visit_listsFrom (h : visit edges fuel s node = .ok s') : ListsFrom edges [node] s s' := by
  induction fuel generalizing s node s' with
  | zero =>
    cases h
    exact listsFrom_refl [node] s
  | succ fuel ih =>
    rw [visit] at h
    cases hm : s.marks[node]? with
    | none =>
      rw [hm] at h
      cases h
      exact listsFrom_refl [node] s
    | some mark =>
      rw [hm] at h
      cases mark with
      | inProgress => cases h
      | done =>
        cases h
        exact listsFrom_refl [node] s
      | unvisited =>
        cases hall : visitAll (visit edges fuel) (s.enter node) (edges[node]?.getD []) with
        | error c => simp [hall] at h
        | ok s₁ =>
          simp only [hall] at h
          cases h
          have hnext := visitAll_listsFrom (fun _ _ _ hvisit => ih hvisit) hall
          intro n hn
          rcases List.mem_append.mp hn with hn | hn
          · -- The nodes below are reached through the reference that led to them.
            refine (hnext n hn).imp_right ?_
            rintro ⟨next, hrefers, hreach⟩
            exact ⟨node, List.mem_singleton.mpr rfl, .head hrefers hreach⟩
          · rw [List.mem_singleton.mp hn]
            exact .inr ⟨node, List.mem_singleton.mpr rfl, .refl⟩

theorem visitAll_append {visit : Search → Nat → Except (List Nat) Search} {rest : List Nat}
    (h : visitAll visit s (nodes ++ rest) = .ok s') :
    ∃ t, visitAll visit s nodes = .ok t ∧ visitAll visit t rest = .ok s' := by
  induction nodes generalizing s with
  | nil => exact ⟨s, rfl, h⟩
  | cons node nodes ih =>
    rw [List.cons_append, visitAll] at h
    rw [visitAll]
    cases hnode : visit s node with
    | error c =>
      rw [hnode] at h
      cases h
    | ok s₁ =>
      rw [hnode] at h
      exact ih h

/-- A root is visited with nothing on the path. -/
theorem visitAll_roots_outcome (hc : ClosedGraph edges) (hs : Valid edges s) (hp : s.path = [])
    (hn : ∀ node ∈ nodes, node < edges.length) :
    Outcome edges s nodes (visitAll (visit edges (edges.length + 1)) s nodes) := by
  refine visitAll_outcome_of_ready hc hs (by omega) fun node hnode => ⟨hn node hnode, ?_⟩
  simp [Leads, hp]

end Search

/-- The order after the first roots.  It has those roots and what they reach, and the rest of the
search only adds to its end. -/
theorem exists_order_of_roots (hc : ClosedGraph edges) {order : List Nat}
    (h : topologicalOrder edges = .ok order) {m : Nat} (hm : m ≤ edges.length) :
    ∃ first, first <+: order ∧ (∀ i < m, i ∈ first) ∧
      ∀ n ∈ first, ∃ root < m, Relation.ReflTransGen (RefersTo edges) root n := by
  rw [topologicalOrder] at h
  cases hall : Search.visitAll (Search.visit edges (edges.length + 1))
      (Search.start edges.length) (List.range edges.length) with
  | error c => simp [hall] at h
  | ok s =>
    simp only [hall] at h
    cases h
    have hrange : List.range edges.length =
        List.range m ++ (List.range (edges.length - m)).map (m + ·) := by
      rw [← List.range_add, Nat.add_sub_cancel' hm]
    rw [hrange] at hall
    obtain ⟨t, hfirst, hrest⟩ := Search.visitAll_append hall
    have hlt : ∀ i ∈ List.range m, i < edges.length := by
      intro i hi
      have := List.mem_range.mp hi
      omega
    have hlt' : ∀ i ∈ (List.range (edges.length - m)).map (m + ·), i < edges.length := by
      intro i hi
      obtain ⟨k, hk, rfl⟩ := List.mem_map.mp hi
      have := List.mem_range.mp hk
      omega
    have hdone := Search.visitAll_roots_outcome hc Search.start_valid rfl hlt
    rw [hfirst] at hdone
    have hadded := Search.visitAll_roots_outcome hc hdone.valid hdone.path_eq hlt'
    rw [hrest] at hadded
    refine ⟨t.order, hadded.order_prefix, fun i hi => ?_, fun n hn => ?_⟩
    · exact hdone.mem_order i (List.mem_range.mpr hi)
    · rcases Search.visitAll_listsFrom (fun _ _ _ => Search.visit_listsFrom) hfirst n hn with
        hn | ⟨root, hroot, hreach⟩
      · cases hn
      · exact ⟨root, List.mem_range.mp hroot, hreach⟩

theorem mem_of_idxOf_lt {first order : List Nat} (hp : first <+: order) {i j : Nat}
    (hi : i ∈ first) (hji : order.idxOf j < order.idxOf i) : j ∈ first := by
  obtain ⟨rest, rfl⟩ := hp
  by_contra hj
  rw [List.idxOf_append_of_notMem hj, List.idxOf_append_of_mem hi] at hji
  have := List.idxOf_lt_length_of_mem hi
  omega

/-- A node that is listed before a smaller one is reached from a node that is no greater than
that one. -/
theorem reached_of_idxOf_lt (hc : ClosedGraph edges) {order : List Nat}
    (h : topologicalOrder edges = .ok order) {i j : Nat} (hij : i < j)
    (hji : order.idxOf j < order.idxOf i) : ∃ k ≤ i, Relation.TransGen (RefersTo edges) k j := by
  have hperm := (topologicalOrder_ok hc h).1
  have hj : j ∈ order := List.idxOf_lt_length_iff.mp (Nat.lt_of_lt_of_le hji List.idxOf_le_length)
  have hlt : j < edges.length := List.mem_range.mp (hperm.mem_iff.mp hj)
  obtain ⟨first, hp, hroots, hreached⟩ := exists_order_of_roots hc h (m := i + 1) (by omega)
  obtain ⟨k, hk, hreach⟩ := hreached j (mem_of_idxOf_lt hp (hroots i (Nat.lt_succ_self i)) hji)
  have hne : j ≠ k := by omega
  exact ⟨k, Nat.le_of_lt_succ hk,
    (Relation.reflTransGen_iff_eq_or_transGen.mp hreach).resolve_left hne⟩

/-- Where nodes refer only to smaller ones, nothing is reached but smaller ones. -/
theorem lt_of_reaches (hb : ∀ i j, RefersTo edges i j → j < i) {i j : Nat}
    (h : Relation.TransGen (RefersTo edges) i j) : j < i := by
  induction h with
  | single h => exact hb _ _ h
  | tail _ h ih => exact Nat.lt_trans (hb _ _ h) ih

theorem topologicalOrder_of_backward (hc : ClosedGraph edges)
    (hb : ∀ i j, RefersTo edges i j → j < i) :
    topologicalOrder edges = .ok (List.range edges.length) := by
  have hacyclic : Acyclic edges := fun i hi => Nat.lt_irrefl i (lt_of_reaches hb hi)
  obtain ⟨order, h⟩ := (topologicalOrder_isOk_iff hc).mpr hacyclic
  obtain ⟨hperm, -⟩ := topologicalOrder_ok hc h
  have hnodup : order.Nodup := hperm.nodup_iff.mpr List.nodup_range
  have hsorted : order.Pairwise (· < ·) := by
    rw [List.pairwise_iff_getElem]
    intro a b ha hb' hab
    by_contra hge
    have hne : order[a] ≠ order[b] := by
      intro heq
      have := (hnodup.getElem_inj_iff).mp heq
      omega
    have hlt : order[b] < order[a] := by omega
    obtain ⟨k, hk, hreach⟩ := reached_of_idxOf_lt hc h hlt (by
      rwa [hnodup.idxOf_getElem, hnodup.idxOf_getElem])
    have := lt_of_reaches hb hreach
    omega
  rw [h, hperm.eq_of_pairwise' hsorted List.pairwise_lt_range]

namespace Schema

variable {s : Schema} {kinds : List (List FieldKind)}

theorem Built.refersTo_eq (hs : s.Built) (hk : s.Kinds kinds) :
    RefersTo (s.references kinds) = s.Refers :=
  funext fun _ => funext fun _ => propext (hs.refersTo_iff hk)

theorem Kinds.length_references (hk : s.Kinds kinds) :
    (s.references kinds).length = s.records.length := by
  rw [references, List.length_map, hk.length_eq]

end Schema

/-- The records of an acyclic schema are listed in document order but for records that are pulled
forward: a record that precedes an earlier one is reached from that one or from a record before it.
If every record refers only to earlier ones, document order is kept. -/
theorem departs_only_for_reached {s : Schema} {kinds : List (List FieldKind)} (built : s.Built)
    (classified : s.kinds = .ok kinds) :
    ((∀ i, ¬ Relation.TransGen s.Refers i i) →
      ∃ order, s.dependencyOrder kinds = .ok order ∧ order.Perm (List.range s.records.length) ∧
        ∀ i j, i < j → order.idxOf j < order.idxOf i → ∃ k ≤ i, Relation.TransGen s.Refers k j) ∧
    ((∀ i j, s.Refers i j → j < i) →
      s.dependencyOrder kinds = .ok (List.range s.records.length)) := by
  have hk := Schema.kinds_of_ok classified
  have hc := built.closedGraph hk.length_eq.symm
  rw [← built.refersTo_eq hk, ← hk.length_references]
  constructor
  · intro hacyclic
    obtain ⟨order, h⟩ := (topologicalOrder_isOk_iff hc).mpr hacyclic
    refine ⟨order, Schema.dependencyOrder_ok_iff.mpr h, (topologicalOrder_ok hc h).1, ?_⟩
    intro i j hij hji
    exact reached_of_idxOf_lt hc h hij hji
  · intro hb
    exact Schema.dependencyOrder_ok_iff.mpr (topologicalOrder_of_backward hc hb)

namespace Sample

/-- The first record pulls the last one to the front, past a record that does not refer to it. -/
def crate : Schema :=
  ((({} : Schema).addRecord
    { name := "crate"
      fields := [{ name := "parts", typeName := "part", length := some 4 }] }).addRecord
    { name := "label"
      fields := [{ name := "text", typeName := "char", length := some 8 }] }).addRecord
    { name := "part" }

def crateKinds : List (List FieldKind) :=
  [[.array (.record "part") 4], [.array (.primitive .char) 8], []]

theorem kinds_eq : schema.kinds = .ok [fixKinds, trackKinds] := by
  decide +kernel

theorem schema_refers_back (i j : Nat) (h : schema.Refers i j) : j < i := by
  have hedges : schema.references [fixKinds, trackKinds] = [[], [0]] := by decide +kernel
  rw [← built.refersTo_eq (Schema.kinds_of_ok kinds_eq), hedges] at h
  match i with
  | 0 => simp [RefersTo] at h
  | 1 => simpa [RefersTo] using h
  | i + 2 => simp [RefersTo] at h

end Sample

/-- The last record of a crate is reached from the first, not from the one it precedes.  A track
refers back to its fixes, and both stay in their places. -/
theorem crate_departs_tracks_stay :
    Sample.crate.dependencyOrder Sample.crateKinds = .ok [2, 0, 1] ∧
      (∃ k ≤ 1, Relation.TransGen Sample.crate.Refers k 2) ∧
      Sample.schema.dependencyOrder [Sample.fixKinds, Sample.trackKinds] = .ok [0, 1] := by
  have built : Sample.crate.Built := .add _ (.add _ (.add _ (.new _ _)))
  have classified : Sample.crate.kinds = .ok Sample.crateKinds := by decide +kernel
  have hcrate : Sample.crate.dependencyOrder Sample.crateKinds = .ok [2, 0, 1] := by decide +kernel
  have hk := Schema.kinds_of_ok classified
  have hacyclic : ∀ i, ¬ Relation.TransGen Sample.crate.Refers i i := by
    rw [← built.refersTo_eq hk]
    exact (topologicalOrder_isOk_iff (built.closedGraph hk.length_eq.symm)).mp
      ⟨_, Schema.dependencyOrder_ok_iff.mp hcrate⟩
  refine ⟨hcrate, ?_, ?_⟩
  · obtain ⟨order, horder, -, hreached⟩ := (departs_only_for_reached built classified).1 hacyclic
    obtain rfl : [2, 0, 1] = order := Except.ok.inj (hcrate.symm.trans horder)
    exact hreached 1 2 (by decide) (by decide)
  · exact (departs_only_for_reached Sample.built Sample.kinds_eq).2 Sample.schema_refers_back

end RecordWire
