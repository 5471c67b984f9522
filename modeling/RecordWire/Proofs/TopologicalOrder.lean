import Mathlib.Data.List.Chain
import Mathlib.Data.List.Nodup
import Mathlib.Data.List.Perm.Subperm
import Mathlib.Logic.Relation
import RecordWire.Schema.Order

/-!
The depth-first search is a topological sort.  It ends with an order in which every node stands
after the nodes it refers to, or with a cycle of the graph, and it finds a cycle exactly when there
is one.

One invariant carries the proof.  `Search.Valid` says what the marks, the path and the order have
to do with one another.  A visit keeps it and leaves the path as it was, so the fuel that a visit
needs is bounded by the nodes that are not on the path.
-/

namespace RecordWire

/-- Node `i` refers to node `j`. -/
def RefersTo (edges : List (List Nat)) (i j : Nat) : Prop :=
  j ∈ edges[i]?.getD []

instance (edges : List (List Nat)) (i j : Nat) : Decidable (RefersTo edges i j) :=
  inferInstanceAs (Decidable (j ∈ edges[i]?.getD []))

/-- Only nodes of the graph are referred to. -/
def ClosedGraph (edges : List (List Nat)) : Prop :=
  ∀ i j, RefersTo edges i j → j < edges.length

def Acyclic (edges : List (List Nat)) : Prop :=
  ∀ i, ¬ Relation.TransGen (RefersTo edges) i i

/-- A walk through distinct nodes and back to the first, which is written again at the end. -/
def IsCycle (edges : List (List Nat)) (c : List Nat) : Prop :=
  ∃ node rest, c = node :: rest ++ [node] ∧ (node :: rest).Nodup ∧ c.IsChain (RefersTo edges)

/-- Every node of the list stands after the nodes it refers to. -/
def Ordered (edges : List (List Nat)) (order : List Nat) : Prop :=
  ∀ before node after, order = before ++ node :: after →
    ∀ next, RefersTo edges node next → next ∈ before

variable {edges : List (List Nat)}

theorem ordered_nil : Ordered edges [] := by
  intro before node after h
  simp at h

theorem ordered_snoc {order : List Nat} {node : Nat} (ho : Ordered edges order)
    (hn : ∀ next, RefersTo edges node next → next ∈ order) : Ordered edges (order ++ [node]) := by
  intro before i after h next hnext
  rcases List.append_eq_append_iff.mp h with ⟨gap, rfl, hgap⟩ | ⟨gap, rfl, hgap⟩
  · have hlen := congrArg List.length hgap
    simp only [List.length_append, List.length_cons, List.length_nil] at hlen
    obtain rfl : gap = [] := List.length_eq_zero_iff.mp (by omega)
    obtain rfl : node = i := by simpa using congrArg List.head? hgap
    rw [List.append_nil]
    exact hn next hnext
  · cases gap with
    | nil =>
      obtain rfl : i = node := by simpa using congrArg List.head? hgap
      simpa using hn next hnext
    | cons j gap =>
      obtain rfl : i = j := by simpa using congrArg List.head? hgap
      exact ho before i gap rfl next hnext

/-- What a node of an ordered list reaches stands before it. -/
theorem Ordered.mem_of_reaches {order : List Nat} (ho : Ordered edges order) {i j : Nat}
    (hij : Relation.TransGen (RefersTo edges) i j) :
    ∀ before after, order = before ++ i :: after → j ∈ before := by
  induction hij using Relation.TransGen.head_induction_on with
  | single h =>
    intro before after ho'
    exact ho before _ after ho' j h
  | head h _ ih =>
    intro before after ho'
    have hk := ho before _ after ho' _ h
    obtain ⟨before', after', rfl⟩ := List.append_of_mem hk
    have hj := ih before' (after' ++ _ :: after) (by simpa using ho')
    exact List.mem_append_left _ hj

theorem Ordered.not_reaches_self {order : List Nat} (ho : Ordered edges order)
    (hd : order.Nodup) {i : Nat} (hi : i ∈ order) :
    ¬ Relation.TransGen (RefersTo edges) i i := by
  intro h
  obtain ⟨before, after, rfl⟩ := List.append_of_mem hi
  have hmem := ho.mem_of_reaches h before after rfl
  rw [List.nodup_append] at hd
  exact hd.2.2 i hmem i (List.mem_cons_self ..) rfl

theorem transGen_of_isChain {α : Type} {R : α → α → Prop} {a b : α} {rest : List α}
    (h : (a :: rest ++ [b]).IsChain R) : Relation.TransGen R a b := by
  -- The chain is never a single node, so it has a first step.
  cases rest with
  | nil => exact .single (List.isChain_pair.mp h)
  | cons next rest =>
    obtain ⟨hfirst, htail⟩ := List.isChain_cons_cons.mp h
    have hlast : (next :: (rest ++ [b])).getLast (by simp) = b := by simp
    exact .head' hfirst (List.relationReflTransGen_of_exists_isChain_cons _ htail hlast)

theorem IsCycle.reaches_self {c : List Nat} (hc : IsCycle edges c) :
    ∃ node ∈ c, Relation.TransGen (RefersTo edges) node node := by
  obtain ⟨node, rest, rfl, -, hchain⟩ := hc
  exact ⟨node, List.mem_cons_self .., transGen_of_isChain hchain⟩

/-! ## The search -/

namespace Search

/-- The nodes under way are on the path, the finished ones are in the order, and each follows what
it refers to. -/
structure Valid (edges : List (List Nat)) (s : Search) : Prop where
  length_marks : s.marks.length = edges.length
  mem_path : ∀ i, s.marks[i]? = some .inProgress ↔ i ∈ s.path
  mem_order : ∀ i, s.marks[i]? = some .done ↔ i ∈ s.order
  nodup_path : s.path.Nodup
  nodup_order : s.order.Nodup
  chain : s.path.IsChain (RefersTo edges)
  ordered : Ordered edges s.order

theorem start_valid : Valid edges (start edges.length) where
  length_marks := by simp [start]
  mem_path i := by simp [start, List.getElem?_replicate]
  mem_order i := by simp [start, List.getElem?_replicate]
  nodup_path := List.nodup_nil
  nodup_order := List.nodup_nil
  chain := .nil
  ordered := ordered_nil

variable {s s' : Search} {node : Nat}

theorem Valid.lt_of_mem_path (hs : Valid edges s) {i : Nat} (hi : i ∈ s.path) :
    i < edges.length := by
  obtain ⟨h, -⟩ := List.getElem?_eq_some_iff.mp ((hs.mem_path i).mpr hi)
  rwa [hs.length_marks] at h

theorem Valid.length_path_le (hs : Valid edges s) : s.path.length ≤ edges.length := by
  have hsub : s.path ⊆ List.range edges.length := fun i hi =>
    List.mem_range.mpr (hs.lt_of_mem_path hi)
  simpa using (List.subperm_of_subset hs.nodup_path hsub).length_le

/-- The path can go on to `node`. -/
def Leads (edges : List (List Nat)) (s : Search) (node : Nat) : Prop :=
  ∀ last ∈ s.path.getLast?, RefersTo edges last node

theorem Valid.enter (hs : Valid edges s) (hm : s.marks[node]? = some .unvisited)
    (hl : Leads edges s node) : Valid edges (s.enter node) where
  length_marks := by simp [Search.enter, hs.length_marks]
  mem_path i := by
    have hlt := (List.getElem?_eq_some_iff.mp hm).1
    by_cases hi : i = node
    · subst hi
      simp [Search.enter, hlt]
    · simp [Search.enter, hi, List.getElem?_set_ne (Ne.symm hi), hs.mem_path]
  mem_order i := by
    have hlt := (List.getElem?_eq_some_iff.mp hm).1
    by_cases hi : i = node
    · subst hi
      have := hs.mem_order i
      simp_all [Search.enter]
    · simp [Search.enter, List.getElem?_set_ne (Ne.symm hi), hs.mem_order]
  nodup_path := by
    have hnot : node ∉ s.path := by
      intro h
      rw [← hs.mem_path, hm] at h
      simp at h
    simpa [Search.enter, List.nodup_append] using
      ⟨hs.nodup_path, fun i hi he => hnot (he ▸ hi)⟩
  nodup_order := hs.nodup_order
  chain := by
    rw [Search.enter, List.isChain_append]
    refine ⟨hs.chain, .singleton _, ?_⟩
    intro last hlast next hnext
    obtain rfl : node = next := by simpa using hnext
    exact hl last hlast
  ordered := hs.ordered

theorem Valid.leave (hs : Valid edges s) {path : List Nat} (hp : s.path = path ++ [node])
    (hn : ∀ next, RefersTo edges node next → next ∈ s.order) : Valid edges (s.leave node) := by
  have hmem : node ∈ s.path := by simp [hp]
  have hlt : node < s.marks.length := by
    rw [hs.length_marks]
    exact hs.lt_of_mem_path hmem
  have hmark := (hs.mem_path node).mpr hmem
  have hdup := hs.nodup_path
  rw [hp, List.nodup_append] at hdup
  refine ⟨?_, ?_, ?_, ?_, ?_, ?_, ?_⟩
  · simp [Search.leave, hs.length_marks]
  · intro i
    by_cases hi : i = node
    · subst hi
      have hnot : i ∉ path := fun h => hdup.2.2 i h i (by simp) rfl
      simp [Search.leave, hp, hlt, hnot]
    · simp [Search.leave, List.getElem?_set_ne (Ne.symm hi), hs.mem_path, hp, hi]
  · intro i
    by_cases hi : i = node
    · subst hi
      simp [Search.leave, hlt]
    · simp [Search.leave, List.getElem?_set_ne (Ne.symm hi), hs.mem_order, hi]
  · simpa [Search.leave, hp] using hdup.1
  · have hnot : node ∉ s.order := by
      intro h
      rw [← hs.mem_order, hmark] at h
      simp at h
    simpa [Search.leave, List.nodup_append] using
      ⟨hs.nodup_order, fun i hi he => hnot (he ▸ hi)⟩
  · have hchain := hs.chain
    rw [hp, List.isChain_append] at hchain
    simpa [Search.leave, hp] using hchain.1
  · exact ordered_snoc hs.ordered hn

/-- A reference back to a node of the path closes a cycle. -/
theorem Valid.cycle (hs : Valid edges s) (hm : node ∈ s.path) (hl : Leads edges s node) :
    IsCycle edges (s.cycle node) := by
  obtain ⟨i, hi⟩ := Option.isSome_iff_exists.mp (List.isSome_idxOf?.mpr hm)
  obtain ⟨hlt, hnode, -⟩ := List.idxOf?_eq_some_iff.mp hi
  have hdrop : s.path.drop i = node :: s.path.drop (i + 1) := by
    rw [List.drop_eq_getElem_cons hlt, hnode]
  have hcycle : s.cycle node = node :: s.path.drop (i + 1) ++ [node] := by
    rw [Search.cycle, hi, Option.getD_some, hdrop]
  refine ⟨node, s.path.drop (i + 1), hcycle, ?_, ?_⟩
  · rw [← hdrop]
    exact hs.nodup_path.sublist (List.drop_sublist i s.path)
  · have hchain : (s.path ++ [node]).IsChain (RefersTo edges) := by
      rw [List.isChain_append]
      refine ⟨hs.chain, .singleton _, ?_⟩
      intro last hlast next hnext
      obtain rfl : node = next := by simpa using hnext
      exact hl last hlast
    rw [hcycle, ← hdrop]
    refine hchain.suffix ⟨s.path.take i, ?_⟩
    rw [← List.append_assoc, List.take_append_drop]

/-- `s'` comes from `s` by finishing `nodes`, and whatever they need. -/
structure Finishes (edges : List (List Nat)) (s : Search) (nodes : List Nat) (s' : Search) :
    Prop where
  valid : Valid edges s'
  path_eq : s'.path = s.path
  order_prefix : s.order <+: s'.order
  mem_order : ∀ node ∈ nodes, node ∈ s'.order

/-- What a search from `nodes` may end with. -/
def Outcome (edges : List (List Nat)) (s : Search) (nodes : List Nat) :
    Except (List Nat) Search → Prop
  | .ok s' => Finishes edges s nodes s'
  | .error c => IsCycle edges c

theorem visitAll_outcome {visit : Search → Nat → Except (List Nat) Search} {path nodes : List Nat}
    (hv : ∀ s node, node ∈ nodes → Valid edges s → s.path = path →
      Outcome edges s [node] (visit s node))
    (hs : Valid edges s) (hp : s.path = path) :
    Outcome edges s nodes (visitAll visit s nodes) := by
  induction nodes generalizing s with
  | nil => exact ⟨hs, rfl, List.prefix_rfl, by simp⟩
  | cons node rest ih =>
    have hnode := hv s node (List.mem_cons_self ..) hs hp
    rw [visitAll]
    cases hvisit : visit s node with
    | error c =>
      rw [hvisit] at hnode
      exact hnode
    | ok s₁ =>
      rw [hvisit] at hnode
      have hrest := ih (fun s n hn => hv s n (List.mem_cons_of_mem _ hn)) hnode.valid
        (hnode.path_eq.trans hp)
      show Outcome edges s (node :: rest) (visitAll visit s₁ rest)
      cases hall : visitAll visit s₁ rest with
      | error c =>
        rw [hall] at hrest
        exact hrest
      | ok s₂ =>
        rw [hall] at hrest
        refine ⟨hrest.valid, hrest.path_eq.trans hnode.path_eq,
          hnode.order_prefix.trans hrest.order_prefix, ?_⟩
        intro n hn
        rcases List.mem_cons.mp hn with rfl | hn
        · exact hrest.order_prefix.subset (hnode.mem_order n (List.mem_cons_self ..))
        · exact hrest.mem_order n hn

/-- A visit finishes its node or finds a cycle.  Every level of the search puts a node on the path,
and the path never has more nodes than the graph, so the fuel does not run out. -/
theorem visit_outcome (hc : ClosedGraph edges) {fuel : Nat} (hs : Valid edges s)
    (hnode : node < edges.length) (hl : Leads edges s node)
    (hfuel : edges.length < fuel + s.path.length) :
    Outcome edges s [node] (visit edges fuel s node) := by
  induction fuel generalizing s node with
  | zero =>
    have := hs.length_path_le
    omega
  | succ fuel ih =>
    have hmark : ∃ m, s.marks[node]? = some m :=
      ⟨_, List.getElem?_eq_getElem (by rw [hs.length_marks]; exact hnode)⟩
    obtain ⟨m, hm⟩ := hmark
    rw [visit, hm]
    cases m with
    | inProgress => exact hs.cycle ((hs.mem_path node).mp hm) hl
    | done => exact ⟨hs, rfl, List.prefix_rfl, by simpa using (hs.mem_order node).mp hm⟩
    | unvisited =>
      have hnext : ∀ t next, next ∈ edges[node]?.getD [] → Valid edges t →
          t.path = (s.enter node).path → Outcome edges t [next] (visit edges fuel t next) := by
        intro t next hn ht hp
        have hp' : t.path = s.path ++ [node] := hp
        refine ih ht (hc node next hn) ?_ ?_
        · intro last hlast
          obtain rfl : node = last := by simpa [hp'] using hlast
          exact hn
        · simp [hp']
          omega
      have hall := visitAll_outcome hnext (hs.enter hm hl) rfl
      show Outcome edges s [node] (match visitAll (visit edges fuel) (s.enter node)
        (edges[node]?.getD []) with | .ok s' => .ok (s'.leave node) | .error c => .error c)
      cases hvisit : visitAll (visit edges fuel) (s.enter node) (edges[node]?.getD []) with
      | error c =>
        rw [hvisit] at hall
        exact hall
      | ok s₁ =>
        rw [hvisit] at hall
        have hp₁ : s₁.path = s.path ++ [node] := hall.path_eq
        have ho₁ : s.order <+: s₁.order := hall.order_prefix
        refine ⟨hall.valid.leave hp₁ hall.mem_order, ?_, ?_, ?_⟩
        · simp [leave, hp₁]
        · exact ho₁.trans (List.prefix_append ..)
        · simp [leave]

end Search

/-- The search over a whole graph lists every node once, after the nodes it refers to, or ends with
a cycle. -/
theorem topologicalOrder_cases (hc : ClosedGraph edges) :
    (∃ order, topologicalOrder edges = .ok order ∧ order.Perm (List.range edges.length) ∧
      Ordered edges order) ∨
    (∃ c, topologicalOrder edges = .error c ∧ IsCycle edges c) := by
  have hv : ∀ s node, node ∈ List.range edges.length → Search.Valid edges s → s.path = [] →
      Search.Outcome edges s [node] (Search.visit edges (edges.length + 1) s node) := by
    intro s node hn hs hp
    refine Search.visit_outcome hc hs (List.mem_range.mp hn) ?_ (by omega)
    simp [Search.Leads, hp]
  have hall := Search.visitAll_outcome hv Search.start_valid rfl
  rw [topologicalOrder]
  cases hvisit : Search.visitAll (Search.visit edges (edges.length + 1))
      (Search.start edges.length) (List.range edges.length) with
  | error c =>
    rw [hvisit] at hall
    exact .inr ⟨c, rfl, hall⟩
  | ok s =>
    rw [hvisit] at hall
    refine .inl ⟨s.order, rfl, ?_, hall.valid.ordered⟩
    rw [List.perm_ext_iff_of_nodup hall.valid.nodup_order List.nodup_range]
    intro i
    refine ⟨fun hi => ?_, fun hi => hall.mem_order i hi⟩
    obtain ⟨h, -⟩ := List.getElem?_eq_some_iff.mp ((hall.valid.mem_order i).mpr hi)
    rw [hall.valid.length_marks] at h
    exact List.mem_range.mpr h

theorem topologicalOrder_ok {order : List Nat} (hc : ClosedGraph edges)
    (h : topologicalOrder edges = .ok order) :
    order.Perm (List.range edges.length) ∧ Ordered edges order := by
  rcases topologicalOrder_cases hc with ⟨order', h', hperm, hord⟩ | ⟨c, h', -⟩
  · obtain rfl : order' = order := by simpa [h'] using h
    exact ⟨hperm, hord⟩
  · simp [h'] at h

theorem topologicalOrder_error {c : List Nat} (hc : ClosedGraph edges)
    (h : topologicalOrder edges = .error c) : IsCycle edges c := by
  rcases topologicalOrder_cases hc with ⟨order', h', -⟩ | ⟨c', h', hcycle⟩
  · simp [h'] at h
  · obtain rfl : c' = c := by simpa [h'] using h
    exact hcycle

/-- The search gives an order exactly when nothing reaches itself. -/
theorem topologicalOrder_isOk_iff (hc : ClosedGraph edges) :
    (∃ order, topologicalOrder edges = .ok order) ↔ Acyclic edges := by
  constructor
  · rintro ⟨order, h⟩ i hi
    obtain ⟨hperm, hord⟩ := topologicalOrder_ok hc h
    -- A node that is referred to is a node of the graph, so it is in the order.
    have hlt : i < edges.length := by
      obtain ⟨j, -, hji⟩ := Relation.TransGen.tail'_iff.mp hi
      exact hc j i hji
    have hmem : i ∈ order := hperm.mem_iff.mpr (List.mem_range.mpr hlt)
    exact hord.not_reaches_self (hperm.nodup_iff.mpr List.nodup_range) hmem hi
  · intro hacyclic
    rcases topologicalOrder_cases hc with ⟨order, h, -⟩ | ⟨c, -, hcycle⟩
    · exact ⟨order, h⟩
    · obtain ⟨node, -, hnode⟩ := hcycle.reaches_self
      exact absurd hnode (hacyclic node)

end RecordWire
