import Mathlib.Data.List.Permutation
import Lineage.Order.Construction
import Lineage.Proofs.Order.Sorting
/-!
# The order of construction

The order lists every node once (`perm_of_construction`), and parents come before their heirs
(`before_of_parent`). A reference is left out of the table only if it would close a cycle
(`construction_spec`). So a node comes behind every node that it refers to, unless that node has to
come behind it: then the order realizes a chain of parents and references that leads back
(`chain_of_not_before`). Where no chain leads back, all references are kept (`references_ordered`).
-/
namespace Lineage.Order

open Relation

variable {nodes : List Node}

/-! ## Nodes and their numbers -/

/-- No name is repeated exactly where names are unique. -/
theorem firstRepeated?_eq_none_iff {seen : List Text} {ns : List Node} :
    firstRepeated? seen ns = none ↔ (ns.map Node.name).Nodup ∧ ∀ n ∈ ns, n.name ∉ seen := by
  induction ns generalizing seen with
  | nil => simp [firstRepeated?]
  | cons n ns ih =>
    simp only [firstRepeated?, List.contains_iff_mem]
    split
    · next h => simp [h]
    · next h =>
      rw [ih]
      simp only [List.mem_cons, not_or, List.map_cons, List.nodup_cons, List.mem_map, not_exists,
        not_and, forall_eq_or_imp]
      grind

theorem indexOf?_eq_some {name : Text} {j : Nat} (h : indexOf? nodes name = some j) :
    ∃ n, nodes[j]? = some n ∧ n.name = name := by
  obtain ⟨hj, hn, -⟩ := List.findIdx?_eq_some_iff_getElem.1 h
  exact ⟨nodes[j], List.getElem?_eq_getElem hj, by simpa using hn⟩

theorem indexOf?_lt {name : Text} {j : Nat} (h : indexOf? nodes name = some j) :
    j < nodes.length := by
  obtain ⟨n, hn, -⟩ := indexOf?_eq_some h
  exact (List.getElem?_eq_some_iff.1 hn).1

theorem indexOf?_isSome {name : Text} (h : ∃ n ∈ nodes, n.name = name) :
    ∃ j, indexOf? nodes name = some j := by
  obtain ⟨n, hn, rfl⟩ := h
  rw [← Option.isSome_iff_exists, indexOf?, List.findIdx?_isSome, List.any_eq_true]
  exact ⟨n, hn, by simp⟩

theorem indexOf?_name (hn : (nodes.map Node.name).Nodup) {i : Nat} {n : Node}
    (h : nodes[i]? = some n) : indexOf? nodes n.name = some i := by
  obtain ⟨j, hj⟩ := indexOf?_isSome ⟨n, List.mem_of_getElem? h, rfl⟩
  obtain ⟨m, hm, hmn⟩ := indexOf?_eq_some hj
  have hi : i < (nodes.map Node.name).length := by
    rw [List.length_map]
    exact (List.getElem?_eq_some_iff.1 h).1
  have : i = j := (List.getElem?_inj hi hn).1 (by simp [h, hm, hmn])
  rw [hj, this]

/-! ## Edges between numbers -/

/-- Node `k` is a parent of node `i`. -/
def ParentEdge (nodes : List Node) (i k : Nat) : Prop :=
  ∃ n, nodes[i]? = some n ∧ ∃ p ∈ n.parents, indexOf? nodes p = some k

/-- Node `i` refers to the other node `k`. -/
def ReferenceEdge (nodes : List Node) (i k : Nat) : Prop :=
  ∃ n, nodes[i]? = some n ∧ k ≠ i ∧ ∃ r ∈ n.references, indexOf? nodes r = some k

/-- A row holds the numbers of the parents, all of which have one. -/
theorem parentRow_ok {n : Node} {ps : List Text} {row : List Nat}
    (h : parentRow nodes n ps = .ok row) :
    (∀ p ∈ ps, ∃ j, indexOf? nodes p = some j) ∧
      ∀ k, k ∈ row ↔ ∃ p ∈ ps, indexOf? nodes p = some k := by
  induction ps generalizing row with
  | nil =>
    cases h
    simp
  | cons p ps ih =>
    simp only [parentRow] at h
    split at h
    · cases h
    · next j hj =>
      cases hr : parentRow nodes n ps with
      | error f => simp [hr, Except.map] at h
      | ok rest =>
        simp only [hr, Except.map, Except.ok.injEq] at h
        subst h
        obtain ⟨h1, h2⟩ := ih hr
        refine ⟨?_, fun k => ?_⟩
        · simpa [hj] using h1
        · rw [mem_insertAscending, h2]
          simp [hj, eq_comm]

theorem parentRow_isOk (n : Node) {ps : List Text} (h : ∀ p ∈ ps, ∃ j, indexOf? nodes p = some j) :
    ∃ row, parentRow nodes n ps = .ok row := by
  induction ps with
  | nil => exact ⟨[], rfl⟩
  | cons p ps ih =>
    obtain ⟨j, hj⟩ := h p (by simp)
    obtain ⟨row, hr⟩ := ih fun q hq => h q (by simp [hq])
    exact ⟨insertAscending j row, by simp [parentRow, hj, hr, Except.map]⟩

/-- The table of parents has a row for each node, made from its parents alone. -/
theorem parentRows_ok {ns : List Node} {t : Table} (h : parentRows nodes ns = .ok t) :
    t.length = ns.length ∧
      ∀ i n, ns[i]? = some n → parentRow nodes n n.parents = .ok (t.row i) := by
  induction ns generalizing t with
  | nil =>
    cases h
    simp
  | cons n ns ih =>
    simp only [parentRows] at h
    split at h
    · cases h
    · next row hrow =>
      cases hr : parentRows nodes ns with
      | error f => simp [hr, Except.map] at h
      | ok rest =>
        simp only [hr, Except.map, Except.ok.injEq] at h
        subst h
        obtain ⟨h1, h2⟩ := ih hr
        refine ⟨by simp [h1], fun i m hm => ?_⟩
        cases i with
        | zero =>
          obtain rfl : n = m := by simpa using hm
          exact hrow
        | succ i => exact h2 i m (by simpa using hm)

theorem parentRows_isOk {ns : List Node}
    (h : ∀ n ∈ ns, ∀ p ∈ n.parents, ∃ j, indexOf? nodes p = some j) :
    ∃ t, parentRows nodes ns = .ok t := by
  induction ns with
  | nil => exact ⟨[], rfl⟩
  | cons n ns ih =>
    obtain ⟨row, hrow⟩ := parentRow_isOk n (h n (by simp))
    obtain ⟨t, ht⟩ := ih fun m hm => h m (by simp [hm])
    exact ⟨row :: t, by simp [parentRows, hrow, ht, Except.map]⟩

/-! ## Tables that order the nodes -/

/-- A table without cycles in which every node waits for its parents, and besides only for nodes
that it refers to. -/
structure Orders (nodes : List Node) (t : Table) : Prop where
  length_eq : t.length = nodes.length
  acyclic : t.Acyclic
  parent : ∀ {i k}, ParentEdge nodes i k → t.Edge i k
  of_edge : ∀ {i k}, t.Edge i k → ParentEdge nodes i k ∨ ReferenceEdge nodes i k

theorem lt_of_edges {i k : Nat} (h : ParentEdge nodes i k ∨ ReferenceEdge nodes i k) :
    k < nodes.length := by
  rcases h with ⟨_, _, _, _, h⟩ | ⟨_, _, _, _, _, h⟩ <;> exact indexOf?_lt h

theorem Orders.closed {t : Table} (h : Orders nodes t) : t.Closed := fun i k he => by
  rw [h.length_eq]
  exact lt_of_edges (h.of_edge he)

theorem edge_parentRows {t : Table} (h : parentRows nodes nodes = .ok t) (i k : Nat) :
    t.Edge i k ↔ ParentEdge nodes i k := by
  obtain ⟨hl, hr⟩ := parentRows_ok h
  constructor
  · intro he
    have hi : i < nodes.length := hl ▸ he.lt_length
    have hn := List.getElem?_eq_getElem hi
    exact ⟨_, hn, ((parentRow_ok (hr i _ hn)).2 k).1 he⟩
  · rintro ⟨n, hn, hp⟩
    exact ((parentRow_ok (hr i n hn)).2 k).2 hp

theorem closed_parentRows {t : Table} (h : parentRows nodes nodes = .ok t) : t.Closed :=
  fun i k he => by
    rw [(parentRows_ok h).1]
    exact lt_of_edges (.inl ((edge_parentRows h i k).1 he))

theorem orders_parentRows {t : Table} (h : parentRows nodes nodes = .ok t) (ha : t.Acyclic) :
    Orders nodes t :=
  ⟨(parentRows_ok h).1, ha, (edge_parentRows h _ _).2,
    fun he => .inl ((edge_parentRows h _ _).1 he)⟩

/-- What adding references to a table does: it keeps an order, and every edge. -/
structure Extends (nodes : List Node) (t t' : Table) : Prop where
  orders : Orders nodes t'
  edge : ∀ {i k}, t.Edge i k → t'.Edge i k

theorem Extends.path {t t' : Table} (h : Extends nodes t t') {i k : Nat}
    (hp : ReflTransGen t.Edge i k) : ReflTransGen t'.Edge i k :=
  ReflTransGen.mono (fun _ _ => h.edge) i k hp

/-- A reference is kept unless it would close a cycle. -/
theorem extends_addReference {t : Table} (h : Orders nodes t) {i : Nat} {n : Node}
    (hn : nodes[i]? = some n) {name : Text} (hr : name ∈ n.references) :
    Extends nodes t (addReference nodes i t name) := by
  have hi : i < t.length := h.length_eq ▸ (List.getElem?_eq_some_iff.1 hn).1
  simp only [addReference]
  split
  · exact ⟨h, id⟩
  · next j hj =>
    split
    · exact ⟨h, id⟩
    · next hc =>
      simp only [Bool.or_eq_true, decide_eq_true_eq, not_or] at hc
      have hpath : ¬ ReflTransGen t.Edge j i := fun hp => hc.2 ((Table.reaches_iff hi).2 hp)
      refine ⟨⟨by simp [h.length_eq], h.acyclic.add hi hpath,
        fun hp => (Table.edge_add_iff hi).2 (.inl (h.parent hp)), fun he => ?_⟩,
        fun he => (Table.edge_add_iff hi).2 (.inl he)⟩
      rcases (Table.edge_add_iff hi).1 he with he | ⟨rfl, rfl⟩
      · exact h.of_edge he
      · exact .inr ⟨n, hn, hc.1.1, name, hr, hj⟩

/-- A reference is left out only if its node already waits for the node that refers to it. -/
theorem edge_addReference {t : Table} {i j : Nat} {name : Text} (hi : i < t.length)
    (hj : indexOf? nodes name = some j) (hne : j ≠ i) :
    (addReference nodes i t name).Edge i j ∨ ReflTransGen t.Edge j i := by
  simp only [addReference, hj]
  split
  · next hc =>
    simp only [Bool.or_eq_true, decide_eq_true_eq, hne, false_or, List.contains_iff_mem] at hc
    rcases hc with hc | hc
    · exact .inl hc
    · exact .inr ((Table.reaches_iff hi).1 hc)
  · exact .inl ((Table.edge_add_iff hi).2 (.inr ⟨rfl, rfl⟩))

/-- The references of node `i` among `rs` are edges, or their nodes wait for it. -/
def Settled (nodes : List Node) (t : Table) (i : Nat) (rs : List Text) : Prop :=
  ∀ r ∈ rs, ∀ k, indexOf? nodes r = some k → k ≠ i → t.Edge i k ∨ ReflTransGen t.Edge k i

theorem Settled.extends {t t' : Table} {i : Nat} {rs : List Text} (h : Settled nodes t i rs)
    (he : Extends nodes t t') : Settled nodes t' i rs := by
  intro r hr k hk hne
  rcases h r hr k hk hne with h | h
  · exact .inl (he.edge h)
  · exact .inr (he.path h)

theorem extends_foldl {t : Table} (h : Orders nodes t) {i : Nat} {n : Node}
    (hn : nodes[i]? = some n) {rs : List Text} (hr : rs ⊆ n.references) :
    Extends nodes t (rs.foldl (addReference nodes i) t) ∧
      Settled nodes (rs.foldl (addReference nodes i) t) i rs := by
  induction rs generalizing t with
  | nil => exact ⟨⟨h, id⟩, by simp [Settled]⟩
  | cons r rs ih =>
    have h1 := extends_addReference h hn (hr (List.mem_cons_self ..))
    obtain ⟨h2, hs⟩ := ih h1.orders fun x hx => hr (by simp [hx])
    refine ⟨⟨h2.orders, fun he => h2.edge (h1.edge he)⟩, ?_⟩
    have hi : i < t.length := h.length_eq ▸ (List.getElem?_eq_some_iff.1 hn).1
    intro x hx k hk hne
    rcases List.mem_cons.1 hx with rfl | hx
    · rcases edge_addReference hi hk hne with he | hp
      · exact .inl (h2.edge he)
      · exact .inr (h2.path (h1.path hp))
    · exact hs x hx k hk hne

/-- References are kept or given up node by node, and nothing kept is taken back. -/
theorem extends_addReferences {t : Table} (h : Orders nodes t) {i : Nat} {ns : List Node}
    (hns : ∀ k n, ns[k]? = some n → nodes[i + k]? = some n) :
    Extends nodes t (addReferences nodes i ns t) ∧
      ∀ k n, ns[k]? = some n → Settled nodes (addReferences nodes i ns t) (i + k) n.references := by
  induction ns generalizing i t with
  | nil => exact ⟨⟨h, id⟩, by simp⟩
  | cons n ns ih =>
    obtain ⟨h1, hs1⟩ := extends_foldl h (hns 0 n rfl) (List.Subset.refl _)
    obtain ⟨h2, hs2⟩ := ih (i := i + 1) h1.orders fun k m hm => by
      rw [Nat.add_assoc, Nat.add_comm 1 k]
      exact hns (k + 1) m hm
    refine ⟨⟨h2.orders, fun he => h2.edge (h1.edge he)⟩, fun k m hm => ?_⟩
    cases k with
    | zero =>
      obtain rfl : n = m := by simpa using hm
      exact hs1.extends h2
    | succ k =>
      have := hs2 k m (by simpa using hm)
      rwa [Nat.add_assoc, Nat.add_comm 1 k] at this

/-! ## The order -/

theorem construction_eq {t : Table} (hn : (nodes.map Node.name).Nodup)
    (ht : parentRows nodes nodes = .ok t) (ha : t.Acyclic) :
    construction nodes = .ok (addReferences nodes 0 nodes t).sort.1 := by
  have h1 : firstRepeated? [] nodes = none := firstRepeated?_eq_none_iff.2 ⟨hn, by simp⟩
  simp [construction, h1, ht, Table.sort_stuck_eq_nil (closed_parentRows ht) ha]

/-- Without cycles among parents, the table with the accepted references orders the nodes. A
reference that was not accepted would have closed a cycle. -/
theorem orders_addReferences {parents : Table} (hp : parentRows nodes nodes = .ok parents)
    (ha : parents.Acyclic) : Orders nodes (addReferences nodes 0 nodes parents) ∧
      ∀ i k, ReferenceEdge nodes i k → (addReferences nodes 0 nodes parents).Edge i k ∨
        ReflTransGen (addReferences nodes 0 nodes parents).Edge k i := by
  obtain ⟨he, hset⟩ := extends_addReferences (i := 0) (orders_parentRows hp ha)
    fun k n hk => by rwa [Nat.zero_add]
  refine ⟨he.orders, ?_⟩
  rintro i k ⟨n, hi, hne, r, hr, hk⟩
  have hsettled := hset i n hi r hr k hk
  rw [Nat.zero_add] at hsettled
  exact hsettled hne

/-- An order is the sorting of the table with the accepted references. -/
theorem sort_of_construction {order : List Nat} (h : construction nodes = .ok order) :
    (nodes.map Node.name).Nodup ∧ ∃ parents, parentRows nodes nodes = .ok parents ∧
      parents.Acyclic ∧ order = (addReferences nodes 0 nodes parents).sort.1 := by
  simp only [construction] at h
  split at h
  · cases h
  · next hn =>
    split at h
    · cases h
    · next parents hp =>
      split at h
      · next hs =>
        exact ⟨(firstRepeated?_eq_none_iff.1 hn).1, parents, hp,
          Table.acyclic_of_sort (List.isEmpty_iff.1 hs), (Except.ok.inj h).symm⟩
      · cases h

/-- An order is the sorting of a table that orders the nodes and holds every reference whose node
does not wait for the node that refers to it. -/
theorem construction_spec {order : List Nat} (h : construction nodes = .ok order) :
    (nodes.map Node.name).Nodup ∧ (∃ t, parentRows nodes nodes = .ok t ∧ t.Acyclic) ∧
      ∃ t, Orders nodes t ∧ order = t.sort.1 ∧
        ∀ i k, ReferenceEdge nodes i k → t.Edge i k ∨ ReflTransGen t.Edge k i := by
  obtain ⟨hn, parents, hp, ha, hsort⟩ := sort_of_construction h
  obtain ⟨ho, hrefused⟩ := orders_addReferences hp ha
  exact ⟨hn, ⟨parents, hp, ha⟩, _, ho, hsort, hrefused⟩

theorem perm_of_construction {order : List Nat} (h : construction nodes = .ok order) :
    order.Perm (List.range nodes.length) := by
  obtain ⟨-, -, t, ht, rfl, -⟩ := construction_spec h
  rw [← ht.length_eq]
  exact Table.perm_of_sort (Table.sort_stuck_eq_nil ht.closed ht.acyclic)

theorem before_of_parent {order : List Nat} (h : construction nodes = .ok order) {i k : Nat}
    (hp : ParentEdge nodes i k) : Before order k i := by
  obtain ⟨-, -, t, ht, rfl, -⟩ := construction_spec h
  exact Table.sort_before (ht.parent hp)

/-! ## References -/

variable {order : List Nat} {i k : Nat}

/-- Node `k` is a parent of node `i`, or node `i` refers to it. -/
def Needs (nodes : List Node) (i k : Nat) : Prop :=
  ParentEdge nodes i k ∨ ReferenceEdge nodes i k

/-- Node `i` needs node `k`, and the order has `k` before `i`. -/
def KeepsNeed (nodes : List Node) (order : List Nat) (i k : Nat) : Prop :=
  Needs nodes i k ∧ Before order k i

/-- The order keeps every edge of the table that it was sorted from. -/
theorem keepsNeed_of_edge {t : Table} (ht : Orders nodes t) (h : t.Edge i k) :
    KeepsNeed nodes t.sort.1 i k :=
  ⟨ht.of_edge h, Table.sort_before h⟩

/-- A reference that is not kept stands against a chain of needs that all are. -/
theorem chain_of_not_before (h : construction nodes = .ok order) (hr : ReferenceEdge nodes i k)
    (hb : ¬ Before order k i) : TransGen (KeepsNeed nodes order) k i := by
  obtain ⟨-, -, t, ht, rfl, hset⟩ := construction_spec h
  rcases hset i k hr with he | hp
  · exact absurd (Table.sort_before he) hb
  · have hne : i ≠ k := by
      obtain ⟨-, -, hne, -⟩ := hr
      exact hne.symm
    obtain he | hp := reflTransGen_iff_eq_or_transGen.1 hp
    · exact absurd he hne
    · exact TransGen.mono (fun _ _ => keepsNeed_of_edge ht) k i hp

/-- The order lists each node once, and has a node behind every other one that it refers to, unless
a chain of parents and references, all of which the order keeps, leads from that one back to it. So
if no such chain leads from a node to itself, no reference is given up. -/
theorem references_ordered (h : construction nodes = .ok order) :
    order.Perm (List.range nodes.length) ∧
      (∀ i k, ReferenceEdge nodes i k → ¬ Before order k i →
        TransGen (KeepsNeed nodes order) k i) ∧
      ((∀ i, ¬ TransGen (Needs nodes) i i) →
        ∀ i k, ReferenceEdge nodes i k → Before order k i) := by
  refine ⟨perm_of_construction h, fun i k => chain_of_not_before h, fun hacyclic i k hr => ?_⟩
  by_contra hb
  have hback : TransGen (Needs nodes) k i :=
    TransGen.mono (fun _ _ hn => hn.1) k i (chain_of_not_before h hr hb)
  exact hacyclic i (.head (.inr hr) hback)

/-- Three nodes in a circle of a parent and two references. -/
def circle : List Node :=
  [⟨"Knight".toList, [], ["Unit".toList], 1⟩, ⟨"Unit".toList, [], ["Camp".toList], 2⟩,
    ⟨"Camp".toList, ["Knight".toList], [], 3⟩]

theorem referenceEdge_circle : ReferenceEdge circle 1 2 :=
  ⟨_, rfl, by decide, _, List.mem_singleton_self _, by decide⟩

/-- The second reference of the circle would close it, and is given up. -/
theorem references_ordered_circle : construction circle = .ok [1, 0, 2] ∧
    ReferenceEdge circle 1 2 ∧ ¬ Before [1, 0, 2] 2 1 ∧
    TransGen (KeepsNeed circle [1, 0, 2]) 2 1 := by
  have h : construction circle = .ok [1, 0, 2] := by cbv
  have hb : ¬ Before [1, 0, 2] 2 1 := fun hb => List.not_mem_nil (hb [] [0, 2] rfl)
  exact ⟨h, referenceEdge_circle, hb, (references_ordered h).2.1 1 2 referenceEdge_circle hb⟩

end Lineage.Order
