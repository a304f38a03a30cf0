import Lineage.Proofs.Order.Construction
/-!
# Dependencies between names

What a node depends on, told by names. `construction_ok_iff` says for which nodes there is an order.
Where nodes do not depend on each other in a circle, all that a node depends on comes before it
(`before_of_depends`). Neither the order nor the line numbers of the nodes matter
(`depends_congr`, `construction_ok_congr`).
-/
namespace Lineage.Order

open Relation

variable {nodes : List Node}

/-- A node has this name. -/
def Known (nodes : List Node) (x : Text) : Prop := ∃ m ∈ nodes, m.name = x

/-- The node named `x` has a parent named `y`. -/
def Inherits (nodes : List Node) (x y : Text) : Prop := ∃ n ∈ nodes, n.name = x ∧ y ∈ n.parents

/-- The node named `x` has a parent named `y`, or it refers to another node named `y`. -/
def Depends (nodes : List Node) (x y : Text) : Prop :=
  Known nodes y ∧ ∃ n ∈ nodes, n.name = x ∧ (y ∈ n.parents ∨ (y ≠ x ∧ y ∈ n.references))

/-- No node depends on itself, directly or by way of others. -/
def Acyclic (nodes : List Node) : Prop := ∀ x, ¬ TransGen (Depends nodes) x x

/-- There is no circle where the names in each node rank below its own. -/
theorem acyclic_of_rank (rank : Text → Nat)
    (h : ∀ n ∈ nodes, (∀ y ∈ n.parents, rank y < rank n.name) ∧
      ∀ y ∈ n.references, y ≠ n.name → rank y < rank n.name) : Acyclic nodes := by
  have hstep : ∀ x y, Depends nodes x y → rank y < rank x := by
    rintro x y ⟨-, n, hn, rfl, hy | ⟨hne, hy⟩⟩
    · exact (h n hn).1 y hy
    · exact (h n hn).2 y hy hne
  have hlt : ∀ x y, TransGen (Depends nodes) x y → rank y < rank x := by
    intro x y hd
    induction hd with
    | single hd => exact hstep _ _ hd
    | tail _ hd ih => exact (hstep _ _ hd).trans ih
  exact fun x hx => (hlt x x hx).ne rfl

theorem depends_of_edges {i k : Nat} (hn : (nodes.map Node.name).Nodup)
    (h : ParentEdge nodes i k ∨ ReferenceEdge nodes i k) :
    ∃ n m, nodes[i]? = some n ∧ nodes[k]? = some m ∧ Depends nodes n.name m.name := by
  rcases h with ⟨n, hi, p, hp, hk⟩ | ⟨n, hi, hne, r, hr, hk⟩
  · obtain ⟨m, hm, rfl⟩ := indexOf?_eq_some hk
    exact ⟨n, m, hi, hm, ⟨m, List.mem_of_getElem? hm, rfl⟩, n, List.mem_of_getElem? hi, rfl,
      .inl hp⟩
  · obtain ⟨m, hm, rfl⟩ := indexOf?_eq_some hk
    refine ⟨n, m, hi, hm, ⟨m, List.mem_of_getElem? hm, rfl⟩, n, List.mem_of_getElem? hi, rfl,
      .inr ⟨fun he => hne ?_, hr⟩⟩
    rw [he, indexOf?_name hn hi] at hk
    exact (Option.some.inj hk).symm

theorem depends_of_path {t : Table} (ht : Orders nodes t) (hn : (nodes.map Node.name).Nodup)
    {i k : Nat} {n m : Node} (hi : nodes[i]? = some n) (hk : nodes[k]? = some m)
    (h : ReflTransGen t.Edge i k) : ReflTransGen (Depends nodes) n.name m.name := by
  induction h generalizing m with
  | refl =>
    obtain rfl : n = m := Option.some.inj (hi.symm.trans hk)
    exact .refl
  | tail _ he ih =>
    obtain ⟨n', m', hn', hm', hd⟩ := depends_of_edges hn (ht.of_edge he)
    obtain rfl : m' = m := Option.some.inj (hm'.symm.trans hk)
    exact (ih hn').tail hd

/-- Where nodes do not depend on each other in a circle, no reference is left out. -/
theorem before_of_reference {order : List Nat} (h : construction nodes = .ok order)
    (ha : Acyclic nodes) {i k : Nat} (hr : ReferenceEdge nodes i k) : Before order k i := by
  obtain ⟨hn, -, t, ht, rfl, hset⟩ := construction_spec h
  rcases hset i k hr with he | hp
  · exact Table.sort_before he
  · obtain ⟨n, m, hi, hk, hd⟩ := depends_of_edges hn (.inr hr)
    exact absurd (TransGen.head' hd (depends_of_path ht hn hk hi hp)) (ha n.name)

/-- Where nodes do not depend on each other in a circle, all that a node depends on comes before
it. -/
theorem before_of_depends {order : List Nat} (h : construction nodes = .ok order)
    (ha : Acyclic nodes) {x y : Text} (hd : TransGen (Depends nodes) x y) {i k : Nat}
    (hi : indexOf? nodes x = some i) (hk : indexOf? nodes y = some k) : Before order k i := by
  have hn := (construction_spec h).1
  have edge : ∀ {x y : Text} {i k : Nat}, Depends nodes x y → indexOf? nodes x = some i →
      indexOf? nodes y = some k → Before order k i := by
    rintro x y i k ⟨-, n, hm, rfl, hy⟩ hi hk
    obtain ⟨i', hi'⟩ := List.mem_iff_getElem?.1 hm
    obtain rfl : i' = i := Option.some.inj ((indexOf?_name hn hi').symm.trans hi)
    rcases hy with hy | ⟨hne, hy⟩
    · exact before_of_parent h ⟨n, hi', y, hy, hk⟩
    · refine before_of_reference h ha ⟨n, hi', ?_, y, hy, hk⟩
      rintro rfl
      obtain ⟨m, hm, rfl⟩ := indexOf?_eq_some hk
      exact hne (congrArg Node.name (Option.some.inj (hm.symm.trans hi')))
  induction hd generalizing k with
  | single hd => exact edge hd hi hk
  | tail _ hd ih =>
    obtain ⟨-, n, hm, rfl, -⟩ := id hd
    obtain ⟨j, hj⟩ := indexOf?_isSome ⟨n, hm, rfl⟩
    exact (ih hj).trans (edge hd hj hk)

theorem parentEdge_of_inherits (hn : (nodes.map Node.name).Nodup) {t : Table}
    (ht : parentRows nodes nodes = .ok t) {x y : Text} (h : Inherits nodes x y) :
    ∃ i k, indexOf? nodes x = some i ∧ indexOf? nodes y = some k ∧ t.Edge i k := by
  obtain ⟨n, hm, rfl, hy⟩ := h
  obtain ⟨i, hi⟩ := List.mem_iff_getElem?.1 hm
  obtain ⟨k, hk⟩ := (parentRow_ok ((parentRows_ok ht).2 i n hi)).1 y hy
  exact ⟨i, k, indexOf?_name hn hi, hk, (edge_parentRows ht i k).2 ⟨n, hi, y, hy, hk⟩⟩

theorem path_of_inherits (hn : (nodes.map Node.name).Nodup) {t : Table}
    (ht : parentRows nodes nodes = .ok t) {x y : Text} (h : TransGen (Inherits nodes) x y) :
    ∃ i k, indexOf? nodes x = some i ∧ indexOf? nodes y = some k ∧ TransGen t.Edge i k := by
  induction h with
  | single h =>
    obtain ⟨i, k, hi, hk, he⟩ := parentEdge_of_inherits hn ht h
    exact ⟨i, k, hi, hk, .single he⟩
  | tail _ h ih =>
    obtain ⟨i, k, hi, hk, hp⟩ := ih
    obtain ⟨k', l, hk', hl, he⟩ := parentEdge_of_inherits hn ht h
    obtain rfl : k = k' := Option.some.inj (hk.symm.trans hk')
    exact ⟨i, l, hi, hl, hp.tail he⟩

/-- A path in the table of parents is one of inheritance. -/
theorem inherits_of_path {t : Table} (ht : parentRows nodes nodes = .ok t) {i k : Nat} {n m : Node}
    (hi : nodes[i]? = some n) (hk : nodes[k]? = some m) (h : TransGen t.Edge i k) :
    TransGen (Inherits nodes) n.name m.name := by
  have edge : ∀ {i k : Nat} {n m : Node}, nodes[i]? = some n → nodes[k]? = some m → t.Edge i k →
      Inherits nodes n.name m.name := by
    intro i k n m hi hk he
    obtain ⟨n', hi', p, hp, hk'⟩ := (edge_parentRows ht i k).1 he
    obtain ⟨m', hm', rfl⟩ := indexOf?_eq_some hk'
    obtain rfl : n' = n := Option.some.inj (hi'.symm.trans hi)
    obtain rfl : m' = m := Option.some.inj (hm'.symm.trans hk)
    exact ⟨n', List.mem_of_getElem? hi, rfl, hp⟩
  induction h generalizing m with
  | single he => exact .single (edge hi hk he)
  | @tail b c _ he ih =>
    obtain ⟨l, hl⟩ : ∃ l, nodes[b]? = some l :=
      ⟨_, List.getElem?_eq_getElem ((parentRows_ok ht).1 ▸ he.lt_length)⟩
    exact (ih hl).tail (edge hl hk he)

/-- There is an order exactly if the names differ, all parents are nodes, and no node inherits
from itself. -/
theorem construction_ok_iff :
    (∃ order, construction nodes = .ok order) ↔ (nodes.map Node.name).Nodup ∧
      (∀ n ∈ nodes, ∀ p ∈ n.parents, ∃ m ∈ nodes, m.name = p) ∧
      ∀ x, ¬ TransGen (Inherits nodes) x x := by
  constructor
  · rintro ⟨order, h⟩
    obtain ⟨hn, ⟨t, ht, ha⟩, -⟩ := construction_spec h
    refine ⟨hn, fun n hm p hp => ?_, fun x hx => ?_⟩
    · obtain ⟨i, hi⟩ := List.mem_iff_getElem?.1 hm
      obtain ⟨k, hk⟩ := (parentRow_ok ((parentRows_ok ht).2 i n hi)).1 p hp
      obtain ⟨m, hm, rfl⟩ := indexOf?_eq_some hk
      exact ⟨m, List.mem_of_getElem? hm, rfl⟩
    · obtain ⟨i, k, hi, hk, hp⟩ := path_of_inherits hn ht hx
      obtain rfl : i = k := Option.some.inj (hi.symm.trans hk)
      exact ha i hp
  · rintro ⟨hn, hp, hx⟩
    obtain ⟨t, ht⟩ := parentRows_isOk fun n hm p h => indexOf?_isSome (hp n hm p h)
    refine ⟨_, construction_eq hn ht fun i hi => ?_⟩
    have hlt : i < nodes.length := by
      obtain ⟨j, he, -⟩ := TransGen.head'_iff.1 hi
      exact (parentRows_ok ht).1 ▸ he.lt_length
    have hi' := List.getElem?_eq_getElem hlt
    exact hx _ (inherits_of_path ht hi' hi' hi)

/-! ## Other orders of the nodes -/

/-- A node apart from its place in the file. -/
def Node.unnumbered (n : Node) : Node := { n with line := 0 }

/-- The same nodes, in another order and with other line numbers. -/
def Same (nodes nodes' : List Node) : Prop :=
  (nodes.map Node.unnumbered).Perm (nodes'.map Node.unnumbered)

variable {nodes' : List Node}

theorem Same.symm (h : Same nodes nodes') : Same nodes' nodes := List.Perm.symm h

theorem Same.exists_mem (h : Same nodes nodes') {n : Node} (hn : n ∈ nodes) :
    ∃ n' ∈ nodes', n'.name = n.name ∧ n'.parents = n.parents ∧ n'.references = n.references := by
  obtain ⟨n', hn', he⟩ := List.mem_map.1 (h.mem_iff.1 (List.mem_map_of_mem hn))
  simp only [Node.unnumbered, Node.mk.injEq] at he
  exact ⟨n', hn', he.1, he.2.1, he.2.2.1⟩

theorem known_congr (h : Same nodes nodes') : Known nodes = Known nodes' := by
  have mp : ∀ {nodes nodes' : List Node}, Same nodes nodes' → ∀ x, Known nodes x →
      Known nodes' x := by
    rintro nodes nodes' h x ⟨m, hm, rfl⟩
    obtain ⟨m', hm', hname, -⟩ := h.exists_mem hm
    exact ⟨m', hm', hname⟩
  funext x
  exact propext ⟨mp h x, mp h.symm x⟩

theorem depends_congr (h : Same nodes nodes') : Depends nodes = Depends nodes' := by
  have mp : ∀ {nodes nodes' : List Node}, Same nodes nodes' → ∀ x y, Depends nodes x y →
      Depends nodes' x y := by
    rintro nodes nodes' h x y ⟨hy, n, hn, rfl, hd⟩
    obtain ⟨n', hn', h1, h2, h3⟩ := h.exists_mem hn
    exact ⟨known_congr h ▸ hy, n', hn', h1, by rwa [h2, h3]⟩
  funext x y
  exact propext ⟨mp h x y, mp h.symm x y⟩

theorem Acyclic.congr (ha : Acyclic nodes) (h : Same nodes nodes') : Acyclic nodes' := by
  rwa [Acyclic, ← depends_congr h]

/-- A node apart from what it refers to. -/
def Node.heading (n : Node) : Text × List Text := (n.name, n.parents)

theorem inherits_mono (h : (nodes.map Node.heading).Perm (nodes'.map Node.heading)) (x y : Text)
    (hi : Inherits nodes x y) : Inherits nodes' x y := by
  obtain ⟨n, hn, rfl, hy⟩ := hi
  obtain ⟨n', hn', he⟩ := List.mem_map.1 (h.mem_iff.1 (List.mem_map_of_mem hn))
  simp only [Node.heading, Prod.mk.injEq] at he
  exact ⟨n', hn', he.1, he.2 ▸ hy⟩

/-- Whether there is an order depends on names and parents only. -/
theorem construction_ok_of_headings (h : (nodes.map Node.heading).Perm (nodes'.map Node.heading))
    {order : List Nat} (ho : construction nodes = .ok order) :
    ∃ order', construction nodes' = .ok order' := by
  obtain ⟨hn, hp, hx⟩ := construction_ok_iff.1 ⟨order, ho⟩
  have hnames := h.map Prod.fst
  rw [List.map_map, List.map_map] at hnames
  refine construction_ok_iff.2 ⟨hnames.nodup_iff.1 hn, fun n hm p hpn => ?_, fun x hc => hx x ?_⟩
  · obtain ⟨n', hn', -, h2⟩ := inherits_mono h.symm n.name p ⟨n, hm, rfl, hpn⟩
    obtain ⟨m, hm, rfl⟩ := hp n' hn' p h2
    obtain ⟨m', hm', h1⟩ := List.mem_map.1 (hnames.mem_iff.1 (List.mem_map_of_mem hm))
    exact ⟨m', hm', h1⟩
  · exact TransGen.mono (inherits_mono h.symm) x x hc

theorem construction_ok_congr (h : Same nodes nodes') {order : List Nat}
    (ho : construction nodes = .ok order) : ∃ order', construction nodes' = .ok order' := by
  have := h.map Node.heading
  rw [List.map_map, List.map_map] at this
  exact construction_ok_of_headings this ho

end Lineage.Order
