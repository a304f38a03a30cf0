import Mathlib.Data.List.Permutation
import Lineage.Proofs.Order.Counting
/-!
# The first of all orders

Many orders may respect a table. `sort` takes the lowest row that is ready, and so finds the one
that comes first lexicographically (`first_sort`). The order of construction is the first one that
respects the parents and the accepted references; where the order of the file respects them, it is
that order (`first_of_orders`).
-/
namespace Lineage.Order

open Relation

/-- An ascending list comes before all its other arrangements. -/
theorem lex_of_ascending {l m : List Nat} (hl : l.Pairwise (· < ·)) (hm : m.Perm l) :
    m = l ∨ List.Lex (· < ·) l m := by
  induction l generalizing m with
  | nil => exact .inl hm.eq_nil
  | cons a l ih =>
    cases m with
    | nil => exact absurd hm.symm.eq_nil (List.cons_ne_nil a l)
    | cons b m =>
      obtain ⟨ha, hl'⟩ := List.pairwise_cons.1 hl
      rcases List.mem_cons.1 (hm.mem_iff.1 (List.mem_cons_self ..)) with rfl | hb
      · exact (ih hl' hm.cons_inv).imp (congrArg (b :: ·)) List.Lex.cons
      · exact .inr (.rel (ha b hb))

namespace Table

/-- An order of the rows in which each row comes after those that it waits for. -/
structure Respects (t : Table) (l : List Nat) : Prop where
  perm : l.Perm (List.range t.length)
  before : ∀ i k, t.Edge i k → Before l k i

/-- The order that comes first, number by number, of all that respect a table. -/
structure First (t : Table) (l : List Nat) : Prop where
  respects : t.Respects l
  first : ∀ m, t.Respects m → m = l ∨ List.Lex (· < ·) l m

variable {t : Table} {l m placed : List Nat} {i k : Nat}

theorem First.unique (h : t.First l) (h' : t.First m) : l = m := by
  rcases h.first m h'.respects with he | hlt
  · exact he.symm
  · rcases h'.first l h.respects with he | hgt
    · exact he
    · exact absurd hgt (List.lt_asymm hlt)

/-- The numbers in their own order come first, if they respect the table. -/
theorem first_range (h : t.Respects (List.range t.length)) : t.First (List.range t.length) :=
  ⟨h, fun _ hm => lex_of_ascending List.pairwise_lt_range hm.perm⟩

theorem before_tail {a : Nat} (h : Before (a :: l) k i) (hk : k ≠ a) : Before l k i := by
  intro done rest he
  have hm := h (a :: done) rest (by rw [he, List.cons_append])
  exact (List.mem_cons.1 hm).resolve_left hk

/-- Some rows were placed, and `l` lists the others so that each comes after those that it still
waits for. Then the run goes on with `l`, or with a list that comes before it: its next row is the
lowest of those that wait for nothing, of which the head of `l` is one. -/
theorem sortWaiting_first {steps : Nat}
    (hp : l.Perm ((List.range t.length).filter (· ∉ placed)))
    (hb : ∀ i k, k ∈ t.unmet placed i → Before l k i) (hs : l.length ≤ steps) :
    l = (sortWaiting steps (t.remaining placed)).1 ∨
      List.Lex (· < ·) (sortWaiting steps (t.remaining placed)).1 l := by
  induction l generalizing steps placed with
  | nil =>
    have hrest : t.remaining placed = [] := by rw [remaining, ← hp.nil_eq, List.map_nil]
    left
    rw [hrest]
    cases steps <;> rfl
  | cons a l ih =>
    obtain ⟨steps, rfl⟩ : ∃ n, steps = n + 1 :=
      ⟨steps - 1, by rw [List.length_cons] at hs; omega⟩
    have ha : a ∈ t.free placed := by
      have hm := hp.mem_iff.1 List.mem_cons_self
      rw [List.mem_filter, List.mem_range, decide_eq_true_eq] at hm
      refine mem_free.2 ⟨hm.1, hm.2, List.eq_nil_iff_forall_not_mem.2 fun d hd => ?_⟩
      exact List.not_mem_nil (hb a d hd [] l rfl)
    rw [sortWaiting, find?_remaining]
    cases hfree : t.free placed with
    | nil => simp [hfree] at ha
    | cons k ready =>
      dsimp only [List.head?_cons, Option.map_some]
      rw [hfree] at ha
      have hsorted := hfree ▸ pairwise_free t placed
      rcases List.mem_cons.1 ha with rfl | ha
      · -- the run places the head of the list, and both go on
        rw [place_remaining]
        refine (ih ?_ ?_ (Nat.le_of_succ_le_succ hs)).imp (congrArg (a :: ·)) List.Lex.cons
        · have hrest := hp.erase a
          rw [List.erase_cons_head, (List.nodup_range.filter _).erase_eq_filter,
            ← filter_not_mem_cons] at hrest
          exact hrest
        · intro i d hd
          obtain ⟨he, hnot⟩ := mem_unmet.1 hd
          rw [List.mem_cons, not_or] at hnot
          exact before_tail (hb i d (mem_unmet.2 ⟨he, hnot.2⟩)) hnot.1
      · exact .inr (.rel ((List.pairwise_cons.1 hsorted).1 a ha))

theorem respects_sort (hc : t.Closed) (ha : t.Acyclic) : t.Respects t.sort.1 :=
  ⟨perm_of_sort (sort_stuck_eq_nil hc ha), fun _ _ => sort_before⟩

/-- Where no row waits for itself, sorting finds the first of all orders. -/
theorem first_sort (hc : t.Closed) (ha : t.Acyclic) : t.First t.sort.1 := by
  refine ⟨respects_sort hc ha, fun m hm => ?_⟩
  have hall : (List.range t.length).filter (· ∉ []) = List.range t.length :=
    List.filter_eq_self.2 fun i _ => decide_eq_true List.not_mem_nil
  have hrun := @sortWaiting_first t m [] t.length (by rw [hall]; exact hm.perm)
    (fun i k hk => hm.before i k (mem_unmet.1 hk).1)
    (by rw [hm.perm.length_eq, List.length_range])
  rw [remaining_nil] at hrun
  exact hrun

end Table

/-- Sorting a table without cycles, with counters or without, finds the order that comes first of
all that respect it. So the order of construction is the first one that respects the parents and the
accepted references, and it is the order of the file if that one does. -/
theorem first_of_orders :
    (∀ t : Table, t.Closed → t.Acyclic → t.First t.sort.1 ∧
      (t.Ascending → ∃ counts, t.sort? = some (t.sort.1, counts))) ∧
    ∀ nodes order, construction nodes = .ok order →
      ∃ parents t, parentRows nodes nodes = .ok parents ∧ t = addReferences nodes 0 nodes parents ∧
        Orders nodes t ∧
        (∀ i k, ReferenceEdge nodes i k → t.Edge i k ∨ ReflTransGen t.Edge k i) ∧
        t.First order ∧
        (t.Respects (List.range nodes.length) → order = List.range nodes.length) := by
  refine ⟨fun t hc ha => ⟨Table.first_sort hc ha, fun hasc => ?_⟩, fun nodes order h => ?_⟩
  · obtain ⟨counts, hs, -⟩ := Table.sort?_ok hc hasc
    exact ⟨counts, hs⟩
  · obtain ⟨-, parents, hp, ha, rfl⟩ := sort_of_construction h
    obtain ⟨ho, hrefused⟩ := orders_addReferences hp ha
    have hfirst := Table.first_sort ho.closed ho.acyclic
    refine ⟨parents, _, hp, rfl, ho, hrefused, hfirst, fun hrange => ?_⟩
    rw [← ho.length_eq] at hrange ⊢
    exact hfirst.unique (Table.first_range hrange)

/-- A node that is listed before its parent, which refers to a node between them. -/
def camp : List Node :=
  [⟨"Knight".toList, ["Unit".toList], [], 1⟩, ⟨"Arms".toList, [], [], 2⟩,
    ⟨"Unit".toList, [], ["Arms".toList], 3⟩, ⟨"Tent".toList, [], [], 4⟩]

/-- The table of `camp`. -/
def campTable : Table := [[2], [], [1], []]

/-- The last node could be placed at any time, and is placed last. -/
theorem first_of_orders_camp : campTable.Closed ∧ campTable.Acyclic ∧
    campTable.First [1, 2, 0, 3] ∧ construction camp = .ok [1, 2, 0, 3] ∧
    ∃ parents, parentRows camp camp = .ok parents ∧
      (addReferences camp 0 camp parents).First [1, 2, 0, 3] := by
  have hclosed : campTable.Closed := by
    intro i k he
    have hi : i < 4 := he.lt_length
    have hrows : ∀ i < 4, ∀ k ∈ campTable.row i, k < 4 := by decide
    exact hrows i hi k he
  have hacyclic : campTable.Acyclic := Table.acyclic_of_sort (by decide)
  have h : construction camp = .ok [1, 2, 0, 3] := by cbv
  obtain ⟨parents, t, hp, rfl, -, -, hfirst, -⟩ := first_of_orders.2 camp _ h
  have hleast := (first_of_orders.1 campTable hclosed hacyclic).1
  exact ⟨hclosed, hacyclic, hleast, h, parents, hp, hfirst⟩

end Lineage.Order
