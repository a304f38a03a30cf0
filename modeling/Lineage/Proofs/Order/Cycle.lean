import Mathlib.Data.List.Chain
import Lineage.Proofs.Order.Checked
/-!
# Reported cycles

Where the parents cannot be ordered, the walk among the stuck rows comes back to a row
(`closes_walk`), and the rows since its first time are a cycle (`isCycle_of_closes`). So the cycle
that the fault names is one of parents, and the fault stands at its first node (`cycle_reported`).
-/
namespace Lineage.Order

/-- A way along `R` that ends where it starts and comes to no other place twice. -/
structure IsCycle (R : Nat → Nat → Prop) (c : List Nat) : Prop where
  two_le : 2 ≤ c.length
  closed : c.head? = c.getLast?
  nodup : c.dropLast.Nodup
  chain : c.IsChain R

/-- From row `i`, with the rows of `path` behind it, the walk goes on to the first row with a
counter above zero until a row comes again; `c` are the rows from its first to its second time.
There is no rule for a row that waits for no row with a counter above zero. -/
inductive Table.Closes (t : Table) (counts : List Nat) : List Nat → Nat → List Nat → Prop
  | close {path : List Nat} {i : Nat} (hi : i ∈ path) :
    Closes t counts path i (path.dropWhile (· != i) ++ [i])
  | step {path c : List Nat} {i j : Nat} (hi : i ∉ path)
    (hj : (t[i]?).bind (firstPending? counts) = some (some j))
    (hc : Closes t counts (path ++ [i]) j c) : Closes t counts path i c

variable {nodes : List Node} {t : Table} {counts path c : List Nat} {i j : Nat}

theorem IsCycle.imp {R S : Nat → Nat → Prop} (hRS : ∀ i j, R i j → S i j) (h : IsCycle R c) :
    IsCycle S c :=
  ⟨h.two_le, h.closed, h.nodup, h.chain.imp hRS⟩

/-! ## The walk -/

theorem mem_of_firstPending? {l : List Nat} (h : Table.firstPending? counts l = some (some j)) :
    j ∈ l := by
  induction l with
  | nil => cases h
  | cons i l ih =>
    unfold Table.firstPending? at h
    split at h
    · cases h
    · split at h
      · cases h
        exact List.mem_cons_self
      · exact List.mem_cons_of_mem i (ih h)

theorem edge_of_firstPending?
    (h : (t[i]?).bind (Table.firstPending? counts) = some (some j)) : t.Edge i j := by
  obtain ⟨row, hrow, hj⟩ := Option.bind_eq_some_iff.1 h
  rw [Table.getElem?_row (List.getElem?_eq_some_iff.1 hrow).1, Option.some.injEq] at hrow
  rw [Table.Edge, hrow]
  exact mem_of_firstPending? hj

/-- What lies between two times of a row is a cycle. -/
theorem isCycle_dropWhile (hn : path.Nodup) (hc : (path ++ [i]).IsChain t.Edge) (hi : i ∈ path) :
    IsCycle t.Edge (path.dropWhile (· != i) ++ [i]) := by
  obtain ⟨before, after, rfl⟩ := List.append_of_mem hi
  have hbefore : ∀ k ∈ before, (k != i) = true := by
    intro k hk
    rw [bne_iff_ne]
    rintro rfl
    rw [List.nodup_append] at hn
    exact hn.2.2 k hk k List.mem_cons_self rfl
  have hdrop : (before ++ i :: after).dropWhile (· != i) = i :: after := by
    rw [List.dropWhile_append_of_pos hbefore, List.dropWhile_cons_of_neg (by simp)]
  rw [hdrop]
  rw [List.append_assoc] at hc
  refine ⟨by simp, ?_, ?_, hc.suffix (List.suffix_append before _)⟩
  · rw [List.getLast?_concat]
    rfl
  · rw [List.dropLast_concat]
    exact hn.sublist (List.sublist_append_right before _)

theorem isCycle_of_closes (h : t.Closes counts path i c) (hn : path.Nodup)
    (hc : (path ++ [i]).IsChain t.Edge) : IsCycle t.Edge c := by
  induction h with
  | close hi => exact isCycle_dropWhile hn hc hi
  | @step path c i j hi hj _ ih =>
    refine ih (List.nodup_append.2 ⟨hn, List.nodup_singleton i, ?_⟩) ?_
    · rintro k hk l hl rfl
      rw [List.mem_singleton] at hl
      exact hi (hl ▸ hk)
    · rw [List.append_assoc]
      exact List.isChain_append_cons_cons.2 ⟨hc, edge_of_firstPending? hj, List.isChain_singleton j⟩

/-- The walk always has a row to go to, and closes before it runs out of stuck rows. -/
theorem closes_walk {stuck : List Nat} (hc : t.Closed) (h : t.Tells counts stuck)
    (hst : ∀ i ∈ stuck, i < t.length) (hwait : ∀ i ∈ stuck, ∃ j ∈ stuck, t.Edge i j)
    (steps : Nat) (hn : path.Nodup) (hp : path ⊆ stuck) (hi : i ∈ stuck)
    (hs : stuck.length < path.length + steps) :
    t.Closes counts path i (t.walk stuck steps path i) := by
  induction steps generalizing path i with
  | zero =>
    have := (List.subperm_of_subset hn hp).length_le
    omega
  | succ steps ih =>
    rw [Table.walk]
    by_cases hip : i ∈ path
    · rw [if_pos hip]
      exact .close hip
    · rw [if_neg hip]
      have hpending : (t[i]?).bind (Table.firstPending? counts) =
          some ((t.row i).find? (stuck.contains ·)) := by
        rw [Table.getElem?_row (hst i hi), Option.bind_some,
          firstPending?_eq h fun k hk => hc i k hk]
      cases hf : (t.row i).find? (stuck.contains ·) with
      | none =>
        obtain ⟨j, hj, he⟩ := hwait i hi
        exact absurd (List.contains_iff_mem.2 hj) (List.find?_eq_none.1 hf j he)
      | some j =>
        rw [hf] at hpending
        refine .step hip hpending (ih ?_ ?_ (by simpa using List.find?_some hf) ?_)
        · rw [← List.concat_eq_append]
          exact hn.concat hip
        · exact List.append_subset.2 ⟨hp, by simpa using hi⟩
        · rw [List.length_append, List.length_singleton]
          omega

/-! ## The fault -/

/-- Of different names with known parents, the order fails only where rows are stuck. -/
theorem stuck_of_construction (hn : (nodes.map Node.name).Nodup)
    (hknown : ∀ n ∈ nodes, ∀ p ∈ n.parents, Known nodes p) {f : Fault}
    (h : construction nodes = .error f) : ∃ t, parentRows nodes nodes = .ok t ∧ t.sort.2 ≠ [] ∧
      f = cycleFault nodes (t.cycle t.sort.2) := by
  obtain ⟨t, ht⟩ := parentRows_isOk fun n hm p hp => indexOf?_isSome (hknown n hm p hp)
  have hrep : firstRepeated? [] nodes = none := firstRepeated?_eq_none_iff.2 ⟨hn, by simp⟩
  simp only [construction, hrep, ht] at h
  split at h
  · cases h
  · next hne =>
    cases h
    exact ⟨t, ht, fun he => hne (by rw [he]; rfl), rfl⟩

theorem exists_head_of_cycle (hne : c ≠ []) (h : ∀ i ∈ c, i < nodes.length) :
    ∃ first, c.head?.bind (nodes[·]?) = some first := by
  obtain ⟨i, rest, rfl⟩ := List.exists_cons_of_ne_nil hne
  exact ⟨_, List.getElem?_eq_getElem (h i List.mem_cons_self)⟩

theorem cycleFault_eq {first : Node} (h : c.head?.bind (nodes[·]?) = some first) :
    cycleFault nodes c = ⟨.cycle (c.filterMap fun i => (nodes[i]?).map Node.name),
      ⟨none, some first.line, some first.name⟩⟩ := by
  simp only [cycleFault, h]
  rfl

/-- Where nodes of different names with known parents cannot be ordered, the walk by the counters
starts at a stuck row and closes, and never comes to a row that waits for no stuck row. The rows
that it reports are a cycle of parents: the fault names them all, and stands at the first of
them. -/
theorem cycle_reported (hn : (nodes.map Node.name).Nodup)
    (hknown : ∀ n ∈ nodes, ∀ p ∈ n.parents, Known nodes p) {f : Fault}
    (h : construction nodes = .error f) :
    ∃ t counts i first names, parentRows nodes nodes = .ok t ∧
      t.sort? = some (t.sort.1, counts) ∧
      Table.firstPending? counts (List.range t.length) = some (some i) ∧
      t.Closes counts [] i (t.cycle t.sort.2) ∧
      IsCycle (ParentEdge nodes) (t.cycle t.sort.2) ∧
      (t.cycle t.sort.2).head?.bind (nodes[·]?) = some first ∧
      names? nodes (t.cycle t.sort.2) = some names ∧
      f = ⟨.cycle names, ⟨none, some first.line, some first.name⟩⟩ := by
  obtain ⟨t, ht, hne, rfl⟩ := stuck_of_construction hn hknown h
  have hclosed := closed_parentRows ht
  obtain ⟨counts, hsort, htells⟩ := Table.sort?_ok hclosed (ascending_parentRows ht)
  obtain ⟨i, rest, hstuck⟩ := List.exists_cons_of_ne_nil hne
  have hcycle : t.cycle t.sort.2 = t.walk t.sort.2 (t.sort.2.length + 1) [] i := by
    rw [Table.cycle, hstuck, List.headD_cons]
  have hwalk : t.Closes counts [] i (t.cycle t.sort.2) := by
    rw [hcycle]
    exact closes_walk hclosed htells (fun _ => lt_of_stuck)
      (fun _ => Table.exists_edge_of_stuck hclosed) _ .nil (List.nil_subset _)
      (hstuck ▸ List.mem_cons_self) (by simp)
  have hiscycle : IsCycle (ParentEdge nodes) (t.cycle t.sort.2) :=
    (isCycle_of_closes hwalk .nil (List.isChain_singleton i)).imp
      fun i k => (edge_parentRows ht i k).1
  obtain ⟨-, hcne, hlt⟩ := cycle?_eq hclosed htells hne
  have hlt' : ∀ k ∈ t.cycle t.sort.2, k < nodes.length := fun k hk =>
    (parentRows_ok ht).1 ▸ hlt k hk
  obtain ⟨first, hfirst⟩ := exists_head_of_cycle hcne hlt'
  refine ⟨t, counts, i, first, _, ht, hsort, ?_, hwalk, hiscycle, hfirst, names?_eq hlt',
    cycleFault_eq hfirst⟩
  rw [firstPending?_range htells, hstuck, List.head?_cons]

/-- Two nodes that inherit from each other, and one before them that only inherits from them. -/
def feud : List Node :=
  [⟨"Squire".toList, ["Knight".toList], [], 1⟩, ⟨"Knight".toList, ["Unit".toList], [], 2⟩,
    ⟨"Unit".toList, ["Camp".toList, "Knight".toList], [], 3⟩, ⟨"Camp".toList, [], [], 4⟩]

/-- The walk starts at a node that is behind the cycle only, and leaves it out of the report. -/
theorem cycle_reported_feud : (feud.map Node.name).Nodup ∧
    (∀ n ∈ feud, ∀ p ∈ n.parents, Known feud p) ∧
    ∃ f, construction feud = .error f ∧ f.place = ⟨none, some 2, some "Knight".toList⟩ ∧
      ∃ t, parentRows feud feud = .ok t ∧ t.cycle t.sort.2 = [1, 2, 1] ∧
        IsCycle (ParentEdge feud) (t.cycle t.sort.2) := by
  have hn : (feud.map Node.name).Nodup := by decide
  have hknown : ∀ n ∈ feud, ∀ p ∈ n.parents, Known feud p := by
    simp only [Known]
    decide
  obtain ⟨f, h, hplace⟩ : ∃ f, construction feud = .error f ∧
      f.place = ⟨none, some 2, some "Knight".toList⟩ := ⟨_, by with_unfolding_all rfl, rfl⟩
  obtain ⟨t, -, -, -, -, ht, -, -, -, hc, -⟩ := cycle_reported hn hknown h
  refine ⟨hn, hknown, f, h, hplace, t, ht, ?_, hc⟩
  have hrows : parentRows feud feud = .ok [[1], [2], [1, 3], []] := by with_unfolding_all rfl
  rw [hrows] at ht
  cases ht
  decide

end Lineage.Order
