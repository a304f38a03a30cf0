import Lineage.Proofs.Order.Counting
import Lineage.Proofs.Order.Dependencies
/-!
# The order, checked

`construction` finds rows and nodes by their numbers and takes it for granted that they are there.
`construction?` checks each number, sorts with counters, and yields `none` where a number is none of
a row, a counter would fall below zero or a walk would not close. `construction?_eq` says that this
never happens. `construction_exact` sums up what `construction` does with any list of nodes.
-/
namespace Lineage.Order

namespace Table

/-- `add`, if there is such a row. -/
def add? (t : Table) (i j : Nat) : Option Table := if i < t.length then some (t.add i j) else none

/-- `search`, as long as the rows on the stack are there. -/
def search? (t : Table) (target : Nat) (unvisited : List Nat) : (stack : List Nat) → Option Bool
  | [] => some false
  | i :: stack =>
    if i = target then some true
    else match t[i]? with
      | none => none
      | some row =>
        if i ∈ unvisited then search? t target (unvisited.erase i) (row ++ stack)
        else search? t target unvisited stack
termination_by stack => (unvisited.length, stack.length)
decreasing_by
  · next h =>
    have := List.length_pos_of_mem h
    rw [Prod.lex_def, List.length_erase_of_mem h]
    exact .inl (by omega)
  · exact Prod.Lex.right _ (by simp)

/-- The first of some rows whose counter is not zero, if there is one. -/
def firstPending? (counts : List Nat) : List Nat → Option (Option Nat)
  | [] => some none
  | i :: l => match counts[i]? with
    | none => none
    | some n => if 0 < n then some (some i) else firstPending? counts l

/-- `walk` by the counters, if it closes within `steps`. -/
def walk? (t : Table) (counts : List Nat) : (steps : Nat) → (path : List Nat) → Nat →
    Option (List Nat)
  | 0, _, _ => none
  | steps + 1, path, i =>
    if i ∈ path then some (path.dropWhile (· != i) ++ [i])
    else match (t[i]?).bind (firstPending? counts) with
      | none => none
      | some none => some (path ++ [i])
      | some (some j) => walk? t counts steps (path ++ [i]) j

/-- `cycle` by the counters. -/
def cycle? (t : Table) (counts : List Nat) : Option (List Nat) :=
  (firstPending? counts (List.range t.length)).bind fun i =>
    walk? t counts (t.length + 1) [] (i.getD 0)

end Table

/-- Adds the parents of a node to its row. -/
def addParents? (nodes : List Node) (i : Nat) (n : Node) :
    List Text → Table → Option (Except Fault Table)
  | [], t => some (.ok t)
  | p :: ps, t => match indexOf? nodes p with
    | none => some (.error (faultAt n (.unknownParent n.name p)))
    | some j => (t.add? i j).bind (addParents? nodes i n ps)

/-- Adds the parents of some nodes, the first of which has the given number, to their rows. -/
def addAllParents? (nodes : List Node) : (i : Nat) → List Node → Table → Option (Except Fault Table)
  | _, [], t => some (.ok t)
  | i, n :: ns, t => match addParents? nodes i n n.parents t with
    | some (.ok t) => addAllParents? nodes (i + 1) ns t
    | r => r

/-- `addReference`, checked. -/
def addReference? (nodes : List Node) (i : Nat) (t : Table) (name : Text) : Option Table :=
  match indexOf? nodes name with
  | none => some t
  | some j =>
    if j = i then some t
    else match t[i]? with
      | none => none
      | some row =>
        if row.contains j then some t
        else (t.search? i (List.range t.length) [j]).bind fun found =>
          if found then some t else t.add? i j

/-- `addReferences`, checked. -/
def addReferences? (nodes : List Node) : (i : Nat) → List Node → Table → Option Table
  | _, [], t => some t
  | i, n :: ns, t =>
    (n.references.foldlM (addReference? nodes i) t).bind (addReferences? nodes (i + 1) ns)

/-- The names of the nodes with some numbers. -/
def names? (nodes : List Node) : List Nat → Option (List Text)
  | [] => some []
  | i :: l => match nodes[i]? with
    | none => none
    | some n => (names? nodes l).map (n.name :: ·)

/-- `cycleFault`, if the cycle has a first node and all its nodes are there. -/
def cycleFault? (nodes : List Node) (cycle : List Nat) : Option Fault :=
  match cycle.head?.bind (nodes[·]?), names? nodes cycle with
  | some n, some names => some (faultAt n (.cycle names))
  | _, _ => none

/-- `construction` with counters, checked. The names in order are what the program logs. -/
def construction? (nodes : List Node) : Option (Except Fault (List Nat)) :=
  match firstRepeated? [] nodes with
  | some n => some (.error ((Fault.of (.duplicateSection n.name)).atLine n.line))
  | none => match addAllParents? nodes 0 nodes (nodes.map fun _ => []) with
    | none => none
    | some (.error f) => some (.error f)
    | some (.ok t) => t.sort?.bind fun (order, counts) =>
      if order.length < nodes.length then
        ((t.cycle? counts).bind (cycleFault? nodes)).map .error
      else (addReferences? nodes 0 nodes t).bind fun t =>
        t.sort?.bind fun (order, _) => (names? nodes order).map fun _ => .ok order

variable {nodes : List Node} {t : Table} {i : Nat}

/-! ## Rows of parents -/

theorem mem_foldr_insertAscending {row l : List Nat} {k : Nat} :
    k ∈ row.foldr insertAscending l ↔ k ∈ row ∨ k ∈ l := by
  induction row with
  | nil => simp
  | cons j row ih => rw [List.foldr_cons, mem_insertAscending, ih, List.mem_cons, or_assoc]

theorem pairwise_foldr_insertAscending (row : List Nat) {l : List Nat} (h : l.Pairwise (· < ·)) :
    (row.foldr insertAscending l).Pairwise (· < ·) := by
  induction row with
  | nil => exact h
  | cons j row ih => exact Table.pairwise_insertAscending ih j

/-- Rows are increasing. -/
theorem pairwise_parentRow {n : Node} {ps : List Text} {row : List Nat}
    (h : parentRow nodes n ps = .ok row) : row.Pairwise (· < ·) := by
  induction ps generalizing row with
  | nil =>
    cases h
    exact .nil
  | cons p ps ih =>
    simp only [parentRow] at h
    split at h
    · cases h
    · cases hr : parentRow nodes n ps with
      | error f => simp [hr, Except.map] at h
      | ok rest =>
        simp only [hr, Except.map, Except.ok.injEq] at h
        exact h ▸ Table.pairwise_insertAscending (ih hr) _

theorem ascending_parentRows (h : parentRows nodes nodes = .ok t) : t.Ascending := by
  intro i
  obtain ⟨hl, hr⟩ := parentRows_ok h
  by_cases hi : i < nodes.length
  · exact pairwise_parentRow (hr i _ (List.getElem?_eq_getElem hi))
  · have hnone : t[i]? = none := List.getElem?_eq_none (by omega)
    simp [Table.row, List.getD_eq_getElem?_getD, hnone]

theorem add?_append (done : Table) (l : List Nat) (rest : Table) (j : Nat) :
    Table.add? (done ++ l :: rest) done.length j = some (done ++ insertAscending j l :: rest) := by
  rw [Table.add?, if_pos (by simp), Table.add]
  simp [List.modify_eq_take_cons_drop]

/-- Parents may be added to a row in any order. -/
theorem addParents?_eq (n : Node) (ps : List Text) (done rest : Table) {l : List Nat}
    (hl : l.Pairwise (· < ·)) :
    addParents? nodes done.length n ps (done ++ l :: rest) =
      some ((parentRow nodes n ps).map fun row => done ++ row.foldr insertAscending l :: rest) := by
  induction ps generalizing l with
  | nil => rfl
  | cons p ps ih =>
    rw [addParents?, parentRow]
    cases indexOf? nodes p with
    | none => rfl
    | some j =>
      have hj := Table.pairwise_insertAscending hl j
      simp only [add?_append, Option.bind_some, ih hj]
      cases parentRow nodes n ps with
      | error f => rfl
      | ok row =>
        have : row.foldr insertAscending (insertAscending j l) =
            (insertAscending j row).foldr insertAscending l := by
          refine List.Pairwise.eq_of_mem_iff (pairwise_foldr_insertAscending row hj)
            (pairwise_foldr_insertAscending _ hl) fun k => ?_
          simp only [mem_foldr_insertAscending, mem_insertAscending]
          tauto
        simp only [Except.map, this]

/-- Filling the table row by row, with checks, computes the rows. -/
theorem addAllParents?_eq (nodes ns : List Node) (done : Table) :
    addAllParents? nodes done.length ns (done ++ ns.map fun _ => []) =
      some ((parentRows nodes ns).map (done ++ ·)) := by
  induction ns generalizing done with
  | nil => rfl
  | cons n ns ih =>
    rw [addAllParents?, List.map_cons, addParents?_eq n n.parents done _ .nil, parentRows]
    cases h : parentRow nodes n n.parents with
    | error f => rfl
    | ok row =>
      have : row.foldr insertAscending [] = row := by
        refine List.Pairwise.eq_of_mem_iff (pairwise_foldr_insertAscending row .nil)
          (pairwise_parentRow h) fun k => ?_
        simp [mem_foldr_insertAscending]
      have hnext := ih (done ++ [row])
      simp only [List.length_append, List.length_singleton, List.append_assoc,
        List.singleton_append] at hnext
      simp only [Except.map, this, hnext]
      cases parentRows nodes ns <;> rfl

/-! ## Adding references -/

/-- A table with an ascending row of nodes for each node. -/
structure Sound (nodes : List Node) (t : Table) : Prop where
  length_eq : t.length = nodes.length
  closed : t.Closed
  ascending : t.Ascending

/-- A search over a table whose numbers are in range never leaves the table. -/
theorem search?_eq {target : Nat} {unvisited stack : List Nat} (hc : t.Closed)
    (hs : ∀ i ∈ stack, i < t.length) :
    t.search? target unvisited stack = some (t.search target unvisited stack) := by
  fun_induction Table.search t target unvisited stack with
  | case1 => rw [Table.search?]
  | case2 => rw [Table.search?, if_pos rfl]
  | case3 unvisited i stack hne hi ih =>
    rw [Table.search?, if_neg hne, Table.getElem?_row (hs i (by simp))]
    simp only [if_pos hi]
    refine ih fun k hk => ?_
    rcases List.mem_append.1 hk with hk | hk
    · exact hc i k hk
    · exact hs k (by simp [hk])
  | case4 unvisited i stack hne hi ih =>
    rw [Table.search?, if_neg hne, Table.getElem?_row (hs i (by simp))]
    simp only [if_neg hi]
    exact ih fun k hk => hs k (by simp [hk])

/-- Noting a reference finds all numbers in range, and leaves them so. -/
theorem addReference?_ok (h : Sound nodes t) (hi : i < nodes.length) (name : Text) :
    addReference? nodes i t name = some (addReference nodes i t name) ∧
      Sound nodes (addReference nodes i t name) := by
  rw [addReference?, addReference]
  have hit : i < t.length := h.length_eq ▸ hi
  cases hj : indexOf? nodes name with
  | none => exact ⟨rfl, h⟩
  | some j =>
    have hjt : j < t.length := h.length_eq ▸ indexOf?_lt hj
    by_cases hji : j = i
    · simp [hji, h]
    · dsimp only
      rw [if_neg hji, Table.getElem?_row hit, search?_eq h.closed (by simpa using hjt),
        ← Table.reaches]
      by_cases hr : j ∈ t.row i
      · simp [hr, h]
      · cases hs : t.reaches j i with
        | true => simp [hr, h]
        | false =>
          refine ⟨by simp [hji, hr, Table.add?, hit], ?_⟩
          have hcond : ¬ (decide (j = i) || (t.row i).contains j || false) = true := by
            simp [hji, hr]
          rw [if_neg hcond]
          exact ⟨by simpa using h.length_eq, h.closed.add hit hjt, h.ascending.add hit j⟩

theorem foldlM_addReference? (h : Sound nodes t) (hi : i < nodes.length) (rs : List Text) :
    rs.foldlM (addReference? nodes i) t = some (rs.foldl (addReference nodes i) t) ∧
      Sound nodes (rs.foldl (addReference nodes i) t) := by
  induction rs generalizing t with
  | nil => exact ⟨rfl, h⟩
  | cons r rs ih =>
    obtain ⟨hr, h⟩ := addReference?_ok h hi r
    rw [List.foldlM_cons, hr]
    exact ih h

theorem addReferences?_ok (h : Sound nodes t) {ns : List Node} (hi : i + ns.length ≤ nodes.length) :
    addReferences? nodes i ns t = some (addReferences nodes i ns t) ∧
      Sound nodes (addReferences nodes i ns t) := by
  induction ns generalizing i t with
  | nil => exact ⟨rfl, h⟩
  | cons n ns ih =>
    rw [List.length_cons] at hi
    obtain ⟨hr, h⟩ := foldlM_addReference? h (i := i) (by omega) n.references
    rw [addReferences?, addReferences, hr]
    exact ih h (by omega)

/-! ## Walking to a cycle -/

theorem firstPending?_eq {counts stuck l : List Nat} (h : t.Tells counts stuck)
    (hl : ∀ i ∈ l, i < t.length) :
    Table.firstPending? counts l = some (l.find? (stuck.contains ·)) := by
  induction l with
  | nil => rfl
  | cons i l ih =>
    obtain ⟨n, hn, hpos⟩ := h i (hl i (by simp))
    rw [Table.firstPending?, hn, List.find?_cons, ih fun j hj => hl j (by simp [hj])]
    by_cases hi : i ∈ stuck
    · simp [hi, hpos.2 hi]
    · simp [hi, Nat.eq_zero_of_not_pos fun hn => hi (hpos.1 hn)]

/-- A walk among stuck rows visits each at most once, so that it closes in time. -/
theorem walk?_eq {counts stuck : List Nat} (hc : t.Closed) (h : t.Tells counts stuck)
    (hst : ∀ i ∈ stuck, i < t.length) (steps steps' : Nat) {path : List Nat} (hn : path.Nodup)
    (hp : path ⊆ stuck) (hi : i ∈ stuck) (hs : stuck.length < path.length + steps)
    (hs' : stuck.length < path.length + steps') :
    t.walk? counts steps' path i = some (t.walk stuck steps path i) ∧
      t.walk stuck steps path i ≠ [] ∧ t.walk stuck steps path i ⊆ stuck := by
  have hle : path.length ≤ stuck.length := (List.subperm_of_subset hn hp).length_le
  induction steps generalizing steps' path i with
  | zero => omega
  | succ steps ih =>
    obtain ⟨steps', rfl⟩ := Nat.exists_eq_succ_of_ne_zero (n := steps') (by omega)
    rw [Table.walk?, Table.walk]
    by_cases hip : i ∈ path
    · rw [if_pos hip, if_pos hip]
      refine ⟨rfl, by simp, ?_⟩
      exact List.append_subset.2
        ⟨fun k hk => hp ((List.dropWhile_sublist _).subset hk), by simpa using hi⟩
    · rw [if_neg hip, if_neg hip, Table.getElem?_row (hst i hi), Option.bind_some,
        firstPending?_eq h fun k hk => hc i k hk]
      have hp' : path ++ [i] ⊆ stuck := List.append_subset.2 ⟨hp, by simpa using hi⟩
      cases hf : (t.row i).find? (stuck.contains ·) with
      | none => exact ⟨rfl, by simp, hp'⟩
      | some j =>
        have hj : j ∈ stuck := by simpa using List.find?_some hf
        have hn' : (path ++ [i]).Nodup := by
          rw [List.nodup_append]
          exact ⟨hn, List.nodup_singleton i, by rintro a ha b hb rfl; simp_all⟩
        refine ih steps' hn' hp' hj ?_ ?_ (List.subperm_of_subset hn' hp').length_le
        · rw [List.length_append, List.length_singleton]
          omega
        · rw [List.length_append, List.length_singleton]
          omega

theorem stuck_sublist (t : Table) : t.sort.2.Sublist (List.range t.length) := by
  have run : ∀ steps w, (Table.sortWaiting steps w).2.keys.Sublist w.keys := by
    intro steps w
    fun_induction Table.sortWaiting steps w with
    | case1 | case2 => exact List.Sublist.refl _
    | case3 w steps k ds hf order stuck hs ih =>
      rw [hs, Table.keys_place] at ih
      exact ih.trans List.filter_sublist
  rw [← Table.keys_waiting]
  exact run t.length t.waiting

theorem lt_of_stuck (hi : i ∈ t.sort.2) : i < t.length :=
  List.mem_range.1 ((stuck_sublist t).subset hi)

/-- The first row whose counter is not zero is the first stuck row. -/
theorem firstPending?_range {counts : List Nat} (h : t.Tells counts t.sort.2) :
    Table.firstPending? counts (List.range t.length) = some t.sort.2.head? := by
  have hasc : t.sort.2.Pairwise (· < ·) := List.pairwise_lt_range.sublist (stuck_sublist t)
  have hfilter : (List.range t.length).filter (t.sort.2.contains ·) = t.sort.2 := by
    refine List.Pairwise.eq_of_mem_iff (List.pairwise_lt_range.filter _) hasc fun k => ?_
    rw [List.mem_filter, List.mem_range, List.contains_iff_mem]
    exact ⟨And.right, fun hk => ⟨lt_of_stuck hk, hk⟩⟩
  rw [firstPending?_eq h fun k hk => List.mem_range.1 hk, ← List.head?_filter, hfilter]

/-- The walk to a cycle stays in the table too, and finds one. -/
theorem cycle?_eq {counts : List Nat} (hc : t.Closed) (h : t.Tells counts t.sort.2)
    (hne : t.sort.2 ≠ []) :
    t.cycle? counts = some (t.cycle t.sort.2) ∧ t.cycle t.sort.2 ≠ [] ∧
      ∀ i ∈ t.cycle t.sort.2, i < t.length := by
  obtain ⟨i, rest, hcons⟩ := List.exists_cons_of_ne_nil hne
  have hlen : t.sort.2.length ≤ t.length := by simpa using (stuck_sublist t).length_le
  have hi : i ∈ t.sort.2 := hcons ▸ List.mem_cons_self
  obtain ⟨h1, h2, h3⟩ := walk?_eq hc h (fun _ => lt_of_stuck) (t.sort.2.length + 1) (t.length + 1)
    .nil (List.nil_subset _) hi (by simp) (by simp only [List.length_nil]; omega)
  have hcycle : t.cycle t.sort.2 = t.walk t.sort.2 (t.sort.2.length + 1) [] i := by
    rw [Table.cycle, hcons, List.headD_cons]
  rw [Table.cycle?, firstPending?_range h, hcons, List.head?_cons, Option.bind_some,
    Option.getD_some, ← hcons, hcycle]
  exact ⟨h1, h2, fun k hk => lt_of_stuck (h3 hk)⟩

/-! ## The checked order -/

theorem names?_eq {l : List Nat} (h : ∀ i ∈ l, i < nodes.length) :
    names? nodes l = some (l.filterMap fun i => (nodes[i]?).map Node.name) := by
  induction l with
  | nil => rfl
  | cons i l ih =>
    have hi := List.getElem?_eq_getElem (h i (by simp))
    simp [names?, hi, ih fun j hj => h j (by simp [hj])]

theorem cycleFault?_eq {cycle : List Nat} (hne : cycle ≠ []) (h : ∀ i ∈ cycle, i < nodes.length) :
    cycleFault? nodes cycle = some (cycleFault nodes cycle) := by
  obtain ⟨i, rest, rfl⟩ := List.exists_cons_of_ne_nil hne
  have hi := List.getElem?_eq_getElem (h i (by simp))
  simp only [cycleFault?, cycleFault, names?_eq h, List.head?_cons, Option.bind_some, hi]

/-- No number is out of range, no counter falls below zero, and the walk to a cycle closes. -/
theorem construction?_eq (nodes : List Node) : construction? nodes = some (construction nodes) := by
  rw [construction?, construction]
  cases hrep : firstRepeated? [] nodes with
  | some n => rfl
  | none =>
    have hadd := addAllParents?_eq nodes nodes []
    simp only [List.length_nil, List.nil_append] at hadd
    rw [hadd]
    cases ht : parentRows nodes nodes with
    | error f => rfl
    | ok t =>
      have hsound : Sound nodes t :=
        ⟨(parentRows_ok ht).1, closed_parentRows ht, ascending_parentRows ht⟩
      obtain ⟨counts, hsort, htells⟩ := Table.sort?_ok hsound.closed hsound.ascending
      have hlen := t.sort_perm.length_eq
      rw [List.length_append, List.length_range, hsound.length_eq] at hlen
      simp only [Except.map, hsort, Option.bind_some]
      by_cases hstuck : t.sort.2 = []
      · obtain ⟨hrefs, href⟩ := addReferences?_ok (i := 0) hsound (Nat.zero_add nodes.length).le
        obtain ⟨counts', hsort', -⟩ := Table.sort?_ok href.closed href.ascending
        have hlt : ∀ i ∈ (addReferences nodes 0 nodes t).sort.1, i < nodes.length := by
          intro i hi
          have := (Table.sort_perm _).subset (List.mem_append_left _ hi)
          rwa [List.mem_range, href.length_eq] at this
        rw [if_neg (by simp [hstuck] at hlen; omega), hrefs, Option.bind_some, hsort',
          Option.bind_some, names?_eq hlt, hstuck]
        rfl
      · obtain ⟨hcycle, hne, hlt⟩ := cycle?_eq hsound.closed htells hstuck
        have hpos := List.length_pos_iff.2 hstuck
        rw [if_pos (by omega), hcycle, Option.bind_some,
          cycleFault?_eq hne fun i hi => hsound.length_eq ▸ hlt i hi]
        simp [hstuck]

/-! ## What the order is -/

theorem kind_of_parentRow {n : Node} {ps : List Text} {f : Fault}
    (h : parentRow nodes n ps = .error f) : f.kind = .unresolvableInheritance := by
  induction ps with
  | nil => cases h
  | cons p ps ih =>
    simp only [parentRow] at h
    split at h
    · cases h
      rfl
    · cases hr : parentRow nodes n ps with
      | error g =>
        rw [hr] at h
        cases h
        exact ih hr
      | ok row => simp [hr, Except.map] at h

theorem kind_of_parentRows {ns : List Node} {f : Fault} (h : parentRows nodes ns = .error f) :
    f.kind = .unresolvableInheritance := by
  induction ns with
  | nil => cases h
  | cons n ns ih =>
    simp only [parentRows] at h
    split at h
    · next g hg =>
      cases h
      exact kind_of_parentRow hg
    · cases hr : parentRows nodes ns with
      | error g =>
        rw [hr] at h
        cases h
        exact ih hr
      | ok rows => simp [hr, Except.map] at h

theorem kind_cycleFault (nodes : List Node) (cycle : List Nat) :
    (cycleFault nodes cycle).kind = .unresolvableInheritance := by
  unfold cycleFault
  dsimp only
  split <;> rfl

/-- An order fails for a repeated name, or else for what is inherited. -/
theorem kind_of_construction {f : Fault} (h : construction nodes = .error f) :
    f.kind = if (nodes.map Node.name).Nodup then .unresolvableInheritance
      else .duplicateSectionName := by
  have hnodup : firstRepeated? [] nodes = none ↔ (nodes.map Node.name).Nodup := by
    rw [firstRepeated?_eq_none_iff]
    simp
  unfold construction at h
  split at h
  · next n hn =>
    cases h
    rw [if_neg fun hd => by simp [hnodup.2 hd] at hn]
    rfl
  · next hn =>
    rw [if_pos (hnodup.1 hn)]
    split at h
    · next g hg =>
      cases h
      exact kind_of_parentRows hg
    · split at h
      · cases h
      · cases h
        exact kind_cycleFault _ _

/-- There is an order exactly if the names differ, all parents are nodes, and no node inherits from
itself. It lists each node once, behind all its parents. Else the fault tells repeated names from
parents that cannot be ordered. No step of all this fails. -/
theorem construction_exact (nodes : List Node) :
    ((∃ order, construction nodes = .ok order) ↔ (nodes.map Node.name).Nodup ∧
      (∀ n ∈ nodes, ∀ p ∈ n.parents, ∃ m ∈ nodes, m.name = p) ∧
      ∀ x, ¬ Relation.TransGen (Inherits nodes) x x) ∧
    (∀ order, construction nodes = .ok order → order.Perm (List.range nodes.length) ∧
      ∀ i n, nodes[i]? = some n → ∀ p ∈ n.parents, ∃ k m, nodes[k]? = some m ∧ m.name = p ∧
        Before order k i) ∧
    (∀ f, construction nodes = .error f → f.kind =
      if (nodes.map Node.name).Nodup then .unresolvableInheritance else .duplicateSectionName) ∧
    construction? nodes = some (construction nodes) := by
  refine ⟨construction_ok_iff, fun order h => ⟨perm_of_construction h, fun i n hn p hp => ?_⟩,
    fun f => kind_of_construction, construction?_eq nodes⟩
  obtain ⟨-, hknown, -⟩ := construction_ok_iff.1 ⟨order, h⟩
  obtain ⟨k, hk⟩ := indexOf?_isSome (hknown n (List.mem_of_getElem? hn) p hp)
  obtain ⟨m, hm, hname⟩ := indexOf?_eq_some hk
  exact ⟨k, m, hm, hname, before_of_parent h ⟨n, hn, p, hp, hk⟩⟩

end Lineage.Order
