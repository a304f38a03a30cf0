import Mathlib.Logic.Relation
import Mathlib.Order.WellFounded
import Mathlib.Data.Fintype.EquivFin
import Mathlib.Data.Fintype.Sets
import Lineage.Order.Construction
/-!
# Cycles in dependency tables

An edge of a table leads from a row to a row that it waits for. `reaches_iff` says that the search
finds exactly the paths along edges. `Acyclic.add` says that an edge which closes no path keeps a
table free of cycles, and `Acyclic.exists_free` that some row of any nonempty selection waits for
none of the others.
-/
namespace Lineage.Order.Table

open Relation

/-- Row `i` waits for row `j`. -/
def Edge (t : Table) (i j : Nat) : Prop := j ∈ t.row i

/-- Rows wait for rows of the table only. -/
def Closed (t : Table) : Prop := ∀ i j, t.Edge i j → j < t.length

/-- No row waits for itself, directly or by way of others. -/
def Acyclic (t : Table) : Prop := ∀ i, ¬ TransGen t.Edge i i

theorem Edge.lt_length {t : Table} {i j : Nat} (h : t.Edge i j) : i < t.length := by
  by_contra hi
  simp [Edge, row, List.getD_eq_getElem?_getD, List.getElem?_eq_none (Nat.le_of_not_lt hi)] at h

/-! ## Adding an edge -/

@[simp] theorem length_add (t : Table) (i j : Nat) : (t.add i j).length = t.length := by
  simp [add]

theorem row_add (t : Table) {i : Nat} (j k : Nat) (hi : i < t.length) :
    (t.add i j).row k = if k = i then insertAscending j (t.row i) else t.row k := by
  by_cases h : k = i
  · subst h
    simp [row, add, List.getD_eq_getElem?_getD, hi]
  · simp [row, add, List.getD_eq_getElem?_getD, h, Ne.symm h]

theorem edge_add_iff {t : Table} {i j k l : Nat} (hi : i < t.length) :
    (t.add i j).Edge k l ↔ t.Edge k l ∨ (k = i ∧ l = j) := by
  simp only [Edge, row_add t j k hi]
  by_cases h : k = i
  · subst h
    simp [mem_insertAscending, or_comm]
  · simp [h]

/-- A path after an edge was added is a path from before, or it leads to the start of the edge and
on from its end. -/
theorem path_add {t : Table} {i j a b : Nat} (hi : i < t.length)
    (h : TransGen (t.add i j).Edge a b) :
    TransGen t.Edge a b ∨ (ReflTransGen t.Edge a i ∧ ReflTransGen t.Edge j b) := by
  induction h with
  | single h =>
    rcases (edge_add_iff hi).1 h with h | ⟨rfl, rfl⟩
    · exact .inl (.single h)
    · exact .inr ⟨.refl, .refl⟩
  | tail _ h ih =>
    rcases (edge_add_iff hi).1 h with h | ⟨rfl, rfl⟩
    · rcases ih with ih | ⟨h1, h2⟩
      · exact .inl (ih.tail h)
      · exact .inr ⟨h1, h2.tail h⟩
    · rcases ih with ih | ⟨h1, -⟩
      · exact .inr ⟨ih.to_reflTransGen, .refl⟩
      · exact .inr ⟨h1, .refl⟩

theorem Acyclic.add {t : Table} {i j : Nat} (ha : t.Acyclic) (hi : i < t.length)
    (hj : ¬ ReflTransGen t.Edge j i) : (t.add i j).Acyclic := by
  intro k hk
  rcases path_add hi hk with h | ⟨h1, h2⟩
  · exact ha k h
  · exact hj (h2.trans h1)

theorem Closed.add {t : Table} {i j : Nat} (hc : t.Closed) (hi : i < t.length) (hj : j < t.length) :
    (t.add i j).Closed := by
  intro k l h
  rw [length_add]
  rcases (edge_add_iff hi).1 h with h | ⟨-, rfl⟩
  · exact hc k l h
  · exact hj

/-! ## The search -/

/-- A search finds only what can be reached. -/
theorem path_of_search {t : Table} {target : Nat} {unvisited stack : List Nat}
    (h : search t target unvisited stack = true) : ∃ i ∈ stack, ReflTransGen t.Edge i target := by
  fun_induction search t target unvisited stack with
  | case1 => cases h
  | case2 => exact ⟨target, by simp, .refl⟩
  | case3 unvisited i stack _ _ ih =>
    obtain ⟨j, hj, hp⟩ := ih h
    rcases List.mem_append.1 hj with hj | hj
    · exact ⟨i, by simp, .head hj hp⟩
    · exact ⟨j, by simp [hj], hp⟩
  | case4 unvisited i stack _ _ ih =>
    obtain ⟨j, hj, hp⟩ := ih h
    exact ⟨j, by simp [hj], hp⟩

/-- The visited rows are those no longer unvisited: none is the target, and all that they wait for
is visited or on the stack. -/
theorem no_path_of_search {t : Table} {target : Nat} {unvisited stack : List Nat}
    (hu : unvisited.Nodup) (h : search t target unvisited stack = false)
    (hv : ∀ i, i ∉ unvisited → i ≠ target ∧ ∀ j, t.Edge i j → j ∉ unvisited ∨ j ∈ stack) :
    ∀ i, i ∈ stack ∨ i ∉ unvisited → ¬ ReflTransGen t.Edge i target := by
  fun_induction search t target unvisited stack with
  | case1 unvisited =>
    intro i hi hp
    replace hi : i ∉ unvisited := by simpa using hi
    induction hp using ReflTransGen.head_induction_on with
    | refl => exact (hv _ hi).1 rfl
    | head he _ ih => exact ih (by simpa using (hv _ hi).2 _ he)
  | case2 => cases h
  | case3 unvisited i stack hne hi ih =>
    have hv' : ∀ k, k ∉ unvisited.erase i →
        k ≠ target ∧ ∀ j, t.Edge k j → j ∉ unvisited.erase i ∨ j ∈ t.row i ++ stack := by
      intro k hk
      rw [hu.mem_erase_iff, not_and_or, not_not] at hk
      rcases hk with rfl | hk
      · exact ⟨hne, fun j hj => .inr (List.mem_append_left _ hj)⟩
      · refine ⟨(hv k hk).1, fun j hj => ?_⟩
        rcases (hv k hk).2 j hj with hj | hj
        · exact .inl fun hm => hj (List.mem_of_mem_erase hm)
        · rcases List.mem_cons.1 hj with rfl | hj
          · exact .inl hu.not_mem_erase
          · exact .inr (List.mem_append_right _ hj)
    intro k hk
    apply ih (hu.erase i) h hv'
    rcases hk with hk | hk
    · rcases List.mem_cons.1 hk with rfl | hk
      · exact .inr hu.not_mem_erase
      · exact .inl (List.mem_append_right _ hk)
    · exact .inr fun hm => hk (List.mem_of_mem_erase hm)
  | case4 unvisited i stack hne hi ih =>
    have hv' : ∀ k, k ∉ unvisited → k ≠ target ∧ ∀ j, t.Edge k j → j ∉ unvisited ∨ j ∈ stack := by
      intro k hk
      refine ⟨(hv k hk).1, fun j hj => ?_⟩
      rcases (hv k hk).2 j hj with hj | hj
      · exact .inl hj
      · rcases List.mem_cons.1 hj with rfl | hj
        · exact .inl hi
        · exact .inr hj
    intro k hk
    apply ih hu h hv'
    rcases hk with hk | hk
    · rcases List.mem_cons.1 hk with rfl | hk
      · exact .inr hi
      · exact .inl hk
    · exact .inr hk

/-- The search finds exactly the rows that wait for the target. -/
theorem reaches_iff {t : Table} {i j : Nat} (hj : j < t.length) :
    t.reaches i j = true ↔ ReflTransGen t.Edge i j := by
  constructor
  · intro h
    obtain ⟨k, hk, hp⟩ := path_of_search h
    rw [List.mem_singleton] at hk
    exact hk ▸ hp
  · intro hp
    by_contra h
    refine no_path_of_search List.nodup_range (by simpa [reaches] using h) ?_ i (.inl (by simp)) hp
    intro k hk
    rw [List.mem_range, Nat.not_lt] at hk
    exact ⟨by omega, fun l hl => absurd hl.lt_length (by omega)⟩

/-! ## Rows that wait for nothing -/

/-- Some row of a nonempty selection waits for no row of the selection. -/
theorem Acyclic.exists_free {t : Table} (ha : t.Acyclic) {l : List Nat} (hl : l ≠ []) :
    ∃ i ∈ l, ∀ j ∈ l, ¬ t.Edge i j := by
  let below : {i // i ∈ l} → {i // i ∈ l} → Prop := fun a b => TransGen t.Edge b.1 a.1
  have : IsTrans _ below := ⟨fun _ _ _ h1 h2 => h2.trans h1⟩
  have : Std.Irrefl below := ⟨fun a h => ha a.1 h⟩
  have wf : WellFounded below := Finite.wellFounded_of_trans_of_irrefl below
  obtain ⟨i, hi⟩ := List.exists_mem_of_ne_nil l hl
  obtain ⟨m, -, hm⟩ := wf.has_min Set.univ ⟨⟨i, hi⟩, trivial⟩
  exact ⟨m.1, m.2, fun j hj h => hm ⟨j, hj⟩ trivial (.single h)⟩

end Lineage.Order.Table
