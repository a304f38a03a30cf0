import Lineage.Proofs.Order.Reachability
/-!
# Sorted dependency tables

What `sort` lists: every row once, as placed or as stuck, and a placed row behind all rows that it
waits for. No row is stuck exactly if no row waits for itself.
-/
namespace Lineage.Order

/-- In the list, `j` stands before each place of `i`. -/
def Before (order : List Nat) (j i : Nat) : Prop :=
  ∀ done rest, order = done ++ i :: rest → j ∈ done

theorem Before.trans {order : List Nat} {i j k : Nat} (h1 : Before order j i)
    (h2 : Before order k j) :
    Before order k i := by
  intro done rest h
  obtain ⟨a, b, rfl⟩ := List.append_of_mem (h1 done rest h)
  exact List.mem_append_left _ (h2 a (b ++ i :: rest) (by simp [h]))

theorem not_before_self {order : List Nat} (hn : order.Nodup) {i : Nat} (hi : i ∈ order) :
    ¬ Before order i i := by
  intro h
  obtain ⟨a, b, rfl⟩ := List.append_of_mem hi
  have := h a b rfl
  simp only [List.nodup_append, List.mem_cons] at hn
  exact hn.2.2 i this i (.inl rfl) rfl

namespace Table

open Relation

/-! ## Placing rows one after another -/

/-- The rows that are still waiting. -/
def Waiting.keys (w : Waiting) : List Nat := w.map (·.1)

theorem mem_place {w : Waiting} {k : Nat} {r : Nat × List Nat} :
    r ∈ place k w ↔ ∃ ds, (r.1, ds) ∈ w ∧ r.1 ≠ k ∧ r.2 = ds.filter (· != k) := by
  obtain ⟨i, es⟩ := r
  simp only [place, List.mem_map, List.mem_filter, bne_iff_ne, ne_eq, Prod.exists, Prod.mk.injEq]
  constructor
  · rintro ⟨a, ds, ⟨hm, hne⟩, rfl, rfl⟩
    exact ⟨ds, hm, hne, rfl⟩
  · rintro ⟨ds, hm, hne, rfl⟩
    exact ⟨i, ds, ⟨hm, hne⟩, rfl, rfl⟩

theorem keys_place (k : Nat) (w : Waiting) : (place k w).keys = w.keys.filter (· != k) := by
  simp only [Waiting.keys, place, List.map_map, List.filter_map]
  rfl

theorem perm_keys_place {w : Waiting} (hn : w.keys.Nodup) {k : Nat} (hk : k ∈ w.keys) :
    (k :: (place k w).keys).Perm w.keys := by
  rw [keys_place, ← hn.erase_eq_filter k]
  exact (List.perm_cons_erase hk).symm

theorem mem_keys_of_find {w : Waiting} {k : Nat} {ds : List Nat}
    (h : w.find? (·.2.isEmpty) = some (k, ds)) : (k, []) ∈ w ∧ k ∈ w.keys := by
  have hm := List.mem_of_find?_eq_some h
  have he : ds = [] := by simpa using List.find?_some h
  subst he
  exact ⟨hm, List.mem_map.2 ⟨_, hm, rfl⟩⟩

theorem eq_of_mem_keys {w : Waiting} (hn : w.keys.Nodup) {i : Nat} {ds es : List Nat}
    (h1 : (i, ds) ∈ w) (h2 : (i, es) ∈ w) : ds = es :=
  congrArg Prod.snd (List.inj_on_of_nodup_map hn h1 h2 rfl)

theorem nodup_keys_place {w : Waiting} (hn : w.keys.Nodup) (k : Nat) : (place k w).keys.Nodup := by
  rw [keys_place]
  exact hn.filter _

theorem sortWaiting_perm (steps : Nat) (w : Waiting) (hn : w.keys.Nodup) :
    ((sortWaiting steps w).1 ++ (sortWaiting steps w).2.keys).Perm w.keys := by
  fun_induction sortWaiting steps w with
  | case1 | case2 => simp
  | case3 w steps k ds hf order stuck hs ih =>
    rw [hs] at ih
    refine .trans ?_ (perm_keys_place hn (mem_keys_of_find hf).2)
    simpa using ih (nodup_keys_place hn k)

/-- A row is sorted behind all that it waits for. -/
theorem sortWaiting_before (steps : Nat) (w : Waiting) (hn : w.keys.Nodup) {i : Nat} {ds : List Nat}
    (hi : (i, ds) ∈ w) {d : Nat} (hd : d ∈ ds) : Before (sortWaiting steps w).1 d i := by
  fun_induction sortWaiting steps w generalizing ds with
  | case1 | case2 => intro done rest h; simp at h
  | case3 w steps k es hf order stuck hs ih =>
    rw [hs] at ih
    have hik : i ≠ k := by
      rintro rfl
      rw [eq_of_mem_keys hn hi (mem_keys_of_find hf).1] at hd
      cases hd
    intro done rest h
    rcases done with _ | ⟨k', done⟩
    · simp only [List.nil_append, List.cons.injEq] at h
      exact absurd h.1.symm hik
    · obtain ⟨rfl, ho⟩ : k = k' ∧ order = done ++ i :: rest := by simpa using h
      by_cases hdk : d = k
      · simp [hdk]
      · refine List.mem_cons_of_mem _ (ih (nodup_keys_place hn k)
          (mem_place.2 ⟨ds, hi, hik, rfl⟩) ?_ done rest ho)
        simp [hd, hdk]

/-! ## Rows that are stuck -/

/-- A stuck row waits for a part of what it waited for. -/
theorem subset_of_stuck {steps : Nat} {w : Waiting} {r : Nat × List Nat}
    (h : r ∈ (sortWaiting steps w).2) : ∃ ds, (r.1, ds) ∈ w ∧ r.2 ⊆ ds := by
  fun_induction sortWaiting steps w with
  | case1 | case2 => exact ⟨r.2, h, List.Subset.refl _⟩
  | case3 w steps k es hf order stuck hs ih =>
    rw [hs] at ih
    obtain ⟨ds, hm, hsub⟩ := ih h
    obtain ⟨es, hm, -, rfl⟩ := mem_place.1 hm
    exact ⟨es, hm, fun d hd => (List.mem_filter.1 (hsub hd)).1⟩

/-- A row that is never sorted waits for another to the end. -/
theorem ne_nil_of_stuck {steps : Nat} {w : Waiting} (hn : w.keys.Nodup) (hl : w.length ≤ steps)
    {r : Nat × List Nat} (h : r ∈ (sortWaiting steps w).2) : r.2 ≠ [] := by
  fun_induction sortWaiting steps w with
  | case1 w =>
    simp only [List.length_eq_zero_iff, Nat.le_zero_eq] at hl
    subst hl
    cases h
  | case2 w steps hf =>
    simpa using List.find?_eq_none.1 hf r h
  | case3 w steps k es hf order stuck hs ih =>
    rw [hs] at ih
    refine ih (nodup_keys_place hn k) ?_ h
    have := (perm_keys_place hn (mem_keys_of_find hf).2).length_eq
    simp only [Waiting.keys, List.length_cons, List.length_map] at this
    omega

/-- If all waiting rows wait for waiting rows only, then so do the stuck ones. -/
theorem closed_of_stuck {steps : Nat} {w : Waiting} (hc : ∀ r ∈ w, ∀ d ∈ r.2, d ∈ w.keys)
    {r : Nat × List Nat} (h : r ∈ (sortWaiting steps w).2) :
    ∀ d ∈ r.2, d ∈ (sortWaiting steps w).2.keys := by
  fun_induction sortWaiting steps w with
  | case1 | case2 => exact hc r h
  | case3 w steps k es hf order stuck hs ih =>
    rw [hs] at ih
    refine ih ?_ h
    intro q hq d hd
    obtain ⟨ds, hm, -, he⟩ := mem_place.1 hq
    rw [he, List.mem_filter] at hd
    rw [keys_place, List.mem_filter]
    exact ⟨hc _ hm d hd.1, hd.2⟩

/-! ## Sorting a table -/

/-- At first, every row of a table waits for all that it lists. -/
def waiting (t : Table) : Waiting := t.mapIdx fun i r => (i, r)

@[simp] theorem keys_waiting (t : Table) : t.waiting.keys = List.range t.length := by
  simp [Waiting.keys, waiting, List.mapIdx_eq_zipIdx_map, Function.comp_def, List.zipIdx_map_snd,
    List.range_eq_range']

theorem mem_waiting {t : Table} {i : Nat} {r : List Nat} :
    (i, r) ∈ t.waiting ↔ i < t.length ∧ r = t.row i := by
  simp only [waiting, List.mem_mapIdx, Prod.mk.injEq, row, List.getD_eq_getElem?_getD]
  constructor
  · rintro ⟨j, hj, rfl, rfl⟩
    simp [hj]
  · rintro ⟨hi, rfl⟩
    exact ⟨i, hi, rfl, by simp [hi]⟩

theorem sort_perm (t : Table) : (t.sort.1 ++ t.sort.2).Perm (List.range t.length) := by
  rw [← keys_waiting]
  exact sortWaiting_perm t.length t.waiting (by rw [keys_waiting]; exact List.nodup_range)

theorem sort_before {t : Table} {i j : Nat} (h : t.Edge i j) : Before t.sort.1 j i :=
  sortWaiting_before t.length t.waiting (by rw [keys_waiting]; exact List.nodup_range)
    (mem_waiting.2 ⟨h.lt_length, rfl⟩) h

/-- A stuck row waits for a stuck row. -/
theorem exists_edge_of_stuck {t : Table} (hc : t.Closed) {i : Nat} (hi : i ∈ t.sort.2) :
    ∃ j ∈ t.sort.2, t.Edge i j := by
  obtain ⟨⟨i, ds⟩, hm, rfl⟩ := List.mem_map.1 hi
  have hn : t.waiting.keys.Nodup := by rw [keys_waiting]; exact List.nodup_range
  obtain ⟨d, hd⟩ := List.exists_mem_of_ne_nil ds (ne_nil_of_stuck hn (by simp [waiting]) hm)
  obtain ⟨es, hes, hsub⟩ := subset_of_stuck hm
  obtain ⟨-, rfl⟩ := mem_waiting.1 hes
  refine ⟨d, closed_of_stuck ?_ hm d hd, hsub hd⟩
  rintro ⟨k, r⟩ hr e he
  obtain ⟨-, rfl⟩ := mem_waiting.1 hr
  change e ∈ t.waiting.keys
  rw [keys_waiting, List.mem_range]
  exact hc k e he

/-- Of rows that do not wait for themselves none is stuck. -/
theorem sort_stuck_eq_nil {t : Table} (hc : t.Closed) (ha : t.Acyclic) : t.sort.2 = [] := by
  by_contra hne
  obtain ⟨i, hi, hfree⟩ := ha.exists_free hne
  obtain ⟨j, hj, he⟩ := exists_edge_of_stuck hc hi
  exact hfree j hj he

theorem perm_of_sort {t : Table} (hs : t.sort.2 = []) : t.sort.1.Perm (List.range t.length) := by
  simpa [hs] using t.sort_perm

theorem before_of_path {t : Table} {i j : Nat} (h : TransGen t.Edge i j) : Before t.sort.1 j i := by
  induction h with
  | single h => exact sort_before h
  | tail _ h ih => exact ih.trans (sort_before h)

/-- If no row is stuck then no row waits for itself. -/
theorem acyclic_of_sort {t : Table} (hs : t.sort.2 = []) : t.Acyclic := by
  intro i h
  have hp := perm_of_sort hs
  have hi : i < t.length := by
    obtain ⟨j, he, -⟩ := TransGen.head'_iff.1 h
    exact he.lt_length
  exact not_before_self (hp.nodup_iff.2 List.nodup_range) (hp.mem_iff.2 (List.mem_range.2 hi))
    (before_of_path h)

end Table

end Lineage.Order
