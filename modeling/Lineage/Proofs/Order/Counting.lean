import Lineage.Proofs.Order.Construction
/-!
# Sorting with counters

`sort` filters the rows that still wait. It can also count: each row has a counter of the rows that
it waits for, and a row that is placed counts down those that wait for it. Here this is done with
checks: counting below zero, asking for a row that is not there and running out of steps all yield
`none`. `sort?_ok` says that the counters never do, and end with what `sort` ends with.
-/
namespace Lineage.Order.Table

/-- The rows of the table are in ascending order. -/
def Ascending (t : Table) : Prop := ∀ i, (t.row i).Pairwise (· < ·)

/-- Notes row `i` at each of the rows `ds`. -/
def note? (i : Nat) : (ds : List Nat) → Table → Option Table
  | [], w => some w
  | d :: ds, w => match w[d]? with
    | none => none
    | some l => note? i ds (w.set d (l ++ [i]))

/-- Notes some rows, the first of which has the given number, at the rows that they wait for. -/
def noteAll? : (i : Nat) → (rows : Table) → Table → Option Table
  | _, [], w => some w
  | i, r :: rows, w => (note? i r w).bind (noteAll? (i + 1) rows)

/-- Counts rows down. Those that wait for nothing any more become ready. -/
def countDown? : (rows counts ready : List Nat) → Option (List Nat × List Nat)
  | [], counts, ready => some (counts, ready)
  | i :: rows, counts, ready => match counts[i]? with
    | some (n + 1) =>
      countDown? rows (counts.set i n) (if n = 0 then insertAscending i ready else ready)
    | _ => none

/-- Places the first ready row and counts down those that wait for it, until none is ready: the
rows in the order in which they were placed, and the counters that are left. -/
def run? (waiters : Table) : (steps : Nat) → (counts ready : List Nat) →
    Option (List Nat × List Nat)
  | _, counts, [] => some ([], counts)
  | 0, _, _ :: _ => none
  | steps + 1, counts, i :: ready => match waiters[i]? with
    | none => none
    | some rows => match countDown? rows counts ready with
      | none => none
      | some (counts, ready) => (run? waiters steps counts ready).map fun r => (i :: r.1, r.2)

/-- The rows among some whose counters are zero. -/
def ready? (counts : List Nat) : List Nat → Option (List Nat)
  | [] => some []
  | i :: l => match counts[i]? with
    | none => none
    | some n => (ready? counts l).map fun r => if n = 0 then i :: r else r

/-- The rows in order, and the counters that are left. -/
def sort? (t : Table) : Option (List Nat × List Nat) :=
  match noteAll? 0 t (t.map fun _ => []), ready? (t.map List.length) (List.range t.length) with
  | some waiters, some ready => run? waiters t.length (t.map List.length) ready
  | _, _ => none

variable {t : Table} {placed counts ready rows : List Nat} {i k : Nat}

/-! ## Ascending rows -/

theorem pairwise_insertAscending {l : List Nat} (h : l.Pairwise (· < ·)) (n : Nat) :
    (insertAscending n l).Pairwise (· < ·) := by
  induction l with
  | nil => exact List.pairwise_singleton ..
  | cons m l ih =>
    obtain ⟨hm, hl⟩ := List.pairwise_cons.1 h
    unfold insertAscending
    split
    · next hlt =>
      refine List.pairwise_cons.2 ⟨fun a ha => ?_, h⟩
      rcases List.mem_cons.1 ha with rfl | ha
      · exact hlt
      · exact hlt.trans (hm a ha)
    · split
      · exact h
      · next hlt hne =>
        refine List.pairwise_cons.2 ⟨fun a ha => ?_, ih hl⟩
        rcases mem_insertAscending.1 ha with rfl | ha
        · omega
        · exact hm a ha

theorem Ascending.add (h : t.Ascending) (hi : i < t.length) (j : Nat) : (t.add i j).Ascending := by
  intro k
  rw [row_add t j k hi]
  split
  · exact pairwise_insertAscending (h i) j
  · exact h k

theorem Ascending.nodup (h : t.Ascending) (i : Nat) : (t.row i).Nodup :=
  (h i).imp fun hlt => Nat.ne_of_lt hlt

theorem getElem?_row (hi : i < t.length) : t[i]? = some (t.row i) := by
  rw [row, List.getD_eq_getElem?_getD, List.getElem?_eq_getElem hi, Option.getD_some]

/-! ## Noting who waits -/

/-- A row is noted with each row that it waits for. -/
theorem note?_ok {ds : List Nat} {w : Table} (hd : ∀ d ∈ ds, d < w.length) (hn : ds.Nodup)
    (i : Nat) : ∃ w', note? i ds w = some w' ∧ w'.length = w.length ∧
      ∀ k, w'[k]? = (w[k]?).map fun l => if k ∈ ds then l ++ [i] else l := by
  induction ds generalizing w with
  | nil => exact ⟨w, rfl, rfl, by simp⟩
  | cons d ds ih =>
    rw [List.nodup_cons] at hn
    have hlt := hd d (by simp)
    obtain ⟨w', hw, hlen, hget⟩ := @ih (w.set d (w[d] ++ [i]))
      (fun e he => by simpa using hd e (by simp [he])) hn.2
    refine ⟨w', ?_, by simpa using hlen, fun k => ?_⟩
    · simpa only [note?, List.getElem?_eq_getElem hlt] using hw
    · rw [hget, List.getElem?_set]
      by_cases hk : d = k
      · subst hk
        simp [hlt, hn.1]
      · simp [hk, Ne.symm hk]

/-- The numbers of the rows that wait for row `k`, counted from `i`. -/
def waitersFrom (i : Nat) (rows : Table) (k : Nat) : List Nat :=
  ((rows.zipIdx i).filter fun r => k ∈ r.1).map Prod.snd

/-- After all rows, each row has those that wait for it, in increasing order. -/
theorem noteAll?_ok (i : Nat) (rows w : Table)
    (hd : ∀ r ∈ rows, (∀ d ∈ r, d < w.length) ∧ r.Nodup) :
    ∃ w', noteAll? i rows w = some w' ∧ w'.length = w.length ∧
      ∀ k, w'[k]? = (w[k]?).map (· ++ waitersFrom i rows k) := by
  induction rows generalizing i w with
  | nil => exact ⟨w, rfl, rfl, by simp [waitersFrom]⟩
  | cons r rows ih =>
    obtain ⟨hr, hn⟩ := hd r (by simp)
    obtain ⟨w₁, h1, hlen1, hget1⟩ := note?_ok hr hn i
    obtain ⟨w₂, h2, hlen2, hget2⟩ := ih (i + 1) w₁ fun q hq => hlen1 ▸ hd q (by simp [hq])
    refine ⟨w₂, by rw [noteAll?, h1, Option.bind_some, h2], hlen2.trans hlen1, fun k => ?_⟩
    rw [hget2, hget1, Option.map_map]
    congr 1
    funext l
    by_cases hk : k ∈ r <;> simp [waitersFrom, hk]

theorem mem_waitersFrom_zero : i ∈ waitersFrom 0 t k ↔ t.Edge i k := by
  simp only [waitersFrom, List.mem_map, List.mem_filter, List.mem_zipIdx_iff_getElem?, Prod.exists,
    decide_eq_true_eq, exists_eq_right]
  constructor
  · rintro ⟨r, hr, hk⟩
    have : r = t.row i := by
      rw [getElem?_row (List.getElem?_eq_some_iff.1 hr).1] at hr
      exact (Option.some.inj hr).symm
    rw [Edge, ← this]
    exact hk
  · intro h
    exact ⟨t.row i, getElem?_row h.lt_length, h⟩

theorem nodup_waitersFrom (i : Nat) (rows : Table) (k : Nat) : (waitersFrom i rows k).Nodup := by
  refine List.Nodup.sublist (List.filter_sublist.map Prod.snd) ?_
  rw [List.zipIdx_map_snd]
  exact List.nodup_range'

/-! ## Counting down -/

theorem ready?_ok {f : Nat → Nat} {l : List Nat} (h : ∀ i ∈ l, counts[i]? = some (f i)) :
    ready? counts l = some (l.filter (f · = 0)) := by
  induction l with
  | nil => rfl
  | cons i l ih =>
    rw [ready?, h i (by simp), ih fun j hj => h j (by simp [hj])]
    by_cases h0 : f i = 0 <;> simp [h0]

/-- A row that is finished lowers the counts of the rows that wait for it, and those that wait for
nothing else become ready; the ready ones stay in increasing order. -/
theorem countDown?_ok (hn : rows.Nodup) (hc : ∀ i ∈ rows, ∃ n, counts[i]? = some (n + 1))
    (hr : ready.Pairwise (· < ·)) :
    ∃ counts' ready', countDown? rows counts ready = some (counts', ready') ∧
      (∀ i, counts'[i]? = (counts[i]?).map fun n => if i ∈ rows then n - 1 else n) ∧
      ready'.Pairwise (· < ·) ∧ ∀ i, i ∈ ready' ↔ i ∈ ready ∨ (i ∈ rows ∧ counts[i]? = some 1) := by
  induction rows generalizing counts ready with
  | nil => exact ⟨counts, ready, rfl, by simp, hr, by simp⟩
  | cons j rows ih =>
    rw [List.nodup_cons] at hn
    obtain ⟨n, hj⟩ := hc j (by simp)
    have hlt := (List.getElem?_eq_some_iff.1 hj).1
    -- the other rows have their own counters
    have hother : ∀ i ∈ rows, (counts.set j n)[i]? = counts[i]? := by
      intro i hi
      have hne : j ≠ i := fun h => hn.1 (h ▸ hi)
      rw [List.getElem?_set, if_neg hne]
    have hready : (if n = 0 then insertAscending j ready else ready).Pairwise (· < ·) := by
      split
      · exact pairwise_insertAscending hr j
      · exact hr
    obtain ⟨counts', ready', hrun, hget, hasc, hmem⟩ := @ih (counts.set j n) _ hn.2
      (fun i hi => by rw [hother i hi]; exact hc i (by simp [hi])) hready
    refine ⟨counts', ready', by simpa only [countDown?, hj] using hrun, fun i => ?_, hasc,
      fun i => ?_⟩
    · rw [hget, List.getElem?_set]
      by_cases hji : j = i
      · subst hji
        rw [hj]
        simp [hlt, hn.1]
      · simp [hji, Ne.symm hji]
    · rw [hmem]
      by_cases hi : i ∈ rows
      · have hne : i ≠ j := fun h => hn.1 (h ▸ hi)
        rw [hother i hi]
        split <;> simp [mem_insertAscending, hi, hne]
      · by_cases hij : i = j
        · subst hij
          split
          · next h0 => simp [mem_insertAscending, hj, h0]
          · next h0 => simp [hi, hj, h0]
        · split <;> simp [mem_insertAscending, hi, hij]

/-! ## Counters during a run -/

/-- The rows that row `i` waits for and that were not placed yet. -/
def unmet (t : Table) (placed : List Nat) (i : Nat) : List Nat := (t.row i).filter (· ∉ placed)

theorem mem_unmet {j : Nat} : j ∈ t.unmet placed i ↔ t.Edge i j ∧ j ∉ placed := by
  rw [unmet, List.mem_filter, decide_eq_true_eq]
  rfl

theorem unmet_eq_nil_iff : t.unmet placed i = [] ↔ ∀ j, t.Edge i j → j ∈ placed := by
  simp only [List.eq_nil_iff_forall_not_mem, mem_unmet, not_and, not_not]

theorem filter_not_mem_cons (k : Nat) (placed l : List Nat) :
    l.filter (· ∉ k :: placed) = (l.filter (· ∉ placed)).filter (· != k) := by
  rw [List.filter_filter]
  refine List.filter_congr fun d _ => ?_
  simp [bne, Bool.decide_and, beq_eq_decide]

theorem length_unmet_of_edge (ha : t.Ascending) (he : t.Edge i k) (hk : k ∉ placed) :
    (t.unmet placed i).length = (t.unmet (k :: placed) i).length + 1 := by
  have hn : (t.unmet placed i).Nodup := (ha.nodup i).filter _
  have hm : k ∈ t.unmet placed i := mem_unmet.2 ⟨he, hk⟩
  have hcons : t.unmet (k :: placed) i = (t.unmet placed i).erase k := by
    rw [unmet, filter_not_mem_cons, ← unmet, hn.erase_eq_filter]
  rw [hcons, List.length_erase_of_mem hm]
  have := List.length_pos_of_mem hm
  omega

theorem unmet_cons_of_not_edge (he : ¬ t.Edge i k) :
    t.unmet (k :: placed) i = t.unmet placed i := by
  rw [unmet, filter_not_mem_cons, ← unmet, List.filter_eq_self]
  intro d hd
  rw [bne_iff_ne]
  rintro rfl
  exact he (mem_unmet.1 hd).1

/-- The rows that wait, after some rows were placed. -/
def remaining (t : Table) (placed : List Nat) : Waiting :=
  ((List.range t.length).filter (· ∉ placed)).map fun i => (i, t.unmet placed i)

/-- The rows that may be placed next, after some rows were placed. -/
def free (t : Table) (placed : List Nat) : List Nat :=
  ((List.range t.length).filter (· ∉ placed)).filter fun i => (t.unmet placed i).isEmpty

theorem remaining_nil (t : Table) : t.remaining [] = t.waiting := by
  refine List.ext_getElem (by simp [remaining, waiting]) fun i h1 h2 => ?_
  have hi : i < t.length := by simpa [waiting] using h2
  simp [remaining, waiting, unmet, row, hi]

theorem keys_remaining (t : Table) (placed : List Nat) :
    (t.remaining placed).keys = (List.range t.length).filter (· ∉ placed) := by
  rw [Waiting.keys, remaining, List.map_map]
  exact List.map_id' _

theorem place_remaining (t : Table) (k : Nat) (placed : List Nat) :
    place k (t.remaining placed) = t.remaining (k :: placed) := by
  simp only [place, remaining, List.filter_map, List.map_map, filter_not_mem_cons, unmet]
  rfl

theorem find?_remaining (t : Table) (placed : List Nat) :
    (t.remaining placed).find? (·.2.isEmpty) = (t.free placed).head?.map fun i => (i, []) := by
  rw [remaining, List.find?_map, free, List.head?_filter]
  change Option.map (fun i => (i, t.unmet placed i))
    (List.find? (fun i => (t.unmet placed i).isEmpty) _) = _
  cases h : List.find? (fun i => (t.unmet placed i).isEmpty)
      ((List.range t.length).filter (· ∉ placed)) with
  | none => rfl
  | some i =>
    have he : t.unmet placed i = [] := by simpa using List.find?_some h
    rw [Option.map_some, Option.map_some, he]

theorem mem_free :
    i ∈ t.free placed ↔ i < t.length ∧ i ∉ placed ∧ t.unmet placed i = [] := by
  simp only [free, List.mem_filter, List.mem_range, decide_eq_true_eq, List.isEmpty_iff, and_assoc]

theorem pairwise_free (t : Table) (placed : List Nat) : (t.free placed).Pairwise (· < ·) :=
  (List.pairwise_lt_range.filter _).filter _

/-- What the counters and the ready rows are, after some rows were placed. -/
structure Counts (t : Table) (placed counts ready : List Nat) : Prop where
  count : ∀ i, counts[i]? = if i < t.length then some (t.unmet placed i).length else none
  ready : ready = t.free placed
  placed : ∀ i ∈ placed, t.unmet placed i = []

/-- Every row has a counter, and those of the stuck rows are not zero. -/
def Tells (t : Table) (counts stuck : List Nat) : Prop :=
  ∀ i, i < t.length → ∃ n, counts[i]? = some n ∧ (0 < n ↔ i ∈ stuck)

/-- Where no row is ready, the rows that wait are stuck. -/
theorem Counts.tells (h : Counts t placed counts []) :
    t.Tells counts (t.remaining placed).keys := by
  intro i hi
  refine ⟨(t.unmet placed i).length, by rw [h.count, if_pos hi], ?_⟩
  rw [keys_remaining, List.mem_filter, List.mem_range, decide_eq_true_eq, List.length_pos_iff]
  refine ⟨fun hne => ⟨hi, fun hp => hne (h.placed i hp)⟩, fun hp he => ?_⟩
  have hfree := mem_free.2 ⟨hi, hp.2, he⟩
  rw [← h.ready] at hfree
  cases hfree

/-- Placing a ready row counts down exactly the rows that wait for it. -/
theorem Counts.step (ha : t.Ascending) (h : Counts t placed counts (k :: ready)) :
    ∃ counts' ready', countDown? (waitersFrom 0 t k) counts ready = some (counts', ready') ∧
      Counts t (k :: placed) counts' ready' := by
  have hsorted : (k :: ready).Pairwise (· < ·) := h.ready ▸ pairwise_free t placed
  obtain ⟨hk, hkp, hkrow⟩ := mem_free.1 (h.ready ▸ List.mem_cons_self : k ∈ t.free placed)
  have hself : ¬ t.Edge k k := fun he => hkp (unmet_eq_nil_iff.1 hkrow k he)
  have hwait : ∀ i ∈ waitersFrom 0 t k, ∃ n, counts[i]? = some (n + 1) := by
    intro i hi
    have he := mem_waitersFrom_zero.1 hi
    exact ⟨_, by rw [h.count, if_pos he.lt_length, length_unmet_of_edge ha he hkp]⟩
  obtain ⟨counts', ready', hrun, hget, hasc, hmem⟩ :=
    countDown?_ok (nodup_waitersFrom 0 t k) hwait (List.pairwise_cons.1 hsorted).2
  -- rows that wait for `k` are not placed, and wait for one row less from now on
  have hnot : ∀ i ∈ placed, ¬ t.Edge i k := fun i hi he =>
    hkp (unmet_eq_nil_iff.1 (h.placed i hi) k he)
  refine ⟨counts', ready', hrun, fun i => ?_, ?_, ?_⟩
  · rw [hget, h.count]
    by_cases hi : i < t.length
    · by_cases he : t.Edge i k
      · simp [hi, mem_waitersFrom_zero, he, length_unmet_of_edge ha he hkp]
      · simp [hi, mem_waitersFrom_zero, he, unmet_cons_of_not_edge he]
    · simp [hi]
  · refine List.Pairwise.eq_of_mem_iff hasc (pairwise_free t _) fun i => ?_
    have hready : i ∈ ready ↔ i ∈ t.free placed ∧ i ≠ k := by
      rw [← h.ready, List.mem_cons]
      have hne : i ∈ ready → i ≠ k := fun hi => ((List.pairwise_cons.1 hsorted).1 i hi).ne'
      tauto
    rw [hmem, hready, mem_free, mem_free, mem_waitersFrom_zero, h.count, List.mem_cons, not_or]
    by_cases he : t.Edge i k
    · have hne : i ≠ k := fun hik => hself (hik ▸ he)
      have hip : i ∉ placed := fun hi => hnot i hi he
      have hlen := length_unmet_of_edge ha he hkp
      rw [← List.length_eq_zero_iff, ← List.length_eq_zero_iff, hlen]
      simp [he, hne, hip, he.lt_length]
    · simp only [he, false_and, or_false, unmet_cons_of_not_edge he]
      tauto
  · intro i hi
    rcases List.mem_cons.1 hi with rfl | hi
    · rw [unmet_cons_of_not_edge hself, hkrow]
    · rw [unmet_cons_of_not_edge (hnot i hi), h.placed i hi]

/-- A run with enough steps neither fails nor places another row than `sortWaiting` would. -/
theorem run?_ok {waiters : Table} (ha : t.Ascending)
    (hw : ∀ k, k < t.length → waiters[k]? = some (waitersFrom 0 t k)) (steps : Nat)
    (h : Counts t placed counts ready) (hs : (t.remaining placed).length ≤ steps) :
    ∃ counts', run? waiters steps counts ready =
        some ((sortWaiting steps (t.remaining placed)).1, counts') ∧
      t.Tells counts' (sortWaiting steps (t.remaining placed)).2.keys := by
  induction steps generalizing placed counts ready with
  | zero =>
    have hr : ready = [] := by
      rw [h.ready, free, ← keys_remaining, List.length_eq_zero_iff.1 (Nat.le_zero.1 hs)]
      rfl
    subst hr
    exact ⟨counts, rfl, h.tells⟩
  | succ steps ih =>
    rw [sortWaiting, find?_remaining, ← h.ready]
    cases ready with
    | nil => exact ⟨counts, rfl, h.tells⟩
    | cons k ready =>
      have hk : k ∈ t.free placed := h.ready ▸ List.mem_cons_self
      obtain ⟨counts₁, ready₁, hdown, h₁⟩ := h.step ha
      have hlen : (t.remaining (k :: placed)).length ≤ steps := by
        have hlt : (t.remaining (k :: placed)).length < (t.remaining placed).length := by
          have hnd : (t.remaining placed).keys.Nodup := by
            rw [keys_remaining]
            exact List.nodup_range.filter _
          have hmem : k ∈ (t.remaining placed).keys := by
            rw [keys_remaining]
            exact (List.mem_filter.1 hk).1
          have := (perm_keys_place hnd hmem).length_eq
          simp only [Waiting.keys, List.length_cons, List.length_map, place_remaining] at this
          omega
        omega
      obtain ⟨counts', hrun, htells⟩ := ih h₁ hlen
      refine ⟨counts', ?_, ?_⟩
      · simp only [run?, hw k (mem_free.1 hk).1, hdown, hrun, List.head?_cons, Option.map_some,
          place_remaining]
      · simpa only [List.head?_cons, Option.map_some, place_remaining] using htells

/-- Sorting with counters never fails, and ends with the order of `sort` and with counters that tell
the stuck rows. -/
theorem sort?_ok (hc : t.Closed) (ha : t.Ascending) :
    ∃ counts, t.sort? = some (t.sort.1, counts) ∧ t.Tells counts t.sort.2 := by
  have hcount (i : Nat) (hi : i < t.length) :
      (t.map List.length)[i]? = some (t.unmet [] i).length := by
    simp [unmet, row, hi]
  have hrows : ∀ r ∈ t, (∀ d ∈ r, d < (t.map fun _ => ([] : List Nat)).length) ∧ r.Nodup := by
    intro r hr
    obtain ⟨i, hi⟩ := List.mem_iff_getElem?.1 hr
    rw [getElem?_row (List.getElem?_eq_some_iff.1 hi).1, Option.some.injEq] at hi
    subst hi
    exact ⟨fun d hd => by simpa using hc i d hd, ha.nodup i⟩
  obtain ⟨waiters, hnote, -, hget⟩ := noteAll?_ok 0 t _ hrows
  have hw : ∀ k, k < t.length → waiters[k]? = some (waitersFrom 0 t k) := by
    intro k hk
    rw [hget]
    simp [hk]
  have hready : ready? (t.map List.length) (List.range t.length) = some (t.free []) := by
    have hall : (List.range t.length).filter (· ∉ []) = List.range t.length :=
      List.filter_eq_self.2 fun i _ => decide_eq_true List.not_mem_nil
    rw [ready?_ok fun i hi => hcount i (List.mem_range.1 hi), free, hall]
    refine congrArg some (List.filter_congr fun i _ => ?_)
    rw [Bool.eq_iff_iff, decide_eq_true_eq, List.length_eq_zero_iff, List.isEmpty_iff]
  have hcounts : Counts t [] (t.map List.length) (t.free []) :=
    ⟨fun i => by
      split
      · next hi => exact hcount i hi
      · next hi => simp [hi], rfl, by simp⟩
  obtain ⟨counts, hrun, htells⟩ := run?_ok ha hw t.length hcounts (by simp [remaining])
  rw [remaining_nil] at hrun htells
  exact ⟨counts, by rw [sort?, hnote, hready]; exact hrun, htells⟩

end Lineage.Order.Table
