import Lineage.Document.Stored
/-!
# Listed properties

Listing groups properties by kind: it is a permutation (`listed_perm`) that leaves alone what is
listed already (`listed_of_map`).
-/
namespace Lineage.Section

variable {s s' : Section} {p : Property} {ps : List Property}

/-- Properties grouped by kind. -/
def grouped (ps : List Property) : List Property :=
  ps.filter (·.kind == .bool) ++ (ps.filter (·.kind == .number) ++ ps.filter (·.kind == .text))

theorem listed_eq (s : Section) : s.listed = grouped s.properties := by
  simp [listed, Kind.all, ofKind, grouped]

/-- Grouping by kinds loses nothing and adds nothing. -/
theorem grouped_perm (ps : List Property) : (grouped ps).Perm ps := by
  induction ps with
  | nil => exact .nil
  | cons p ps ih =>
    refine List.Perm.trans ?_ (ih.cons p)
    unfold grouped
    cases hk : p.kind with
    | bool => simp [hk]
    | number =>
      simp only [List.filter_cons, hk, beq_self_eq_true, if_true, List.cons_append]
      exact List.perm_middle
    | text =>
      simp only [List.filter_cons, hk, beq_self_eq_true, if_true]
      rw [← List.append_assoc, ← List.append_assoc]
      exact List.perm_middle

theorem grouped_map {f : Property → Property} (hf : ∀ p ∈ ps, (f p).kind = p.kind) :
    grouped (ps.map f) = (grouped ps).map f := by
  have h : ∀ k : Kind, (ps.map f).filter (·.kind == k) = (ps.filter (·.kind == k)).map f := by
    intro k
    rw [List.filter_map]
    exact congrArg _ (List.filter_congr fun p hp => by simp [hf p hp])
  simp only [grouped, h, List.map_append]

theorem filter_grouped (k : Kind) (ps : List Property) :
    (grouped ps).filter (·.kind == k) = ps.filter (·.kind == k) := by
  have h : ∀ j : Kind, (ps.filter (·.kind == j)).filter (·.kind == k) =
      if j = k then ps.filter (·.kind == k) else [] := by
    intro j
    rw [List.filter_filter]
    split
    · next hj => simp [hj]
    · next hj =>
      rw [List.filter_eq_nil_iff]
      intro p _ hp
      simp only [Bool.and_eq_true, beq_iff_eq] at hp
      exact hj (hp.2.symm.trans hp.1)
  simp only [grouped, List.filter_append, h]
  cases k <;> simp

theorem grouped_grouped (ps : List Property) : grouped (grouped ps) = grouped ps := by
  rw [grouped, filter_grouped, filter_grouped, filter_grouped, grouped]

theorem grouped_filter (f : Property → Bool) (ps : List Property) :
    grouped (ps.filter f) = (grouped ps).filter f := by
  simp only [grouped, List.filter_append, List.filter_filter, Bool.and_comm]

theorem listed_perm (s : Section) : s.listed.Perm s.properties := by
  rw [listed_eq]
  exact grouped_perm s.properties

theorem mem_listed : p ∈ s.listed ↔ p ∈ s.properties := (listed_perm s).mem_iff

theorem listed_of_map {f : Property → Property} (hf : ∀ p ∈ s.properties, (f p).kind = p.kind)
    (h : s'.properties = s.listed.map f) : s'.listed = s.listed.map f := by
  rw [listed_eq, h, grouped_map fun p hp => hf p (mem_listed.1 hp), listed_eq, grouped_grouped]

theorem written_full (s : Section) : s.written .full = s.listed := by
  rw [written, List.filter_eq_self]
  exact fun _ _ => rfl

theorem written_diff (s : Section) :
    s.written .diff = grouped (s.properties.filter (·.isDifference)) := by
  rw [grouped_filter, ← listed_eq]
  rfl

theorem mem_written_diff : p ∈ s.written .diff ↔ p ∈ s.properties ∧ p.isDifference = true := by
  simp [written, mem_listed]

end Lineage.Section
