import Mathlib.Data.List.Basic
import Lineage.Proofs.Text.Trim
import Lineage.Text.Search
/-!
# Replacing what joins a text

A word that joins pieces is found where it was put, unless it stands elsewhere too. Then replacing
it by another word joins the pieces by that word (`replaceAll_intercalate`). No blanks get to the
ends of a text where a word without such is put in (`trim_replaceAll`).
-/
namespace Lineage.Text

variable {w v : Text}

/-- Where `w` joins the pieces, it stands at no place that begins inside a piece. -/
def JoinsOnly (w : Text) : (pieces : List Text) → Prop
  | [] => True
  | p :: ps => (∀ i < p.length, ¬ w <+: (w.intercalate (p :: ps)).drop i) ∧ JoinsOnly w ps

instance JoinsOnly.decidable (w : Text) : (pieces : List Text) → Decidable (JoinsOnly w pieces)
  | [] => isTrue trivial
  | p :: ps =>
    have := JoinsOnly.decidable w ps
    inferInstanceAs (Decidable
      ((∀ i < p.length, ¬ w <+: (w.intercalate (p :: ps)).drop i) ∧ JoinsOnly w ps))

/-- What holds no place of the word is passed over. -/
theorem replaceFrom_append (v : Text) {p r : Text}
    (h : ∀ i < p.length, ¬ w <+: (p ++ r).drop i) :
    replaceFrom w v 0 (p ++ r) = p ++ replaceFrom w v 0 r := by
  induction p with
  | nil => rfl
  | cons c p ih =>
    have hnot : ¬ w.isPrefixOf (c :: (p ++ r)) = true := by
      rw [List.isPrefixOf_iff_prefix]
      exact h 0 (Nat.succ_pos _)
    rw [List.cons_append, replaceFrom, if_neg hnot, ih, List.cons_append]
    intro i hi
    exact h (i + 1) (Nat.succ_lt_succ hi)

theorem replaceFrom_skip (w v s r : Text) :
    replaceFrom w v s.length (s ++ r) = replaceFrom w v 0 r := by
  induction s with
  | nil => rfl
  | cons c s ih => rw [List.length_cons, List.cons_append, replaceFrom, ih]

theorem replaceFrom_word (v r : Text) (hw : w ≠ []) :
    replaceFrom w v 0 (w ++ r) = v ++ replaceFrom w v 0 r := by
  obtain ⟨c, s, rfl⟩ := List.exists_cons_of_ne_nil hw
  have hword : (c :: s).isPrefixOf (c :: (s ++ r)) = true := by
    rw [List.isPrefixOf_iff_prefix]
    exact List.prefix_append (c :: s) r
  rw [List.cons_append, replaceFrom, if_pos hword, List.length_cons, Nat.add_sub_cancel,
    replaceFrom_skip]

/-- Replacing the word that joins the pieces joins them by the other. -/
theorem replaceAll_intercalate {pieces : List Text} (hw : w ≠ []) (h : JoinsOnly w pieces) :
    replaceAll (w.intercalate pieces) w v = v.intercalate pieces := by
  have hne : ¬ w.isEmpty = true := by simpa using hw
  rw [replaceAll, if_neg hne]
  induction pieces with
  | nil => rfl
  | cons p ps ih =>
    obtain ⟨hp, hps⟩ := h
    cases ps with
    | nil =>
      have hp' : ∀ i < p.length, ¬ w <+: (p ++ []).drop i := by simpa using hp
      simpa [replaceFrom] using replaceFrom_append v hp'
    | cons q ps =>
      rw [List.intercalate_cons_cons, List.append_assoc] at hp
      rw [List.intercalate_cons_cons, List.append_assoc, replaceFrom_append v hp,
        replaceFrom_word v _ hw, ih hps, List.intercalate_cons_cons, List.append_assoc]

/-! ## Ends -/

theorem replaceFrom_ne_nil {t : Text} (hv : v ≠ []) (ht : t ≠ []) : replaceFrom w v 0 t ≠ [] := by
  obtain ⟨c, r, rfl⟩ := List.exists_cons_of_ne_nil ht
  rw [replaceFrom]
  split
  · exact List.append_ne_nil_of_left_ne_nil hv _
  · exact List.cons_ne_nil _ _

theorem head?_replaceFrom {t : Text} {c : Char} (hv : v ≠ [])
    (h : (replaceFrom w v 0 t).head? = some c) : t.head? = some c ∨ v.head? = some c := by
  cases t with
  | nil => cases h
  | cons d r =>
    rw [replaceFrom] at h
    split at h
    · rw [List.head?_append_of_ne_nil v hv] at h
      exact .inr h
    · exact .inl h

theorem getLast?_replaceFrom {t : Text} {c : Char} {skip : Nat} (hv : v ≠ [])
    (h : (replaceFrom w v skip t).getLast? = some c) :
    t.getLast? = some c ∨ v.getLast? = some c := by
  have hcons {d : Char} {r : Text} (h : r.getLast? = some c) : (d :: r).getLast? = some c := by
    rw [List.getLast?_cons, h]
    rfl
  fun_induction replaceFrom w v skip t with
  | case1 => cases h
  | case2 skip d r ih => exact (ih h).imp_left hcons
  | case3 d r _ ih =>
    by_cases hr : replaceFrom w v (w.length - 1) r = []
    · rw [hr, List.append_nil] at h
      exact .inr h
    · rw [getLast?_append_right hr] at h
      exact (ih h).imp_left hcons
  | case4 d r _ ih =>
    by_cases hr : r = []
    · subst hr
      exact .inl h
    · have hne := replaceFrom_ne_nil (w := w) hv hr
      rw [← List.singleton_append, getLast?_append_right hne] at h
      exact (ih h).imp_left hcons

/-- A trimmed text stays trimmed where a trimmed word is put in. -/
theorem trim_replaceAll {t : Text} (ht : t.trim = t) (hne : v ≠ []) (hv : v.trim = v) :
    (replaceAll t w v).trim = replaceAll t w v := by
  obtain ⟨hthead, htlast⟩ := trim_eq_self_iff.1 ht
  obtain ⟨hvhead, hvlast⟩ := trim_eq_self_iff.1 hv
  unfold replaceAll
  split
  · refine trim_eq_self_iff.2 ⟨fun c hc => ?_, fun c hc => ?_⟩
    · rw [List.head?_append_of_ne_nil v hne] at hc
      exact hvhead c hc
    · -- the text ends in the word that was put in
      refine hvlast c ?_
      rcases List.eq_nil_or_concat t with rfl | ⟨t, d, rfl⟩
      · rwa [List.flatMap_nil, List.append_nil] at hc
      · rw [List.concat_eq_append, List.flatMap_append, List.flatMap_singleton, ← List.append_assoc,
          ← List.singleton_append, ← List.append_assoc, getLast?_append_right hne] at hc
        exact hc
  · exact trim_eq_self_iff.2 ⟨fun c hc => (head?_replaceFrom hne hc).elim (hthead c) (hvhead c),
      fun c hc => (getLast?_replaceFrom hne hc).elim (htlast c) (hvlast c)⟩

end Lineage.Text
