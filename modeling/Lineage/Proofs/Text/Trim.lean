import Mathlib.Data.List.TakeWhile
import Lineage.Text.Lines
/-!
# Trimmed texts

`trim` takes the blank ends off and nothing else: it is the text between blank ends that has no
blank end itself (`trim_eq_of_ends`, `exists_trim`). A text is trimmed if `trim` leaves it alone.
-/
namespace Lineage.Text

/-- The text holds blanks only. -/
def AllBlank (t : Text) : Prop := ∀ c ∈ t, isBlank c = true

theorem AllBlank.not_mem {t : Text} {c : Char} (h : AllBlank t) (hc : isBlank c = false) :
    c ∉ t := by
  intro hm
  rw [h c hm] at hc
  cases hc

theorem head?_dropWhile {p : Char → Bool} {t : Text} {c : Char}
    (h : (t.dropWhile p).head? = some c) : p c = false := by
  simpa [h] using List.head?_dropWhile_not p t

theorem dropWhile_of_head? {p : Char → Bool} {t : Text} (h : ∀ c, t.head? = some c → p c = false) :
    t.dropWhile p = t := by
  cases t with
  | nil => rfl
  | cons c r => simp [h c rfl]

/-! ## The end of a text -/

theorem exists_dropEnd (p : Char → Bool) (t : Text) :
    ∃ b, (∀ c ∈ b, p c = true) ∧ t = dropEnd p t ++ b := by
  refine ⟨(t.reverse.takeWhile p).reverse, fun c hc => ?_, ?_⟩
  · exact List.mem_takeWhile_imp (List.mem_reverse.1 hc)
  · rw [dropEnd, ← List.reverse_append, List.takeWhile_append_dropWhile, List.reverse_reverse]

theorem trimEnd_isPrefix (t : Text) : t.trimEnd <+: t := by
  obtain ⟨b, -, he⟩ := exists_dropEnd isBlank t
  exact ⟨b, he.symm⟩

theorem getLast?_dropEnd {p : Char → Bool} {t : Text} {c : Char}
    (h : (dropEnd p t).getLast? = some c) : p c = false := by
  rw [dropEnd, List.getLast?_reverse] at h
  exact head?_dropWhile h

theorem dropEnd_of_getLast? {p : Char → Bool} {t : Text}
    (h : ∀ c, t.getLast? = some c → p c = false) : dropEnd p t = t := by
  rw [dropEnd, dropWhile_of_head?, List.reverse_reverse]
  intro c hc
  rw [List.head?_reverse] at hc
  exact h c hc

theorem dropEnd_append {p : Char → Bool} {b : Text} (hb : ∀ c ∈ b, p c = true) (t : Text) :
    dropEnd p (t ++ b) = dropEnd p t := by
  rw [dropEnd, List.reverse_append, List.dropWhile_append_of_pos]
  · rfl
  · simpa using hb

theorem getLast?_append_right {s t : Text} (h : t ≠ []) : (s ++ t).getLast? = t.getLast? := by
  rw [List.getLast?_append, List.getLast?_eq_some_getLast h, Option.some_or]

/-! ## Both ends -/

theorem trim_eq_of_ends {a t b : Text} (ha : AllBlank a) (hb : AllBlank b)
    (h1 : ∀ c, t.head? = some c → isBlank c = false)
    (h2 : ∀ c, t.getLast? = some c → isBlank c = false) : (a ++ t ++ b).trim = t := by
  rw [trim, trimEnd, List.append_assoc, List.dropWhile_append_of_pos ha]
  cases t with
  | nil =>
    rw [List.nil_append, List.dropWhile_eq_nil_iff.2 hb]
    rfl
  | cons c r =>
    rw [List.cons_append, List.dropWhile_cons_of_neg (by simp [h1 c rfl]), ← List.cons_append,
      dropEnd_append hb, dropEnd_of_getLast? h2]

theorem exists_trim (t : Text) : ∃ a b, AllBlank a ∧ AllBlank b ∧ t = a ++ t.trim ++ b := by
  obtain ⟨b, hb, he⟩ := exists_dropEnd isBlank (t.dropWhile isBlank)
  refine ⟨t.takeWhile isBlank, b, fun c hc => List.mem_takeWhile_imp hc, hb, ?_⟩
  rw [List.append_assoc, trim, trimEnd, ← he, List.takeWhile_append_dropWhile]

theorem head?_trim {t : Text} {c : Char} (h : t.trim.head? = some c) : isBlank c = false := by
  obtain ⟨b, -, he⟩ := exists_dropEnd isBlank (t.dropWhile isBlank)
  refine head?_dropWhile (t := t) ?_
  rw [he, List.head?_append, show (dropEnd isBlank (t.dropWhile isBlank)).head? = some c from h]
  rfl

theorem getLast?_trim {t : Text} {c : Char} (h : t.trim.getLast? = some c) : isBlank c = false :=
  getLast?_dropEnd h

theorem trim_eq_self_iff {t : Text} : t.trim = t ↔
    (∀ c, t.head? = some c → isBlank c = false) ∧ ∀ c, t.getLast? = some c → isBlank c = false := by
  constructor
  · intro h
    exact ⟨fun c hc => head?_trim (h.symm ▸ hc), fun c hc => getLast?_trim (h.symm ▸ hc)⟩
  · rintro ⟨h1, h2⟩
    simpa using trim_eq_of_ends (a := []) (b := []) (by simp [AllBlank]) (by simp [AllBlank]) h1 h2

@[simp] theorem trim_trim (t : Text) : t.trim.trim = t.trim :=
  trim_eq_self_iff.2 ⟨fun _ => head?_trim, fun _ => getLast?_trim⟩

theorem trim_append_blank {a t b : Text} (ha : AllBlank a) (hb : AllBlank b) (ht : t.trim = t) :
    (a ++ t ++ b).trim = t :=
  trim_eq_of_ends ha hb (trim_eq_self_iff.1 ht).1 (trim_eq_self_iff.1 ht).2

/-- The first character of a trimmed text is the first one that is not blank. -/
theorem head?_trim_append {a r : Text} {c : Char} (ha : AllBlank a) (hc : isBlank c = false) :
    (a ++ c :: r).trim.head? = some c := by
  obtain ⟨b, hb, he⟩ := exists_dropEnd isBlank (c :: r)
  rw [trim, trimEnd, List.dropWhile_append_of_pos ha, List.dropWhile_cons_of_neg (by simp [hc])]
  cases hd : dropEnd isBlank (c :: r) with
  | nil =>
    rw [hd, List.nil_append] at he
    have := hb c (by rw [← he]; simp)
    simp [hc] at this
  | cons d s =>
    rw [hd] at he
    simp only [List.cons_append, List.cons.injEq] at he
    simp [he.1]

theorem trim_sublist (t : Text) : t.trim.Sublist t :=
  (trimEnd_isPrefix _).sublist.trans (List.dropWhile_sublist isBlank)

theorem mem_of_mem_trim {t : Text} {c : Char} (h : c ∈ t.trim) : c ∈ t :=
  (trim_sublist t).subset h

end Lineage.Text
