import Mathlib.Data.List.Forall2
import Lineage.Section.Basic
/-!
# Lists

Lists whose elements are related one by one, pairs that stand in a list in their order, and lists
whose elements have keys.
-/
namespace Lineage

variable {α β γ : Type} {R S : α → β → Prop} {l : List α} {m n : List β}

theorem forall₂_filterMap {f : α → Option β} (h : ∀ a ∈ l, ∃ b, f a = some b ∧ R a b) :
    List.Forall₂ R l (l.filterMap f) := by
  induction l with
  | nil => exact .nil
  | cons a l ih =>
    obtain ⟨b, hb, hr⟩ := h a (List.mem_cons_self ..)
    rw [List.filterMap_cons, hb]
    exact .cons hr (ih fun x hx => h x (List.mem_cons_of_mem _ hx))

theorem map_eq_of_forall₂ {f : α → γ} {g : β → γ} (h : List.Forall₂ (fun a b => g b = f a) l m) :
    m.map g = l.map f := by
  induction h with
  | nil => rfl
  | cons hab _ ih => rw [List.map_cons, List.map_cons, hab, ih]

theorem forall₂_of_map_eq {f : α → γ} {g : β → γ} (h : l.map f = m.map g) :
    List.Forall₂ (fun a b => b ∈ m ∧ f a = g b) l m := by
  have h' : List.Forall₂ (fun a b => f a = g b) l m := by
    rwa [← List.forall₂_eq_eq_eq, List.forall₂_map_left_iff, List.forall₂_map_right_iff] at h
  clear h
  induction h' with
  | nil => exact .nil
  | cons hab _ ih => exact .cons ⟨by simp, hab⟩ (ih.imp fun _ _ h => ⟨by simp [h.1], h.2⟩)

theorem exists_right_of_forall₂ (h : List.Forall₂ R l m) {a : α} (ha : a ∈ l) :
    ∃ b ∈ m, R a b := by
  induction h with
  | nil => cases ha
  | cons hab _ ih =>
    rcases List.mem_cons.1 ha with rfl | ha
    · exact ⟨_, by simp, hab⟩
    · obtain ⟨b, hb, hr⟩ := ih ha
      exact ⟨b, by simp [hb], hr⟩

theorem forall₂_of_forall₂ {T : β → γ → Prop} {n : List γ} {S : α → γ → Prop}
    (hc : ∀ a b c, R a b → S a c → T b c) (h : List.Forall₂ R l m) (h' : List.Forall₂ S l n) :
    List.Forall₂ T m n := by
  induction h generalizing n with
  | nil =>
    obtain rfl := List.forall₂_nil_left_iff.1 h'
    exact .nil
  | cons hab _ ih =>
    obtain ⟨c, n, hac, hn, rfl⟩ := List.forall₂_cons_left_iff.1 h'
    exact .cons (hc _ _ _ hab hac) (ih hn)

theorem eq_of_forall₂ (hu : ∀ a b c, R a b → S a c → b = c) (h : List.Forall₂ R l m)
    (h' : List.Forall₂ S l n) : m = n := by
  rw [← List.forall₂_eq_eq_eq]
  exact forall₂_of_forall₂ hu h h'

/-- What depends on the images of elements only is the same along lists of the same images. -/
theorem map_congr_of_map_eq {l l' : List α} {f : α → β} {g : α → γ} (h : l.map f = l'.map f)
    (hg : ∀ a ∈ l, ∀ b ∈ l', f a = f b → g a = g b) : l.map g = l'.map g := by
  induction l generalizing l' with
  | nil =>
    obtain rfl : l' = [] := by simpa using h.symm
    rfl
  | cons a l ih =>
    cases l' with
    | nil => cases h
    | cons b l' =>
      rw [List.map_cons, List.map_cons, List.cons.injEq] at h
      rw [List.map_cons, List.map_cons, hg a (by simp) b (by simp) h.1,
        ih h.2 fun x hx y hy => hg x (by simp [hx]) y (by simp [hy])]

/-- The last element with a given image. -/
theorem exists_last {f : α → γ} {c : γ} (h : c ∈ l.map f) :
    ∃ before a after, l = before ++ a :: after ∧ f a = c ∧ c ∉ after.map f := by
  induction l with
  | nil => cases h
  | cons a l ih =>
    by_cases hl : c ∈ l.map f
    · obtain ⟨before, x, after, rfl, hx, hn⟩ := ih hl
      exact ⟨a :: before, x, after, rfl, hx, hn⟩
    · refine ⟨[], a, l, rfl, ?_, hl⟩
      simpa [hl, eq_comm] using h

/-! ## Pairs in order -/

/-- Two elements stand in a list in their order within one part of it or across both. -/
theorem pair_sublist_append {a b : α} {l m : List α} : [a, b].Sublist (l ++ m) ↔
    [a, b].Sublist l ∨ (a ∈ l ∧ b ∈ m) ∨ [a, b].Sublist m := by
  rw [List.sublist_append_iff]
  constructor
  · rintro ⟨l₁, l₂, he, h1, h2⟩
    match l₁, he with
    | [], he => exact .inr (.inr (by rwa [he]))
    | [c], he =>
      simp only [List.singleton_append, List.cons.injEq] at he
      obtain ⟨rfl, rfl⟩ := he
      exact .inr (.inl ⟨List.singleton_sublist.1 h1, List.singleton_sublist.1 h2⟩)
    | c :: d :: l₁, he =>
      simp only [List.cons_append, List.cons.injEq, List.nil_eq, List.append_eq_nil_iff] at he
      obtain ⟨rfl, rfl, rfl, -⟩ := he
      exact .inl h1
  · rintro (h | ⟨h1, h2⟩ | h)
    · exact ⟨[a, b], [], rfl, h, List.nil_sublist m⟩
    · exact ⟨[a], [b], rfl, List.singleton_sublist.2 h1, List.singleton_sublist.2 h2⟩
    · exact ⟨[], [a, b], rfl, List.nil_sublist l, h⟩

theorem left_mem_of_pair {a b : α} {l : List α} (h : [a, b].Sublist l) : a ∈ l :=
  h.subset (List.mem_cons_self ..)

theorem right_mem_of_pair {a b : α} {l : List α} (h : [a, b].Sublist l) : b ∈ l :=
  h.subset (List.mem_cons_of_mem _ (List.mem_singleton_self b))

theorem pair_sublist_filter {a b : α} {l : List α} {p : α → Bool} :
    [a, b].Sublist (l.filter p) ↔ p a = true ∧ p b = true ∧ [a, b].Sublist l := by
  constructor
  · intro h
    have ha := (List.mem_filter.1 (left_mem_of_pair h)).2
    have hb := (List.mem_filter.1 (right_mem_of_pair h)).2
    exact ⟨ha, hb, h.trans List.filter_sublist⟩
  · rintro ⟨ha, hb, h⟩
    have := h.filter p
    rwa [List.filter_cons_of_pos ha, List.filter_cons_of_pos hb, List.filter_nil] at this

/-- In a list of different elements, those in pairs with an element stand before it. -/
theorem pair_sublist_split {a b : α} {l m : List α} (hn : (l ++ b :: m).Nodup) :
    [a, b].Sublist (l ++ b :: m) ↔ a ∈ l := by
  rw [List.nodup_append, List.nodup_cons] at hn
  constructor
  · intro h
    rcases pair_sublist_append.1 h with h | ⟨h, -⟩ | h
    · exact absurd rfl (hn.2.2 b (right_mem_of_pair h) b (List.mem_cons_self ..))
    · exact h
    · rcases List.sublist_cons_iff.1 h with h | ⟨r, he, h⟩
      · exact absurd (right_mem_of_pair h) hn.2.1.1
      · simp only [List.cons.injEq] at he
        obtain ⟨rfl, rfl⟩ := he
        exact absurd (List.singleton_sublist.1 h) hn.2.1.1
  · exact fun h => pair_sublist_append.2 (.inr (.inl ⟨h, List.mem_cons_self ..⟩))

/-- Pairs stand in the same order in two lists that are put over others, if they do so in the lists
and in the others. -/
theorem pair_sublist_overlay [BEq α] [LawfulBEq α] {a b : α} {l l' m m' : List α}
    (hl : ∀ x, x ∈ l' ↔ x ∈ l) (hm : ∀ x, x ∈ m' ↔ x ∈ m)
    (hlow : a ∉ m → b ∉ m → ([a, b].Sublist l' ↔ [a, b].Sublist l))
    (htop : a ∈ m → b ∈ m → ([a, b].Sublist m' ↔ [a, b].Sublist m)) :
    [a, b].Sublist (l'.filter (· ∉ m') ++ m') ↔ [a, b].Sublist (l.filter (· ∉ m) ++ m) := by
  rw [pair_sublist_append, pair_sublist_append, pair_sublist_filter, pair_sublist_filter,
    List.mem_filter, List.mem_filter, hl]
  simp only [hm]
  by_cases hb : b ∈ m
  · by_cases ha : a ∈ m
    · simp [ha, hb, htop ha hb]
    · have h1 : ¬ [a, b].Sublist m := fun h => ha (left_mem_of_pair h)
      have h2 : ¬ [a, b].Sublist m' := fun h => ha ((hm a).1 (left_mem_of_pair h))
      simp [hb, h1, h2]
  · have h1 : ¬ [a, b].Sublist m := fun h => hb (right_mem_of_pair h)
    have h2 : ¬ [a, b].Sublist m' := fun h => hb ((hm b).1 (right_mem_of_pair h))
    by_cases ha : a ∈ m
    · simp [ha, hb, h1, h2]
    · simp [ha, hb, h1, h2, hlow ha hb]

/-! ## Options -/

theorem exists_of_rel_some {x : Option α} {b : β} (h : Option.Rel R x (some b)) :
    ∃ a, x = some a ∧ R a b := by
  cases h with
  | some hab => exact ⟨_, rfl, hab⟩

theorem exists_of_some_rel {a : α} {y : Option β} (h : Option.Rel R (some a) y) :
    ∃ b, y = some b ∧ R a b := by
  cases h with
  | some hab => exact ⟨_, rfl, hab⟩

theorem rel_map {γ' : Type} {T : γ → γ' → Prop} {f : α → γ} {g : β → γ'} {x : Option α}
    {y : Option β} (hf : ∀ a b, R a b → T (f a) (g b)) (h : Option.Rel R x y) :
    Option.Rel T (x.map f) (y.map g) := by
  cases h with
  | some hab => exact .some (hf _ _ hab)
  | none => exact .none

theorem rel_imp {x : Option α} {y : Option β} (hi : ∀ a b, R a b → S a b)
    (h : Option.Rel R x y) : Option.Rel S x y := by
  cases h with
  | some hab => exact .some (hi _ _ hab)
  | none => exact .none

theorem isSome_eq_of_rel {x : Option α} {y : Option β} (h : Option.Rel R x y) :
    x.isSome = y.isSome := by
  cases h <;> rfl

/-! ## Elements with keys -/

section Keyed

variable {keyOf : α → Text} {keyOf' : β → Text} {f : α → α} {f' : β → β} {key : Text} {a b : α}

/-- A change makes no other elements than the changed one. -/
theorem mem_modifyFirst (h : b ∈ modifyFirst keyOf f key l) :
    b ∈ l ∨ ∃ a ∈ l, keyOf a = key ∧ b = f a := by
  induction l with
  | nil => cases h
  | cons a l ih =>
    rw [modifyFirst] at h
    split at h
    · next ha =>
      rcases List.mem_cons.1 h with rfl | h
      · exact .inr ⟨a, List.mem_cons_self, by simpa using ha, rfl⟩
      · exact .inl (List.mem_cons_of_mem a h)
    · rcases List.mem_cons.1 h with rfl | h
      · exact .inl List.mem_cons_self
      · rcases ih h with h | ⟨c, hc, hkey, hb⟩
        · exact .inl (List.mem_cons_of_mem a h)
        · exact .inr ⟨c, List.mem_cons_of_mem a hc, hkey, hb⟩

/-- What a change leaves as it is under the key is read off the changed list as before. -/
theorem map_modifyFirst {g : α → γ} (hf : ∀ a, keyOf a = key → g (f a) = g a) (l : List α) :
    (modifyFirst keyOf f key l).map g = l.map g := by
  induction l with
  | nil => rfl
  | cons a l ih =>
    rw [modifyFirst]
    split
    · next ha => rw [List.map_cons, List.map_cons, hf a (by simpa using ha)]
    · rw [List.map_cons, List.map_cons, ih]

/-- A change can be made before or after the elements are mapped, if the keys stay. -/
theorem modifyFirst_map {g : α → β} (hkey : ∀ a, keyOf' (g a) = keyOf a)
    (hf : ∀ a, f' (g a) = g (f a)) (l : List α) :
    modifyFirst keyOf' f' key (l.map g) = (modifyFirst keyOf f key l).map g := by
  induction l with
  | nil => rfl
  | cons a l ih =>
    rw [List.map_cons, modifyFirst, modifyFirst, hkey]
    split
    · rw [List.map_cons, hf]
    · rw [List.map_cons, ih]

theorem modifyFirst_eq_self (h : l.find? (keyOf · == key) = some a) (hf : f a = a) :
    modifyFirst keyOf f key l = l := by
  induction l with
  | nil => rfl
  | cons c l ih =>
    rw [List.find?_cons] at h
    rw [modifyFirst]
    split at h
    · next hc =>
      cases h
      rw [if_pos hc, hf]
    · next hc => rw [if_neg (by simp [hc]), ih h]

theorem keepLast_sublist (keyOf : α → Text) (l : List α) : (keepLast keyOf l).Sublist l := by
  induction l with
  | nil => exact .refl _
  | cons a l ih =>
    rw [keepLast]
    split
    · exact ih.cons a
    · exact ih.cons_cons a

/-- What is kept does not depend on what the elements are mapped to, if the keys stay. -/
theorem keepLast_map {g : α → β} (hkey : ∀ a, keyOf' (g a) = keyOf a) (l : List α) :
    keepLast keyOf' (l.map g) = (keepLast keyOf l).map g := by
  induction l with
  | nil => rfl
  | cons a l ih =>
    simp only [List.map_cons, keepLast, List.any_map, Function.comp_def, hkey]
    split
    · exact ih
    · rw [List.map_cons, ih]

end Keyed

end Lineage
