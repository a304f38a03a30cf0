import Lineage.Proofs.Text.Trim
import Lineage.Reference
/-!
# Tokens of a raw value

`tokens` lists the tokens of a raw value. Resolving a value looks at the owner and at the other
sections through the literals of its tokens only (`resolveFrom_congr`).
-/
namespace Lineage

namespace Reference

/-- The tokens of a text in order, each without its `$`. -/
def tokens (rest : Text) : List Text :=
  match _h : rest.splitAt? '$' with
  | none => []
  | some (_, behind) => (splitToken behind).1 :: tokens (splitToken behind).2
termination_by rest.length
decreasing_by
  have h1 := congrArg List.length (Text.splitAt?_eq_some_iff.1 _h).1
  have h2 := length_splitToken_le behind
  simp only [List.length_append, List.length_cons] at h1
  omega

theorem tokens_eq_nil {t : Text} (h : '$' ∉ t) : tokens t = [] := by
  rw [tokens]
  split
  · rfl
  · next heq => simp [Text.splitAt?_eq_none_iff.2 h] at heq

theorem tokens_of_splitAt? {t before behind : Text} (h : t.splitAt? '$' = some (before, behind)) :
    tokens t = (splitToken behind).1 :: tokens (splitToken behind).2 := by
  rw [tokens]
  split
  · next heq => simp [h] at heq
  · next heq =>
    rw [h] at heq
    simp only [Option.some.injEq, Prod.mk.injEq] at heq
    rw [heq.2]

/-! ## Names in tokens -/

theorem mem_namesFrom {t x : Text} :
    x ∈ namesFrom t ↔ ∃ token ∈ tokens t, ∃ key, token.splitAt? '.' = some (x, key) := by
  fun_induction namesFrom t with
  | case1 t h => simp [tokens_eq_nil (Text.splitAt?_eq_none_iff.1 h)]
  | case2 t before behind h name key hs ih =>
    rw [tokens_of_splitAt? h]
    simp only [List.mem_cons, ih, exists_eq_or_imp, hs, Option.some.injEq, Prod.mk.injEq]
    grind
  | case3 t before behind h hs ih =>
    rw [tokens_of_splitAt? h]
    simp [ih, hs]

theorem tokens_append_left {a : Text} (h : '$' ∉ a) (t : Text) : tokens (a ++ t) = tokens t := by
  cases hs : t.splitAt? '$' with
  | none =>
    rw [Text.splitAt?_eq_none_iff] at hs
    rw [tokens_eq_nil hs, tokens_eq_nil (by simp [h, hs])]
  | some p =>
    have happend := Text.splitAt?_append_left h t
    rw [hs] at happend
    rw [tokens_of_splitAt? hs, tokens_of_splitAt? happend]

theorem splitToken_append {t : Text} (h : ¬ ∀ c ∈ t, (! isTokenEnd c) = true) (b : Text) :
    splitToken (t ++ b) = ((splitToken t).1, (splitToken t).2 ++ b) := by
  have htake : (t.takeWhile (! isTokenEnd ·)).length ≠ t.length := fun he =>
    h (List.takeWhile_eq_self_iff.1 ((List.takeWhile_prefix _).eq_of_length he))
  have hdrop : ¬ (t.dropWhile (! isTokenEnd ·)).isEmpty = true := by
    rwa [List.isEmpty_iff, List.dropWhile_eq_nil_iff]
  rw [splitToken, List.takeWhile_append, if_neg htake, List.dropWhile_append, if_neg hdrop,
    splitToken]

/-- Blanks behind a text end its last token or lengthen it, but not before its point. -/
theorem mem_namesFrom_append {b t x : Text} (hb : Text.AllBlank b) :
    x ∈ namesFrom (t ++ b) ↔ x ∈ namesFrom t := by
  have hdollar : '$' ∉ b := hb.not_mem rfl
  rw [mem_namesFrom, mem_namesFrom]
  fun_induction tokens t with
  | case1 t hs =>
    rw [Text.splitAt?_eq_none_iff] at hs
    rw [tokens_eq_nil (by simp [hs, hdollar])]
  | case2 t before behind hs ih =>
    have happend := Text.splitAt?_append_right hdollar t
    rw [hs] at happend
    rw [tokens_of_splitAt? happend]
    simp only [List.mem_cons, exists_eq_or_imp]
    by_cases hend : ∀ c ∈ behind, (! isTokenEnd c) = true
    · -- the last token
      have htoken : (splitToken (behind ++ b)).1 = behind ++ b.takeWhile (! isTokenEnd ·) :=
        List.takeWhile_append_of_pos hend
      have hrest : (splitToken (behind ++ b)).2 = b.dropWhile (! isTokenEnd ·) :=
        List.dropWhile_append_of_pos hend
      have hpoint : '.' ∉ b.takeWhile (! isTokenEnd ·) := fun hm =>
        hb.not_mem rfl ((List.takeWhile_prefix _).subset hm)
      have hnone : tokens (b.dropWhile (! isTokenEnd ·)) = [] :=
        tokens_eq_nil fun hm => hdollar ((List.dropWhile_suffix _).subset hm)
      have hwhole : splitToken behind = (behind, []) := by
        rw [splitToken, List.takeWhile_eq_self_iff.2 hend, List.dropWhile_eq_nil_iff.2 hend]
      rw [htoken, hrest, hnone, hwhole, Text.splitAt?_append_right hpoint,
        tokens_eq_nil List.not_mem_nil]
      cases behind.splitAt? '.' <;> simp [Prod.ext_iff]
    · rw [splitToken_append hend]
      exact or_congr_right ih

/-- Blanks around a text name nothing. -/
theorem mem_namesFrom_trim {t x : Text} : x ∈ namesFrom t.trim ↔ x ∈ namesFrom t := by
  obtain ⟨a, b, ha, hb, he⟩ := Text.exists_trim t
  have hdollar : '$' ∉ a := ha.not_mem rfl
  rw [he, mem_namesFrom_append hb, mem_namesFrom, mem_namesFrom, tokens_append_left hdollar, ← he]

theorem mem_foldl_addName {x : Text} {acc l : List Text} :
    x ∈ l.foldl addName acc ↔ x ∈ acc ∨ x ∈ l := by
  induction l generalizing acc with
  | nil => simp
  | cons y l ih =>
    rw [List.foldl_cons, ih, addName]
    split
    · next h =>
      rw [List.contains_iff_mem] at h
      grind
    · simp [or_assoc]

theorem mem_sectionsNamed {raw x : Text} : x ∈ sectionsNamed raw ↔ x ∈ namesFrom raw ∧ x ≠ [] := by
  simp [sectionsNamed, mem_foldl_addName]

/-! ## What resolving depends on -/

/-- The literal that a token other than `$this` stands for. -/
def literalOf (owner : Section) (others : Lookup) (token : Text) : Except Cause Text :=
  (valueOf owner others token).map Value.literal

/-- What a token is replaced by, and the derivation that it brings. -/
def replacement (raw : Text) (forced : Bool) (owner : Section) (others : Lookup) (token : Text) :
    Except Cause (Text × Derivation) :=
  if token = thisName then .ok (owner.name, if forced then .expression raw.trim else .selfReference)
  else (literalOf owner others token).map fun literal => (literal, .expression raw.trim)

variable {raw : Text} {forced : Bool} {owner : Section} {others : Lookup} {d : Option Derivation}
  {rest before behind : Text}

theorem resolveFrom_of_none (h : rest.splitAt? '$' = none) :
    resolveFrom raw forced owner others d rest = .ok ⟨rest, d⟩ := by
  rw [resolveFrom]
  split
  · rfl
  · next heq => simp [h] at heq

/-- The first token is replaced, and the rest is resolved behind it. -/
theorem resolveFrom_of_some (h : rest.splitAt? '$' = some (before, behind)) :
    resolveFrom raw forced owner others d rest =
      if (splitToken behind).1.isEmpty then .error (.emptyReference raw)
      else match replacement raw forced owner others (splitToken behind).1 with
        | .error e => .error e
        | .ok (literal, next) =>
          match resolveFrom raw forced owner others (merge d next) (splitToken behind).2 with
          | .error e => .error e
          | .ok r => .ok ⟨before ++ literal ++ r.text, r.derivation⟩ := by
  rw [resolveFrom]
  split
  · next heq => simp [h] at heq
  · next heq =>
    rw [h] at heq
    simp only [Option.some.injEq, Prod.mk.injEq] at heq
    obtain ⟨rfl, rfl⟩ := heq
    simp only [replacement, literalOf]
    cases valueOf owner others (splitToken behind).1 <;> rfl

/-- Texts are resolved alike where their tokens have the same literals. -/
theorem resolveFrom_congr {o₁ o₂ : Section} {L₁ L₂ : Lookup} (hn : o₁.name = o₂.name)
    (h : ∀ token ∈ tokens rest, token ≠ thisName → literalOf o₁ L₁ token = literalOf o₂ L₂ token) :
    resolveFrom raw forced o₁ L₁ d rest = resolveFrom raw forced o₂ L₂ d rest := by
  fun_induction tokens rest generalizing d with
  | case1 rest hs => rw [resolveFrom_of_none hs, resolveFrom_of_none hs]
  | case2 rest before behind hs ih =>
    have hr : replacement raw forced o₁ L₁ (splitToken behind).1 =
        replacement raw forced o₂ L₂ (splitToken behind).1 := by
      unfold replacement
      split
      · rw [hn]
      · next ht => rw [h _ (List.mem_cons_self ..) ht]
    rw [resolveFrom_of_some hs, resolveFrom_of_some hs, hr]
    simp only [ih fun token hm => h token (List.mem_cons_of_mem _ hm)]

end Reference

end Lineage
