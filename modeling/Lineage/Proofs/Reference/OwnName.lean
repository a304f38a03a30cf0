import Lineage.Proofs.Reference.Cut
import Lineage.Proofs.Text.Replace
import Lineage.Proofs.Text.Trim
/-!
# Values that name their owner

A raw value whose tokens are all `$this` is resolved to itself with the owner's name in place of
each token (`resolve_onlyThis`). What was resolved for one owner becomes what is resolved for
another where the name is replaced, if the name stands nowhere else (`replaceAll_withName`).
-/
namespace Lineage.Reference

/-- The pieces of a text between its tokens. -/
def pieces (rest : Text) : List Text :=
  match _h : rest.splitAt? '$' with
  | none => [rest]
  | some (before, behind) => before :: pieces (splitToken behind).2
termination_by rest.length
decreasing_by
  have h1 := congrArg List.length (Text.splitAt?_eq_some_iff.1 _h).1
  have h2 := length_splitToken_le behind
  simp only [List.length_append, List.length_cons] at h1
  omega

/-- The text with the name in place of each token. -/
def withName (name raw : Text) : Text := name.intercalate (pieces raw)

/-- Each token of the text is `$this`. -/
def OnlyThis (raw : Text) : Prop := ∀ token ∈ tokens raw, token = thisName

/-- With the name in place of each token, it stands at no place that begins outside of these. -/
def NamedOnly (name raw : Text) : Prop := Text.JoinsOnly name (pieces raw)

instance (name raw : Text) : Decidable (NamedOnly name raw) :=
  inferInstanceAs (Decidable (Text.JoinsOnly name (pieces raw)))

variable {raw rest before behind name : Text} {s : Section} {L : Lookup} {d : Option Derivation}

theorem pieces_of_none (h : rest.splitAt? '$' = none) : pieces rest = [rest] := by
  rw [pieces]
  split
  · rfl
  · next heq => simp [h] at heq

theorem pieces_of_some (h : rest.splitAt? '$' = some (before, behind)) :
    pieces rest = before :: pieces (splitToken behind).2 := by
  rw [pieces]
  split
  · next heq => simp [h] at heq
  · next heq =>
    rw [h] at heq
    simp only [Option.some.injEq, Prod.mk.injEq] at heq
    rw [heq.1, heq.2]

theorem pieces_ne_nil (rest : Text) : pieces rest ≠ [] := by
  cases h : rest.splitAt? '$' with
  | none => simp [pieces_of_none h]
  | some p => simp [pieces_of_some h]

theorem withName_of_none (name : Text) (h : rest.splitAt? '$' = none) :
    withName name rest = rest := by
  rw [withName, pieces_of_none h, List.intercalate_singleton]

theorem withName_of_some (name : Text) (h : rest.splitAt? '$' = some (before, behind)) :
    withName name rest = before ++ (name ++ withName name (splitToken behind).2) := by
  obtain ⟨p, ps, hp⟩ := List.exists_cons_of_ne_nil (pieces_ne_nil (splitToken behind).2)
  rw [withName, withName, pieces_of_some h, hp, List.intercalate_cons_cons, List.append_assoc]

theorem withName_of_tokens_nil (name : Text) (h : tokens raw = []) : withName name raw = raw := by
  cases hs : raw.splitAt? '$' with
  | none => exact withName_of_none name hs
  | some p => simp [tokens_of_splitAt? hs] at h

theorem withName_text (name : Text) (c : Cut) : withName name c.text = c.filled fun _ => name := by
  obtain ⟨head, ps, hd⟩ := c
  induction ps generalizing head with
  | nil =>
    rw [withName_of_none _ Cut.splitAt?_nil]
    simp [Cut.text]
  | cons p ps ih =>
    rw [withName_of_some _ (Cut.splitAt?_cons p), Cut.splitToken_behind, Cut.filled_cons,
      List.append_assoc, Cut.behind, ih]

/-! ## Resolving -/

/-- A value that refers to its owner alone is resolved to the value with the name in it. -/
theorem resolve_onlyThis (h : OnlyThis raw) (a : Note) :
    ∃ d, resolve raw a s L = .ok ⟨withName s.name raw, d⟩ ∧
      (forcesEvaluation raw a = false →
        d = if tokens raw = [] then a.derivation else some .selfReference) := by
  obtain ⟨c, rfl⟩ := Cut.exists_text_eq raw
  rw [OnlyThis, Cut.tokens_text] at h
  have hstands : ∀ token ∈ c.tokens, Stands s L token := fun token hm =>
    ⟨by rw [h token hm]; decide, .inl (h token hm)⟩
  refine ⟨noted c.text a c.tokens, ?_, fun hf => ?_⟩
  · rw [resolve_of_stands hstands, withName_text, Cut.filled_congr fun token hm => ?_]
    rw [textOf, if_pos (h token hm)]
  · have ha : a.isExpression = false := by
      cases he : a.isExpression <;> simp [forcesEvaluation, he] at hf ⊢
    rw [Cut.tokens_text, noted, if_neg (by simp [ha]), if_neg]
    rintro (⟨token, hm, ht⟩ | ⟨-, hf'⟩)
    · exact ht (h token hm)
    · simp [hf] at hf'

/-! ## Other names -/

theorem replaceAll_withName {name' : Text} (hn : name ≠ []) (h : NamedOnly name raw) :
    (withName name raw).replaceAll name name' = withName name' raw :=
  Text.replaceAll_intercalate hn h

theorem head?_withName {c : Char} (hn : name ≠ []) (h : (withName name raw).head? = some c) :
    raw.head? = some c ∨ name.head? = some c := by
  cases hs : raw.splitAt? '$' with
  | none =>
    rw [withName_of_none _ hs] at h
    exact .inl h
  | some p =>
    obtain ⟨rfl, -⟩ := Text.splitAt?_eq_some_iff.1 hs
    obtain ⟨a, name, rfl⟩ := List.exists_cons_of_ne_nil hn
    rw [withName_of_some _ hs] at h
    cases hp : p.1 with
    | nil =>
      rw [hp] at h
      exact .inr h
    | cons b before =>
      rw [hp] at h
      exact .inl h

theorem getLast?_withName {c : Char} (hn : name ≠ [])
    (h : (withName name raw).getLast? = some c) :
    raw.getLast? = some c ∨ name.getLast? = some c := by
  fun_induction tokens raw with
  | case1 raw hs =>
    rw [withName_of_none _ hs] at h
    exact .inl h
  | case2 raw before behind hs ih =>
    obtain ⟨rfl, -⟩ := Text.splitAt?_eq_some_iff.1 hs
    obtain ⟨token, htoken⟩ : (splitToken behind).2 <:+ behind := List.dropWhile_suffix _
    rw [withName_of_some _ hs, Text.getLast?_append_right (by simp [hn])] at h
    by_cases hrest : withName name (splitToken behind).2 = []
    · rw [hrest, List.append_nil] at h
      exact .inr h
    · rw [Text.getLast?_append_right hrest] at h
      refine (ih h).imp_left fun hlast => ?_
      have hne : (splitToken behind).2 ≠ [] := by
        intro he
        rw [he] at hlast
        cases hlast
      rw [← htoken, Text.getLast?_append_right (List.cons_ne_nil _ _), ← List.cons_append,
        Text.getLast?_append_right hne, hlast]

theorem trim_withName (hraw : raw.trim = raw) (hn : name ≠ []) (hname : name.trim = name) :
    (withName name raw).trim = withName name raw := by
  rw [Text.trim_eq_self_iff] at hraw hname ⊢
  refine ⟨fun c hc => ?_, fun c hc => ?_⟩
  · exact (head?_withName hn hc).elim (hraw.1 c) (hname.1 c)
  · exact (getLast?_withName hn hc).elim (hraw.2 c) (hname.2 c)

end Lineage.Reference
