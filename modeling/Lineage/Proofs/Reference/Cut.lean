import Lineage.Proofs.Reference.Tokens
import Lineage.Proofs.Text.Trim
/-!
# Raw values cut into pieces

A raw value is literal text with tokens in it. It is cut before each `$` and where the name behind
it ends, and there is one such cut (`Cut.existsUnique`). Resolving a value goes from piece to piece
(`resolveFrom_cons`) and never back: a token is replaced by what it stands for, or it stands for
nothing and nothing behind it matters (`resolve_cut`).
-/
namespace Lineage

/-- The token that a cause says to stand for nothing. -/
def Cause.token? : Cause → Option Text
  | emptyReference _ => some []
  | undeclared token _ | unknownSectionNamed token _ | noProperty token .. => some token
  | _ => none

namespace Reference

/-! ## Cuts -/

/-- A token, without its `$`, and the literal text from its end to the next `$`. -/
@[ext] structure Piece where
  token : Text
  literal : Text
  within : ∀ c ∈ token, isTokenEnd c = false
  longest : ∀ c, literal.head? = some c → isTokenEnd c = true
  noDollar : '$' ∉ literal

/-- The literal text up to the first token, and the pieces from there. -/
@[ext] structure Cut where
  head : Text
  pieces : List Piece
  noDollar : '$' ∉ head

namespace Cut

/-- The text with a text in place of each token and its `$`. -/
def filled (c : Cut) (f : Text → Text) : Text :=
  c.head ++ c.pieces.flatMap fun p => f p.token ++ p.literal

/-- The text that is cut. -/
def text (c : Cut) : Text := c.filled ('$' :: ·)

/-- The tokens of a cut in order, each without its `$`. -/
def tokens (c : Cut) : List Text := c.pieces.map Piece.token

/-- The cut of the text behind the token of a piece. -/
def behind (p : Piece) (ps : List Piece) : Cut := ⟨p.literal, ps, p.noDollar⟩

variable {head : Text} {ps : List Piece} {noDollar : '$' ∉ head}

@[simp] theorem filled_nil (f : Text → Text) : (mk head [] noDollar).filled f = head := by
  simp [filled]

@[simp] theorem filled_cons (p : Piece) (f : Text → Text) :
    (mk head (p :: ps) noDollar).filled f = head ++ f p.token ++ (behind p ps).filled f := by
  simp [filled, behind]

@[simp] theorem tokens_nil : (mk head [] noDollar).tokens = [] := rfl

@[simp] theorem tokens_cons (p : Piece) :
    (mk head (p :: ps) noDollar).tokens = p.token :: (behind p ps).tokens := rfl

theorem filled_congr {c : Cut} {f g : Text → Text} (h : ∀ token ∈ c.tokens, f token = g token) :
    c.filled f = c.filled g := by
  have hp : ∀ p ∈ c.pieces, f p.token ++ p.literal = g p.token ++ p.literal := fun p hp => by
    rw [h p.token (List.mem_map_of_mem hp)]
  rw [filled, filled, List.flatMap_def, List.flatMap_def, List.map_congr_left hp]

/-- A character of the filled text is one of the cut text, or it was put in. -/
theorem mem_filled {c : Cut} {f : Text → Text} {x : Char} (h : x ∈ c.filled f) :
    x ∈ c.text ∨ ∃ token ∈ c.tokens, x ∈ f token := by
  simp only [text, filled, List.mem_append, List.mem_flatMap] at h ⊢
  rcases h with h | ⟨p, hp, h | h⟩
  · exact .inl (.inl h)
  · exact .inr ⟨p.token, List.mem_map_of_mem hp, h⟩
  · exact .inl (.inr ⟨p, hp, .inr h⟩)

theorem splitAt?_nil : (mk head [] noDollar).text.splitAt? '$' = none := by
  rwa [text, filled_nil, Text.splitAt?_eq_none_iff]

theorem splitAt?_cons (p : Piece) : (mk head (p :: ps) noDollar).text.splitAt? '$' =
    some (head, p.token ++ (behind p ps).text) := by
  rw [text, filled_cons, List.append_assoc, List.cons_append, Text.splitAt?_append noDollar, text]

/-- The text behind a token is empty, or it begins with a token end. -/
theorem head?_behind {p : Piece} {c : Char} (h : (behind p ps).text.head? = some c) :
    isTokenEnd c = true := by
  unfold text behind at h
  cases hl : p.literal with
  | cons b literal =>
    apply p.longest
    rw [hl]
    cases ps <;> simpa [hl] using h
  | nil =>
    cases ps with
    | nil => simp [hl] at h
    | cons q ps =>
      obtain rfl : '$' = c := by simpa [hl] using h
      decide

theorem splitToken_behind (p : Piece) (ps : List Piece) :
    splitToken (p.token ++ (behind p ps).text) = (p.token, (behind p ps).text) := by
  have hwithin : ∀ c ∈ p.token, (! isTokenEnd c) = true := fun c hc => by simp [p.within c hc]
  have hend : ∀ c, (behind p ps).text.head? = some c → (! isTokenEnd c) = false := fun c hc => by
    simp [head?_behind hc]
  have hdrop := Text.dropWhile_of_head? hend
  have htake : (behind p ps).text.takeWhile (! isTokenEnd ·) = [] := by
    have := List.takeWhile_append_dropWhile (p := (! isTokenEnd ·)) (l := (behind p ps).text)
    rwa [hdrop, List.append_left_eq_self] at this
  rw [splitToken, List.takeWhile_append_of_pos hwithin, List.dropWhile_append_of_pos hwithin,
    htake, hdrop, List.append_nil]

theorem tokens_text (c : Cut) : Reference.tokens c.text = c.tokens := by
  obtain ⟨head, ps, hd⟩ := c
  induction ps generalizing head with
  | nil => exact tokens_eq_nil (Text.splitAt?_eq_none_iff.1 splitAt?_nil)
  | cons p ps ih =>
    rw [tokens_of_splitAt? (splitAt?_cons p), splitToken_behind, tokens_cons, behind, ih]

/-- A text is cut in one way only. -/
theorem text_injective : Function.Injective text := by
  rintro ⟨head, ps, hd⟩ ⟨head', qs, hd'⟩ h
  have hs := congrArg (Text.splitAt? '$') h
  induction ps generalizing head head' qs with
  | nil =>
    cases qs with
    | nil => simpa [text] using h
    | cons q qs =>
      rw [splitAt?_nil, splitAt?_cons] at hs
      cases hs
  | cons p ps ih =>
    cases qs with
    | nil =>
      rw [splitAt?_nil, splitAt?_cons] at hs
      cases hs
    | cons q qs =>
      rw [splitAt?_cons, splitAt?_cons, Option.some.injEq, Prod.mk.injEq] at hs
      have htail := congrArg splitToken hs.2
      rw [splitToken_behind, splitToken_behind, Prod.mk.injEq] at htail
      have hbehind := ih _ p.noDollar _ _ q.noDollar htail.2 (congrArg _ htail.2)
      have hpq : p = q := Piece.ext htail.1 (congrArg Cut.head hbehind)
      rw [Cut.mk.injEq, hs.1, hpq]
      exact ⟨rfl, congrArg (q :: ·) (congrArg Cut.pieces hbehind)⟩

/-- Each text is cut somehow. -/
theorem exists_text_eq (raw : Text) : ∃ c : Cut, c.text = raw := by
  fun_induction Reference.tokens raw with
  | case1 rest hs => exact ⟨⟨rest, [], Text.splitAt?_eq_none_iff.1 hs⟩, by simp [text]⟩
  | case2 rest before behind hs ih =>
    obtain ⟨rfl, hbefore⟩ := Text.splitAt?_eq_some_iff.1 hs
    obtain ⟨⟨head, ps, hd⟩, hc⟩ := ih
    -- the literal behind the token begins where the rest of the text does
    have hlongest : ∀ c, head.head? = some c → isTokenEnd c = true := by
      intro c hhead
      have hrest : (splitToken behind).2.head? = some c := by
        rw [← hc, text, filled, List.head?_append, hhead, Option.some_or]
      simpa using Text.head?_dropWhile hrest
    have hwithin : ∀ c ∈ (splitToken behind).1, isTokenEnd c = false := by
      intro c hm
      simpa using List.mem_takeWhile_imp hm
    refine ⟨⟨before, ⟨_, head, hwithin, hlongest, hd⟩ :: ps, hbefore⟩, ?_⟩
    rw [text, filled_cons, List.append_assoc]
    change before ++ ('$' :: (splitToken behind).1 ++ text ⟨head, ps, hd⟩) = _
    rw [hc, List.cons_append, splitToken, List.takeWhile_append_dropWhile]

theorem existsUnique (raw : Text) : ∃! c : Cut, c.text = raw := by
  obtain ⟨c, hc⟩ := exists_text_eq raw
  exact ⟨c, hc, fun c' hc' => text_injective (hc'.trans hc.symm)⟩

end Cut

/-! ## What a token stands for -/

/-- A token is replaced if it is `$this` or stands for the value of a property. -/
def Stands (s : Section) (L : Lookup) (token : Text) : Prop :=
  token ≠ [] ∧ (token = thisName ∨ ∃ v, valueOf s L token = .ok v)

/-- Why a token of the value `raw` is not replaced. -/
inductive Fails (raw : Text) (s : Section) (L : Lookup) : Text → Cause → Prop
  | empty : Fails raw s L [] (.emptyReference raw)
  | value {token : Text} {c : Cause} (hne : token ≠ []) (ht : token ≠ thisName)
      (h : valueOf s L token = .error c) : Fails raw s L token c

/-- The text in place of a token that stands for something. -/
def textOf (s : Section) (L : Lookup) (token : Text) : Text :=
  if token = thisName then s.name else ((literalOf s L token).toOption).getD []

/-- The derivation that a token brings. -/
def brought (raw : Text) (forced : Bool) (token : Text) : Derivation :=
  if token = thisName ∧ forced = false then .selfReference else .expression raw.trim

/-- The derivation noted for a value with these tokens. -/
def noted (raw : Text) (a : Note) (tokens : List Text) : Option Derivation :=
  if a.isExpression then a.derivation
  else if (∃ token ∈ tokens, token ≠ thisName) ∨
      (thisName ∈ tokens ∧ forcesEvaluation raw a = true) then some (.expression raw.trim)
  else if tokens = [] then a.derivation
  else some .selfReference

instance (s : Section) (L : Lookup) (token : Text) : Decidable (Stands s L token) :=
  decidable_of_iff (token ≠ [] ∧ (token = thisName ∨ (valueOf s L token).isOk = true)) <| by
    cases h : valueOf s L token <;> simp [Stands, h, Except.isOk, Except.toBool]

variable {raw token : Text} {forced : Bool} {s : Section} {L : Lookup} {d : Option Derivation}
  {cause : Cause}

theorem stands_or_fails (raw : Text) (s : Section) (L : Lookup) (token : Text) :
    Stands s L token ∨ ∃ cause, Fails raw s L token cause := by
  by_cases hne : token = []
  · subst hne
    exact .inr ⟨_, .empty⟩
  · by_cases ht : token = thisName
    · exact .inl ⟨hne, .inl ht⟩
    · cases hv : valueOf s L token with
      | ok v => exact .inl ⟨hne, .inr ⟨v, hv⟩⟩
      | error cause => exact .inr ⟨cause, .value hne ht hv⟩

theorem replacement_of_stands (h : Stands s L token) :
    replacement raw forced s L token = .ok (textOf s L token, brought raw forced token) := by
  unfold replacement textOf brought
  rcases h.2 with rfl | ⟨v, hv⟩
  · cases forced <;> rfl
  · by_cases ht : token = thisName
    · rw [if_pos ht, if_pos ht]
      cases forced <;> simp [ht]
    · rw [if_neg ht, if_neg ht, if_neg (ht ·.1), literalOf, hv]
      rfl

theorem names_of_own {key : Text} (h : own s token key = .error cause) :
    cause.kind = .unknownReference ∧ cause.token? = some token := by
  unfold own at h
  split at h <;> cases h
  exact ⟨rfl, rfl⟩

theorem names_of_valueOf (h : valueOf s L token = .error cause) :
    cause.kind = .unknownReference ∧ cause.token? = some token := by
  unfold valueOf at h
  split at h
  · split at h
    · exact names_of_own h
    · split at h
      · cases h
        exact ⟨rfl, rfl⟩
      · split at h <;> cases h
        exact ⟨rfl, rfl⟩
  · exact names_of_own h

/-- The fault of a token is an unknown reference, and it says which. -/
theorem Fails.names (h : Fails raw s L token cause) :
    cause.kind = .unknownReference ∧ cause.token? = some token := by
  cases h with
  | empty => exact ⟨rfl, rfl⟩
  | value _ _ hv => exact names_of_valueOf hv

/-! ## From piece to piece -/

theorem resolveFrom_cons {head : Text} {ps : List Piece} {noDollar : '$' ∉ head} (p : Piece) :
    resolveFrom raw forced s L d (Cut.mk head (p :: ps) noDollar).text =
      if p.token.isEmpty then .error (.emptyReference raw)
      else match replacement raw forced s L p.token with
        | .error e => .error e
        | .ok (literal, next) =>
          match resolveFrom raw forced s L (merge d next) (Cut.behind p ps).text with
          | .error e => .error e
          | .ok r => .ok ⟨head ++ literal ++ r.text, r.derivation⟩ := by
  have h := @resolveFrom_of_some raw forced s L d _ _ _ (@Cut.splitAt?_cons head ps noDollar p)
  rw [Cut.splitToken_behind] at h
  exact h

/-- Where every token stands for a text, the cut text is filled with these. -/
theorem resolveFrom_of_stands {c : Cut} (h : ∀ token ∈ c.tokens, Stands s L token) :
    resolveFrom raw forced s L d c.text =
      .ok ⟨c.filled (textOf s L), (c.tokens.map (brought raw forced)).foldl merge d⟩ := by
  obtain ⟨head, ps, hd⟩ := c
  induction ps generalizing head d with
  | nil =>
    rw [resolveFrom_of_none Cut.splitAt?_nil]
    simp [Cut.text]
  | cons p ps ih =>
    have hp := h p.token (by simp)
    rw [resolveFrom_cons, if_neg (by simpa using hp.1), replacement_of_stands hp]
    simp only [Cut.behind]
    rw [ih _ _ fun token hm => h token (by simp [Cut.behind, hm])]
    simp [Cut.behind]

/-- Resolving stops at the first token that stands for nothing. -/
theorem resolveFrom_of_fails {c : Cut} {before after : List Text}
    (hc : c.tokens = before ++ token :: after) (hb : ∀ t ∈ before, Stands s L t)
    (hf : Fails raw s L token cause) : resolveFrom raw forced s L d c.text = .error cause := by
  obtain ⟨head, ps, hd⟩ := c
  induction before generalizing head ps d with
  | nil =>
    cases ps with
    | nil => cases hc
    | cons p ps =>
      have hp : p.token = token := (List.cons.inj hc).1
      rw [resolveFrom_cons, hp]
      cases hf with
      | empty => rfl
      | value hne ht hv =>
        have hrep : replacement raw forced s L token = .error cause := by
          rw [replacement, if_neg ht, literalOf, hv]
          rfl
        rw [if_neg (by simpa using hne), hrep]
  | cons t before ih =>
    cases ps with
    | nil => cases hc
    | cons p ps =>
      obtain ⟨rfl, hps⟩ := List.cons.inj hc
      have ht := hb p.token (by simp)
      rw [resolveFrom_cons, if_neg (by simpa using ht.1), replacement_of_stands ht]
      simp only [Cut.behind]
      rw [ih (fun t hm => hb t (by simp [hm])) _ _ _ hps]

theorem exists_first_fails (raw : Text) {tokens : List Text}
    (h : ¬ ∀ token ∈ tokens, Stands s L token) :
    ∃ before token after cause, tokens = before ++ token :: after ∧
      (∀ t ∈ before, Stands s L t) ∧ Fails raw s L token cause := by
  obtain ⟨token, hfind⟩ : ∃ token, tokens.find? (¬ Stands s L ·) = some token := by
    rw [← Option.isSome_iff_exists, List.find?_isSome]
    simpa using h
  obtain ⟨ht, before, after, hsplit, hb⟩ := List.find?_eq_some_iff_append.1 hfind
  obtain ⟨cause, hf⟩ := (stands_or_fails raw s L token).resolve_left (by simpa using ht)
  exact ⟨before, token, after, cause, hsplit, by simpa using hb, hf⟩

theorem resolveFrom_ok_iff {c : Cut} {r : Resolution} :
    resolveFrom raw forced s L d c.text = .ok r ↔ (∀ token ∈ c.tokens, Stands s L token) ∧
      r = ⟨c.filled (textOf s L), (c.tokens.map (brought raw forced)).foldl merge d⟩ := by
  by_cases hall : ∀ token ∈ c.tokens, Stands s L token
  · rw [resolveFrom_of_stands hall, Except.ok.injEq, eq_comm, and_iff_right hall]
  · obtain ⟨before, token, after, cause, hsplit, hb, hf⟩ := exists_first_fails raw hall
    rw [resolveFrom_of_fails hsplit hb hf]
    exact ⟨nofun, fun h => absurd h.1 hall⟩

/-! ## The derivation -/

theorem merge_selfReference (h : ∀ e, d ≠ some (.expression e)) :
    merge d .selfReference = some .selfReference := by
  rcases d with _ | (_ | e)
  · rfl
  · rfl
  · exact absurd rfl (h e)

theorem merge_expression (h : ∀ e, d ≠ some (.expression e)) (e : Text) :
    merge d (.expression e) = some (.expression e) := by
  rcases d with _ | (_ | e')
  · rfl
  · rfl
  · exact absurd rfl (h e')

theorem foldl_merge_expression (e : Text) (l : List Derivation) :
    l.foldl merge (some (.expression e)) = some (.expression e) := by
  induction l with
  | nil => rfl
  | cons next l ih => exact ih

theorem merge_eq_expression {next : Derivation} {e : Text}
    (h : merge d next = some (.expression e)) :
    d = some (.expression e) ∨ next = .expression e := by
  rcases d with _ | (_ | e') <;> rcases next with _ | e'' <;> simp_all [merge]

theorem foldl_merge_eq_expression {e : Text} {l : List Derivation}
    (h : l.foldl merge d = some (.expression e)) :
    d = some (.expression e) ∨ .expression e ∈ l := by
  induction l generalizing d with
  | nil => exact .inl h
  | cons next l ih =>
    rcases ih h with hm | hm
    · refine (merge_eq_expression hm).imp_right fun he => ?_
      rw [he]
      exact List.mem_cons_self
    · exact .inr (List.mem_cons_of_mem next hm)

/-- Where each derivation is `e` or a self-reference, the order in which they come does not
matter. -/
theorem foldl_merge {e : Text} {l : List Derivation} (hd : ∀ e', d ≠ some (.expression e'))
    (hl : ∀ next ∈ l, next = .selfReference ∨ next = .expression e) :
    l.foldl merge d = if .expression e ∈ l then some (.expression e)
      else if l = [] then d else some .selfReference := by
  induction l generalizing d with
  | nil => simp
  | cons next l ih =>
    rw [List.foldl_cons]
    rcases hl next (List.mem_cons_self ..) with rfl | rfl
    · rw [merge_selfReference hd, ih (by simp) fun next hn => hl next (List.mem_cons_of_mem _ hn)]
      simp
    · rw [merge_expression hd, foldl_merge_expression, if_pos (List.mem_cons_self ..)]

/-- A token brings the expression, unless it names the owner in a value that is not evaluated. -/
theorem expression_mem_brought {tokens : List Text} :
    .expression raw.trim ∈ tokens.map (brought raw forced) ↔
      (∃ token ∈ tokens, token ≠ thisName) ∨ (thisName ∈ tokens ∧ forced = true) := by
  simp only [List.mem_map, brought]
  constructor
  · rintro ⟨token, hm, hb⟩
    by_cases ht : token = thisName
    · cases forced
      · simp [ht] at hb
      · exact .inr ⟨ht ▸ hm, rfl⟩
    · exact .inl ⟨token, hm, ht⟩
  · rintro (⟨token, hm, ht⟩ | ⟨hm, rfl⟩)
    · exact ⟨token, hm, by simp [ht]⟩
    · exact ⟨thisName, hm, by simp⟩

/-- The derivations that tokens bring, one after another, come to the one that is noted. -/
theorem foldl_merge_brought (raw : Text) (a : Note) (tokens : List Text) :
    (tokens.map (brought raw (forcesEvaluation raw a))).foldl merge a.derivation =
      noted raw a tokens := by
  unfold noted
  by_cases ha : a.isExpression = true
  · rw [if_pos ha]
    obtain ⟨e, he⟩ : ∃ e, a.derivation = some (.expression e) := by
      unfold Note.isExpression at ha
      rcases hd : a.derivation with _ | (_ | e)
      · simp [hd] at ha
      · simp [hd, Derivation.isExpression] at ha
      · exact ⟨e, rfl⟩
    rw [he, foldl_merge_expression]
  · rw [if_neg ha, @foldl_merge a.derivation raw.trim]
    · simp only [expression_mem_brought, List.map_eq_nil_iff]
    · intro e he
      simp [Note.isExpression, he, Derivation.isExpression] at ha
    · intro next hn
      obtain ⟨token, -, rfl⟩ := List.mem_map.1 hn
      unfold brought
      split
      · exact .inl rfl
      · exact .inr rfl

/-! ## Resolving a value -/

theorem resolve_of_stands {c : Cut} (h : ∀ token ∈ c.tokens, Stands s L token) (a : Note) :
    resolve c.text a s L = .ok ⟨c.filled (textOf s L), noted c.text a c.tokens⟩ := by
  rw [resolve, resolveFrom_of_stands h, foldl_merge_brought]

theorem kind_of_resolve {a : Note} (h : resolve raw a s L = .error cause) :
    cause.kind = .unknownReference := by
  obtain ⟨c, rfl⟩ := Cut.exists_text_eq raw
  by_cases hall : ∀ token ∈ c.tokens, Stands s L token
  · rw [resolve_of_stands hall] at h
    cases h
  · obtain ⟨before, token, after, cause', hsplit, hb, hf⟩ := exists_first_fails c.text hall
    rw [resolve, resolveFrom_of_fails hsplit hb hf] at h
    cases h
    exact hf.names.1

/-- A raw value is cut in one way. Where each of its tokens stands for something, the text of that
is put in its place, and is not looked at again; the derivation follows from which tokens there
are. Otherwise the value is refused for the leftmost token that stands for nothing. -/
theorem resolve_cut (raw : Text) (a : Note) (s : Section) (L : Lookup) :
    ∃ c : Cut, c.text = raw ∧ (∀ c' : Cut, c'.text = raw → c' = c) ∧
      ((∀ token ∈ c.tokens, Stands s L token) →
        resolve raw a s L = .ok ⟨c.filled (textOf s L), noted raw a c.tokens⟩) ∧
      ((¬ ∀ token ∈ c.tokens, Stands s L token) →
        ∃ before token after cause, c.tokens = before ++ token :: after ∧
          (∀ t ∈ before, Stands s L t) ∧ Fails raw s L token cause ∧
          cause.kind = .unknownReference ∧ cause.token? = some token ∧
          resolve raw a s L = .error cause) := by
  obtain ⟨c, rfl, hunique⟩ := Cut.existsUnique raw
  refine ⟨c, rfl, hunique, fun hall => resolve_of_stands hall a, fun hnone => ?_⟩
  obtain ⟨before, token, after, cause, hsplit, hb, hf⟩ := exists_first_fails c.text hnone
  exact ⟨before, token, after, cause, hsplit, hb, hf, hf.names.1, hf.names.2,
    resolveFrom_of_fails hsplit hb hf⟩

/-- What was put in is not looked at again, also where it holds a `$`. -/
example :
    let a : Property := .new "a".toList (.text "$this".toList) .blank
    resolve "$a$this".toList .blank ⟨"$a".toList, [], [a]⟩ (fun _ => none) =
      .ok ⟨"$this$a".toList, some (.expression "$a$this".toList)⟩ := by
  with_unfolding_all rfl

end Reference

end Lineage
