import Lineage.Proofs.Lists
import Lineage.Proofs.Reference.Cut
import Lineage.Proofs.Value
/-!
# Resolved texts

The text of a resolved value is made of its own characters, of the owner's name and of literals
(`mem_resolveFrom`). It stays the same where tokens stand for values that are alike
(`resolve_alike`), and where the lookup answers for the names in its tokens as before
(`resolve_mono`).
-/
namespace Lineage

/-- On the names in `N`, the lookup `M` answers as `L` does where `L` answers. -/
def Lookup.LeOn (N : Text → Prop) (L M : Lookup) : Prop := ∀ x s, N x → L x = some s → M x = some s

theorem Lookup.LeOn.mono {N N' : Text → Prop} {L M : Lookup} (h : Lookup.LeOn N L M)
    (hN : ∀ x, N' x → N x) : Lookup.LeOn N' L M :=
  fun x s hx => h x s (hN x hx)

/-- Under every key both sections hold values that are alike, or neither holds one. -/
def Section.SameValues (t s : Section) : Prop :=
  ∀ key, Option.Rel Value.Alike (t.value? key) (s.value? key)

namespace Reference

/-- The key of the owner's property that a token other than `$this` stands for, if it is one. -/
def ownKey? (owner token : Text) : Option Text :=
  match token.splitAt? '.' with
  | some (name, key) => if name = owner then some key else none
  | none => some token

variable {raw rest token : Text} {forced forced' : Bool} {s t : Section} {L M : Lookup}
  {d d' : Option Derivation} {r : Resolution}

/-! ## Values -/

/-- A token has the same value in sections of one name, if what it reads of them is the same. -/
theorem valueOf_congr (hn : t.name = s.name)
    (h : ∀ key, ownKey? s.name token = some key → t.value? key = s.value? key) :
    valueOf t L token = valueOf s L token := by
  unfold valueOf
  unfold ownKey? at h
  cases hs : token.splitAt? '.' with
  | none =>
    simp only [hs] at h
    simp only [own, h token rfl, hn]
  | some p =>
    obtain ⟨x, key⟩ := p
    simp only [hs] at h
    simp only [hn]
    by_cases hx : x = s.name
    · rw [if_pos hx] at h
      rw [if_pos hx, if_pos hx, own, own, h key rfl, hn]
    · rw [if_neg hx, if_neg hx]

theorem own_alike {key : Text} {v : Value} (h : own s token key = .ok v)
    (hk : Option.Rel Value.Alike (t.value? key) (s.value? key)) :
    ∃ w, own t token key = .ok w ∧ w.Alike v := by
  unfold own at h ⊢
  cases hs : s.value? key with
  | none =>
    rw [hs] at h
    cases h
  | some v' =>
    rw [hs] at h hk
    cases h
    obtain ⟨w, hw, ha⟩ := exists_of_rel_some hk
    exact ⟨w, by rw [hw], ha⟩

/-- A token has alike values in sections of one name, if what it reads is alike: a key of the
section itself, or one of another section that both look up. -/
theorem valueOf_alike {v : Value} (h : valueOf s L token = .ok v) (hn : t.name = s.name)
    (hown : ∀ key, ownKey? s.name token = some key →
      Option.Rel Value.Alike (t.value? key) (s.value? key))
    (hothers : ∀ x key o, token.splitAt? '.' = some (x, key) → x ≠ s.name → L x = some o →
      ∃ o', M x = some o' ∧ o'.SameValues o) :
    ∃ w, valueOf t M token = .ok w ∧ w.Alike v := by
  unfold valueOf at h ⊢
  unfold ownKey? at hown
  cases hs : token.splitAt? '.' with
  | none =>
    simp only [hs] at h hown ⊢
    exact own_alike h (hown token rfl)
  | some p =>
    obtain ⟨x, key⟩ := p
    simp only [hs] at h hown ⊢
    by_cases hx : x = s.name
    · rw [if_pos hx] at h hown
      rw [if_pos (hx.trans hn.symm)]
      exact own_alike h (hown key rfl)
    · rw [if_neg hx] at h
      rw [if_neg (hn ▸ hx)]
      cases ho : L x with
      | none =>
        rw [ho] at h
        cases h
      | some o =>
        obtain ⟨o', ho', hsame⟩ := hothers x key o hs hx ho
        simp only [ho] at h
        simp only [ho']
        have hk := hsame key
        cases hv : o.value? key with
        | none =>
          rw [hv] at h
          cases h
        | some v' =>
          rw [hv] at h hk
          cases h
          obtain ⟨w, hw, ha⟩ := exists_of_rel_some hk
          exact ⟨w, by rw [hw], ha⟩

/-! ## Texts -/

theorem stands_of_resolveFrom (h : resolveFrom raw forced s L d rest = .ok r) :
    ∀ token ∈ tokens rest, Stands s L token := by
  obtain ⟨c, rfl⟩ := Cut.exists_text_eq rest
  rw [Cut.tokens_text]
  exact (resolveFrom_ok_iff.1 h).1

theorem Stands.congr (h : Stands s L token)
    (hl : token ≠ thisName → literalOf s L token = literalOf t M token) : Stands t M token := by
  refine ⟨h.1, ?_⟩
  by_cases ht : token = thisName
  · exact .inl ht
  · obtain ⟨v, hv⟩ := h.2.resolve_left ht
    specialize hl ht
    rw [literalOf, literalOf, hv] at hl
    cases hw : valueOf t M token with
    | ok w => exact .inr ⟨w, rfl⟩
    | error cause =>
      rw [hw] at hl
      cases hl

theorem textOf_congr (hn : t.name = s.name)
    (hl : token ≠ thisName → literalOf s L token = literalOf t M token) :
    textOf t M token = textOf s L token := by
  unfold textOf
  split
  · exact hn
  · next ht => rw [hl ht]

/-- What a value is resolved to does not depend on how it is noted. -/
theorem resolveFrom_text (h : resolveFrom raw forced s L d rest = .ok r) (hn : t.name = s.name)
    (hl : ∀ token ∈ tokens rest, token ≠ thisName → literalOf s L token = literalOf t M token) :
    ∃ r', resolveFrom raw forced' t M d' rest = .ok r' ∧ r'.text = r.text := by
  obtain ⟨c, rfl⟩ := Cut.exists_text_eq rest
  rw [Cut.tokens_text] at hl
  obtain ⟨hall, rfl⟩ := resolveFrom_ok_iff.1 h
  exact ⟨_, resolveFrom_ok_iff.2 ⟨fun token hm => (hall token hm).congr (hl token hm), rfl⟩,
    Cut.filled_congr fun token hm => textOf_congr hn (hl token hm)⟩

/-- The expression of a resolved value is the value itself, or was noted before. -/
theorem derivation_of_resolveFrom {e : Text} (h : resolveFrom raw forced s L d rest = .ok r)
    (he : r.derivation = some (.expression e)) : d = some (.expression e) ∨ e = raw.trim := by
  obtain ⟨c, rfl⟩ := Cut.exists_text_eq rest
  obtain ⟨-, rfl⟩ := resolveFrom_ok_iff.1 h
  refine (foldl_merge_eq_expression he).imp_right fun hm => ?_
  obtain ⟨token, -, hb⟩ := List.mem_map.1 hm
  unfold brought at hb
  split at hb
  · cases hb
  · exact (Derivation.expression.inj hb).symm

/-- A value is resolved to the same text where its tokens stand for values that are alike. -/
theorem resolve_alike {a b : Note} (h : resolve raw a s L = .ok r) (hn : t.name = s.name)
    (hown : ∀ token ∈ tokens raw, token ≠ thisName → ∀ key, ownKey? s.name token = some key →
      Option.Rel Value.Alike (t.value? key) (s.value? key))
    (hothers : ∀ x ∈ namesFrom raw, x ≠ s.name → ∀ o, L x = some o →
      ∃ o', M x = some o' ∧ o'.SameValues o) :
    ∃ r', resolve raw b t M = .ok r' ∧ r'.text = r.text := by
  refine resolveFrom_text h hn fun token hm ht => ?_
  obtain ⟨v, hv⟩ := (stands_of_resolveFrom h token hm).2.resolve_left ht
  obtain ⟨w, hw, ha⟩ := valueOf_alike hv hn (hown token hm ht) fun x key o hs hx ho =>
    hothers x (mem_namesFrom.2 ⟨token, hm, key, hs⟩) hx o ho
  rw [literalOf, literalOf, hv, hw, Except.map, Except.map, ha.literal]

/-! ## Characters -/

theorem mem_own {key : Text} {v : Value} (h : own s token key = .ok v) :
    ∃ p ∈ s.properties, p.value = v := by
  unfold own at h
  cases hs : s.value? key with
  | none =>
    rw [hs] at h
    cases h
  | some v' =>
    rw [hs] at h
    cases h
    obtain ⟨p, hp, he⟩ := Option.map_eq_some_iff.1 hs
    exact ⟨p, List.mem_of_find?_eq_some hp, he⟩

/-- The value of a token is that of a property. -/
theorem mem_valueOf {v : Value} (h : valueOf s L token = .ok v) :
    ∃ o, (o = s ∨ ∃ x, L x = some o) ∧ ∃ p ∈ o.properties, p.value = v := by
  unfold valueOf at h
  split at h
  · next x key hs =>
    split at h
    · exact ⟨s, .inl rfl, mem_own h⟩
    · split at h
      · cases h
      · next o ho =>
        split at h
        · next v' hv =>
          cases h
          obtain ⟨p, hp, he⟩ := Option.map_eq_some_iff.1 hv
          exact ⟨o, .inr ⟨x, ho⟩, p, List.mem_of_find?_eq_some hp, he⟩
        · cases h
  · exact ⟨s, .inl rfl, mem_own h⟩

/-- A character that is put in is one of the owner's name or of the literal of a property. -/
theorem mem_resolveFrom {c : Char} (h : resolveFrom raw forced s L d rest = .ok r)
    (hc : c ∈ r.text) : c ∈ rest ∨ c ∈ s.name ∨
      ∃ o, (o = s ∨ ∃ x, L x = some o) ∧ ∃ p ∈ o.properties, c ∈ p.value.literal := by
  obtain ⟨cut, rfl⟩ := Cut.exists_text_eq rest
  obtain ⟨hall, rfl⟩ := resolveFrom_ok_iff.1 h
  refine (Cut.mem_filled hc).imp_right ?_
  rintro ⟨token, hm, hc⟩
  unfold textOf at hc
  split at hc
  · exact .inl hc
  · next ht =>
    obtain ⟨v, hv⟩ := (hall token hm).2.resolve_left ht
    obtain ⟨o, ho, p, hp, rfl⟩ := mem_valueOf hv
    rw [literalOf, hv] at hc
    exact .inr ⟨o, ho, p, hp, hc⟩

/-! ## More sections -/

/-- A token that has a value has it where more sections are found. -/
theorem valueOf_mono {v : Value} (h : valueOf s L token = .ok v)
    (hM : Lookup.LeOn (fun x => x ≠ s.name ∧ ∃ key, token.splitAt? '.' = some (x, key)) L M) :
    valueOf s M token = .ok v := by
  simp only [valueOf] at h ⊢
  split at h
  · next name key hs =>
    split at h
    · next hn => simp only [hn, if_true, h]
    · next hn =>
      split at h
      · cases h
      · next o hL => simp only [hn, if_false, hM name o ⟨hn, key, hs⟩ hL, h]
  · exact h

/-- A value that was resolved is resolved alike where more sections are found. -/
theorem resolve_mono {a : Note}
    (h : resolve raw a s L = .ok r)
    (hM : Lookup.LeOn (fun x => x ≠ s.name ∧ x ∈ namesFrom raw) L M) :
    resolve raw a s M = .ok r := by
  rw [← h]
  refine resolveFrom_congr rfl fun token hm ht => ?_
  obtain ⟨v, hv⟩ := (stands_of_resolveFrom h token hm).2.resolve_left ht
  have hv' := valueOf_mono hv (hM.mono fun x hx => ⟨hx.1, mem_namesFrom.2 ⟨token, hm, hx.2⟩⟩)
  rw [literalOf, literalOf, hv, hv']

end Reference

end Lineage
