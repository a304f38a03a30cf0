import Lineage.Proofs.Property.Reread
import Lineage.Proofs.Section.Keys
import Lineage.Proofs.Section.Twins
/-!
# Building twins

What a block merges are the copies of its parents, so twins as parents lead to twins
(`mergeParents_twins`). Its own lines stand over these copies (`declareLines_ok`, `ofBlock_shape`).
Lines that were written for properties declare one property each (`declareLines_declarations`).
-/
/-! ## Declared lines -/

namespace Lineage.Construction

open Source Section

variable {L : Lookup} {m s : Section} {ds : List Declaration} {ps : List Property}

/-- A property that some line of the block declares in the section named `owner`. -/
def DeclaredBy (owner : Text) (L : Lookup) (ds : List Declaration) (p : Property) : Prop :=
  ∃ d ∈ ds, ∃ m q, m.name = owner ∧ property d m L = .ok q ∧ p = q.attach owner

theorem overlay_nil (ps : List Property) : overlay ps [] = ps := by
  simp [overlay]

/-- Lines that are declared one after another override, all at once, what stands under their keys.
-/
theorem declareLines_ok (h : declareLines true L m ds = .ok s) (hn : m.keys.Nodup) :
    ∃ ps, s = { m with properties := overlay m.properties ps } ∧ (ps.map Property.key).Nodup ∧
      ∀ p ∈ ps, DeclaredBy m.name L ds p := by
  induction ds generalizing m with
  | nil =>
    cases h
    exact ⟨[], by rw [overlay_nil], List.nodup_nil, by simp⟩
  | cons d ds ih =>
    obtain ⟨q, m', hq, hm, h⟩ := declareLines_cons_ok h
    rw [insert_eq hn] at hm
    cases hm
    obtain ⟨ps, hs, hps, hall⟩ := ih h (nodup_overlay hn (List.nodup_singleton _))
    refine ⟨overlay [q.attach m.name] ps, ?_, nodup_overlay (List.nodup_singleton _) hps,
      fun p hp => ?_⟩
    · rw [hs, overlay_overlay]
    · rcases List.mem_append.1 hp with hp | hp
      · obtain rfl := List.mem_singleton.1 (List.mem_filter.1 hp).1
        exact ⟨d, by simp, m, q, rfl, hq, rfl⟩
      · obtain ⟨d', hd', m', q', hm', hq', rfl⟩ := hall p hp
        exact ⟨d', by simp [hd'], m', q', hm', hq', rfl⟩

/-! ## Written lines -/

/-- What the lines of properties declare in the section named `owner`. -/
def redeclared (owner : Text) (ps : List Property) : List Property :=
  ps.map fun p => p.reread.attach owner

theorem map_key_redeclared (owner : Text) (ps : List Property) :
    (redeclared owner ps).map Property.key = ps.map Property.key := by
  rw [redeclared, List.map_map]
  rfl

/-- The lines of settled properties declare them again. -/
theorem declareLines_declarations (hs : ∀ p ∈ ps, p.Settled ∧ '$' ∉ p.value.literal)
    (hps : (ps.map Property.key).Nodup) (hn : m.keys.Nodup) :
    declareLines true L m (ps.map Property.declaration) =
      .ok { m with properties := overlay m.properties (redeclared m.name ps) } := by
  induction ps generalizing m with
  | nil =>
    rw [List.map_nil, redeclared, List.map_nil, overlay_nil]
    rfl
  | cons p ps ih =>
    rw [List.map_cons, List.nodup_cons] at hps
    have hnot : p.key ∉ (redeclared m.name ps).map Property.key := by
      rw [map_key_redeclared]
      exact hps.1
    have hn' : (keys ⟨m.name, m.parents, overlay m.properties [p.reread.attach m.name]⟩).Nodup :=
      nodup_overlay hn (List.nodup_singleton _)
    obtain ⟨hsettled, hdollar⟩ := hs p (by simp)
    rw [List.map_cons, declareLines, Property.property_reread hsettled hdollar]
    simp only
    rw [insert_eq hn]
    simp only
    rw [ih (fun q hq => hs q (by simp [hq])) hps.2 hn', overlay_overlay, overlay_cons]
    have hkey : (p.reread.attach m.name).key = p.key := rfl
    rw [if_neg (hkey ▸ hnot)]
    rfl

/-! ## Merged parents -/

open Reference

variable {M : Lookup} {s' t : Section} {N : Text → Prop} {ps : List Text} {line : Nat}

/-- What `L` finds as the parent `p` of a section named `heir`, `M` finds as its twin, together
with what its expressions name. -/
def Serves (N : Text → Prop) (heir : Text) (M L : Lookup) (p : Text) : Prop :=
  ∀ P, L p = some P → ∃ P' N', M p = some P' ∧ Twins N' P' P ∧ (∀ n, N n → N' n) ∧ N' heir ∧
    ∀ raw, P.Holds raw → Finds heir raw M L

/-- Sections from which heirs take the same stay such where parents of that kind are merged. -/
theorem mergeParents_twins (h : mergeParents line L s ps = .ok s') (hst : Twins N t s)
    (hps : ∀ p ∈ ps, Serves N s.name M L p) (line' : Nat) :
    ∃ t', mergeParents line' M t ps = .ok t' ∧ Twins N t' s' := by
  induction ps generalizing s t with
  | nil =>
    cases h
    exact ⟨t, rfl, hst⟩
  | cons p ps ih =>
    obtain ⟨P, m, hP, hm, h⟩ := mergeParents_cons_ok h
    obtain ⟨P', N', hP', htwins, hN, hs, hfinds⟩ := hps p (by simp) P hP
    obtain ⟨m', hm', hmm⟩ := inheritWith_twins hm hst htwins hN hs hfinds
    obtain ⟨t', ht', ha⟩ := ih h hmm fun q hq => by
      rw [name_of_inheritWith hm]
      exact hps q (by simp [hq])
    exact ⟨t', by simp only [mergeParents, hP', hm', ht'], ha⟩

/-! ## Merged properties -/

theorem parents_of_mergeParents (h : mergeParents line L s ps = .ok s')
    (hL : ∀ x o, L x = some o → o.name = x) : s'.parents = s.parents ++ ps := by
  induction ps generalizing s with
  | nil =>
    cases h
    exact (List.append_nil _).symm
  | cons p ps ih =>
    obtain ⟨P, m, hP, hm, h⟩ := mergeParents_cons_ok h
    rw [ih h, parents_of_inheritWith hm, hL p P hP]
    simp

theorem keys_of_inheritWith {parent : Section}
    (h : (s.inheritWith parent true L).toExcept = .ok s') :
    s'.keys = (keepLast Property.key (s.appendCopies parent).properties).map Property.key := by
  obtain ⟨m, hm, h⟩ := inheritWith_ok_iff.1 h
  rw [(sameShape_of_rederiveAll h).keys, validate_ok hm]
  rfl

theorem nodup_of_mergeParents (h : mergeParents line L s ps = .ok s') (hs : s.keys.Nodup) :
    s'.keys.Nodup := by
  induction ps generalizing s with
  | nil =>
    cases h
    exact hs
  | cons p ps ih =>
    obtain ⟨P, m, -, hm, h⟩ := mergeParents_cons_ok h
    refine ih h ?_
    rw [keys_of_inheritWith hm]
    exact nodup_keepLast _

/-- Merging leaves no differences behind: all that it brings are unchanged copies. -/
theorem isDifference_of_mergeParents (h : mergeParents line L s ps = .ok s')
    (hs : ∀ p ∈ s.properties, p.isDifference = false) :
    ∀ p ∈ s'.properties, p.isDifference = false := by
  induction ps generalizing s with
  | nil =>
    cases h
    exact hs
  | cons p ps ih =>
    obtain ⟨P, m, -, hm, h⟩ := mergeParents_cons_ok h
    refine ih h fun q hq => ?_
    obtain ⟨v, hv, hrun⟩ := inheritWith_ok_iff.1 hm
    have hmap := (sameShape_of_rederiveAll hrun).map_eq (f := Property.isDifference) fun _ => rfl
    have hq' : q.isDifference ∈ v.properties.map Property.isDifference :=
      hmap ▸ List.mem_map_of_mem hq
    obtain ⟨r, hr, he⟩ := List.mem_map.1 hq'
    obtain rfl := validate_ok hv
    replace hr := (keepLast_sublist _ _).subset hr
    simp only [appendCopies, List.mem_append, List.mem_map] at hr
    rw [← he]
    rcases hr with hr | ⟨o, -, rfl⟩
    · exact hs r hr
    · rfl

/-! ## Blocks -/

theorem isDifference_of_declaredBy {owner : Text} {ds : List Declaration} {p : Property}
    (h : DeclaredBy owner L ds p) : p.isDifference = true := by
  obtain ⟨d, -, m, q, -, hq, rfl⟩ := h
  obtain ⟨r, -, hp⟩ := property_ok_iff.1 hq
  split at hp
  · obtain ⟨t, -, rfl⟩ := hp
    rfl
  · subst hp
    rfl

/-- A section is its block's declared properties over those that the block merges. -/
structure Shape (L : Lookup) (b : Block) (m : Section) (ps : List Property) (s : Section) :
    Prop where
  merged : mergeParents b.line L (.new b.name) b.parents = .ok m
  name : s.name = b.name
  parents : s.parents = b.parents
  properties : s.properties = overlay m.properties ps
  nodup : (ps.map Property.key).Nodup
  nodup_merged : m.keys.Nodup
  declared : ∀ p ∈ ps, DeclaredBy b.name L b.declarations p
  inherited : ∀ p ∈ m.properties, p.isDifference = false

theorem ofBlock_shape {b : Block} (h : ofBlock b L true = .ok s)
    (hL : ∀ x o, L x = some o → o.name = x) : ∃ m ps, Shape L b m ps s := by
  obtain ⟨m, hm, h⟩ := ofBlock_ok h
  have hn := nodup_of_mergeParents hm List.nodup_nil
  obtain ⟨ps, rfl, hps, hall⟩ := declareLines_ok h hn
  have hname : m.name = b.name := name_of_mergeParents hm
  rw [hname] at hall
  exact ⟨m, ps, hm, hname, parents_of_mergeParents hm hL, rfl, hps, hn, hall,
    isDifference_of_mergeParents hm fun p hp => by cases hp⟩

theorem Shape.nodup_keys {b : Block} {ps : List Property} (h : Shape L b m ps s) :
    s.keys.Nodup := by
  rw [keys, h.properties]
  exact nodup_overlay h.nodup_merged h.nodup

/-- The properties that a block declares are those that differ from its parents'. -/
theorem Shape.filter_isDifference {b : Block} {ps : List Property} (h : Shape L b m ps s) :
    s.properties.filter (·.isDifference) = ps := by
  rw [h.properties, overlay, List.filter_append]
  have h1 : (m.properties.filter fun p => ! ps.any (·.key == p.key)).filter (·.isDifference) =
      [] := by
    rw [List.filter_eq_nil_iff]
    intro p hp hd
    rw [h.inherited p (List.mem_filter.1 hp).1] at hd
    cases hd
  have h2 : ps.filter (·.isDifference) = ps :=
    List.filter_eq_self.2 fun p hp => isDifference_of_declaredBy (h.declared p hp)
  rw [h1, h2, List.nil_append]

end Lineage.Construction
