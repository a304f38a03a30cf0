import Lineage.Proofs.Construction.Run
import Lineage.Proofs.Construction.Twins
import Lineage.Proofs.Property.Written
import Lineage.Proofs.Property.Reread
import Lineage.Proofs.Section.Listed
/-!
# Sections built from their differences

A section that was written as differences is built with the values that it had, and its heirs take
the same from it (`ofBlock_diff`), if its lines tell all that heirs need (`Section.Reloadable`).
-/
namespace Lineage

open Source Section Reference

/-- Where the names of its heirs are in `N`, the lines of a section tell its differences. -/
structure Section.Reloadable (N : Text → Prop) (s : Section) : Prop where
  /-- No mark cuts a literal, and nothing in it is taken for a reference. -/
  literal : ∀ p ∈ s.written .diff, ∀ c ∈ p.value.literal, Note.isMark c = false ∧ c ≠ '$'
  /-- Heirs find the derivations that were noted. -/
  note : (∃ n, N n) → ∀ p ∈ s.written .diff,
    (Note.parse p.note.render).derivation = p.note.derivation
  /-- What an heir reads to derive another property is written before it exactly if it stands
  before it. -/
  order : ∀ n, N n → ∀ p ∈ s.written .diff, ∀ q ∈ s.written .diff, ∀ raw,
    p.derivation.isSome = true → q.derivation = some (.expression raw) → Reads n raw p.key →
      ([p, q].Sublist (s.written .diff) ↔ [p, q].Sublist s.properties)

namespace Construction

/-- Built again, a section has the values that it had, and heirs whose names are in `N` take the
same from it. -/
structure Reloaded (N : Text → Prop) (t s : Section) : Prop where
  name : t.name = s.name
  parents : t.parents = s.parents
  values : t.SameValues s
  twins : (∃ n, N n) → Twins N t s

variable {L M : Lookup} {b : Block} {m m' s t : Section} {ps qs : List Property} {p q : Property}
  {N : Text → Prop} {owner : Text} {ds : List Declaration}

/-! ## Declared properties -/

theorem settled_of_declaredBy (h : DeclaredBy owner L ds p) : p.Settled := by
  obtain ⟨d, -, m, q, -, hq, rfl⟩ := h
  exact (Property.settled_of_property hq).attach owner

theorem readable_of_declaredBy (h : DeclaredBy owner L ds p) : p.value.Readable := by
  obtain ⟨d, -, m, q, -, hq, rfl⟩ := h
  have hr := Property.readable_of_property hq
  exact hr

theorem marks_of_declaredBy (h : DeclaredBy owner L ds p) :
    p.inherited = false ∧ p.modified = false := by
  obtain ⟨d, -, m, q, -, hq, rfl⟩ := h
  obtain ⟨r, -, hp⟩ := property_ok_iff.1 hq
  split at hp
  · obtain ⟨t, -, rfl⟩ := hp
    exact ⟨rfl, rfl⟩
  · subst hp
    exact ⟨rfl, rfl⟩

theorem alike_reread (h : DeclaredBy owner L ds p)
    (hn : (Note.parse p.note.render).derivation = p.note.derivation) :
    (p.reread.attach owner).Alike p := by
  obtain ⟨hi, hm⟩ := marks_of_declaredBy h
  have hv := Property.value_reread (readable_of_declaredBy h) owner
  have hd := Property.derivation_reread (settled_of_declaredBy h) hn
  exact ⟨hv, hd, hi.symm, hm.symm⟩

/-! ## Declared over merged properties -/

theorem get?_overlay (s : Section) (ps : List Property) (key : Text) :
    get? { s with properties := overlay s.properties ps } key =
      (ps.find? (·.key == key)).or (s.get? key) :=
  find?_overlay s.properties ps key

theorem Shape.name_merged (h : Shape L b m ps s) : m.name = s.name :=
  (name_of_mergeParents h.merged).trans h.name.symm

theorem Shape.get?_eq (h : Shape L b m ps s) (key : Text) :
    s.get? key = (ps.find? (·.key == key)).or (m.get? key) := by
  rw [get?, h.properties, find?_overlay]
  rfl

theorem Shape.written_perm (h : Shape L b m ps s) : (s.written .diff).Perm ps := by
  rw [written_diff, h.filter_isDifference]
  exact grouped_perm ps

theorem Shape.declared_of_written (h : Shape L b m ps s) (hp : p ∈ s.written .diff) :
    DeclaredBy b.name L b.declarations p :=
  h.declared p (h.written_perm.mem_iff.1 hp)

/-- What is built from the lines of the differences over what is merged. -/
def rebuilt (m' s : Section) : Section :=
  { m' with properties := overlay m'.properties (redeclared m'.name (s.written .diff)) }

/-- What relates merged properties and also those on the lines relates the properties. -/
theorem Shape.rel_rebuilt (h : Shape L b m ps s) {R : Property → Property → Prop} {key : Text}
    (hm : Option.Rel R (m'.get? key) (m.get? key))
    (hps : ∀ p ∈ ps, R (p.reread.attach m'.name) p) :
    Option.Rel R ((rebuilt m' s).get? key) (s.get? key) := by
  have hnodup := (h.written_perm.map Property.key).nodup_iff.2 h.nodup
  rw [rebuilt, get?_overlay, redeclared, List.find?_map, h.get?_eq]
  change Option.Rel R (((s.written .diff).find? (·.key == key)).map _ |>.or _) _
  rw [find?_perm h.written_perm hnodup]
  cases hp : ps.find? (·.key == key) with
  | none => exact hm
  | some p => exact .some (hps p (List.mem_of_find?_eq_some hp))

theorem pair_map_key (hn : (ps.map Property.key).Nodup) (hp : p ∈ ps) (hq : q ∈ ps) :
    [p.key, q.key].Sublist (ps.map Property.key) ↔ [p, q].Sublist ps := by
  refine ⟨fun h => ?_, fun h => h.map Property.key⟩
  obtain ⟨l, hl, he⟩ := List.sublist_map_iff.1 h
  obtain ⟨p', l', rfl, hp', he⟩ := List.map_eq_cons_iff.1 he.symm
  obtain ⟨q', l', rfl, hq', he⟩ := List.map_eq_cons_iff.1 he
  obtain rfl := List.map_eq_nil_iff.1 he
  obtain rfl := List.inj_on_of_nodup_map hn (left_mem_of_pair hl) hp hp'
  obtain rfl := List.inj_on_of_nodup_map hn (right_mem_of_pair hl) hq hq'
  exact hl

/-- Declared properties are written in an order that heirs cannot tell from that in which they
stand. -/
theorem Shape.pair_written (h : Shape L b m ps s) (hs : s.Reloadable N) {n j k raw : Text}
    (hn : N n) (hj : j ∈ ps.map Property.key) (hk : k ∈ ps.map Property.key)
    (hd : s.Derives k raw) (hr : Reads n raw j) (hjd : s.IsDerived j) :
    [j, k].Sublist ((s.written .diff).map Property.key) ↔ [j, k].Sublist (ps.map Property.key) := by
  obtain ⟨p, hp, rfl⟩ := List.mem_map.1 hj
  obtain ⟨q, hq, rfl⟩ := List.mem_map.1 hk
  have hin : ∀ r ∈ ps, r ∈ s.written .diff ∧ s.get? r.key = some r ∧ r.isDifference = true := by
    intro r hr
    have hw := h.written_perm.mem_iff.2 hr
    obtain ⟨hm, hd⟩ := mem_written_diff.1 hw
    exact ⟨hw, (get?_eq_some_iff h.nodup_keys).2 ⟨hm, rfl⟩, hd⟩
  obtain ⟨hpw, hpg, hpd⟩ := hin p hp
  obtain ⟨hqw, hqg, hqd⟩ := hin q hq
  have hnodup := (h.written_perm.map Property.key).nodup_iff.2 h.nodup
  rw [pair_map_key hnodup hpw hqw, pair_map_key h.nodup hp hq]
  obtain ⟨q', hq', he⟩ := hd
  obtain rfl := Option.some.inj (hqg.symm.trans hq')
  rw [IsDerived, hpg, Option.any_some] at hjd
  rw [hs.order n hn p hpw q hqw raw hjd he hr, ← h.filter_isDifference, pair_sublist_filter]
  exact ⟨fun h => ⟨hpd, hqd, h⟩, fun h => h.2.2⟩

/-! ## Building again -/

theorem twins_new (N : Text → Prop) (name : Text) : Twins N (.new name) (.new name) := by
  refine ⟨⟨rfl, fun _ => .none⟩, ?_, List.nodup_nil, List.nodup_nil⟩
  rintro n - j k raw - - hj
  cases hj

/-- Where an heir reads a derived property to derive another, both stand in the same order in the
section and in what its lines rebuild. -/
theorem Shape.ordered_rebuilt (h : Shape L b m ps s) (hs : s.Reloadable N) (hm : Twins N m' m) :
    Ordered N (rebuilt m' s) s := by
  intro n hn j k raw hk hj hjd
  have hkeys : s.keys = m.keys.filter (· ∉ ps.map Property.key) ++ ps.map Property.key := by
    rw [keys, h.properties, map_key_overlay]
    rfl
  have hkeys' : (rebuilt m' s).keys = m'.keys.filter (· ∉ (s.written .diff).map Property.key) ++
      (s.written .diff).map Property.key := by
    rw [keys, rebuilt, map_key_overlay, map_key_redeclared]
    rfl
  have hget : ∀ key, key ∉ ps.map Property.key → s.get? key = m.get? key := fun key hkey => by
    rw [h.get?_eq, find?_eq_none_iff.2 hkey, Option.none_or]
  rw [hkeys, hkeys']
  refine pair_sublist_overlay (fun _ => hm.alike.mem_keys_iff)
    (fun _ => (h.written_perm.map Property.key).mem_iff) (fun hjp hkp => ?_) fun hjp hkp => ?_
  · rw [Derives, hget k hkp] at hk
    rw [IsDerived, hget j hjp] at hjd
    exact hm.ordered n hn j k raw hk hj hjd
  · exact h.pair_written hs hn hjp hkp hk hj hjd

/-- Heirs take the same from a section and from what its lines rebuild. -/
theorem Shape.twins_rebuilt (h : Shape L b m ps s) (hs : s.Reloadable N) (hm : Twins N m' m)
    (hN : ∃ n, N n) : Twins N (rebuilt m' s) s := by
  refine ⟨⟨?_, fun key => ?_⟩, h.ordered_rebuilt hs hm, h.nodup_keys, ?_⟩
  · exact hm.alike.name.trans h.name_merged
  · refine h.rel_rebuilt (hm.alike.get? key) fun p hp => ?_
    have hd := h.declared p hp
    rw [hm.alike.name, name_of_mergeParents h.merged]
    exact alike_reread hd (hs.note hN p (h.written_perm.mem_iff.2 hp))
  · rw [keys, rebuilt]
    refine nodup_overlay hm.nodup' ?_
    rw [map_key_redeclared]
    exact (h.written_perm.map Property.key).nodup_iff.2 h.nodup

theorem Shape.values_rebuilt (h : Shape L b m ps s) (hm : m'.Alike m) :
    (rebuilt m' s).SameValues s := by
  intro key
  have hmerged : Option.Rel (fun q p : Property => q.value.Alike p.value) (m'.get? key)
      (m.get? key) := rel_imp (fun _ _ ha => ha.value) (hm.get? key)
  refine rel_map (fun _ _ hv => hv) (h.rel_rebuilt hmerged fun p hp => ?_)
  rw [hm.name, name_of_mergeParents h.merged]
  exact Property.value_reread (readable_of_declaredBy (h.declared p hp)) b.name

theorem Shape.declareLines_written (h : Shape L b m ps s) (hs : s.Reloadable N)
    (hn : m'.keys.Nodup) (M : Lookup) :
    declareLines true M m' ((s.written .diff).map Property.declaration) = .ok (rebuilt m' s) := by
  refine declareLines_declarations (fun p hp => ⟨?_, fun hm => (hs.literal p hp _ hm).2 rfl⟩)
    ((h.written_perm.map Property.key).nodup_iff.2 h.nodup) hn
  exact settled_of_declaredBy (h.declared_of_written hp)

/-- A section that was built from a block, whose parents' twins are found, is built again from its
differences. -/
theorem ofBlock_diff (h : ofBlock b L true = .ok s) (hL : ∀ x o, L x = some o → o.name = x)
    (hM : ∀ x o, M x = some o → o.name = x) (hs : s.Reloadable N)
    (hp : ∀ p ∈ s.parents, Serves N s.name M L p) :
    ∃ t, ofBlock (s.block .diff) M true = .ok t ∧ Reloaded N t s := by
  obtain ⟨m, ps, hshape⟩ := ofBlock_shape h hL
  have hmerged := hshape.merged
  rw [← hshape.name, ← hshape.parents] at hmerged
  obtain ⟨m', hm', htwins⟩ := mergeParents_twins hmerged (twins_new N s.name) hp 0
  refine ⟨rebuilt m' s, ?_, htwins.alike.name.trans hshape.name_merged,
    parents_of_mergeParents hm' hM, hshape.values_rebuilt htwins.alike,
    fun hN => hshape.twins_rebuilt hs htwins hN⟩
  unfold ofBlock
  simp only [block, if_pos, hm']
  exact hshape.declareLines_written hs htwins.nodup' M

end Construction

end Lineage
