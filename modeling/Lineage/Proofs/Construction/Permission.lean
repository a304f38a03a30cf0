import Lineage.Proofs.Construction.Overrides
import Lineage.Proofs.Section.Call
/-!
# Permission to override

Where declarations may not replace, a text stands for the same document as where they may, as long
as every block declares a key once and no key of its parents (`Once`). Otherwise it is refused as a
duplicate key (`kind_of_sectionsOf`). Parents are merged alike under both options, so the two runs
stay in step, line by line, up to the first line that replaces.
-/
namespace Lineage.Construction

open Source Section

variable {L M : Lookup} {s s' m : Section} {ps : List Text} {d : Declaration}
  {ds : List Declaration} {b : Block} {line : Nat} {key : Text} {f : Fault}

/-! ## Keys of merged parents -/

theorem mem_keys_inheritWith {P : Section} (h : (s.inheritWith P true L).toExcept = .ok s') :
    key ∈ s'.keys ↔ key ∈ s.keys ∨ key ∈ P.keys := by
  have happended : (s.appendCopies P).properties.map Property.key = s.keys ++ P.keys := by
    rw [appendCopies, List.map_append, map_key_inheritedBy]
    rfl
  rw [keys_of_inheritWith h, mem_map_key_keepLast, happended, List.mem_append]

/-- A section has taken over exactly the keys of its parents. -/
theorem mem_keys_mergeParents (h : mergeParents line L s ps = .ok m) :
    key ∈ m.keys ↔ key ∈ s.keys ∨ ∃ p ∈ ps, ∃ P, L p = some P ∧ key ∈ P.keys := by
  induction ps generalizing s with
  | nil =>
    cases h
    simp
  | cons p ps ih =>
    obtain ⟨P, s₁, hP, hs₁, h⟩ := mergeParents_cons_ok h
    rw [ih h, mem_keys_inheritWith hs₁, or_assoc]
    simp [hP]

/-! ## Lines -/

/-- A declaration that may not replace is one that does not. -/
theorem insert_forbidden {p : Property} :
    s.insert p false = .ok s' ↔ s.insert p true = .ok s' ∧ p.key ∉ s.keys := by
  rw [← hasKey_iff, Section.insert, Section.insert]
  cases s.hasKey p.key <;> simp

theorem keys_of_insert {p : Property} {overwrite : Bool} (h : s.insert p overwrite = .ok s')
    (hk : p.key ∉ s.keys) : s'.keys = s.keys ++ [p.key] := by
  have hkept := eraseP_of_not_hasKey (eq_false_of_ne_true fun hs => hk (hasKey_iff.1 hs))
  rw [insert_ok h, keys, hkept, List.map_append]
  rfl

/-- Lines that may not replace are lines with different keys, none of which was there before. -/
theorem declareLines_forbidden : declareLines false L m ds = .ok s ↔
    declareLines true L m ds = .ok s ∧ (ds.map Declaration.key).Nodup ∧
      ∀ d ∈ ds, d.key ∉ m.keys := by
  induction ds generalizing m with
  | nil => simp [declareLines]
  | cons d ds ih =>
    constructor
    · intro h
      obtain ⟨p, m', hp, hm', h⟩ := declareLines_cons_ok h
      obtain ⟨hreplace, hnew⟩ := insert_forbidden.1 hm'
      obtain ⟨hlines, hnodup, hfresh⟩ := ih.1 h
      -- the lines below differ from this one, too, since its key is taken by then
      rw [keys_of_insert hreplace hnew, Property.key_of_property hp] at hfresh
      simp only [List.mem_append, List.mem_singleton, not_or] at hfresh
      rw [Property.key_of_property hp] at hnew
      refine ⟨by simp only [declareLines, hp, hreplace, hlines], ?_, ?_⟩
      · rw [List.map_cons, List.nodup_cons, List.mem_map]
        refine ⟨?_, hnodup⟩
        rintro ⟨d', hd', hkey⟩
        exact (hfresh d' hd').2 hkey
      · rintro d' (_ | ⟨_, hd'⟩)
        · exact hnew
        · exact (hfresh d' hd').1
    · rintro ⟨h, hnodup, hfresh⟩
      obtain ⟨p, m', hp, hm', h⟩ := declareLines_cons_ok h
      rw [List.map_cons, List.nodup_cons, List.mem_map] at hnodup
      have hnew : p.key ∉ m.keys := by
        rw [Property.key_of_property hp]
        exact hfresh d (by simp)
      simp only [declareLines, hp, insert_forbidden.2 ⟨hm', hnew⟩]
      refine ih.2 ⟨h, hnodup.2, ?_⟩
      intro d' hd'
      rw [keys_of_insert hm' hnew, List.mem_append, List.mem_singleton,
        Property.key_of_property hp]
      rintro (hk | hk)
      · exact hfresh d' (by simp [hd']) hk
      · exact hnodup.1 ⟨d', hd', hk⟩

/-- Lines that only replacing lets through stop at a duplicate key. -/
theorem kind_of_declareLines (h : declareLines true L m ds = .ok s)
    (hf : declareLines false L m ds = .error f) : f.kind = .duplicateKey := by
  induction ds generalizing m with
  | nil => cases hf
  | cons d ds ih =>
    obtain ⟨p, m', hp, hm', h⟩ := declareLines_cons_ok h
    simp only [declareLines, hp] at hf
    split at hf
    · next g hg =>
      cases hf
      obtain ⟨-, rfl⟩ := insert_eq_error hg
      rfl
    · next m'' hm'' =>
      -- both runs go on from the same section
      obtain rfl : m' = m'' := Except.ok.inj (hm'.symm.trans (insert_overwrite hm''))
      exact ih h hf

/-! ## Blocks -/

/-- The block declares a key once, and no key of a parent that `L` finds. -/
structure Once (L : Lookup) (b : Block) : Prop where
  nodup : (b.declarations.map Declaration.key).Nodup
  fresh : ∀ d ∈ b.declarations, ∀ p ∈ b.parents, ∀ P, L p = some P → d.key ∉ P.keys

theorem Once.anti (h : Once M b) (hM : ∀ x P, L x = some P → M x = some P) : Once L b :=
  ⟨h.nodup, fun d hd p hp P hP => h.fresh d hd p hp P (hM p P hP)⟩

/-- Without permission to replace, a block yields its section only where each key comes up once. -/
theorem ofBlock_forbidden :
    ofBlock b L false = .ok s ↔ ofBlock b L true = .ok s ∧ Once L b := by
  unfold ofBlock
  cases hm : mergeParents b.line L (.new b.name) b.parents with
  | error f => simp
  | ok m =>
    simp only
    rw [declareLines_forbidden]
    refine and_congr_right fun _ => ?_
    -- the keys that were merged are the keys of the parents
    have hkeys (key : Text) : key ∈ m.keys ↔ ∃ p ∈ b.parents, ∃ P, L p = some P ∧ key ∈ P.keys := by
      rw [mem_keys_mergeParents hm]
      exact or_iff_right (List.not_mem_nil)
    constructor
    · rintro ⟨hnodup, hfresh⟩
      refine ⟨hnodup, ?_⟩
      intro d hd p hp P hP hk
      exact hfresh d hd ((hkeys _).2 ⟨p, hp, P, hP, hk⟩)
    · rintro ⟨hnodup, hfresh⟩
      refine ⟨hnodup, ?_⟩
      intro d hd hk
      obtain ⟨p, hp, P, hP, hk⟩ := (hkeys _).1 hk
      exact hfresh d hd p hp P hP hk

theorem kind_of_ofBlock (h : ofBlock b L true = .ok s) (hf : ofBlock b L false = .error f) :
    f.kind = .duplicateKey := by
  obtain ⟨m, hm, h⟩ := ofBlock_ok h
  simp only [ofBlock, hm] at hf
  exact kind_of_declareLines h hf

/-! ## Runs -/

variable {blocks bs : List Block} {built ss final : List Section}

theorem Builds.permitted (h : Builds false built bs final) : Builds true built bs final := by
  induction h with
  | nil => exact .nil
  | cons hs _ ih => exact .cons (ofBlock_forbidden.1 hs).1 ih

/-- A run in which no block replaces anything, as seen in the end, needs no permission. -/
theorem Builds.forbidden (h : Builds true built bs final) (ho : ∀ b ∈ bs, Once (find final) b) :
    Builds false built bs final := by
  induction h with
  | nil => exact .nil
  | @cons built final b bs s hs h ih =>
    have honce : Once (find built) b := by
      apply (ho b List.mem_cons_self).anti
      intro x P hP
      -- what was built by then is found in the end, too
      exact find_of_isPrefix ((List.prefix_append ..).trans h.isPrefix) hP
    apply Builds.cons (ofBlock_forbidden.2 ⟨hs, honce⟩)
    apply ih
    intro b' hb'
    exact ho b' (List.mem_cons_of_mem b hb')

/-- A run that only replacing lets through stops at a duplicate key. -/
theorem kind_of_buildInOrder {order : List Nat}
    (h : buildInOrder blocks true built order = .ok final)
    (hf : buildInOrder blocks false built order = .error f) : f.kind = .duplicateKey := by
  induction order generalizing built with
  | nil => cases hf
  | cons i order ih =>
    cases hb : blocks[i]? with
    | none =>
      simp only [buildInOrder, hb] at h hf
      exact ih h hf
    | some b =>
      simp only [buildInOrder, hb] at h hf
      split at h
      · cases h
      · next s hs =>
        split at hf
        · next g hg =>
          cases hf
          exact kind_of_ofBlock (f := g) hs hg
        · next s' hs' =>
          -- both runs go on from the same sections
          obtain rfl : s = s' := Except.ok.inj (hs.symm.trans (ofBlock_forbidden.1 hs').1)
          exact ih h hf

/-- A run without permission does what one with permission does, or fails. -/
theorem sectionsOf_forbidden : sectionsOf blocks false = .ok ss ↔
    sectionsOf blocks true = .ok ss ∧ ∀ b ∈ blocks, Once (find ss) b := by
  constructor
  · intro h
    have hall := finished_of_sectionsOf h
    obtain ⟨order, built, horder, hbuilds, hss⟩ := sectionsOf_ok_iff.1 h
    refine ⟨sectionsOf_ok_iff.2 ⟨order, built, horder, hbuilds.permitted, hss⟩, ?_⟩
    intro b hb
    obtain ⟨s, -, -, hs⟩ := exists_right_of_forall₂ hall hb
    exact (ofBlock_forbidden.1 hs).2
  · rintro ⟨h, honce⟩
    obtain ⟨order, built, horder, hbuilds, rfl⟩ := sectionsOf_ok_iff.1 h
    have hperm := arrange_perm horder
    have hfind := hbuilds.find_filterMap hperm (names_nodup_of_construction horder)
    rw [hfind] at honce
    have hforbidden : Builds false [] (arrange blocks order) built := by
      apply hbuilds.forbidden
      intro b hb
      exact honce b (hperm.mem_iff.1 hb)
    exact sectionsOf_ok_iff.2 ⟨order, built, horder, hforbidden, rfl⟩

/-- Where permission is all that is missing, the fault names a repeated key. -/
theorem kind_of_sectionsOf (h : sectionsOf blocks true = .ok ss)
    (hf : sectionsOf blocks false = .error f) : f.kind = .duplicateKey := by
  unfold sectionsOf at h hf
  cases horder : Order.construction (blocks.map node) with
  | error g =>
    rw [horder] at h
    cases h
  | ok order =>
    simp only [horder] at h hf
    cases htrue : buildInOrder blocks true [] order with
    | error g =>
      rw [htrue] at h
      cases h
    | ok built =>
      cases hfalse : buildInOrder blocks false [] order with
      | error g =>
        rw [hfalse] at hf
        cases hf
        exact kind_of_buildInOrder htrue hfalse
      | ok built' =>
        rw [hfalse] at hf
        cases hf

end Lineage.Construction
