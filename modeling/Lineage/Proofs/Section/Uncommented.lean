import Lineage.Proofs.Reference.Tokens
import Lineage.Proofs.Section.Frame
/-!
# Sections without free comments

`uncommented` takes the free text of its comment off every property and leaves the derivation. What
is done with a section afterwards comes to the same: each operation that building a section uses
commutes with `uncommented`, in what it yields and in how it fails.
-/
namespace Lineage

/-- A property without the free text of its comment. -/
def Property.uncommented (p : Property) : Property := p.setComment none

/-- A section without the free text of comments. -/
def Section.uncommented (s : Section) : Section :=
  { s with properties := s.properties.map Property.uncommented }

/-- Finds the sections without the free text of comments. -/
def Lookup.uncommented (L : Lookup) : Lookup := fun x => (L x).map Section.uncommented

variable {s : Section} {L : Lookup} {raw : Text}

/-! ## Properties -/

namespace Property

@[simp] theorem uncommented_key (p : Property) : p.uncommented.key = p.key := rfl

@[simp] theorem uncommented_value (p : Property) : p.uncommented.value = p.value := rfl

@[simp] theorem uncommented_derivation (p : Property) :
    p.uncommented.derivation = p.derivation := rfl

@[simp] theorem uncommented_attach (p : Property) (owner : Text) :
    (p.attach owner).uncommented = p.uncommented.attach owner := rfl

end Property

/-! ## Reading a section -/

namespace Section

@[simp] theorem uncommented_name (s : Section) : s.uncommented.name = s.name := rfl

@[simp] theorem get?_uncommented (s : Section) (key : Text) :
    s.uncommented.get? key = (s.get? key).map Property.uncommented :=
  List.find?_map

@[simp] theorem value?_uncommented (s : Section) (key : Text) :
    s.uncommented.value? key = s.value? key := by
  rw [value?, get?_uncommented, Option.map_map]
  rfl

@[simp] theorem hasKey_uncommented (s : Section) (key : Text) :
    s.uncommented.hasKey key = s.hasKey key := by
  rw [hasKey, get?_uncommented, Option.isSome_map, hasKey]

theorem derivedKeys_uncommented (s : Section) : s.uncommented.derivedKeys = s.derivedKeys := by
  simp only [derivedKeys, uncommented, List.filter_map, List.map_map]
  rfl

end Section

namespace Reference

theorem valueOf_uncommented (s : Section) (L : Lookup) (token : Text) :
    valueOf s.uncommented L.uncommented token = valueOf s L token := by
  simp only [valueOf, own, Section.value?_uncommented, Section.uncommented_name]
  split
  · next name key _ =>
    split
    · rfl
    · cases h : L name <;> simp [Lookup.uncommented, h]
  · rfl

/-- Whether a value is evaluated in any case depends on its text and on its comment apart. -/
theorem forcesEvaluation_eq (raw : Text) (a : Note) :
    forcesEvaluation raw a = (raw.contains '(' || forcesEvaluation [] a) := by
  simp [forcesEvaluation, Bool.or_assoc]

/-- Of the note, resolving reads the derivation and whether the value is evaluated in any case. -/
theorem resolve_uncommented {a b : Note} (hd : a.derivation = b.derivation)
    (hf : forcesEvaluation raw a = forcesEvaluation raw b) :
    resolve raw a s.uncommented L.uncommented = resolve raw b s L := by
  rw [resolve, resolve, hd, hf]
  apply resolveFrom_congr (Section.uncommented_name s)
  intro token _ _
  rw [literalOf, valueOf_uncommented, literalOf]

end Reference

/-! ## Merging -/

namespace Section

/-- A noted expression is evaluated with or without a comment. -/
theorem valueOfExpression_uncommented {a b : Note} (hd : a.derivation = b.derivation)
    (he : b.isExpression = true) :
    s.uncommented.valueOfExpression raw a L.uncommented = s.valueOfExpression raw b L := by
  have ha : a.isExpression = true := by rwa [Note.isExpression, hd]
  have hforced : Reference.forcesEvaluation raw a = Reference.forcesEvaluation raw b := by
    simp [Reference.forcesEvaluation, ha, he]
  rw [valueOfExpression, Reference.resolve_uncommented hd hforced, valueOfExpression]

/-- The value of a copy does not depend on free comments. -/
theorem copyValue_uncommented (s : Section) (p : Property) (name : Text) (L : Lookup) :
    s.uncommented.copyValue name L.uncommented p.uncommented = s.copyValue name L p := by
  unfold copyValue
  rw [Property.uncommented_derivation, Property.uncommented_value, uncommented_name]
  cases hp : p.derivation with
  | none => rfl
  | some d =>
    cases d with
    | selfReference => rfl
    | expression raw =>
      -- the comment would count only if there were no expression
      have he : p.note.isExpression = true := by
        have hnote : p.note.derivation = some (.expression raw) := hp
        rw [Note.isExpression, hnote]
        rfl
      have hd : p.uncommented.note.derivation = p.note.derivation := rfl
      exact valueOfExpression_uncommented hd he

theorem uncommented_modify (s : Section) (key : Text) (v : Value) :
    (s.modify key (·.setDerived v)).uncommented =
      s.uncommented.modify key (·.setDerived v) := by
  have hmap : modifyFirst Property.key (·.setDerived v) key
      (s.properties.map Property.uncommented) =
        (modifyFirst Property.key (·.setDerived v) key s.properties).map Property.uncommented := by
    refine modifyFirst_map Property.uncommented_key ?_ s.properties
    exact fun _ => rfl
  simp only [modify, uncommented, hmap]

/-- Nor does deriving it again. -/
theorem rederive_uncommented (s : Section) (name key : Text) (L : Lookup) :
    s.uncommented.rederive name key L.uncommented =
      (s.rederive name key L).map uncommented := by
  have hget := get?_uncommented s key
  cases hs : s.get? key with
  | none =>
    rw [hs, Option.map_none] at hget
    rw [rederive_of_none hs, rederive_of_none hget]
    rfl
  | some p =>
    rw [hs, Option.map_some] at hget
    cases hp : p.isDifference with
    | true =>
      rw [rederive_of_difference hs hp, rederive_of_difference hget hp]
      rfl
    | false =>
      rw [rederive_of_copy hs hp, rederive_of_copy hget hp, copyValue_uncommented]
      cases s.copyValue name L p with
      | error f => rfl
      | ok v => exact congrArg Except.ok (uncommented_modify s key v).symm

theorem rederiveAll_uncommented (s : Section) (name : Text) (L : Lookup) (keys : List Text) :
    (rederiveAll name L.uncommented keys s.uncommented).toExcept =
      (rederiveAll name L keys s).toExcept.map uncommented := by
  induction keys generalizing s with
  | nil => rfl
  | cons key keys ih =>
    unfold rederiveAll
    rw [rederive_uncommented]
    cases s.rederive name key L with
    | error f => rfl
    | ok m => exact ih m

theorem uncommented_appendCopies (s parent : Section) :
    (s.appendCopies parent).uncommented = s.uncommented.appendCopies parent.uncommented := by
  simp only [appendCopies, uncommented, List.map_append, List.map_map]
  rfl

theorem inheritWith_uncommented (s parent : Section) (L : Lookup) :
    (s.uncommented.inheritWith parent.uncommented true L.uncommented).toExcept =
      (s.inheritWith parent true L).toExcept.map uncommented := by
  have hmerged : ({ (s.appendCopies parent).uncommented with
      properties := keepLast Property.key (s.appendCopies parent).uncommented.properties } :
        Section) =
      uncommented { s.appendCopies parent with
        properties := keepLast Property.key (s.appendCopies parent).properties } := by
    simp only [uncommented, keepLast_map Property.uncommented_key]
  simp only [inheritWith, validate]
  rw [← uncommented_appendCopies, hmerged, derivedKeys_uncommented, uncommented_name]
  exact rederiveAll_uncommented _ parent.name L parent.derivedKeys

/-! ## Declaring -/

theorem insert_uncommented (s : Section) (p : Property) (overwrite : Bool) :
    s.uncommented.insert p.uncommented overwrite = (s.insert p overwrite).map uncommented := by
  unfold Section.insert
  rw [hasKey_uncommented, Property.uncommented_key]
  split
  · rfl
  · simp only [Except.map, uncommented, List.map_append, List.eraseP_map, Function.comp_def,
      Property.uncommented_key, List.map_cons, List.map_nil, Property.uncommented_attach]

end Section

end Lineage
