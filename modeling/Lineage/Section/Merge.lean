import Lineage.Reference
import Lineage.Expression.Group
/-!
# Merging a parent into an heir

An heir takes a copy of every property of its parent; copies come last and so override. Copies
with a derivation are then derived again in the heir, one after another. A merge that fails leaves
what it had done by then.
-/
namespace Lineage.Section

/-- Finds only the given section. -/
def only (s : Section) : Lookup := fun name => if s.name = name then some s else none

/-- Notes the parent and appends the heir's copies of its properties. -/
def appendCopies (s parent : Section) : Section :=
  { s with
    parents := s.parents ++ [parent.name]
    properties := s.properties ++ parent.properties.map (·.inheritedBy s.name) }

/-- The keys of the properties with a derivation. -/
def derivedKeys (s : Section) : List Text :=
  (s.properties.filter (·.derivation.isSome)).map Property.key

/-- The value of an expression of the heir `s`. -/
def valueOfExpression (s : Section) (raw : Text) (note : Note) (others : Lookup) :
    Except Fault Value :=
  match Reference.resolve raw note s others with
  | .error c => .error (.of c)
  | .ok r => match Expression.evaluate r.text with
    | .error f => .error (.of (.expression f))
    | .ok t => .ok (.infer t)

/-- The value that an inherited property has in the heir `s` of the section `parent`, if it is
derived and was not changed. -/
def rederived? (s : Section) (p : Property) (parent : Text) (others : Lookup) :
    Except Fault (Option Value) :=
  if !p.inherited || p.modified then .ok none
  else match p.derivation, p.value with
    | some .selfReference, .text t => .ok (some (.text (t.replaceAll parent s.name)))
    | some (.expression raw), _ => (s.valueOfExpression raw p.note others).map some
    | _, _ => .ok none

/-- Derives the property with the key again. -/
def rederive (s : Section) (parent key : Text) (others : Lookup) : Except Fault Section :=
  match s.get? key with
  | none => .ok s
  | some p => match s.rederived? p parent others with
    | .error f => .error f
    | .ok none => .ok s
    | .ok (some v) => .ok (s.modify key (·.setDerived v))

/-- Derives the properties with these keys again, one after another. -/
def rederiveAll (parent : Text) (others : Lookup) : List Text → Section → Attempt Section
  | [], s => ⟨s, .ok ()⟩
  | key :: keys, s => match s.rederive parent key others with
    | .error f => ⟨s, .error f⟩
    | .ok s => rederiveAll parent others keys s

/-- Merges a parent; derived values may refer to the other sections. -/
def inheritWith (s parent : Section) (overwrite : Bool) (others : Lookup) : Attempt Section :=
  match (s.appendCopies parent).validate overwrite with
  | .error f => ⟨s.appendCopies parent, .error f⟩
  | .ok merged => rederiveAll parent.name others parent.derivedKeys merged

/-- Merges a parent; derived values may refer to that parent only. -/
def inherit (s parent : Section) (overwrite : Bool) : Attempt Section :=
  s.inheritWith parent overwrite parent.only

/-- A section that inherits from the given ones, of which later ones override. -/
def withParents (name : Text) (parents : List Section) : Except Fault Section :=
  parents.foldlM (fun s parent => (s.inherit parent true).toExcept) (new name)

end Lineage.Section
