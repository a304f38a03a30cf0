import Lineage.Effect
import Lineage.Section.Merge
/-!
# Calls on sections

Each call on a section as a program: its effects in the order in which they happen, and the places
where it may stop between them.
-/
namespace Lineage.Section

open Effect (change)

/-- Declares a property: the one with its key goes, and it comes last. -/
def insertion (p : Property) (overwrite : Bool) : Effect Section Unit := do
  let s ← get
  if s.hasKey p.key then
    unless overwrite do throw (s.duplicateKey p.key)
    change (·.erase p.key)
  change fun s => { s with properties := s.properties ++ [p.attach s.name] }

/-- Looks for repeated keys, and then drops all but their last declarations. -/
def validation (overwrite : Bool) : Effect Section Unit := do
  let s ← get
  match overwrite, lastRepeated? s.properties with
  | false, some key => throw (s.duplicateKey key)
  | _, _ => change fun s => { s with properties := keepLast Property.key s.properties }

/-- Derives the property with the key again. -/
def rederivation (parent : Text) (others : Lookup) (key : Text) : Effect Section Unit := do
  let s ← get
  match s.get? key with
  | none => pure ()
  | some p => match s.rederived? p parent others with
    | .error f => throw f
    | .ok none => pure ()
    | .ok (some v) => change (·.modify key (·.setDerived v))

/-- Notes the parent, appends the copies one by one, validates, and derives the copies again. -/
def merging (parent : Section) (overwrite : Bool) (others : Lookup) : Effect Section Unit := do
  change fun s => { s with parents := s.parents ++ [parent.name] }
  parent.properties.forM fun p =>
    change fun s => { s with properties := s.properties ++ [p.inheritedBy s.name] }
  validation overwrite
  parent.derivedKeys.forM (rederivation parent.name others)

/-- A call that changes a section. -/
inductive Call where
  | insert (p : Property) (overwrite : Bool)
  | set (key : Text) (v : Value)
  /-- Replaces the value of the property with the key, if there is one. -/
  | setValue (key : Text) (v : Value)
  /-- Replaces the comment of the property with the key, if there is one. -/
  | setComment (key : Text) (comment : Option Text)
  | erase (key : Text)
  | inheritWith (parent : Section) (overwrite : Bool) (others : Lookup)
  | validate (overwrite : Bool)

namespace Call

/-- Merges a parent; derived values may refer to that parent only. -/
def inherit (parent : Section) (overwrite : Bool) : Call :=
  .inheritWith parent overwrite parent.only

/-- The effects of a call. -/
def program : Call → Effect Section Unit
  | insert p overwrite => insertion p overwrite
  | set key v => change (·.set key v)
  | setValue key v => change (·.modify key (·.setValue v))
  | setComment key c => change (·.modify key (·.setComment c))
  | erase key => change (·.erase key)
  | inheritWith parent overwrite others => merging parent overwrite others
  | validate overwrite => validation overwrite

/-- Whether the call merges a parent. -/
def isMerge : Call → Bool
  | inheritWith .. => true
  | _ => false

end Call

/-- What a call leaves behind of a section. -/
def call (s : Section) (c : Call) : Attempt Section := c.program.attempt s

end Lineage.Section
