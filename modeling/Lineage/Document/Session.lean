import Lineage.Document.Stored
import Lineage.Section.Call
/-!
# Sessions

A session holds one document, with files around it. Each call is given as a program: its effects
on the document and on the files in the order in which they happen, and the places where it may
stop between them. A file that is opened for writing is empty from then on.
-/
namespace Lineage

/-- What a call on the section with a name leaves behind of a document, if there is that section. -/
def Document.call (d : Document) (name : Text) (c : Section.Call) : Attempt Document :=
  match d.section? name with
  | none => ⟨d, .ok ()⟩
  | some s => ⟨d.modify name fun _ => (s.call c).state, (s.call c).result⟩

/-- A document and the files around it. -/
structure Session where
  document : Document
  files : Files

namespace Session

open Effect (change)

/-- Changes the document. -/
def changeDocument (f : Document → Document) : Effect Session Unit :=
  change fun s => { s with document := f s.document }

/-- Runs a constructor on a document of its own, which replaces the old one only in the end. -/
def construction (d : Document) (x : Effect Session Unit) : Effect Session Unit := fun s =>
  match x.run { s with document := d } with
  | .ok () s' => .ok () s'
  | .error f s' => .error f { s' with document := s.document }

/-- Writes all of a file, which is there afterwards if it was not before. -/
def writing (path : Text) (overwrite : Bool) (t : Text) : Effect Session Unit := do
  match (← get).files.writeText path overwrite t with
  | .error f => throw (Document.writeFault path f)
  | .ok files => change fun s => { s with files }

/-- Opens a file for writing, and writes the document to it. -/
def saving (path : Text) (m : Mode) (overwrite : Bool) : Effect Session Unit := do
  writing path overwrite []
  writing path true ((← get).document.render m)

/-- Replaces the sections by those that the file of the document stands for. -/
def reading : Effect Session Unit := do
  let s ← get
  match s.document.readSource s.files with
  | .error f => throw f
  | .ok sections => changeDocument fun d => { d with sections }

/-- Notes that the sections have been built. -/
def marking : Effect Session Unit := changeDocument fun d => { d with initialized := true }

/-- Reads the file, if there is one that was not read yet. -/
def firstReading : Effect Session Unit := do
  let d := (← get).document
  if d.initialized then return
  if d.source.isSome then reading
  marking

/-- Puts a section behind the others. -/
def addition (added : Section) : Effect Session Unit := do
  if ((← get).document.section? added.name).isSome then
    throw (.of (.duplicateSection added.name))
  changeDocument fun d => { d with sections := d.sections ++ [added] }
  marking

/-- A call on the document that may fail halfway. -/
def attempting (f : Document → Attempt Document) : Effect Session Unit := fun s =>
  match (f s.document).result with
  | .ok () => .ok () { s with document := (f s.document).state }
  | .error e => .error e { s with document := (f s.document).state }

/-- Stops if no file stands at the path. -/
def checkFile (path : Text) : Effect Session Unit := do
  unless (← get).files.isFile path do throw ((Fault.of .sourceMissing).inFile path)

/-- Builds the sections that a text stands for. -/
def building (t : Text) (o : Options) : Effect Session Unit := do
  match Construction.sections t o with
  | .error f => throw f
  | .ok sections => changeDocument fun d => { d with sections }
  marking

/-- A call on a session. The first ones make a new document. -/
inductive Call where
  | blank (o : Options)
  | parse (t : Text) (o : Options)
  | openFile (path : Text) (o : Options)
  | load (path : Text) (o : Options)
  | create (path : Text) (overwrite : Bool)
  /-- Reads the file, if there is one that was not read yet. -/
  | ensureRead
  | reload
  | add (added : Section)
  | erase (name : Text)
  | set (name key : Text) (v : Value)
  | validate
  | save (m : Mode)
  | saveAs (path : Text) (m : Mode) (overwrite : Bool)
  /-- A call on the section with the name, if there is one. -/
  | within (name : Text) (c : Section.Call)

namespace Call

/-- The effects of a call. -/
def program : Call → Effect Session Unit
  | blank o => construction (.blank o) (pure ())
  | parse t o => construction (.blank o) (building t o)
  | openFile path o => construction ⟨some path, [], false, o⟩ (checkFile path)
  | load path o => construction ⟨some path, [], false, o⟩ do
      checkFile path
      firstReading
  | create path overwrite =>
      construction ⟨some path, [], true, .standard⟩ (writing path overwrite [])
  | ensureRead => firstReading
  | reload => do
      reading
      marking
  | add added => addition added
  | erase name => changeDocument (·.erase name)
  | set name key v => do
      if ((← get).document.section? name).isNone then throw (.unknownSection name)
      changeDocument (·.modify name (·.set key v))
  | validate => attempting Document.validate
  | save m => do
      match (← get).document.source with
      | none => throw (.of .noSource)
      | some path => saving path m true
  | saveAs path m overwrite => saving path m overwrite
  | within name c => attempting (·.call name c)

/-- Whether the call merges a parent into a section of the document. -/
def isMerge : Call → Bool
  | within _ c => c.isMerge
  | _ => false

end Call

/-- What a call leaves behind of a session. -/
def call (s : Session) (c : Call) : Attempt Session := c.program.attempt s

end Session
end Lineage
