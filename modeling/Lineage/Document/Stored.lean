import Lineage.Document.Basic
/-!
# Written and stored documents

A document is written in full, with every property and no parents, or as differences, with the
parents and only the properties that a section does not inherit unchanged.

Documents are bound to files: opening, reading and saving. Calls that change files return the files
as they are afterwards; a call that fails changes nothing.
-/
/-! ## Written documents -/

namespace Lineage

/-- How much of a section is written. -/
inductive Mode where
  /-- Every property, and no parents. -/
  | full
  /-- The parents and what differs from them. -/
  | diff
deriving DecidableEq, Repr

namespace Section

/-- The header line of a section, without its end. -/
def header (s : Section) (m : Mode) : Text :=
  '[' :: s.name ++ ']' ::
    (if m = .diff ∧ s.parents ≠ [] then ' ' :: ':' :: ' ' :: [',', ' '].intercalate s.parents
      else [])

/-- The properties that are written. -/
def written (s : Section) (m : Mode) : List Property :=
  s.listed.filter fun p => m == .full || p.isDifference

/-- The text of a section: its header line and its property lines. -/
def render (s : Section) (m : Mode) : Text :=
  s.header m ++ '\n' :: (s.written m).flatMap fun p => p.render ++ ['\n']

end Section

namespace Document

/-- The text of some sections, with an empty line between them. -/
def renderSections (m : Mode) (ss : List Section) : Text :=
  ['\n'].intercalate (ss.map (·.render m))

/-- The text of a document. -/
def render (d : Document) (m : Mode) : Text := renderSections m d.sections

end Document

/-- A writer collects texts until they are taken. -/
structure Writer where
  mode : Mode
  output : Text

namespace Writer

/-- A writer that has collected nothing. -/
def new (m : Mode) : Writer := ⟨m, []⟩

/-- Collects the text of a section. -/
def addSection (w : Writer) (s : Section) : Writer :=
  { w with output := w.output ++ s.render w.mode }

/-- Collects the text of a document. -/
def addDocument (w : Writer) (d : Document) : Writer :=
  { w with output := w.output ++ d.render w.mode }

/-- The writer after its text was taken. -/
def clear (w : Writer) : Writer := { w with output := [] }

end Writer

end Lineage

/-! ## Stored documents -/

namespace Lineage.Document

/-- The text of a file could not be read. -/
def readFault (path : Text) : Files.Failure → Fault
  | .notFound => (Fault.of .sourceMissing).inFile path
  | f => (Fault.of (.file f)).inFile path

/-- A file could not be written. -/
def writeFault (path : Text) : Files.Failure → Fault
  | .taken => (Fault.of .destinationExists).inFile path
  | f => (Fault.of (.file f)).inFile path

/-- Binds a document to a file without reading it. -/
def openFile (fs : Files) (path : Text) (o : Options) : Except Fault Document :=
  if fs.isFile path then .ok ⟨some path, [], false, o⟩
  else .error ((Fault.of .sourceMissing).inFile path)

/-- The sections that the file of a document stands for. -/
def readSource (d : Document) (fs : Files) : Except Fault (List Section) :=
  match d.source with
  | none => .error (.of .noSource)
  | some path => match fs.readText path with
    | .error f => .error (readFault path f)
    | .ok t => match Construction.sections t d.options with
      | .error f => .error (f.inFile path)
      | .ok sections => .ok sections

/-- Reads the file again; what was changed in memory is lost. -/
def reload (d : Document) (fs : Files) : Except Fault Document :=
  (d.readSource fs).map fun sections => { d with sections, initialized := true }

/-- Reads the file, if there is one that was not read yet. -/
def ensureRead (d : Document) (fs : Files) : Except Fault Document :=
  if d.initialized then .ok d
  else if d.source.isNone then .ok { d with initialized := true }
  else d.reload fs

/-- Opens a file and reads it. -/
def load (fs : Files) (path : Text) (o : Options) : Except Fault Document :=
  match openFile fs path o with
  | .error f => .error f
  | .ok d => d.ensureRead fs

/-- Creates an empty file and a document bound to it. -/
def create (fs : Files) (path : Text) (overwrite : Bool) : Except Fault (Document × Files) :=
  match fs.writeText path overwrite [] with
  | .error f => .error (writeFault path f)
  | .ok fs => .ok (⟨some path, [], true, .standard⟩, fs)

/-- Writes the document to a file. Without `overwrite` nothing may stand there yet. -/
def saveAs (d : Document) (fs : Files) (path : Text) (m : Mode) (overwrite : Bool) :
    Except Fault Files :=
  match fs.writeText path overwrite (d.render m) with
  | .error f => .error (writeFault path f)
  | .ok fs => .ok fs

/-- Writes the document to its file. -/
def save (d : Document) (fs : Files) (m : Mode) : Except Fault Files :=
  match d.source with
  | none => .error (.of .noSource)
  | some path => d.saveAs fs path m true

end Lineage.Document
