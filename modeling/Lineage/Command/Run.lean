import Lineage.Command.Basic
import Lineage.Document.Stored
import Lineage.Json.Reader
import Lineage.Json.Records
/-!
# Running commands

A command works on the files and prints a text. What it printed stands even if it fails later. What
is JSON is told by a reader: a command runs with any (`Command.runBy`), and the program runs with
that of `Json.parse?` (`Command.run`).
-/
namespace Lineage

/-- The view of some sections. -/
def View.render (ss : List Section) : View → Text
  | .text m => Document.renderSections m ss
  | .json => (Document.sectionsToJson ss).pretty 0 ++ ['\n']

namespace Command

/-- Why a command fails. -/
inductive Failure where
  | document (fault : Fault)
  /-- The section to be shown does not exist. -/
  | unknownSection (name : Text)

/-- The wording of a failure. -/
def Failure.message : Failure → String
  | document f => f.text
  | unknownSection n => s!"section '{String.ofList n}' not found"

/-- What a command leaves behind. -/
structure Outcome where
  files : Files
  output : Text
  result : Except Failure Unit

namespace Outcome

/-- The command succeeded. -/
def done (fs : Files) (output : Text) : Outcome := ⟨fs, output, .ok ()⟩

/-- The command failed and changed no files. -/
def failed (fs : Files) (output : Text) (f : Failure) : Outcome := ⟨fs, output, .error f⟩

end Outcome

/-- A line. -/
def line (parts : List Text) : Text := parts.flatten ++ ['\n']

/-- The mark in front of a success. -/
def goodMark : Text := ['✓', ' ']

/-- The mark in front of a failure. -/
def badMark : Text := ['✗', ' ']

/-- A number in a summary. -/
def count (n : Nat) : Text := Nat.toDigits 10 n

/-- A section in a summary: its name, its parents and how many properties it has. -/
def sectionLine (s : Section) : Text :=
  line ["  ".toList, s.name,
    if s.parents.isEmpty then [] else " : ".toList ++ [',', ' '].intercalate s.parents,
    " (".toList, count s.properties.length, " properties, ".toList,
    count (s.properties.filter Property.inherited).length, " inherited)".toList]

/-- The summary of a document. -/
def summary (path : Text) (d : Document) : Text :=
  line [goodMark, path] ++
    line ["  Sections: ".toList, count d.sections.length] ++
    line ["  Properties: ".toList, count (d.sections.flatMap Section.properties).length] ++
    d.sections.flatMap sectionLine

/-- The sections to be shown. -/
def selected (d : Document) (only : Option Text) : Except Failure (List Section) :=
  match only with
  | none => .ok d.sections
  | some name => match d.section? name with
    | some s => .ok [s]
    | none => .error (.unknownSection name)

/-- Loads a file and saves it to another. -/
def runResave (fs : Files) (source destination : Text) (force : Bool) (m : Mode) :
    Except Fault (Files × Text) :=
  match Document.load fs source .standard with
  | .error f => .error f
  | .ok d => match d.saveAs fs destination m force with
    | .error f => .error f
    | .ok fs => .ok (fs, line [goodMark, source, " -> ".toList, destination])

/-- Assigns a value in a file. -/
def runSet (read : Text → Option Json) (fs : Files) (path owner key raw : Text) (m : Mode) :
    Except Fault (Files × Text) :=
  match Value.ofInputBy read raw with
  | .error c => .error (.of c)
  | .ok v => match Document.load fs path .standard with
    | .error f => .error f
    | .ok d => match d.set owner key v with
      | .error f => .error f
      | .ok d => match d.save fs m with
        | .error f => .error f
        | .ok fs => .ok (fs, line [goodMark, owner, ['.'], key, " = ".toList, v.literal])

/-- Shows a file, or one section of it. -/
def runDisplay (fs : Files) (path : Text) (only : Option Text) (view : View) :
    Except Failure Text :=
  match Document.load fs path .standard with
  | .error f => .error (.document f)
  | .ok d => (selected d only).map view.render

/-- The outcome of a command that prints nothing when it fails. -/
def outcome (fs : Files) : Except Fault (Files × Text) → Outcome
  | .ok (fs, output) => .done fs output
  | .error f => .failed fs [] (.document f)

/-- Runs a command, with a reader of JSON. -/
def runBy (read : Text → Option Json) (fs : Files) : Command → Outcome
  | .resave source destination force m => outcome fs (runResave fs source destination force m)
  | .validate path => match Document.load fs path .standard with
    | .ok d => .done fs (summary path d)
    | .error f => .failed fs (line [badMark, path]) (.document f)
  | .display path only view => match runDisplay fs path only view with
    | .ok output => .done fs output
    | .error f => .failed fs [] f
  | .set path owner key value m => outcome fs (runSet read fs path owner key value m)

end Command

/-! ## The program -/

/-- The JSON that a text is, if numbers and nesting are within bounds. -/
def Json.read? (t : Text) : Option Json := (Json.parse? t).filter Json.isStrict

/-- Reads a value that a user typed. -/
def Value.ofInput (raw : Text) : Except Cause Value := ofInputBy Json.read? raw

/-- Runs a command. -/
def Command.run (fs : Files) (c : Command) : Command.Outcome := c.runBy Json.read? fs

end Lineage
