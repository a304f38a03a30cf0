import Lineage.Command.Arguments
import Lineage.Document.Stored
/-!
# Commands

The commands of the program, and how a command line names one.
-/
namespace Lineage

/-- What a document is shown as. -/
inductive View where
  | text (m : Mode)
  | json
deriving DecidableEq, Repr

/-- The commands. -/
inductive Command where
  /-- Loads a file and saves it to another. -/
  | resave (source destination : Text) (force : Bool) (mode : Mode)
  /-- Loads a file and sums its sections up. -/
  | validate (path : Text)
  /-- Shows a file, or one section of it. -/
  | display (path : Text) (only : Option Text) (view : View)
  /-- Assigns a value in a file. -/
  | set (path owner key value : Text) (mode : Mode)
deriving DecidableEq, Repr

namespace Command

/-- The paths that a command reads or writes. -/
def paths : Command → List Text
  | resave source destination _ _ => [source, destination]
  | validate path | display path _ _ | set path _ _ _ _ => [path]

/-- Log more than warnings. -/
def verbose : Flag := ⟨"verbose".toList, some 'v', false⟩

/-- Write over the destination. -/
def force : Flag := ⟨"force".toList, some 'f', false⟩

/-- Write differences instead of everything. -/
def diff : Flag := ⟨"diff".toList, some 'd', false⟩

/-- Show values in JSON. -/
def json : Flag := ⟨"json".toList, some 'j', false⟩

/-- Show only the section with a name. -/
def sectionName : Flag := ⟨"section".toList, some 's', true⟩

/-- Write everything instead of differences. -/
def full : Flag := ⟨"full".toList, none, false⟩

/-- The commands by name. -/
inductive Verb where
  | resave
  | validate
  | display
  | set
deriving DecidableEq, Repr

namespace Verb

/-- All verbs. -/
def all : List Verb := [resave, validate, display, set]

/-- The word for a verb. -/
def word : Verb → Text
  | resave => "resave".toList
  | validate => "validate".toList
  | display => "show".toList
  | set => "set".toList

/-- The verb for a word. -/
def ofWord? (t : Text) : Option Verb := all.find? (·.word == t)

/-- What a command takes. -/
def usage : Verb → Usage
  | resave => ⟨[force, diff, verbose, helpFlag], 2, false⟩
  | validate => ⟨[verbose, helpFlag], 1, false⟩
  | display => ⟨[sectionName, diff, json, verbose, helpFlag], 1, false⟩
  | set => ⟨[full, verbose, helpFlag], 4, true⟩

/-- The command that was given, if nothing is missing and no flags exclude each other. -/
def command? : Verb → Given → Option Command
  | resave, g => match g.operands with
    | [source, destination] =>
      some (.resave source destination (g.has force) (if g.has diff then .diff else .full))
    | _ => none
  | validate, g => match g.operands with
    | [path] => some (.validate path)
    | _ => none
  | display, g => match g.operands, g.has diff, g.has json with
    | [path], true, false => some (.display path (g.value? sectionName) (.text .diff))
    | [path], false, false => some (.display path (g.value? sectionName) (.text .full))
    | [path], false, true => some (.display path (g.value? sectionName) .json)
    | _, _, _ => none
  | set, g => match g.operands with
    | [path, owner, key, value] =>
      some (.set path owner key value (if g.has full then .full else .diff))
    | _ => none

end Verb

/-- The flags before the name of a command. -/
def generalUsage : Usage := ⟨[verbose, helpFlag, versionFlag], 0, false⟩

/-- The word that asks for help on a command. -/
def helpWord : Text := helpFlag.name

/-- Whether an argument looks like a flag. -/
def isFlag (t : Text) : Bool :=
  match Argument.ofText t with
  | .long .. | .short _ => true
  | _ => false

/-- The answer to asking for help on a command, or on the program. -/
def helpOn : List Text → Refusal
  | [] => .help
  | [t] => if t = helpWord ∨ (Verb.ofWord? t).isSome then .help else .misuse
  | _ => .misuse

/-- Reads the command with a name and its arguments. -/
def ofVerb (v : Verb) (arguments : List Text) : Except Refusal Command :=
  match Given.read v.usage none .nothing arguments with
  | .error r => .error r
  | .ok g => match v.command? g with
    | some c => .ok c
    | none => .error .misuse

/-- Reads a command line. -/
def ofArguments (arguments : List Text) : Except Refusal Command :=
  match Given.read generalUsage none .nothing (arguments.takeWhile isFlag) with
  | .error r => .error r
  | .ok _ => match arguments.dropWhile isFlag with
    | [] => .error .misuse
    | word :: arguments =>
      if word = helpWord then .error (helpOn arguments)
      else match Verb.ofWord? word with
        | none => .error .misuse
        | some v => ofVerb v arguments

end Command

end Lineage
