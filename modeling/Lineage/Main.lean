import Lineage.Command.Run
/-!
# The program

Takes over what stands at the paths of a command, runs the command on that, and puts back the files
that it changed.
-/
namespace Lineage.Program

/-- How the program is called. -/
def usageText : String := "Usage: lineage [-v] COMMAND

Commands:
  resave SRC DEST [-f] [-d]         Load a file and save it elsewhere
  validate FILE                     Load a file and sum its sections up
  show FILE [-s NAME] [-d | -j]     Print a file, or one section of it
  set FILE SECTION KEY VALUE        Assign a value in a file
    [--full]

Options:
  -f, --force           Write over DEST
  -d, --diff            Write only what a section does not inherit unchanged
  -j, --json            Print values as JSON
  -s, --section NAME    Print only this section
      --full            Save every property
  -v, --verbose         Log more
  -h, --help            Print this text
  -V, --version         Print the name of the program
"

/-- The beginnings of a path text that end with a name. -/
def beginnings (p : Text) : List Text :=
  ((List.range (p.length + 1)).filter fun i => 0 < i && (i == p.length || p[i]? == some '/')).map
    p.take

/-- What stands at a path. -/
def entryAt? (p : String) : IO (Option Entry) := do
  try
    return some (.file (← IO.FS.readBinFile p))
  catch _ =>
    try
      return if ← (← IO.FS.realPath p).isDir then some .folder else none
    catch _ => return none

/-- Takes over what stands at a path and on the way to it. -/
def takeOver (fs : Files) (p : Text) : IO Files :=
  (beginnings p).foldlM (fun fs q => do
    match fs.locate q, ← entryAt? (String.ofList q) with
    | .ok place, some e => return fs.put place.path e
    | _, _ => return fs) fs

/-- Puts back the file at a path if it was changed. -/
def putBack (before after : Files) (p : Text) : IO Unit :=
  match before.read p, after.read p with
  | .ok old, .ok new =>
    if old.toList = new.toList then return () else IO.FS.writeBinFile (String.ofList p) new
  | .error _, .ok new => IO.FS.writeBinFile (String.ofList p) new
  | _, _ => return ()

/-- Runs a command on the files of the system. -/
def perform (c : Command) : IO UInt32 := do
  let start := Files.empty (Files.namesOf (← IO.currentDir).toString.toList)
  let before ← c.paths.foldlM takeOver start
  let o := c.run before
  c.paths.forM (putBack before o.files)
  IO.print (String.ofList o.output)
  match o.result with
  | .ok () => return 0
  | .error f =>
    IO.eprintln s!"Error: {f.message}"
    return 1

/-- Runs a command line. -/
def execute (arguments : List String) : IO UInt32 :=
  match Command.ofArguments (arguments.map String.toList) with
  | .ok c => perform c
  | .error .help => do
    IO.print usageText
    return 0
  | .error .version => do
    IO.println "lineage"
    return 0
  | .error .misuse => do
    IO.eprint usageText
    return 2

end Lineage.Program

/-- The program. -/
def main (arguments : List String) : IO UInt32 := Lineage.Program.execute arguments
