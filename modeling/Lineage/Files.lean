import Lineage.Text.Lines
/-!
# Files and folders

A tree of files and folders as a value: what stands at which path, and the folder in which
relative paths start. A path text has `/` between its names.
-/
namespace Lineage

/-- A path from the root: the names on the way. -/
abbrev Path := List Text

/-- What stands at a path. -/
inductive Entry where
  | file (bytes : ByteArray)
  | folder

/-- A tree of files. -/
structure Files where
  /-- What stands at the paths other than the root; the first entry for a path counts. -/
  entries : List (Path × Entry)
  /-- The folder in which relative paths start. -/
  current : Path

namespace Files

/-- Why a file cannot be read or written. -/
inductive Failure where
  | notFound
  | notFolder
  | isFolder
  /-- Something stands there already. -/
  | taken
  | nameTooLong
  /-- A name holds the character NUL. -/
  | invalidName
  /-- The bytes are no UTF-8 text. -/
  | notText
deriving DecidableEq, Repr

/-- The wording of a failure. -/
def Failure.message : Failure → String
  | notFound => "No such file or directory (os error 2)"
  | notFolder => "Not a directory (os error 20)"
  | isFolder => "Is a directory (os error 21)"
  | taken => "File exists (os error 17)"
  | nameTooLong => "File name too long (os error 36)"
  | invalidName => "file name contained an unexpected NUL byte"
  | notText => "stream did not contain valid UTF-8"

/-- What stands at a path; at the root there is a folder. -/
def find? (fs : Files) (p : Path) : Option Entry :=
  if p.isEmpty then some .folder else (fs.entries.find? (·.1 == p)).map (·.2)

/-- Puts an entry at a path. -/
def put (fs : Files) (p : Path) (e : Entry) : Files :=
  { fs with entries := (p, e) :: fs.entries.filter (·.1 != p) }

/-- Takes away the entry at a path. -/
def erase (fs : Files) (p : Path) : Files :=
  { fs with entries := fs.entries.filter (·.1 != p) }

/-- Puts folders where nothing stands yet, at the path `base` and on along the names. -/
def makeFolders (fs : Files) (base : Path) : List Text → Files
  | [] => if (fs.find? base).isSome then fs else fs.put base .folder
  | n :: names =>
    makeFolders (if (fs.find? base).isSome then fs else fs.put base .folder) (base ++ [n]) names

/-- Puts a folder at a path, and on the way to it, where nothing stands yet. -/
def makeFolder (fs : Files) (p : Path) : Files := makeFolders fs [] p

/-- Nothing but the current folder. -/
def empty (current : Path) : Files := makeFolder ⟨[], current⟩ current

/-- The place that a path text names: the path, and whether only a folder may stand there. -/
structure Place where
  path : Path
  folderOnly : Bool

/-- Walks from the folder `base` along names to the place of the last one. At `.` and `..` there is
a folder in any case. -/
def walk (fs : Files) (folderOnly : Bool) : (base : Path) → List Text → Except Failure Place
  | base, [] => .ok ⟨base, false⟩
  | base, n :: names =>
    if n = ['.'] then walk fs folderOnly base names
    else if n = ['.', '.'] then walk fs folderOnly base.dropLast names
    else if 255 < n.utf8Size then .error .nameTooLong
    else if names.isEmpty then .ok ⟨base ++ [n], folderOnly⟩
    else match fs.find? (base ++ [n]) with
      | some .folder => walk fs folderOnly (base ++ [n]) names
      | some (.file _) => .error .notFolder
      | none => .error .notFound

/-- The names in a path text. -/
def namesOf (p : Text) : Path := (p.splitOn '/').filter (! ·.isEmpty)

/-- Finds the place that a path text names. -/
def locate (fs : Files) (p : Text) : Except Failure Place :=
  if p.contains '\x00' then .error .invalidName
  else if 4096 ≤ p.utf8Size then .error .nameTooLong
  else if p.isEmpty then .error .notFound
  else walk fs (p.getLast? == some '/') (if p.head? = some '/' then [] else fs.current) (namesOf p)

/-- Whether a regular file stands at the path. -/
def isFile (fs : Files) (p : Text) : Bool :=
  match fs.locate p with
  | .ok ⟨path, false⟩ => match fs.find? path with
    | some (.file _) => true
    | _ => false
  | _ => false

/-- The bytes of a file. -/
def read (fs : Files) (p : Text) : Except Failure ByteArray :=
  match fs.locate p with
  | .error e => .error e
  | .ok place => match fs.find? place.path with
    | some (.file bytes) => if place.folderOnly then .error .notFolder else .ok bytes
    | some .folder => .error .isFolder
    | none => .error .notFound

/-- The text of a file. -/
def readText (fs : Files) (p : Text) : Except Failure Text :=
  match fs.read p with
  | .error e => .error e
  | .ok bytes => match String.fromUTF8? bytes with
    | some s => .ok s.toList
    | none => .error .notText

/-- Writes a file. Without `overwrite` nothing may stand there yet. -/
def write (fs : Files) (p : Text) (overwrite : Bool) (bytes : ByteArray) : Except Failure Files :=
  match fs.locate p with
  | .error e => .error e
  | .ok place =>
    if place.folderOnly then .error .isFolder
    else match fs.find? place.path with
      | some .folder => .error (if overwrite then .isFolder else .taken)
      | some (.file _) =>
        if overwrite then .ok (fs.put place.path (.file bytes)) else .error .taken
      | none => .ok (fs.put place.path (.file bytes))

/-- Writes a text to a file. -/
def writeText (fs : Files) (p : Text) (overwrite : Bool) (t : Text) : Except Failure Files :=
  fs.write p overwrite (String.ofList t).toUTF8

/-- Puts a file into a list that is sorted by names. -/
def insertSorted (name : Text) (bytes : ByteArray) :
    List (Text × ByteArray) → List (Text × ByteArray)
  | [] => [(name, bytes)]
  | (n, b) :: l =>
    if name < n then (name, bytes) :: (n, b) :: l else (n, b) :: insertSorted name bytes l

/-- The files directly in the current folder, sorted by their names. -/
def listing (fs : Files) : List (Text × ByteArray) :=
  fs.entries.foldl (fun l e => match e with
    | (p, .file bytes) => match p.getLast? with
      | some name => if p.dropLast = fs.current then insertSorted name bytes l else l
      | none => l
    | _ => l) []

end Files

end Lineage
