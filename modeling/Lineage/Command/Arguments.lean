import Lineage.Text.Search
/-!
# Arguments of a command line

Arguments are read from left to right against what a command takes: flags, of which some have a
value, and operands. A flag is written `--name` or `-n`, letters may share one hyphen, and a value
follows as the next argument or behind `=`. Behind `--` everything is an operand.
-/
namespace Lineage.Command

/-- A flag that a command takes. -/
structure Flag where
  /-- The name behind two hyphens. -/
  name : Text
  /-- The letter behind one hyphen. -/
  letter : Option Char
  /-- Whether the flag has a value. -/
  valued : Bool
deriving DecidableEq, Repr

/-- What a command takes. -/
structure Usage where
  flags : List Flag
  /-- The number of operands. -/
  operands : Nat
  /-- Whether the last operand may look like flags that the command does not take. -/
  lastIsFree : Bool
deriving DecidableEq, Repr

/-- What was given to a command. -/
structure Given where
  flags : List (Text × Option Text)
  operands : List Text
deriving DecidableEq, Repr

/-- Why no command is run. -/
inductive Refusal where
  /-- Help was asked for. -/
  | help
  /-- The version was asked for. -/
  | version
  /-- The arguments do not fit. -/
  | misuse
deriving DecidableEq, Repr

/-- An argument by its form. -/
inductive Argument where
  | endOfFlags
  | long (name : Text) (value : Option Text)
  | short (letters : Text)
  | operand (t : Text)
deriving DecidableEq, Repr

/-- The form of an argument. A lone hyphen is an operand. -/
def Argument.ofText : Text → Argument
  | ['-', '-'] => .endOfFlags
  | '-' :: '-' :: t => match Text.splitAt? '=' t with
    | some (name, value) => .long name (some value)
    | none => .long t none
  | '-' :: c :: t => .short (c :: t)
  | t => .operand t

/-- The flag that asks for help. -/
def helpFlag : Flag := ⟨['h', 'e', 'l', 'p'], some 'h', false⟩

/-- The flag that asks for the version. -/
def versionFlag : Flag := ⟨['v', 'e', 'r', 's', 'i', 'o', 'n'], some 'V', false⟩

namespace Usage

/-- The flag with a name. -/
def named? (u : Usage) (name : Text) : Option Flag := u.flags.find? (·.name == name)

/-- The flag with a letter. -/
def lettered? (u : Usage) (c : Char) : Option Flag := u.flags.find? (·.letter == some c)

end Usage

namespace Given

/-- Nothing was given. -/
def nothing : Given := ⟨[], []⟩

/-- Whether the flag was given. -/
def has (g : Given) (f : Flag) : Bool := g.flags.any (·.1 == f.name)

/-- The value of a flag. -/
def value? (g : Given) (f : Flag) : Option Text := (g.flags.find? (·.1 == f.name)).bind (·.2)

/-- Notes a flag, which may be given once. Asking for help or the version ends the reading. -/
def addFlag (g : Given) (f : Flag) (value : Option Text) : Except Refusal Given :=
  if f = helpFlag then .error .help
  else if f = versionFlag then .error .version
  else if g.has f then .error .misuse
  else .ok { g with flags := g.flags ++ [(f.name, value)] }

/-- Notes an operand, if there is room for one more. -/
def addOperand (g : Given) (u : Usage) (t : Text) : Except Refusal Given :=
  if g.operands.length < u.operands then .ok { g with operands := g.operands ++ [t] }
  else .error .misuse

/-- Notes operands in turn. -/
def addOperands (u : Usage) : Given → List Text → Except Refusal Given
  | g, [] => .ok g
  | g, t :: ts => match g.addOperand u t with
    | .error r => .error r
    | .ok g => addOperands u g ts

/-- Notes letters behind one hyphen: what was given then, and a flag that still needs its value. -/
def addLetters (u : Usage) : Given → Text → Except Refusal (Given × Option Flag)
  | g, [] => .ok (g, none)
  | g, c :: cs => match u.lettered? c with
    | none => .error .misuse
    | some f =>
      if f.valued then match cs with
        | [] => .ok (g, some f)
        | '=' :: value => (g.addFlag f (some value)).map (·, none)
        | value => (g.addFlag f (some value)).map (·, none)
      else match g.addFlag f none with
        | .error r => .error r
        | .ok g => addLetters u g cs

/-- Notes a flag by its name: what was given then, and the flag if it still needs its value. -/
def addNamed (g : Given) (f : Flag) (value : Option Text) : Except Refusal (Given × Option Flag) :=
  match f.valued, value with
  | true, some value => (g.addFlag f (some value)).map (·, none)
  | true, none => .ok (g, some f)
  | false, some _ => .error .misuse
  | false, none => (g.addFlag f none).map (·, none)

/-- Whether the next operand is the last one and may look like flags. -/
def atFreeOperand (g : Given) (u : Usage) : Bool :=
  u.lastIsFree && g.operands.length + 1 == u.operands

/-- Notes an argument that is no value of a flag and stands before `--`: what was given then, and a
flag that still needs its value. -/
def addArgument (g : Given) (u : Usage) (t : Text) : Except Refusal (Given × Option Flag) :=
  let asOperand := (g.addOperand u t).map (·, none)
  match Argument.ofText t with
  | .operand _ | .endOfFlags => asOperand
  | .long name value => match u.named? name with
    | some f => g.addNamed f value
    | none => if g.atFreeOperand u then asOperand else .error .misuse
  | .short letters =>
    if g.atFreeOperand u && letters.any fun c => (u.lettered? c).isNone then asOperand
    else g.addLetters u letters

/-- Reads arguments behind what was given, where `waiting` needs its value from the next one. -/
def read (u : Usage) : (waiting : Option Flag) → Given → List Text → Except Refusal Given
  | none, g, [] => .ok g
  | some _, _, [] => .error .misuse
  | some f, g, t :: ts => match Argument.ofText t with
    | .operand value => match g.addFlag f (some value) with
      | .error r => .error r
      | .ok g => read u none g ts
    | _ => .error .misuse
  | none, g, t :: ts =>
    if Argument.ofText t = .endOfFlags then addOperands u g ts
    else match g.addArgument u t with
      | .error r => .error r
      | .ok (g, waiting) => read u waiting g ts

end Given

end Lineage.Command
