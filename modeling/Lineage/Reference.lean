import Lineage.Section.Basic
/-!
# References

A token in a raw value is a `$` and the name behind it, up to the next token end. `$this` stands
for the owner's name, `$key` for a property of the owner, and `$section.key` for a property of
another section. Each token is replaced by the literal it stands for; what was put in is not
scanned again.
-/
namespace Lineage

/-- Finds the sections that references may reach by their names. -/
abbrev Lookup := Text → Option Section

namespace Reference

/-- The name that stands for the owner. -/
def thisName : Text := ['t', 'h', 'i', 's']

/-- The word in a comment that forces evaluation. -/
def expressionWord : Text := ['e', 'x', 'p']

/-- The characters at which a name ends. -/
def isTokenEnd (c : Char) : Bool :=
  [' ', '\t', '+', '-', '(', ')', '*', '/', '^', ',', '$'].contains c

/-- The name at the start of a text and the text behind it. -/
def splitToken (t : Text) : Text × Text :=
  (t.takeWhile (! isTokenEnd ·), t.dropWhile (! isTokenEnd ·))

theorem length_splitToken_le (t : Text) : (splitToken t).2.length ≤ t.length :=
  (List.dropWhile_suffix _).length_le

/-- Whether the value of this raw text is evaluated in any case. -/
def forcesEvaluation (raw : Text) (a : Note) : Bool :=
  raw.contains '(' || a.isExpression ||
    a.comment.any fun c => c.hasWord expressionWord || c.contains '{'

/-- A derivation found later: an expression comes before a self-reference, and the first
expression stays. -/
def merge (current : Option Derivation) (next : Derivation) : Option Derivation :=
  match current, next with
  | some (.expression e), _ => some (.expression e)
  | _, .expression e => some (.expression e)
  | current, .selfReference => current.or (some .selfReference)

/-- The owner's property with the key. -/
def own (owner : Section) (token key : Text) : Except Cause Value :=
  match owner.value? key with
  | some v => .ok v
  | none => .error (.undeclared token owner.name)

/-- The value that a token other than `$this` stands for. -/
def valueOf (owner : Section) (others : Lookup) (token : Text) : Except Cause Value :=
  match token.splitAt? '.' with
  | some (name, key) =>
    if name = owner.name then own owner token key
    else match others name with
      | none => .error (.unknownSectionNamed token name)
      | some other => match other.value? key with
        | some v => .ok v
        | none => .error (.noProperty token name key)
  | none => own owner token token

/-- A raw value with its references replaced, and the derivation to be noted. -/
structure Resolution where
  text : Text
  derivation : Option Derivation
deriving DecidableEq, Repr

/-- Replaces the tokens of `rest`, a part of the value `raw`, where `derivation` is what was found
before. -/
def resolveFrom (raw : Text) (forced : Bool) (owner : Section) (others : Lookup)
    (derivation : Option Derivation) (rest : Text) : Except Cause Resolution :=
  match _h : rest.splitAt? '$' with
  | none => .ok ⟨rest, derivation⟩
  | some (before, behind) =>
    let token := (splitToken behind).1
    if token.isEmpty then .error (.emptyReference raw)
    else
      let found : Except Cause (Text × Derivation) :=
        if token = thisName then
          .ok (owner.name, if forced then .expression raw.trim else .selfReference)
        else (valueOf owner others token).map fun v => (v.literal, .expression raw.trim)
      match found with
      | .error e => .error e
      | .ok (literal, next) =>
        match resolveFrom raw forced owner others (merge derivation next) (splitToken behind).2 with
        | .error e => .error e
        | .ok r => .ok ⟨before ++ literal ++ r.text, r.derivation⟩
termination_by rest.length
decreasing_by
  have h1 := congrArg List.length (Text.splitAt?_eq_some_iff.1 _h).1
  have h2 := length_splitToken_le behind
  simp only [List.length_append, List.length_cons] at h1
  omega

/-- Replaces every token of a raw value with a given note. -/
def resolve (raw : Text) (a : Note) (owner : Section) (others : Lookup) :
    Except Cause Resolution :=
  resolveFrom raw (forcesEvaluation raw a) owner others a.derivation raw

/-- The names before a point in the tokens of a text, in order. -/
def namesFrom (rest : Text) : List Text :=
  match _h : rest.splitAt? '$' with
  | none => []
  | some (_, behind) =>
    match (splitToken behind).1.splitAt? '.' with
    | some (name, _) => name :: namesFrom (splitToken behind).2
    | none => namesFrom (splitToken behind).2
termination_by rest.length
decreasing_by
  all_goals
    have h1 := congrArg List.length (Text.splitAt?_eq_some_iff.1 _h).1
    have h2 := length_splitToken_le behind
    simp only [List.length_append, List.length_cons] at h1
    omega

/-- Adds a name to a list of different names. -/
def addName (names : List Text) (name : Text) : List Text :=
  if names.contains name then names else names ++ [name]

/-- The sections that a raw text names, each once, in the order of their first tokens. -/
def sectionsNamed (raw : Text) : List Text :=
  ((namesFrom raw).filter (! ·.isEmpty)).foldl addName []

end Reference

end Lineage
