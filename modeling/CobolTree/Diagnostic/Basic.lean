import CobolTree.Diagnostic.Code
import CobolTree.Division
import CobolTree.Source.Position

/-!
Diagnostics: a labelled problem with a place, a message and how grave it is. A `Draft`
holds the parts of a diagnostic that are known; building it fills in the rest.
-/

namespace CobolTree

/-- How grave a problem is. -/
inductive Severity where
  /-- The program is invalid. -/
  | error
  /-- The program can be tolerated. -/
  | warning
  /-- A remark. -/
  | hint
deriving DecidableEq, Repr

namespace Severity

def all : List Severity := [error, warning, hint]

def name : Severity → String
  | error => "error"
  | warning => "warning"
  | hint => "hint"

end Severity

/-- Another place that bears on a problem, and why. -/
structure Related where
  message : String
  range : Range
deriving DecidableEq, Repr

/-- One problem in a source text. -/
structure Diagnostic where
  message : String
  range : Range
  position : Position
  code : Code
  severity : Severity
  /-- The division that did not match its grammar. -/
  division : Option Division
  hint : Option String
  related : List Related
deriving DecidableEq, Repr

namespace Diagnostic

/-- An error with nothing beyond a message and a place. -/
def plain (message : String) (range : Range) (position : Position) (code : Code) : Diagnostic :=
  ⟨message, range, position, code, .error, none, none, []⟩

def isError (diagnostic : Diagnostic) : Bool := diagnostic.severity == .error

def hasHint (diagnostic : Diagnostic) : Bool := diagnostic.hint.isSome

def hasRelated (diagnostic : Diagnostic) : Bool := !diagnostic.related.isEmpty

def withHint (hint : String) (diagnostic : Diagnostic) : Diagnostic :=
  { diagnostic with hint := some hint }

def withRelated (related : Related) (diagnostic : Diagnostic) : Diagnostic :=
  { diagnostic with related := diagnostic.related ++ [related] }

def withSeverity (severity : Severity) (diagnostic : Diagnostic) : Diagnostic :=
  { diagnostic with severity := severity }

def withDivision (division : Division) (diagnostic : Diagnostic) : Diagnostic :=
  { diagnostic with division := some division }

/-- The diagnostic as shown to a person; lines and columns count from one. -/
def format (diagnostic : Diagnostic) : String :=
  let line := toString (diagnostic.position.line + 1)
  let column := toString (diagnostic.position.column + 1)
  let division :=
    match diagnostic.division with
    | some division => " (in " ++ division.title ++ ")"
    | none => ""
  let hint :=
    match diagnostic.hint with
    | some hint => "\n  hint: " ++ hint
    | none => ""
  line ++ ":" ++ column ++ ": " ++ diagnostic.severity.name ++ " " ++ diagnostic.code.label ++
    ": " ++ diagnostic.message ++ division ++ hint

/-- The parts of a diagnostic that are known so far. -/
structure Draft where
  code : Code
  message : Option String
  range : Option Range
  position : Option Position
  severity : Severity
  division : Option Division
  hint : Option String
  related : List Related

/-- A draft that knows nothing but its code. -/
def Draft.ofCode (code : Code) : Draft := ⟨code, none, none, none, .error, none, none, []⟩

/-- The diagnostic of a draft. Without a position it stands where its range begins; without a
range it takes no bytes at its position; without a message it has the one of its code. -/
def Draft.build (draft : Draft) : Diagnostic :=
  let position :=
    draft.position.getD ⟨0, 0, (draft.range.map (·.start)).getD 0⟩
  { message := draft.message.getD draft.code.defaultMessage
    range := draft.range.getD (Range.empty position.index)
    position := position
    code := draft.code
    severity := draft.severity
    division := draft.division
    hint := draft.hint
    related := draft.related }

end Diagnostic

end CobolTree
