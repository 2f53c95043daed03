import CobolTree.Production.ProgramUnit

/-!
The parse of a source text: a tree that holds every character of the text, the tokens in
order, and the problems found. No text is refused; what cannot be placed in a construct
is kept under an error node or as an error token.
-/

namespace CobolTree

namespace Production

/-- One program unit, unless the text ends here. -/
def programUnitRound (settings : Settings) : Production (ForInStep Unit) := do
  trivia .programUnit
  if (← here).atEnd then return .done ()
  else do
    programUnit settings
    return .yield ()

theorem programUnitRound_apply (settings : Settings) (cursor : Cursor) :
    programUnitRound settings cursor =
      let lead := trivia .programUnit cursor
      lead.andThen
        (if lead.next.atEnd then .still (.done ()) lead.next
        else (programUnit settings lead.next).withValue (.yield ())) := by
  simp only [programUnitRound, bind_apply, ite_apply]
  simp

/-- Program units up to the end of the text. -/
def programUnits (settings : Settings) : Production Unit :=
  rounds .programUnit (fun _ => programUnitRound settings) ()

end Production

/-- The parse of a source text. -/
structure Parsed where
  tree : SourceTree
  /-- Every token, in the order of the text. -/
  tokens : List Token
  diagnostics : List Diagnostic

namespace Parsed

/-- The first diagnostics of a list, with a remark at a position if others are left out. -/
def keep (most : Option Nat) (final : Position) (reports : List Diagnostic) :
    List Diagnostic :=
  match most with
  | none => reports
  | some most =>
      if reports.length ≤ most then reports
      else reports.take most ++ [Problem.tooMany.atPosition final]

/-- The parse of a text. -/
def ofText (settings : Settings) (text : Text) : Parsed :=
  let outcome := Production.programUnits settings (Cursor.start text)
  { tree := .node .sourceUnit outcome.trees
    tokens := outcome.tokens
    diagnostics := keep settings.maxDiagnostics outcome.next.position outcome.reports }

/-- No problem is grave enough to make the text invalid. -/
def isOk (parsed : Parsed) : Bool := !parsed.diagnostics.any (·.isError)

end Parsed

end CobolTree
