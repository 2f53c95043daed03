import CobolTree.Diagnostic.Basic
import CobolTree.Source.Text

/-!
What a user can choose about parsing: how grave misplaced divisions are, which words
never name a paragraph, and how many diagnostics are kept.
-/

namespace CobolTree

/-- Choices that guide the parser and its reports. -/
structure Settings where
  /-- A division out of order, or repeated, is an error and not just a warning. -/
  strictDivisionOrder : Bool
  /-- Words that name no paragraph even with a period right behind them. -/
  statementVerbs : List Text
  /-- At most so many diagnostics are kept. -/
  maxDiagnostics : Option Nat
deriving DecidableEq, Repr

namespace Settings

/-- Strict order, three verbs, and every diagnostic. -/
def standard : Settings :=
  ⟨true, ["EXIT".toList, "GOBACK".toList, "CONTINUE".toList], none⟩

def isStatementVerb (settings : Settings) (word : Text) : Bool :=
  settings.statementVerbs.any (Text.sameWord · word)

/-- How grave a division out of order is. -/
def orderSeverity (settings : Settings) : Severity :=
  if settings.strictDivisionOrder then .error else .warning

end Settings

end CobolTree
