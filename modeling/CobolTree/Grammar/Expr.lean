import CobolTree.Grammar.Rule
import CobolTree.Source.Text

/-!
Grammar expressions: ordered choices, sequences, greedy repetitions and absence tests
over characters, with named rules among them. No rule calls itself, so a rule holds its
body and an expression is a finite tree. Between the parts of a sequence and of a
repetition, blanks and comments may stand, except inside an atomic rule.
-/

namespace CobolTree

/-- A pattern of text. -/
inductive Expr where
  /-- Exactly these characters. -/
  | exact (expected : Text)
  /-- These characters in any ASCII case. -/
  | anyCase (expected : Text)
  | anyChar
  | digit
  | alphanumeric
  /-- A line feed, a carriage return, or both in reverse. -/
  | lineBreak
  /-- The end of the text. -/
  | ending
  /-- The first part, then the second. -/
  | seq (first second : Expr)
  /-- The first part, or else the second. -/
  | alt (first second : Expr)
  /-- As many times as it can be read. -/
  | star (body : Expr)
  /-- Once if it can be read. -/
  | opt (body : Expr)
  /-- Nothing, where the body cannot be read. -/
  | absent (body : Expr)
  /-- A named rule; in an atomic one no blanks are skipped and no rule is named. -/
  | rule (rule : Rule) (atomic : Bool) (body : Expr)
deriving DecidableEq, Repr

namespace Expr

instance : HAndThen Expr Expr Expr := ⟨fun first second => .seq first (second ())⟩

instance : OrElse Expr := ⟨fun first second => .alt first (second ())⟩

/-- At least once. -/
def plus (body : Expr) : Expr := body >> star body

/-- Exactly the characters of a string. -/
def text (expected : String) : Expr := .exact expected.toList

/-- The characters of a string in any ASCII case. -/
def word (expected : String) : Expr := .anyCase expected.toList

/-- One of several words in any ASCII case, tried in order. -/
def oneOf : List String → Expr
  | [] => .absent (.exact [])
  | [last] => word last
  | first :: rest => word first <|> oneOf rest

end Expr

end CobolTree
