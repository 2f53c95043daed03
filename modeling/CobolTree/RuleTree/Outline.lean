import CobolTree.RuleTree.Basic
import CobolTree.Text.Quoted

/-!
A rule tree as an indented outline: a line for each rule, with the reason if a division
could not be read, and a line for each terminal, in quotation marks.
-/

namespace CobolTree.RuleTree

/-- Two blanks for each level. -/
def indent (depth : Nat) : Text := List.replicate (2 * depth) ' '

/-- The line of a rule. -/
def ruleLine (depth : Nat) (head : RuleHead) : Text :=
  let exception :=
    match head.exception with
    | some message => [' ', '!'] ++ message.toList
    | none => []
  indent depth ++ head.kind.name.toList ++ exception ++ ['\n']

/-- The line of a terminal. -/
def terminalLine (depth : Nat) (terminal : Terminal) : Text :=
  indent depth ++ terminal.text.quote ++ ['\n']

mutual

/-- The lines of a tree whose root stands at a level. -/
def outlineAt (depth : Nat) : RuleTree → Text
  | .leaf terminal => terminalLine depth terminal
  | .node head children => ruleLine depth head ++ outlineAllAt (depth + 1) children

/-- The lines of trees that stand at a level. -/
def outlineAllAt (depth : Nat) : List RuleTree → Text
  | [] => []
  | tree :: rest => outlineAt depth tree ++ outlineAllAt depth rest

end

/-- The outline of a tree. -/
def outline (tree : RuleTree) : Text := outlineAt 0 tree

end CobolTree.RuleTree
