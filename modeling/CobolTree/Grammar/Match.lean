import CobolTree.Grammar.Expr
import CobolTree.Tree.Basic

/-!
Reading text by a grammar expression. `Expr.read?` answers with the tree of the rules
that were applied and the input behind what was read, or with nothing. A choice commits
to the first part that can be read, and a repetition to as many rounds as can be.
-/

namespace CobolTree

/-- What is left of a text, and how many bytes of it are behind. -/
structure Input where
  offset : Nat
  rest : Text
deriving DecidableEq, Repr

namespace Input

/-- The input behind some characters. -/
def drop (count : Nat) (input : Input) : Input :=
  ⟨input.offset + Text.byteLength (input.rest.take count), input.rest.drop count⟩

/-- Blanks of every kind, and the separators that count as blanks. -/
def isFiller (c : Char) : Bool :=
  c == ' ' || c == '\t' || c == '\x0c' || c == '\r' || c == '\n' || c == ',' || c == ';'

/-- The input behind blanks and comments, from within a comment or from outside one. -/
def skipFrom (inComment : Bool) (offset : Nat) : Text → Input
  | [] => ⟨offset, []⟩
  | [c] =>
      if inComment || isFiller c then ⟨offset + c.utf8Size, []⟩ else ⟨offset, [c]⟩
  | c :: d :: rest =>
      if inComment then
        skipFrom (!(c == '\r' || c == '\n')) (offset + c.utf8Size) (d :: rest)
      else if isFiller c then skipFrom false (offset + c.utf8Size) (d :: rest)
      else if c == '*' && d == '>' then skipFrom true (offset + 2) rest
      else ⟨offset, c :: d :: rest⟩

/-- The input behind blanks and comments, unless they count. -/
def skip (atomic : Bool) (input : Input) : Input :=
  if atomic then input else skipFrom false input.offset input.rest

end Input

/-- A text that a rule without parts has read, and where it begins. -/
structure Piece where
  rule : Rule
  text : Text
  start : Nat
deriving DecidableEq, Repr

/-- The rules applied to a text. -/
abbrev GrammarTree := Tree Rule Piece

/-- What an expression has read: the rules applied, and the input behind. -/
structure Reading where
  trees : List GrammarTree
  next : Input

namespace Expr

/-- Rounds of a step, one after another, as long as it can be taken. Every round takes a
character at least, so the text itself bounds their number. -/
def repeated (step : Input → Option Reading) : Text → Input → Reading
  | [], input => ⟨[], input⟩
  | _ :: bound, input =>
      match step input with
      | none => ⟨[], input⟩
      | some first =>
          let others := repeated step bound first.next
          ⟨first.trees ++ others.trees, others.next⟩

/-- The tree of a rule, given the trees of its parts and the inputs around them. -/
def applied (rule : Rule) (before : Input) (inner : Reading) : GrammarTree :=
  match inner.trees with
  | [] =>
      let size := before.rest.length - inner.next.rest.length
      .leaf ⟨rule, before.rest.take size, before.offset⟩
  | parts => .node rule parts

/-- Reads an expression at the start of an input. -/
def read? (atomic : Bool) : Expr → Input → Option Reading
  | exact expected, input =>
      if expected.isPrefixOf input.rest then some ⟨[], input.drop expected.length⟩ else none
  | anyCase expected, input =>
      if Text.sameWord (input.rest.take expected.length) expected then
        some ⟨[], input.drop expected.length⟩
      else none
  | anyChar, input => if input.rest.isEmpty then none else some ⟨[], input.drop 1⟩
  | digit, input =>
      if (input.rest.head?.map Char.isDigit).getD false then some ⟨[], input.drop 1⟩ else none
  | alphanumeric, input =>
      if (input.rest.head?.map Char.isAlphanum).getD false then some ⟨[], input.drop 1⟩ else none
  | lineBreak, input =>
      match input.rest with
      | '\n' :: _ => some ⟨[], input.drop 1⟩
      | '\r' :: '\n' :: _ => some ⟨[], input.drop 2⟩
      | '\r' :: _ => some ⟨[], input.drop 1⟩
      | _ => none
  | ending, input => if input.rest.isEmpty then some ⟨[], input⟩ else none
  | seq first second, input =>
      match first.read? atomic input with
      | none => none
      | some one =>
          match second.read? atomic (one.next.skip atomic) with
          | none => none
          | some two => some ⟨one.trees ++ two.trees, two.next⟩
  | alt first second, input =>
      match first.read? atomic input with
      | some one => some one
      | none => second.read? atomic input
  | star body, input =>
      match body.read? atomic input with
      | none => some ⟨[], input⟩
      | some one =>
          let others :=
            repeated (fun input => body.read? atomic (input.skip atomic)) one.next.rest one.next
          some ⟨one.trees ++ others.trees, others.next⟩
  | opt body, input =>
      match body.read? atomic input with
      | some one => some one
      | none => some ⟨[], input⟩
  | absent body, input =>
      match body.read? atomic input with
      | some _ => none
      | none => some ⟨[], input⟩
  | rule named isAtomic body, input =>
      match body.read? (atomic || isAtomic) input with
      | none => none
      | some inner =>
          some ⟨if atomic then [] else [applied named input inner], inner.next⟩

end Expr

end CobolTree
