import CobolTree.Source.Position
import CobolTree.Token.Scan

/-!
Tokens and the cursor that reads them. A `Cursor` is a position and the text from there
on; reading a token in a context moves it over that token and nothing else, so a cursor
can be kept and read from again. Nothing is skipped: blanks and comments are tokens too.
-/

namespace CobolTree

/-- A piece of text of one kind. -/
structure Lexeme where
  kind : Kind
  text : Text
deriving DecidableEq, Repr

/-- A lexeme with the place where it begins and the context it was read in. -/
structure Token extends Lexeme where
  position : Position
  context : Context
deriving DecidableEq, Repr

namespace Lexeme

def isTrivia (lexeme : Lexeme) : Bool := lexeme.kind.isTrivia

def isWhitespace (lexeme : Lexeme) : Bool := lexeme.kind == .whitespace

/-- A blank that ends a line. -/
def isNewline (lexeme : Lexeme) : Bool :=
  lexeme.kind == .whitespace && lexeme.text.getLast? == some '\n'

/-- A word that reads as the given one, in any case. -/
def isWord (lexeme : Lexeme) (word : Text) : Bool :=
  lexeme.kind == .word && Text.sameWord lexeme.text word

theorem kind_of_isWord {lexeme : Lexeme} {word : Text} (h : lexeme.isWord word = true) :
    lexeme.kind = .word := eq_of_beq (Bool.and_eq_true_iff.mp h).1

theorem sameWord_of_isWord {lexeme : Lexeme} {word : Text} (h : lexeme.isWord word = true) :
    Text.sameWord lexeme.text word = true := (Bool.and_eq_true_iff.mp h).2

end Lexeme

namespace Token

/-- The bytes a token takes. -/
def range (token : Token) : Range := Range.ofText token.position.index token.text

end Token

/-- A place in a text with what follows it. -/
structure Cursor where
  position : Position
  rest : Text
deriving DecidableEq, Repr

namespace Cursor

/-- The beginning of a text. -/
def start (text : Text) : Cursor := ⟨.zero, text⟩

def hasMore (cursor : Cursor) : Bool := !cursor.rest.isEmpty

/-- The next token and the cursor behind it, unless the text ends here. -/
def next? (context : Context) (cursor : Cursor) : Option (Token × Cursor) :=
  if cursor.rest.isEmpty then none
  else
    let (kind, size) := Scan.scan context.mode cursor.rest
    let text := cursor.rest.take size
    some (⟨⟨kind, text⟩, cursor.position, context⟩,
      ⟨cursor.position.advance text, cursor.rest.drop size⟩)

/-- The next token, left where it is. -/
def peek? (context : Context) (cursor : Cursor) : Option Token :=
  (cursor.next? context).map (·.1)

/-- The text splits into the token and the rest. -/
theorem rest_eq_of_next? {context : Context} {cursor after : Cursor} {token : Token}
    (h : cursor.next? context = some (token, after)) :
    cursor.rest = token.text ++ after.rest := by
  unfold next? at h
  split at h
  · cases h
  · simp only [Option.some.injEq, Prod.mk.injEq] at h
    obtain ⟨rfl, rfl⟩ := h
    simp

/-- No token is empty. -/
theorem text_ne_nil_of_next? {context : Context} {cursor after : Cursor} {token : Token}
    (h : cursor.next? context = some (token, after)) : token.text ≠ [] := by
  unfold next? at h
  split at h
  · cases h
  · rename_i left
    have left : cursor.rest ≠ [] := by simpa using left
    have size := Scan.scan_pos context.mode left
    simp only [Option.some.injEq, Prod.mk.injEq] at h
    obtain ⟨rfl, rfl⟩ := h
    simp only [ne_eq, List.take_eq_nil_iff, not_or]
    exact ⟨by omega, left⟩

/-- Reading a token leaves less text. -/
theorem shorter_of_next? {context : Context} {cursor after : Cursor} {token : Token}
    (h : cursor.next? context = some (token, after)) :
    after.rest.length < cursor.rest.length := by
  have split := rest_eq_of_next? h
  have size := List.length_pos_iff.mpr (text_ne_nil_of_next? h)
  rw [split, List.length_append]
  omega

/-- All tokens from here on, read in one context. -/
def tokens (context : Context) (cursor : Cursor) : List Token :=
  match h : cursor.next? context with
  | none => []
  | some (token, after) =>
      have := shorter_of_next? h
      token :: tokens context after
termination_by cursor.rest.length

/-- The next token that is neither blank nor comment, and the cursor behind it. -/
def significant? (context : Context) (cursor : Cursor) : Option (Token × Cursor) :=
  match h : cursor.next? context with
  | none => none
  | some (token, after) =>
      have := shorter_of_next? h
      if token.isTrivia then significant? context after else some (token, after)
termination_by cursor.rest.length

/-- The next `n` tokens that are neither blank nor comment, fewer at the end of the text. -/
def ahead (context : Context) : Nat → Cursor → List Token
  | 0, _ => []
  | n + 1, cursor =>
      match cursor.significant? context with
      | none => []
      | some (token, after) => token :: ahead context n after

end Cursor

/-- All tokens of a text, read in one context. -/
def tokenize (context : Context) (text : Text) : List Token := (Cursor.start text).tokens context

end CobolTree
