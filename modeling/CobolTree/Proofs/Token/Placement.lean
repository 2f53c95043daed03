import CobolTree.Production.Sentence
import CobolTree.Proofs.Production.Lookahead
import CobolTree.Proofs.Token.Filler
import CobolTree.Proofs.Token.Recasing

/-!
A text inside another one. A `Placement` says how a text stands in a whole: in which cases its
letters are written, behind how many lines and bytes, and before what other text. Reading a token
is the same in the whole (`Placement.next?_cursor`) as long as the token does not touch what stands
behind, and it never does when the text ends a line.

What is ahead of a cursor can reach beyond the text, since blanks and comments are skipped.
`Placement.Sees` says that the next token that carries meaning stands in the text itself, and
`Placement.Foresees` that headers are told by the text itself. Both are handed back over a token
that is read (`Placement.Foresees.of_next?`), so what holds where a text ends holds everywhere
before.
-/

namespace CobolTree

namespace Cursor

variable {context : Context} {cursor after : Cursor} {token : Token}

theorem rest_ne_nil_of_significant? (h : cursor.significant? context = some (token, after)) :
    cursor.rest ≠ [] := by
  intro empty
  have shorter := shorter_of_significant? h
  simp [empty] at shorter

theorem suffix_of_next? (h : cursor.next? context = some (token, after)) :
    after.rest <:+ cursor.rest := by
  rw [rest_eq_of_next? h]
  exact List.suffix_append _ _

theorem significant?_of_end (h : cursor.next? context = none) :
    cursor.significant? context = none := by
  rw [significant?]
  split
  · rfl
  · rename_i found
    rw [h] at found
    cases found

theorem suffix_of_significant? (h : cursor.significant? context = some (token, after)) :
    after.rest <:+ cursor.rest := by
  fun_induction significant? context cursor with
  | case1 => cases h
  | case2 cursor first behind read shorter trivial ih => exact (ih h).trans (suffix_of_next? read)
  | case3 cursor first behind read shorter carries =>
      cases h
      exact suffix_of_next? read

end Cursor

/-- How a text stands in a whole: its letters, what is before it and what is behind it. -/
structure Placement extends Recasing where
  lines : Nat
  bytes : Nat
  behind : Text

namespace Placement

variable (place : Placement)

/-! ### What is placed -/

def position (position : Position) : Position :=
  ⟨position.line + place.lines, position.column, position.index + place.bytes⟩

def range (range : Range) : Range := ⟨range.start + place.bytes, range.stop + place.bytes⟩

def lexeme (lexeme : Lexeme) : Lexeme := ⟨lexeme.kind, place.text lexeme.text⟩

def token (token : Token) : Token :=
  ⟨place.lexeme token.toLexeme, place.position token.position, token.context⟩

/-- The place in the whole, with all that follows there. -/
def cursor (cursor : Cursor) : Cursor :=
  ⟨place.position cursor.position, place.text cursor.rest ++ place.behind⟩

section Fields

variable (lexeme : Lexeme) (token : Token) (cursor : Cursor)

@[simp] theorem kind_lexeme : (place.lexeme lexeme).kind = lexeme.kind := rfl
@[simp] theorem text_lexeme : (place.lexeme lexeme).text = place.text lexeme.text := rfl
@[simp] theorem toLexeme_token : (place.token token).toLexeme = place.lexeme token.toLexeme := rfl
@[simp] theorem position_token :
    (place.token token).position = place.position token.position := rfl
@[simp] theorem context_token : (place.token token).context = token.context := rfl
@[simp] theorem position_cursor :
    (place.cursor cursor).position = place.position cursor.position := rfl
@[simp] theorem rest_cursor :
    (place.cursor cursor).rest = place.text cursor.rest ++ place.behind := rfl

@[simp] theorem isTrivia_lexeme : (place.lexeme lexeme).isTrivia = lexeme.isTrivia := rfl
@[simp] theorem isWhitespace_lexeme :
    (place.lexeme lexeme).isWhitespace = lexeme.isWhitespace := rfl

@[simp] theorem isWord_lexeme (word : Text) :
    (place.lexeme lexeme).isWord word = lexeme.isWord word := by
  rw [Lexeme.isWord, kind_lexeme, text_lexeme, Recasing.sameWord_text_left, Lexeme.isWord]

end Fields

/-- The whole has its line breaks and its bytes where the text has them. -/
@[simp] theorem advance_position (position : Position) (text : Text) :
    (place.position position).advance (place.text text) =
      place.position (position.advance text) := by
  induction text generalizing position with
  | nil => rfl
  | cons c rest ih =>
      have size : (place.letter c).utf8Size = c.utf8Size :=
        place.apply_letter caseless_utf8Size c
      have first : (place.position position).step (place.letter c) =
          place.position (position.step c) := by
        unfold Position.step
        simp only [place.letter_eq_iff Recasing.caseless_feed, size]
        split
        · dsimp only [Placement.position]
          congr 1 <;> omega
        · dsimp only [Placement.position]
          congr 1
          omega
      have others := ih (position.step c)
      simp only [Position.advance, Recasing.text_cons, List.foldl_cons, first] at others ⊢
      exact others

@[simp] theorem range_token (token : Token) : (place.token token).range = place.range token.range := by
  simp only [Token.range, Range.ofText, Placement.range, toLexeme_token, text_lexeme,
    Recasing.byteLength_text, position_token, Placement.position]
  congr 1
  omega

@[simp] theorem empty_position (position : Position) :
    Range.empty (place.position position).index = place.range (Range.empty position.index) := rfl

/-! ### One token -/

/-- What is behind the text does not show in a token that begins here. -/
def Apart (cursor : Cursor) : Prop := place.behind = [] ∨ Scan.EndsLine cursor.rest

variable {place}

theorem Apart.scan {cursor : Cursor} (apart : place.Apart cursor) (mode : Mode) :
    Scan.scan mode (place.cursor cursor).rest = Scan.scan mode cursor.rest := by
  rcases apart with alone | ends
  · rw [rest_cursor, alone, List.append_nil, Recasing.scan_text]
  · have recased : Scan.EndsLine (place.text cursor.rest) := by
      obtain ⟨lines, same⟩ := ends
      refine ⟨place.text lines, ?_⟩
      rw [← same, Recasing.text_append, Recasing.text_cons,
        place.letter_eq Recasing.caseless_feed, Recasing.text_nil]
    rw [rest_cursor, Scan.scan_append mode recased, Recasing.scan_text]

theorem Apart.isEmpty {cursor : Cursor} (apart : place.Apart cursor) :
    (place.cursor cursor).rest.isEmpty = cursor.rest.isEmpty := by
  rcases apart with alone | ends
  · simp [alone]
  · obtain ⟨c, rest, same⟩ := List.exists_cons_of_ne_nil ends.ne_nil
    rw [rest_cursor, same]
    rfl

/-- A token that is read in the text is read in the whole. -/
theorem next?_cursor {cursor : Cursor} (apart : place.Apart cursor) (context : Context) :
    (place.cursor cursor).next? context =
      (cursor.next? context).map fun (token, after) => (place.token token, place.cursor after) := by
  unfold Cursor.next?
  rw [apart.isEmpty, apart.scan]
  split
  · rfl
  · rename_i left
    have left : cursor.rest ≠ [] := by simpa using left
    have within := Scan.scan_le context.mode left
    have recased : (Scan.scan context.mode cursor.rest).2 ≤
        (place.text cursor.rest).length := by rwa [Recasing.length_text]
    simp only [Option.map_some, rest_cursor, position_cursor,
      List.take_append_of_le_length recased, List.drop_append_of_le_length recased,
      ← Recasing.text_take, ← Recasing.text_drop, advance_position]
    rfl

theorem next?_cursor_of_none {cursor : Cursor} (apart : place.Apart cursor) {context : Context}
    (h : cursor.next? context = none) : (place.cursor cursor).next? context = none := by
  rw [next?_cursor apart, h]
  rfl

theorem next?_cursor_of_some {cursor after : Cursor} {token : Token}
    (apart : place.Apart cursor) {context : Context}
    (h : cursor.next? context = some (token, after)) :
    (place.cursor cursor).next? context = some (place.token token, place.cursor after) := by
  rw [next?_cursor apart, h]
  rfl

/-- What is behind the text stays apart from an earlier place. -/
theorem Apart.of_suffix {cursor after : Cursor} (apart : place.Apart after)
    (suffix : after.rest <:+ cursor.rest) : place.Apart cursor := by
  rcases apart with alone | ends
  · exact .inl alone
  · exact .inr (ends.trans suffix)

/-- What is behind the text stays apart as long as some of the text is left. -/
theorem Apart.suffix {cursor after : Cursor} (apart : place.Apart cursor)
    (suffix : after.rest <:+ cursor.rest) (left : after.rest ≠ []) : place.Apart after := by
  rcases apart with alone | ends
  · exact .inl alone
  · exact .inr (ends.of_suffix suffix left)

/-- What is behind the text stays apart from the token behind one that carries meaning. -/
theorem Apart.behind {cursor after last : Cursor} {token second : Token} {context : Context}
    (apart : place.Apart cursor) (h : cursor.significant? context = some (token, after))
    (next : after.significant? context = some (second, last)) : place.Apart after :=
  apart.suffix (Cursor.suffix_of_significant? h) (Cursor.rest_ne_nil_of_significant? next)

/-! ### What is ahead -/

variable (place)

/-- The next token that carries meaning stands in the text itself. -/
def Sees (cursor : Cursor) : Prop :=
  place.behind = [] ∨ Scan.EndsLine cursor.rest ∧
    ∃ token after, cursor.significant? .programUnit = some (token, after)

/-- The text itself tells what header stands here. Behind a word one more token has to be seen,
unless the word asks for a picture string, whose text can look like a comment to a look ahead. -/
def Foresees (pictures : Bool) (cursor : Cursor) : Prop :=
  place.behind = [] ∨ Scan.EndsLine cursor.rest ∧
    ∃ token after, cursor.significant? .programUnit = some (token, after) ∧
      (token.kind = .word →
        (pictures = true ∧ Production.isPictureWord token = true) ∨
          ∃ second behind, after.significant? .programUnit = some (second, behind))

variable {place} {pictures : Bool} {cursor after : Cursor} {token : Token} {context : Context}

theorem Foresees.sees (h : place.Foresees pictures cursor) : place.Sees cursor := by
  rcases h with alone | ⟨ends, token, after, first, -⟩
  · exact .inl alone
  · exact .inr ⟨ends, token, after, first⟩

theorem Foresees.weaken (h : place.Foresees false cursor) (pictures : Bool) :
    place.Foresees pictures cursor := by
  rcases h with alone | ⟨ends, token, after, first, others⟩
  · exact .inl alone
  · refine .inr ⟨ends, token, after, first, fun word => ?_⟩
    rcases others word with ⟨no, -⟩ | second
    · cases no
    · exact .inr second

theorem Sees.apart (h : place.Sees cursor) : place.Apart cursor := by
  rcases h with alone | ⟨ends, -⟩
  · exact .inl alone
  · exact .inr ends

theorem Foresees.apart (h : place.Foresees pictures cursor) : place.Apart cursor := h.sees.apart

/-- What stands behind is seen from where the next token begins that carries meaning. -/
theorem Sees.of_significant? (apart : place.Apart cursor)
    (h : cursor.significant? .programUnit = some (token, after)) : place.Sees cursor := by
  rcases apart with alone | ends
  · exact .inl alone
  · exact .inr ⟨ends, token, after, h⟩

/-- Seeing goes through blanks and comments. -/
theorem Sees.next (h : cursor.next? context = some (token, after))
    (trivial : token.isTrivia = true) (sees : place.Sees cursor) : place.Sees after := by
  rcases sees with alone | ⟨ends, second, behind, found⟩
  · exact .inl alone
  · have alike := Cursor.next?_of_shared h (.inr trivial)
    rw [Cursor.significant?_of_trivia alike trivial] at found
    have left := Cursor.rest_ne_nil_of_significant? found
    exact .inr ⟨ends.of_suffix (Cursor.suffix_of_next? h) left, second, behind, found⟩

/-- What carries meaning next in the text is next in the whole. -/
theorem significant?_cursor (sees : place.Sees cursor) (context : Context) :
    (place.cursor cursor).significant? context =
      (cursor.significant? context).map fun (token, after) =>
        (place.token token, place.cursor after) := by
  fun_induction Cursor.significant? context cursor with
  | case1 cursor h =>
      rw [Cursor.significant?_of_end (next?_cursor_of_none sees.apart h)]
      rfl
  | case2 cursor token after h shorter trivial ih =>
      rw [Cursor.significant?_of_trivia (next?_cursor_of_some sees.apart h) trivial]
      exact ih (sees.next h trivial)
  | case3 cursor token after h shorter carries =>
      have carries : token.isTrivia = false := by simpa using carries
      exact Cursor.significant?_of_next? (next?_cursor_of_some sees.apart h) carries

theorem significant?_cursor_of_none (sees : place.Sees cursor) {context : Context}
    (h : cursor.significant? context = none) : (place.cursor cursor).significant? context = none := by
  rw [significant?_cursor sees, h]
  rfl

theorem significant?_cursor_of_some (sees : place.Sees cursor) {context : Context}
    (h : cursor.significant? context = some (token, after)) :
    (place.cursor cursor).significant? context = some (place.token token, place.cursor after) := by
  rw [significant?_cursor sees, h]
  rfl

end Placement

end CobolTree
