import CobolTree.Proofs.Token.Line

/-!
Lexing under any schedule of contexts. A `Lexing` is a lexer at work: the tokens it has returned and
the cursor behind them. Each call names the context to read in, and contexts can follow each other
in any order. Whatever they are, the tokens partition what has been read
(`Lexing.partitions_run`): none is empty, each is a slice of the text and stands right behind those
before it, and one that holds a line feed is a line break and nothing else. One call appends at most
one token to the row (`Lexing.reads_forward`), so what a call keeps holds of every run
(`Lexing.reads_run`), and all the rest is told by the row.
-/

namespace CobolTree

/-- A lexer at work: the tokens it has returned, in order, and the cursor behind them. -/
structure Lexing where
  tokens : List Token
  cursor : Cursor

namespace Lexing

/-- A lexer that has not been called yet. -/
def start (text : Text) : Lexing := ⟨[], .start text⟩

/-- What a call in a context returns: one token, or none where the text ends. -/
def batch (context : Context) (lexing : Lexing) : List Token :=
  (lexing.cursor.peek? context).toList

/-- The lexer behind a call in a context. -/
def forward (lexing : Lexing) (context : Context) : Lexing :=
  match lexing.cursor.next? context with
  | none => lexing
  | some (_, after) => ⟨lexing.tokens ++ lexing.batch context, after⟩

/-- The lexer behind one call for each context of a schedule. -/
def run (text : Text) (schedule : List Context) : Lexing := schedule.foldl forward (start text)

end Lexing

/-! ### Tokens in a row -/

namespace Position

theorem line_step (place : Position) (c : Char) :
    (place.step c).line = if c = '\n' then place.line + 1 else place.line := by
  unfold step
  split <;> rfl

theorem column_step (place : Position) (c : Char) :
    (place.step c).column = if c = '\n' then 0 else place.column + 1 := by
  unfold step
  split <;> rfl

/-- A text without line feeds stays in its line. -/
theorem advance_of_not_mem {text : Text} (inline : '\n' ∉ text) (place : Position) :
    place.advance text =
      ⟨place.line, place.column + text.length, place.index + text.byteLength⟩ := by
  induction text generalizing place with
  | nil => rfl
  | cons c rest ih =>
      rw [List.mem_cons, not_or] at inline
      obtain ⟨other, behind⟩ := inline
      have stays : place.step c = ⟨place.line, place.column + 1, place.index + c.utf8Size⟩ :=
        if_neg (Ne.symm other)
      rw [advance, List.foldl_cons, stays, ← advance, ih behind]
      simp only [List.length_cons, Text.byteLength]
      congr 1 <;> omega

end Position

namespace Cursor.Reads

variable {cursor last : Cursor} {tokens : List Token}

/-- A row of tokens can be cut anywhere. -/
theorem exists_middle {before behind : List Token} (reads : cursor.Reads (before ++ behind) last) :
    ∃ middle, cursor.Reads before middle ∧ middle.Reads behind last := by
  induction before generalizing cursor with
  | nil => exact ⟨cursor, .nil, reads⟩
  | cons token before ih =>
      cases reads with
      | cons read others =>
          obtain ⟨middle, first, second⟩ := ih others
          exact ⟨middle, .cons read first, second⟩

/-- A token stands behind the text of the tokens before it. -/
theorem position_of_split {before behind : List Token} {token : Token}
    (reads : cursor.Reads (before ++ token :: behind) last) :
    token.position = cursor.position.advance (Lexeme.textOf (Token.lexemes before)) := by
  obtain ⟨middle, first, second⟩ := reads.exists_middle
  cases second with
  | cons read _ => rw [(place_of_next? read).1, first.position_eq]

theorem exists_next? (reads : cursor.Reads tokens last) {token : Token} (mem : token ∈ tokens) :
    ∃ context place after, Cursor.next? context place = some (token, after) := by
  induction reads with
  | nil => cases mem
  | cons read _ ih =>
      rcases List.mem_cons.mp mem with rfl | behind
      · exact ⟨_, _, _, read⟩
      · exact ih behind

theorem index_le (reads : cursor.Reads tokens last) :
    ∀ token ∈ tokens, cursor.position.index ≤ token.position.index := by
  intro token mem
  obtain ⟨before, behind, rfl⟩ := List.append_of_mem mem
  rw [reads.position_of_split, Position.index_advance]
  exact Nat.le_add_right _ _

/-- The offsets of tokens in a row increase. -/
theorem ascending (reads : cursor.Reads tokens last) :
    tokens.Pairwise fun first second => first.position.index < second.position.index := by
  induction reads with
  | nil => exact .nil
  | @cons context cursor after last token tokens read others ih =>
      refine List.pairwise_cons.mpr ⟨fun second mem => ?_, ih⟩
      obtain ⟨here, behind⟩ := place_of_next? read
      have first := others.index_le second mem
      have some := List.length_pos_iff.mpr (text_ne_nil_of_next? read)
      have size := Text.length_le_byteLength token.text
      rw [behind, Position.index_advance] at first
      rw [here]
      omega

/-- A token is the slice of the text that its range says. -/
theorem slice?_of_mem {text : Text} (reads : (Cursor.start text).Reads tokens last) {token : Token}
    (mem : token ∈ tokens) :
    text.slice? token.range.start token.range.stop = some token.text := by
  obtain ⟨before, behind, rfl⟩ := List.append_of_mem mem
  have split : text = Lexeme.textOf (Token.lexemes before) ++
      (token.text ++ (Lexeme.textOf (Token.lexemes behind) ++ last.rest)) := by
    simpa [start] using reads.rest_eq
  have place : token.position.index = (Lexeme.textOf (Token.lexemes before)).byteLength := by
    rw [reads.position_of_split, Position.index_advance]
    exact Nat.zero_add _
  have cut := Text.slice?_append (Lexeme.textOf (Token.lexemes before)) token.text
    (Lexeme.textOf (Token.lexemes behind) ++ last.rest)
  rw [← split, ← place] at cut
  exact cut

end Cursor.Reads

namespace Cursor

/-- A token holds a line feed exactly when it is a blank that is a line break. -/
theorem feed_mem_iff {context : Context} {cursor after : Cursor} {token : Token}
    (h : cursor.next? context = some (token, after)) :
    '\n' ∈ token.text ↔
      token.kind = .whitespace ∧ (token.text = ['\n'] ∨ token.text = ['\r', '\n']) := by
  constructor
  · intro feed
    unfold next? at h
    split at h
    · cases h
    · rename_i left
      simp only [Option.some.injEq, Prod.mk.injEq] at h
      obtain ⟨rfl, rfl⟩ := h
      exact Scan.lineBreak_of_mem_scan (by simpa using left) feed
  · rintro ⟨-, same | same⟩
    · simp [same]
    · simp [same]

end Cursor

namespace Lexing

/-! ### Runs -/

/-- A call leaves the tokens in a row. -/
theorem reads_forward {text : Text} {lexing : Lexing} (context : Context)
    (reads : (Cursor.start text).Reads lexing.tokens lexing.cursor) :
    (Cursor.start text).Reads (lexing.forward context).tokens (lexing.forward context).cursor := by
  unfold forward
  split
  · exact reads
  · rename_i token after h
    have returned : lexing.batch context = [token] := by simp [batch, Cursor.peek?, h]
    rw [returned]
    exact reads.append (.cons h .nil)

/-- After any calls, the tokens lie one after another from the beginning of the text. -/
theorem reads_run (text : Text) (schedule : List Context) :
    (Cursor.start text).Reads (run text schedule).tokens (run text schedule).cursor := by
  suffices calls : ∀ lexing : Lexing, (Cursor.start text).Reads lexing.tokens lexing.cursor →
      (Cursor.start text).Reads (schedule.foldl forward lexing).tokens
        (schedule.foldl forward lexing).cursor from
    calls (start text) .nil
  induction schedule with
  | nil => exact fun _ reads => reads
  | cons context schedule ih => exact fun _ reads => ih _ (reads_forward context reads)

/-- The tokens returned so far partition the text before the cursor. -/
structure Partitions (text : Text) (lexing : Lexing) : Prop where
  /-- The tokens in a row are the text up to the offset of the cursor. -/
  covered : text.slice? 0 lexing.cursor.position.index =
    some (lexing.tokens.flatMap (·.text))
  /-- The offset is a boundary, and the rest of the text is left. -/
  left : text.slice? lexing.cursor.position.index text.byteLength = some lexing.cursor.rest
  text_ne_nil : ∀ token ∈ lexing.tokens, token.text ≠ []
  /-- Every token is cut from the text where it says. -/
  cut : ∀ token ∈ lexing.tokens,
    text.slice? token.range.start token.range.stop = some token.text
  /-- Every token stands where the text of those before it ends. -/
  placed : ∀ before token behind, lexing.tokens = before ++ token :: behind →
    token.position = Position.zero.advance (before.flatMap (·.text))
  ascending : lexing.tokens.Pairwise fun first second =>
    first.position.index < second.position.index
  /-- Only line breaks hold a line feed. -/
  feeds : ∀ token ∈ lexing.tokens, '\n' ∈ token.text ↔
    token.kind = .whitespace ∧ (token.text = ['\n'] ∨ token.text = ['\r', '\n'])
  /-- The next line begins behind a line break, and any other token stays in its line. -/
  lines : ∀ token ∈ lexing.tokens, token.position.advance token.text =
    if '\n' ∈ token.text then ⟨token.position.line + 1, 0, token.range.stop⟩
    else ⟨token.position.line, token.position.column + token.text.length, token.range.stop⟩
  /-- As long as text is left, a call in whatever context returns a token, and just one. -/
  goesOn : ∀ context, lexing.cursor.hasMore = true ↔
    ∃ token, lexing.batch context = [token] ∧ token.text ≠ []
  hasMore_iff : lexing.cursor.hasMore = true ↔
    lexing.cursor.position.index < text.byteLength

theorem textOf_lexemes (tokens : List Token) :
    Lexeme.textOf (Token.lexemes tokens) = tokens.flatMap (·.text) := by
  simp [Lexeme.textOf, Token.lexemes, List.flatMap_map]

theorem advance_lineBreak {token : Token}
    (breaks : token.text = ['\n'] ∨ token.text = ['\r', '\n']) :
    token.position.advance token.text = ⟨token.position.line + 1, 0, token.range.stop⟩ := by
  have stop : (token.position.advance token.text).index = token.range.stop :=
    Position.index_advance _ _
  rw [← stop]
  rcases breaks with same | same
  · rw [same]
    rfl
  · rw [same]
    rfl

/-- A call returns a token exactly when text is left. -/
theorem hasMore_iff_batch (lexing : Lexing) (context : Context) :
    lexing.cursor.hasMore = true ↔ ∃ token, lexing.batch context = [token] ∧ token.text ≠ [] := by
  cases h : lexing.cursor.next? context with
  | none =>
      have ends := Cursor.next?_eq_none_iff.mp h
      simp [batch, Cursor.peek?, h, Cursor.hasMore, ends]
  | some found =>
      obtain ⟨token, after⟩ := found
      have left : lexing.cursor.rest ≠ [] := by
        intro ends
        rw [Cursor.next?_eq_none_iff.mpr ends] at h
        cases h
      have some := Cursor.text_ne_nil_of_next? h
      simp [batch, Cursor.peek?, h, Cursor.hasMore, left, some]

/-- Whatever the contexts, the tokens that a lexer returns partition what it has read of the
text. -/
theorem partitions_run (text : Text) (schedule : List Context) :
    (run text schedule).Partitions text := by
  have reads := reads_run text schedule
  have split : (run text schedule).tokens.flatMap (·.text) ++ (run text schedule).cursor.rest =
      text := by
    rw [← textOf_lexemes]
    exact reads.rest_eq.symm
  have index : (run text schedule).cursor.position.index =
      Text.byteLength ((run text schedule).tokens.flatMap (·.text)) := by
    rw [reads.position_eq, textOf_lexemes, Position.index_advance]
    exact Nat.zero_add _
  have size : text.byteLength = (run text schedule).cursor.position.index +
      (run text schedule).cursor.rest.byteLength := by
    rw [index, ← Text.byteLength_append, split]
  have feeds : ∀ token ∈ (run text schedule).tokens, '\n' ∈ token.text ↔
      token.kind = .whitespace ∧ (token.text = ['\n'] ∨ token.text = ['\r', '\n']) := by
    intro token mem
    obtain ⟨context, place, after, h⟩ := reads.exists_next? mem
    exact Cursor.feed_mem_iff h
  constructor
  case covered =>
    have first := Text.slice?_append [] ((run text schedule).tokens.flatMap (·.text))
      (run text schedule).cursor.rest
    rw [List.nil_append, split, ← index] at first
    simpa [Text.byteLength] using first
  case left =>
    have second := Text.slice?_append ((run text schedule).tokens.flatMap (·.text))
      (run text schedule).cursor.rest []
    rw [List.append_nil, split, ← index, ← size] at second
    exact second
  case text_ne_nil =>
    intro token mem
    obtain ⟨context, place, after, h⟩ := reads.exists_next? mem
    exact Cursor.text_ne_nil_of_next? h
  case cut => exact fun token mem => reads.slice?_of_mem mem
  case placed =>
    intro before token behind same
    rw [same] at reads
    rw [reads.position_of_split, textOf_lexemes]
    rfl
  case ascending => exact reads.ascending
  case feeds => exact feeds
  case lines =>
    intro token mem
    split
    · rename_i feed
      exact advance_lineBreak ((feeds token mem).mp feed).2
    · rename_i inline
      exact Position.advance_of_not_mem inline _
  case goesOn => exact hasMore_iff_batch _
  case hasMore_iff =>
    rw [size, Cursor.hasMore]
    have bytes := Text.length_le_byteLength (run text schedule).cursor.rest
    cases rest : (run text schedule).cursor.rest with
    | nil => simp [Text.byteLength]
    | cons c behind =>
        rw [rest, List.length_cons] at bytes
        simp only [List.isEmpty_cons, Bool.not_false, true_iff]
        omega

end Lexing

end CobolTree
