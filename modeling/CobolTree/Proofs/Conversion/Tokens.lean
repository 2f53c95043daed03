import CobolTree.Conversion.Tokens
import CobolTree.Proofs.Agreement.Terminals

/-!
The terminals of a parsed text in a row. They are the tokens of the parse but for the blanks
(`flatTerminals_ofText`): the leaves of the tree are the tokens, and the table of lines places a
token where the parser has read it.
-/

namespace CobolTree

namespace Token

/-- A token as a terminal, placed where it was read. -/
def terminal (token : Token) : Terminal :=
  ⟨.lexeme token.kind, token.text, token.position, token.range, none⟩

end Token

namespace Stream

/-- The end of the input stands behind the last character. -/
theorem endOfInput_ofText (text : Text) :
    (ofText text).endOfInput =
      ⟨.endOfInput, "<EOF>".toList, Position.zero.advance text, .empty text.byteLength, none⟩ := by
  have whole : (ofText text).text = text ++ [] := (List.append_nil text).symm
  have place := (ofText text).position_eq whole
  simp only [endOfInput, terminal, Range.empty]
  rw [← place]
  rfl

/-- The terminal of a leaf is the token that was read there. -/
theorem terminalOf_leaf {settings : Settings} {text : Text} {token : Token}
    (mem : token ∈ (Parsed.ofText settings text).tokens) :
    (ofText text).terminalOf token.leaf = token.terminal := by
  have place : (ofText text).position token.position.index = token.position :=
    Parsed.position_token mem
  simp only [terminalOf, terminal, Token.terminal]
  have start : token.leaf.range.start = token.position.index := rfl
  rw [start, place]
  rfl

end Stream

/-- No token begins behind the end of the text. -/
theorem Parsed.index_le_of_mem {settings : Settings} {text : Text} {token : Token}
    (mem : token ∈ (ofText settings text).tokens) : token.position.index ≤ text.byteLength := by
  obtain ⟨last, -, reads⟩ := reads_ofText settings text
  obtain ⟨before, behind, split⟩ := List.append_of_mem mem
  have whole := textOf_tokens_ofText settings text
  rw [split, Token.lexemes_append, Lexeme.textOf_append] at whole
  rw [split] at reads
  have zero : (Cursor.start text).position.index = 0 := rfl
  rw [reads.position_of_split, Position.index_advance, zero, Nat.zero_add, ← whole,
    Text.byteLength_append]
  exact Nat.le_add_right _ _

namespace Conversion

/-- The terminals of a parsed text in a row are its tokens, the blanks left out, each with the kind,
the text and the place that the parser gave it, and behind them the end of the text. Their offsets
increase, and none lies behind the end. -/
theorem flatTerminals_ofText (settings : Settings) (text : Text) :
    let parsed := Parsed.ofText settings text
    let terminals := flatTerminals (.ofText text) parsed.tree.locate
    let final : Terminal :=
      ⟨.endOfInput, "<EOF>".toList, Position.zero.advance text, .empty text.byteLength, none⟩
    terminals = (parsed.tokens.filter (·.kind ≠ .whitespace)).map Token.terminal ++ [final] ∧
      ((terminals.filter (!·.isEndOfInput)).Pairwise fun first second =>
        first.position.index < second.position.index) ∧
      ∀ terminal ∈ terminals, terminal.position.index ≤ final.position.index := by
  intro parsed terminals final
  let kept := parsed.tokens.filter (·.kind ≠ .whitespace)
  obtain ⟨last, -, reads⟩ := Parsed.reads_ofText settings text
  have row : terminals = kept.map Token.terminal ++ [final] := by
    have blanks : (fun leaf : Leaf => !leaf.isWhitespace) ∘ Token.leaf =
        fun token : Token => decide (token.kind ≠ .whitespace) := by
      funext token
      simp [Token.leaf, Lexeme.isWhitespace, ← Bool.beq_eq_decide_eq]
    simp only [terminals, flatTerminals]
    rw [Parsed.leaves_locate_ofText, List.filter_map, blanks, List.map_map,
      Stream.endOfInput_ofText]
    congr 1
    apply List.map_congr_left
    intro token mem
    exact Stream.terminalOf_leaf (List.mem_filter.mp mem).1
  refine ⟨row, ?_, ?_⟩
  · have inner : ∀ terminal ∈ kept.map Token.terminal, (!terminal.isEndOfInput) = true := by
      intro terminal mem
      obtain ⟨token, -, rfl⟩ := List.mem_map.mp mem
      rfl
    have only : terminals.filter (!·.isEndOfInput) = kept.map Token.terminal := by
      rw [row, List.filter_append, List.filter_eq_self.mpr inner]
      exact List.append_nil _
    rw [only]
    apply List.pairwise_map.mpr
    exact reads.ascending.sublist List.filter_sublist
  · intro terminal mem
    rw [row] at mem
    rcases List.mem_append.mp mem with inside | ends
    · obtain ⟨token, among, rfl⟩ := List.mem_map.mp inside
      have within := Parsed.index_le_of_mem (List.mem_filter.mp among).1
      rw [Position.index_advance]
      exact Nat.le_trans within (Nat.le_add_left _ _)
    · rw [List.mem_singleton.mp ends]

end Conversion

end CobolTree
