import CobolTree.Proofs.Conversion.Covering
import CobolTree.Proofs.Tree.Subtrees

/-!
Where comments stop. A comment that is a lexeme goes on to the end of its line
(`Parsed.isLineEnd_of_comment`). A grammar reads a division without what is behind it, and can find
the mark of a comment within a token of the division; such a comment stops where the division ends,
in the middle of a line as well (`Conversion.CutsComment`). There is no other place where a comment
stops (`Analysis.settled_children`).
-/

namespace CobolTree

/-- A line of the text ends at the offset, or the text does. -/
def Text.IsLineEnd (text : Text) (offset : Nat) : Prop :=
  (text.dropBytes? offset).any (fun behind => behind.head?.all Scan.isLineBreak) = true

instance (text : Text) (offset : Nat) : Decidable (text.IsLineEnd offset) :=
  inferInstanceAs (Decidable (_ = true))

theorem Text.isLineEnd_append {before behind : Text} :
    (before ++ behind).IsLineEnd before.byteLength ↔
      ∀ c ∈ behind.head?, Scan.isLineBreak c = true := by
  simp [IsLineEnd, Option.all_eq_true]

/-- The place of a character of a row of lexemes: the leaf that it is in, and what is left of the
row behind that leaf. -/
theorem Leaf.exists_mem_row (start : Nat) {lexemes : List Lexeme} {before after : Text} {c : Char}
    (split : Lexeme.textOf lexemes = before ++ c :: after) :
    ∃ leaf ∈ row start lexemes, ∃ head tail rest, leaf.text = head ++ c :: tail ∧
      leaf.start + head.byteLength = start + before.byteLength ∧ after = tail ++ rest ∧
        leaf.range.stop + rest.byteLength = start + (Lexeme.textOf lexemes).byteLength := by
  induction lexemes generalizing start before with
  | nil => simp [Lexeme.textOf] at split
  | cons lexeme others ih =>
      rw [Lexeme.textOf_cons] at split
      rcases List.append_eq_append_iff.mp split with ⟨between, here, there⟩ | ⟨between, here, there⟩
      · obtain ⟨leaf, mem, head, tail, rest, text, place, same, stop⟩ :=
          ih (start + lexeme.text.byteLength) there
        refine ⟨leaf, List.mem_cons_of_mem _ mem, head, tail, rest, text, ?_, same, ?_⟩
        · rw [place, here, Text.byteLength_append, Nat.add_assoc]
        · rw [stop, Lexeme.textOf_cons, Text.byteLength_append, Nat.add_assoc]
      · cases between with
        | nil =>
            rw [List.append_nil] at here
            have begins : Lexeme.textOf others = [] ++ c :: after := there.symm
            obtain ⟨leaf, mem, head, tail, rest, text, place, same, stop⟩ :=
              ih (start + lexeme.text.byteLength) begins
            refine ⟨leaf, List.mem_cons_of_mem _ mem, head, tail, rest, text, ?_, same, ?_⟩
            · rw [place, here]
              rfl
            · rw [stop, Lexeme.textOf_cons, Text.byteLength_append, Nat.add_assoc]
        | cons d tail =>
            obtain ⟨rfl, same⟩ := List.cons.inj there
            refine ⟨⟨lexeme, start⟩, List.mem_cons_self, before, tail, Lexeme.textOf others, here,
              rfl, same, ?_⟩
            rw [Lexeme.textOf_cons, Text.byteLength_append]
            exact Nat.add_assoc _ _ _

namespace Conversion

/-- A division that its grammar accepts ends within a comment of the grammar that is none of the
division: the mark is within a token, and from the mark on to the end no line ends. -/
structure CutsComment (stream : Stream) (division : Division) (node : LocatedTree) : Prop where
  kind : LocatedTree.kind node = division.kind
  hasGrammar : (GrammarName.ofDivision? division).isSome = true
  accepted : ∃ context, Conversion.division stream division node = .ok (context, [])
  cut : ∃ token ∈ node.tokens, ∃ mark body, token.start ≤ mark ∧ mark < token.range.stop ∧
    stream.text.slice? mark (LocatedTree.range node).stop = some ('*' :: '>' :: body) ∧
      ∀ c ∈ body, Scan.isLineBreak c = false

end Conversion

/-- A comment in the input stops at the end of its line, or at the end of the input if its mark is
within a token there. -/
theorem stopsComments_of_lexemes {stops : Nat → Prop} {before after : Text} {lexemes : List Lexeme}
    (legible : ∀ lexeme ∈ lexemes, lexeme.Legible)
    (comments : ∀ leaf ∈ Leaf.row before.byteLength lexemes, leaf.kind = .comment →
      Text.IsLineEnd (before ++ (Lexeme.textOf lexemes ++ after)) leaf.range.stop)
    (line : ∀ offset, Text.IsLineEnd (before ++ (Lexeme.textOf lexemes ++ after)) offset →
      stops offset)
    (cut : ∀ leaf ∈ Leaf.row before.byteLength lexemes, leaf.isTrivia = false → ∀ mark body,
      leaf.start ≤ mark → mark < leaf.range.stop →
        Text.slice? (before ++ (Lexeme.textOf lexemes ++ after)) mark
            (before.byteLength + (Lexeme.textOf lexemes).byteLength) = some ('*' :: '>' :: body) →
          (∀ c ∈ body, Scan.isLineBreak c = false) →
            stops (before.byteLength + (Lexeme.textOf lexemes).byteLength)) :
    Input.StopsComments stops ⟨before.byteLength, Lexeme.textOf lexemes⟩ := by
  intro lead rest split body behind parts inLine ends
  dsimp only at split parts ⊢
  subst parts
  have mark : lead ++ '*' :: '>' :: body = lead ++ ['*', '>'] ++ body := by
    rw [List.append_assoc]
    rfl
  have place : before.byteLength + (lead ++ ['*', '>']).byteLength + body.byteLength =
      (before ++ (lead ++ '*' :: '>' :: body)).byteLength := by
    rw [mark, Text.byteLength_append before, Text.byteLength_append _ body, Nat.add_assoc]
  rw [place]
  cases behind with
  | cons c others =>
      refine line _ ?_
      have whole : before ++ (Lexeme.textOf lexemes ++ after) =
          before ++ (lead ++ '*' :: '>' :: body) ++ (c :: others ++ after) := by
        rw [split]
        simp
      rw [whole]
      exact Text.isLineEnd_append.mpr ends
  | nil =>
      rw [List.append_nil] at split
      have size : (before ++ (lead ++ '*' :: '>' :: body)).byteLength =
          before.byteLength + (Lexeme.textOf lexemes).byteLength := by
        rw [split, Text.byteLength_append]
      rw [size]
      obtain ⟨leaf, mem, head, tail, others, text, start, same, stop⟩ :=
        Leaf.exists_mem_row before.byteLength split
      have readable := legible leaf.toLexeme (Leaf.toLexeme_mem_of_mem_row mem)
      have long : leaf.range.stop = leaf.start + leaf.text.byteLength := rfl
      cases trivial : leaf.isTrivia with
      | false =>
          refine cut leaf mem trivial (before.byteLength + lead.byteLength) body ?_ ?_ ?_ inLine
          · omega
          · have some := Char.utf8Size_pos '*'
            rw [long, text, Text.byteLength_append, Text.byteLength]
            omega
          · have slice := Text.slice?_append (before ++ lead) ('*' :: '>' :: body) after
            rw [split]
            simpa [Text.byteLength_append, Nat.add_assoc] using slice
      | true =>
          rcases leaf.kind_of_isTrivia trivial with blank | comment
          · have filler := readable.blank blank '*' (by rw [text]; simp)
            cases filler
          · have ended := comments leaf mem comment
            have whole : before ++ (Lexeme.textOf lexemes ++ after) =
                before ++ (lead ++ '*' :: tail) ++ (others ++ after) := by
              rw [split, same]
              simp
            have there : leaf.range.stop = (before ++ (lead ++ '*' :: tail)).byteLength := by
              rw [long, text, Text.byteLength_append, Text.byteLength_append,
                Text.byteLength_append]
              omega
            rw [whole, there, Text.isLineEnd_append] at ended
            cases others with
            | nil =>
                refine line _ ?_
                have last : before.byteLength + (Lexeme.textOf lexemes).byteLength =
                    (before ++ (lead ++ '*' :: tail)).byteLength := by
                  rw [← there, ← stop]
                  exact Nat.add_zero _
                rw [last, whole]
                exact Text.isLineEnd_append.mpr ended
            | cons d rest =>
                -- the comment would end within its line
                have breaks : Scan.isLineBreak d = true := ended d rfl
                have within : d ∈ '>' :: body := by
                  rw [same]
                  exact List.mem_append_right _ List.mem_cons_self
                have goesOn : ∀ c ∈ '>' :: body, Scan.isLineBreak c = false :=
                  List.forall_mem_cons.mpr ⟨rfl, inLine⟩
                rw [goesOn d within] at breaks
                cases breaks

/-- Behind a comment of a parsed text its line ends. -/
theorem Parsed.isLineEnd_of_comment (settings : Settings) (text : Text) :
    ∀ leaf ∈ Leaf.row 0 (ofText settings text).tree.leaves, leaf.kind = .comment →
      text.IsLineEnd leaf.range.stop := by
  intro leaf mem comment
  obtain ⟨last, ends, reads⟩ := reads_ofText settings text
  rw [leaves_ofText] at mem
  obtain ⟨before, after, split, place⟩ := Leaf.exists_split_of_mem_row mem
  obtain ⟨earlier, others, tokens, rfl, rest⟩ := List.map_eq_append_iff.mp split
  obtain ⟨token, later, rfl, same, rfl⟩ := List.map_eq_cons_iff.mp rest
  rw [tokens] at reads
  have breaks := reads.isLineBreak_of_comment (by rw [← comment, ← same])
  have whole : text = _ := reads.rest_eq
  rw [ends, List.append_nil] at breaks whole
  have rest : text = Lexeme.textOf (earlier.map (·.toLexeme)) ++ token.text ++
      Lexeme.textOf (later.map (·.toLexeme)) := by
    simpa [Token.lexemes] using whole
  have stop : leaf.range.stop =
      (Lexeme.textOf (earlier.map (·.toLexeme)) ++ token.text).byteLength := by
    have read : token.text = leaf.text := congrArg (·.text) same
    rw [Text.byteLength_append, ← Nat.zero_add (Text.byteLength (Lexeme.textOf _)), ← place, read]
    rfl
  rw [rest, stop]
  exact Text.isLineEnd_append.mpr breaks

namespace Analysis

open Conversion SourceTree

/-- A comment stops at the offset: a line ends there, or a division that cuts off a comment. -/
def StopsComment (stream : Stream) (parsed : Parsed) (offset : Nat) : Prop :=
  stream.text.IsLineEnd offset ∨ ∃ division, ∃ node ∈ parsed.tree.locate.nodes,
    CutsComment stream division node ∧ (LocatedTree.range node).stop = offset

/-- All comments of a parsed text stop where comments stop. -/
theorem settled_children {settings : Settings} {stream : Stream} {children : List SourceTree}
    (parsed : (Parsed.ofText settings stream.text).tree = .node .sourceUnit children) :
    Settled stream (StopsComment stream (Parsed.ofText settings stream.text)) 0 children := by
  have legible := Parsed.legible_ofText settings stream.text
  have lossless := Parsed.text_ofText settings stream.text
  have comments := Parsed.isLineEnd_of_comment settings stream.text
  rw [parsed] at legible lossless comments
  refine ⟨legible, fun leaf mem comment => .inl (comments leaf mem comment), ?_⟩
  intro division node mem kind hasGrammar context converted
  obtain ⟨before, label, inner, after, leaves, rfl⟩ := exists_subtree mem
  have below : locateAt (0 + (Lexeme.textOf before).byteLength) (.node label inner) ∈
      (Parsed.ofText settings stream.text).tree.locate.nodes := by
    rw [parsed]
    exact List.mem_cons_of_mem _ mem
  have whole : Lexeme.textOf before ++ (Lexeme.textOf (Tree.leavesOf inner) ++
      Lexeme.textOf after) = stream.text := by
    rw [← lossless, text_eq_textOf, Tree.leaves, leaves, Lexeme.textOf_append,
      Lexeme.textOf_append]
  rw [Tree.leaves, leaves] at legible comments
  rw [Leaf.row_append, Leaf.row_append, Nat.zero_add] at comments
  rw [Nat.zero_add] at converted below kind ⊢
  rw [start_locateAt, text_locateAt, text_eq_textOf, Tree.leaves]
  refine @stopsComments_of_lexemes _ _ (Lexeme.textOf after) _
    (fun lexeme inside => legible lexeme (by simp [inside])) (fun leaf inside comment => ?_)
    (fun offset ended => .inl (whole ▸ ended)) ?_
  · rw [whole]
    exact comments leaf (by simp [inside]) comment
  · intro leaf inside carries mark body low high slice inLine
    rw [whole] at slice
    refine .inr ⟨division, _, below, ⟨kind, hasGrammar, ⟨context, converted⟩, leaf, ?_, mark, body,
      low, high, ?_, inLine⟩, ?_⟩
    · rw [tokens_locateAt]
      exact List.mem_filter.mpr ⟨inside, by simp [carries]⟩
    · rw [range_locateAt]
      exact slice
    · rw [range_locateAt]
      rfl

end Analysis

end CobolTree
