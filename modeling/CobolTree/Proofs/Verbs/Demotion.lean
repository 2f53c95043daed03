import CobolTree.Proofs.Verbs.Body
import CobolTree.Proofs.Verbs.Fate

/-!
The body of a PROCEDURE DIVISION when a word is made a statement verb. Both bodies open with the
same head, and what they open with has its fate; so have all nodes of the body, by induction on the
text that is left (`demotion_procedureBody`).
-/

namespace CobolTree.Production

open SourceTree Procedure

variable {settings : Settings} {word : Text} {first second : Outcome Unit}

/-- The second of two bodies of a division reads the same tokens, and its nodes are what becomes of
those of the first when a word is made a statement verb. -/
structure Demotion (word : Text) (first second : Outcome Unit) : Prop where
  retraces : first.Retraces second
  fates : ∀ start, List.Forall₂ (Fate word) (Tree.nodesOf (locateAllAt start first.trees))
    (Tree.nodesOf (locateAllAt start second.trees))

/-- Tokens in a row before two bodies make no difference. -/
theorem Demotion.behind {cursor : Cursor} {lead : Outcome Unit} (flat : lead.Flat cursor)
    (h : Demotion word first second) :
    Demotion word (lead.andThen first) (lead.andThen second) where
  retraces := (Outcome.Retraces.refl lead).andThen h.retraces
  fates start := by
    simp only [Outcome.trees_andThen, flat.trees, locateAllAt_append, Tree.nodesOf_append,
      locateAllAt_row, Tree.nodesOf_map_leaf, List.nil_append]
    exact h.fates _

/-- The node that a body opens with has the tokens of the head right below it; a sentence has no
others. -/
structure HeadedBy (kind : Kind) (start : Nat) (header : List Lexeme) (node : LocatedTree) :
    Prop where
  kind_eq : LocatedTree.kind node = kind
  ownTokens : node.ownTokens = (Leaf.row start header).filter (!·.isTrivia)
  alone : kind = .sentence → node = locateAt start (.node .sentence (row header))

/-- The first node of a body is headed by its head, and behind it stand the nodes of the rest. -/
theorem Opens.exists_node {kind : Kind} {head rest whole : Outcome Unit}
    (h : Opens kind head rest whole) (start : Nat) :
    let header := Token.lexemes head.tokens
    ∃ node, HeadedBy kind start header node ∧ Tree.nodesOf (locateAllAt start whole.trees) =
      node :: Tree.nodesOf
        (locateAllAt (start + (Lexeme.textOf header).byteLength) rest.trees) := by
  intro header
  obtain ⟨-, inner, outer, split, trees, nodes, alone⟩ := h
  have size : (text (.node kind (row header ++ inner))).byteLength =
      (Lexeme.textOf header).byteLength + (textOf inner).byteLength := by
    have parts := textOf_append (row header) inner
    rw [textOf_eq (row header), leavesOf_row] at parts
    rw [← Text.byteLength_append, ← parts]
    rfl
  refine ⟨locateAt start (.node kind (row header ++ inner)), ⟨rfl, ?_, ?_⟩, ?_⟩
  · exact ownTokens_headed header inner _ start nodes
  · intro sentence
    rw [alone sentence, List.append_nil, sentence]
  · rw [trees, ← split, locateAllAt, Tree.nodesOf, locateAllAt_append, Tree.nodesOf_append, size,
      ← Nat.add_assoc, ← List.cons_append]
    congr 1
    exact nodes_headed header inner _ start

/-- Two bodies that open with the same tokens, where the first node of the one becomes that of the
other. -/
theorem Demotion.opens {kind other : Kind} {head rest whole head' rest' whole' : Outcome Unit}
    (one : Opens kind head rest whole) (another : Opens other head' rest' whole')
    (same : head.Retraces head') (behind : Demotion word rest rest')
    (fate : ∀ start node node', HeadedBy kind start (Token.lexemes head.tokens) node →
      HeadedBy other start (Token.lexemes head.tokens) node' → Fate word node node') :
    Demotion word whole whole' where
  retraces := by
    have heads := same.andThen behind.retraces
    exact one.retraces.symm.trans (heads.trans another.retraces)
  fates start := by
    obtain ⟨node, headed, nodes⟩ := one.exists_node start
    obtain ⟨node', headed', nodes'⟩ := another.exists_node start
    rw [Token.lexemes_of_placed same.tokens] at headed' nodes'
    rw [nodes, nodes']
    exact .cons (fate start node node' headed headed') (behind.fates _)

/-! ### Heads -/

section Heads

variable {kind : Kind} {start : Nat} {header : List Lexeme} {node other : LocatedTree}

theorem fate_sentence (one : HeadedBy .sentence start header node)
    (another : HeadedBy .sentence start header other) : Fate word node other := by
  rw [one.alone rfl, another.alone rfl]
  exact .sentence rfl

theorem fate_section (one : HeadedBy .procedureSection start header node)
    (another : HeadedBy .procedureSection start header other) : Fate word node other :=
  .section one.kind_eq another.kind_eq (another.ownTokens.trans one.ownTokens.symm)

/-- The header of a paragraph tells its name. -/
theorem isNamed_of_headedBy {name period : Lexeme}
    (h : HeadedBy .procedureParagraph start header node)
    (opens : Lexeme.significant header = [name, period]) (isName : name.kind = .word) :
    isNamed word node = Text.sameWord word name.text ∧
      ∃ first second : Leaf, node.ownTokens = [first, second] ∧ second.toLexeme = period := by
  have tokens := significant_row start header
  rw [opens, ← h.ownTokens] at tokens
  obtain ⟨first, rest, own, rfl, last⟩ := List.map_eq_cons_iff.mp tokens
  obtain ⟨second, rfl, rfl⟩ := List.map_eq_singleton_iff.mp last
  refine ⟨?_, first, second, own, rfl⟩
  simp [isNamed, isParagraph, h.kind_eq, name?, nameToken?, own, Option.filter, isName]

/-- A paragraph of another name stays. -/
theorem fate_paragraph {name period : Lexeme} (opens : Lexeme.significant header = [name, period])
    (isName : name.kind = .word) (unnamed : Text.sameWord word name.text = false)
    (one : HeadedBy .procedureParagraph start header node)
    (another : HeadedBy .procedureParagraph start header other) : Fate word node other := by
  have named := (isNamed_of_headedBy one opens isName).1.trans unnamed
  exact .paragraph one.kind_eq named another.kind_eq (another.ownTokens.trans one.ownTokens.symm)

/-- A paragraph that goes by the word leaves a sentence of the tokens of its header. -/
theorem fate_demoted {name period : Lexeme} (opens : Lexeme.significant header = [name, period])
    (isName : name.kind = .word) (isPeriod : period.kind = .dot)
    (named : Text.sameWord word name.text = true)
    (one : HeadedBy .procedureParagraph start header node)
    (another : HeadedBy .sentence start header other) : Fate word node other := by
  obtain ⟨same, first, second, own, last⟩ := isNamed_of_headedBy one opens isName
  have tokens : other.tokens = node.ownTokens := by
    rw [one.ownTokens, another.alone rfl, LocatedTree.tokens, leaves_locateAt_eq_row, Tree.leaves,
      leavesOf_row]
  refine .demoted ⟨same.trans named, another.kind_eq, first, second, own, ?_, tokens.trans own⟩
  rw [last]
  exact isPeriod

end Heads

/-! ### Bodies -/

section Bodies

variable {cursor : Cursor} (named : word.all Char.isDigit = false)

/-- The body of a division under settings, and when a word is made a verb besides. -/
def DemotesFrom (settings : Settings) (word : Text) (cursor : Cursor) : Prop :=
  Demotion word (procedureBody settings cursor) (procedureBody (settings.addVerb word) cursor)

theorem demotion_of_section (h : cursor.atSectionHeader = true)
    (behind : DemotesFrom settings word (sectionHeader cursor).next) :
    Demotion word (procedureRest settings cursor)
      (procedureRest (settings.addVerb word) cursor) :=
  .opens (opens_section settings h) (opens_section _ h) (.refl _) behind fun _ _ _ => fate_section

variable (noSection : ¬cursor.atSectionHeader = true)

include noSection

theorem demotion_of_sentence (noParagraph : ¬cursor.atParagraphHeader settings = true)
    (behind : DemotesFrom settings word (sentence .sentence .sentence false cursor).next) :
    Demotion word (procedureRest settings cursor)
      (procedureRest (settings.addVerb word) cursor) := by
  have still : ¬cursor.atParagraphHeader (settings.addVerb word) = true := fun taken =>
    noParagraph (Cursor.atParagraphHeader_of_addVerb taken)
  exact .opens (opens_sentence settings noSection noParagraph) (opens_sentence _ noSection still)
    (.refl _) behind fun _ _ _ => fate_sentence

include named in
theorem demotion_of_paragraph (atToken : cursor.AtToken)
    (h : cursor.atParagraphHeader settings = true)
    (behind : DemotesFrom settings word (paragraphHeader cursor).next) :
    Demotion word (procedureRest settings cursor)
      (procedureRest (settings.addVerb word) cursor) := by
  obtain ⟨name, period, ahead, words⟩ := Cursor.atParagraphHeader_iff.mp h
  obtain ⟨middle, after, first, second⟩ := Cursor.ahead_two_eq_iff.mp ahead
  obtain ⟨kinds, -⟩ := Bool.and_eq_true_iff.mp words
  obtain ⟨nameKind, isPeriod⟩ := Bool.and_eq_true_iff.mp kinds
  have isName : name.kind = .word := eq_of_beq nameKind
  have header := significant_paragraphHeader ahead isPeriod
  have taken : cursor.atParagraphHeader (settings.addVerb word) =
      !Text.sameWord word name.text := by
    rw [Cursor.atParagraphHeader_addVerb ahead, h, Bool.true_and]
  have one := opens_paragraph settings noSection h
  cases goes : Text.sameWord word name.text with
  | false =>
      rw [goes] at taken
      exact .opens one (opens_paragraph _ noSection taken) (.refl _) behind
        fun _ _ _ => fate_paragraph header isName goes
  | true =>
      rw [goes] at taken
      have digits := (all_isDigit_of_sameWord goes).symm.trans named
      have same := retraces_sentence (atToken.next?_of_significant? (.inl rfl) first)
        (Cursor.isTrivia_of_significant? first) second isPeriod isName digits
      have rest : Demotion word (procedureBody settings (paragraphHeader cursor).next)
          (procedureBody (settings.addVerb word)
            (sentence .sentence .sentence false cursor).next) := by
        rw [same.next]
        exact behind
      exact .opens one (opens_sentence _ noSection (by simp [taken])) same rest
        fun _ _ _ => fate_demoted header isName (eq_of_beq isPeriod) goes

end Bodies

/-- All nodes of a body have their fates when a word is made a statement verb. -/
theorem demotion_procedureBody (settings : Settings) (named : word.all Char.isDigit = false)
    (cursor : Cursor) : DemotesFrom settings word cursor := by
  have old := procedureBody_eq settings cursor
  have new := procedureBody_eq (settings.addVerb word) cursor
  simp only at old new
  rw [DemotesFrom, old, new]
  apply Demotion.behind (flat_trivia .procedureDivision cursor)
  split
  · exact ⟨.refl _, fun _ => .nil⟩
  · rename_i inside
    have atToken := atToken_of_not_atUnitBoundary rfl inside
    have less := trivia_length_le .procedureDivision cursor
    generalize (trivia .procedureDivision cursor).next = place at atToken less
    by_cases atSection : place.atSectionHeader = true
    · have shorter := shorter_sectionHeader atToken
      exact demotion_of_section atSection (demotion_procedureBody settings named _)
    · by_cases atParagraph : place.atParagraphHeader settings = true
      · have shorter := shorter_paragraphHeader atToken
        exact demotion_of_paragraph named atSection atToken atParagraph
          (demotion_procedureBody settings named _)
      · have shorter := shorter_sentence atToken
        exact demotion_of_sentence atSection atParagraph (demotion_procedureBody settings named _)
termination_by cursor.rest.length

end CobolTree.Production
