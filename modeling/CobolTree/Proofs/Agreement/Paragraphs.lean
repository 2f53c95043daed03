import CobolTree.Proofs.Agreement.Headings
import CobolTree.Proofs.Conversion.Rereading
import CobolTree.Proofs.Grammar.Nodes
import CobolTree.Proofs.Production.Divisions
import CobolTree.Proofs.Token.Partition

/-!
The paragraphs of IDENTIFICATION DIVISIONs. Where the grammar reads one paragraph after another, the
parser reads the same ones at the same places (`matches_identificationRounds`), if the text of the
division is tidy; so the paragraphs in the context of such a division are those of its node
(`Analysis.paragraphs_agree`). In other texts free text need not end at the same place: a form feed is a blank
to the lexer and none before the header of a paragraph (`Analysis.paragraphs_differ`).
-/

namespace CobolTree

open CobolTree.Expr SourceTree

/-! ### Paragraphs -/

/-- The paragraphs of an IDENTIFICATION DIVISION: that of the program's name, and those of free
text. -/
inductive ParagraphSort where
  | programId | freeText
deriving DecidableEq, Repr

namespace ParagraphSort

def all : List ParagraphSort := [programId, freeText]

/-- The kind of its nodes. -/
def kind : ParagraphSort → Kind
  | programId => .programIdParagraph
  | freeText => .commentEntryParagraph

/-- The rule of its contexts. -/
def rule : ParagraphSort → Rule
  | programId => .programIdParagraph
  | freeText => .commentParagraph

def ofKind? (kind : Kind) : Option ParagraphSort := all.find? (·.kind == kind)

def ofRule? (rule : RuleKind) : Option ParagraphSort :=
  all.find? fun sort => RuleKind.grammar .identification sort.rule.name == rule

theorem ofKind?_kind (sort : ParagraphSort) : ofKind? sort.kind = some sort := by
  cases sort <;> rfl

theorem ofRule?_rule (sort : ParagraphSort) :
    ofRule? (.grammar .identification sort.rule.name) = some sort := by
  cases sort <;> rfl

end ParagraphSort

/-- A paragraph, and the offset where it begins. -/
structure Paragraph where
  sort : ParagraphSort
  start : Option Nat
deriving DecidableEq, Repr

/-- The node as a paragraph, if it is one. -/
def LocatedTree.paragraph? (node : LocatedTree) : Option Paragraph :=
  (ParagraphSort.ofKind? (LocatedTree.kind node)).map (⟨·, some (LocatedTree.range node).start⟩)

/-- The paragraphs in a forest, in order. -/
def LocatedTree.paragraphsOf (forest : List LocatedTree) : List Paragraph :=
  (Tree.nodesOf forest).filterMap LocatedTree.paragraph?

/-- The context as a paragraph, if it is one; it begins with its first terminal. -/
def RuleTree.paragraph? (tree : RuleTree) : Option Paragraph :=
  ((RuleTree.kind? tree).bind ParagraphSort.ofRule?).map
    (⟨·, (RuleTree.start? tree).map (·.range.start)⟩)

/-- The paragraphs among the contexts of a forest, in order. -/
def RuleTree.paragraphsOf (forest : List RuleTree) : List Paragraph :=
  (Tree.nodesOf forest).filterMap RuleTree.paragraph?

theorem LocatedTree.paragraphsOf_append (s t : List LocatedTree) :
    paragraphsOf (s ++ t) = paragraphsOf s ++ paragraphsOf t := by
  rw [paragraphsOf, Tree.nodesOf_append, List.filterMap_append]
  rfl

theorem RuleTree.paragraphsOf_append (s t : List RuleTree) :
    paragraphsOf (s ++ t) = paragraphsOf s ++ paragraphsOf t := by
  rw [paragraphsOf, Tree.nodesOf_append, List.filterMap_append]
  rfl

namespace Outcome

variable {α : Type} {cursor : Cursor} {outcome : Outcome α}

theorem Flat.paragraphsOf (h : outcome.Flat cursor) :
    LocatedTree.paragraphsOf (outcome.located cursor) = [] := by
  rw [located_flat h, LocatedTree.paragraphsOf, Tree.nodesOf_map_leaf]
  rfl

theorem Gathered.paragraphsOf {sort : ParagraphSort} (h : outcome.Gathered sort.kind cursor) :
    LocatedTree.paragraphsOf (outcome.located cursor) =
      [⟨sort, some cursor.position.index⟩] := by
  rw [located, h.trees, locateAllAt, locateAt, locateAllAt_row, LocatedTree.paragraphsOf,
    Tree.nodesOf, Tree.nodes, Tree.nodesOf_map_leaf, locateAllAt, Tree.nodesOf, List.append_nil,
    List.filterMap_cons, LocatedTree.paragraph?]
  simp only [LocatedTree.kind, ParagraphSort.ofKind?_kind, Option.map_some]
  rfl

end Outcome

/-! ### Paragraphs among contexts -/

namespace Reparse

variable (stream : Stream) (grammar : GrammarName) (projection : Projection)

theorem ruleTrees_append (s t : List GrammarTree) :
    ruleTrees stream grammar projection (s ++ t) =
      ruleTrees stream grammar projection s ++ ruleTrees stream grammar projection t := by
  induction s with
  | nil => rfl
  | cons tree rest ih => rw [List.cons_append, ruleTrees, ih, ruleTrees, List.cons_append]

/-- The paragraphs among the contexts of a forest that is read in place. -/
def paragraphs (forest : List GrammarTree) : List Paragraph :=
  RuleTree.paragraphsOf (ruleTrees stream .identification .inPlace forest)

theorem paragraphs_append (s t : List GrammarTree) :
    paragraphs stream (s ++ t) = paragraphs stream s ++ paragraphs stream t := by
  rw [paragraphs, ruleTrees_append, RuleTree.paragraphsOf_append]
  rfl

/-- Below other rules there are no paragraphs. -/
theorem paragraphs_eq_nil {rules : List Rule} {forest : List GrammarTree}
    (nodes : Expr.NodesIn rules forest)
    (other : ∀ rule ∈ rules, ParagraphSort.ofRule? (.grammar .identification rule.name) = none) :
    paragraphs stream forest = [] := by
  rw [paragraphs, RuleTree.paragraphsOf, nodesOf_ruleTrees, List.filterMap_map,
    List.filterMap_eq_nil_iff]
  intro node mem
  obtain ⟨rule, listed, label⟩ := nodes node mem
  cases node with
  | leaf => cases label
  | node named parts =>
      obtain rfl : named = rule := Option.some.inj label
      rw [Function.comp_apply, ruleTree, RuleTree.paragraph?, RuleTree.kind?_bounded,
        Option.bind_some, other named listed]
      rfl

theorem paragraphs_node (rule : Rule) (parts : List GrammarTree) :
    paragraphs stream [.node rule parts] =
      ((ParagraphSort.ofRule? (.grammar .identification rule.name)).map
        (⟨·, (Tree.leavesOf parts).head?.map (·.start)⟩)).toList ++ paragraphs stream parts := by
  have start : (RuleTree.start? (ruleTree stream .identification .inPlace (.node rule parts))).map
      (·.range.start) = (Tree.leavesOf parts).head?.map (·.start) := by
    rw [ruleTree, RuleTree.start?_bounded, leavesOf_ruleTrees, List.head?_map, Option.map_map]
    refine congrArg (Option.map · _) (funext fun piece => ?_)
    exact congrArg Range.start (range_terminal_inPlace stream piece)
  have here : RuleTree.paragraph? (ruleTree stream .identification .inPlace (.node rule parts)) =
      (ParagraphSort.ofRule? (.grammar .identification rule.name)).map
        (⟨·, (Tree.leavesOf parts).head?.map (·.start)⟩) := by
    rw [RuleTree.paragraph?, start]
    rfl
  rw [paragraphs, RuleTree.paragraphsOf, nodesOf_ruleTrees, Tree.nodesOf, Tree.nodes, Tree.nodesOf,
    List.append_nil, List.map_cons, List.filterMap_cons, here, paragraphs, RuleTree.paragraphsOf,
    nodesOf_ruleTrees]
  cases ParagraphSort.ofRule? (.grammar .identification rule.name) <;> rfl

end Reparse

/-! ### Paragraphs of the grammar -/

/-- One paragraph of the division. -/
def Grammar.identificationPart : Expr := Grammar.programIdParagraph <|> Grammar.commentParagraph

/-- A paragraph that the grammar has read, and nothing else: it begins with its heading. -/
structure ParagraphRead (sort : ParagraphSort) (named : Rule) (words : List String) (more : Expr)
    (input : Input) (reading : Reading) (size : Nat) (inner : Reading) : Prop
    extends HeadingRead named words more input reading size inner where
  paragraphs : ∀ stream, Reparse.paragraphs stream reading.trees =
    [⟨sort, some (input.skip false).offset⟩]

section Read

variable {input : Input} {reading : Reading} {named : Rule} {words : List String} {more : Expr}

theorem exists_paragraphRead (sort : ParagraphSort)
    (other : ∀ rule ∈ more.nodeRules,
      ParagraphSort.ofRule? (.grammar .identification rule.name) = none)
    (read : (rule sort.rule false (Grammar.keyword named words >> Grammar.dot >> more)).read? false
      (input.skip false) = some reading) :
    ∃ size inner, ParagraphRead sort named words more input reading size inner := by
  obtain ⟨parts, readParts, rfl⟩ := read?_rule read
  obtain ⟨size, inner, heading⟩ := exists_headingRead readParts
  have some : parts.trees ≠ [] := by
    intro none
    have pieces := heading.pieces
    rw [none] at pieces
    cases pieces
  have nodes : NodesIn more.nodeRules parts.trees :=
    @nodesIn_of_read? (Grammar.keyword named words >> Grammar.dot >> more) _ _ readParts
  refine ⟨size, inner, ⟨heading.keyword, heading.point, heading.more, ?_, heading.next⟩,
    fun stream => ?_⟩
  · rw [if_neg Bool.false_ne_true, applied_of_trees some, Tree.leavesOf, Tree.leaves, Tree.leavesOf,
      List.append_nil, heading.pieces]
  · rw [if_neg Bool.false_ne_true, applied_of_trees some, Reparse.paragraphs_node,
      ParagraphSort.ofRule?_rule, Reparse.paragraphs_eq_nil stream nodes other, heading.pieces]
    rfl

theorem paragraphRead_cases
    (read : Grammar.identificationPart.read? false (input.skip false) = some reading) :
    (∃ size inner, ParagraphRead .programId .kwProgramId ["PROGRAM-ID"] Grammar.nameAndAttributes
        input reading size inner) ∨
      ∃ size inner, ParagraphRead .freeText .commentParagraphKeyword Grammar.entryWords
        (opt Grammar.commentEntry) input reading size inner := by
  rcases read?_alt read with program | comment
  · exact .inl (exists_paragraphRead .programId (by decide) program)
  · exact .inr (exists_paragraphRead .freeText (by decide) comment)

end Read

/-! ### Paragraphs of the parser -/

section Part

open Production

variable {tail : Text} {input : Input} {cursor after : Cursor} {token : CobolTree.Token}
  {named : Rule} {words : List String} {more : Expr} {reading inner : Reading} {size : Nat}

theorem Stands.Token.behindTrivia {kind : Kind}
    (here : Stands.Token tail input cursor kind size token after) :
    Stands.Token tail input (trivia .identificationDivision cursor).next kind size token after where
  significant := (Cursor.significant?_behindTrivia cursor).trans here.significant
  toLexeme := here.toLexeme
  index := here.index
  stands := here.stands

/-- Where the grammar reads the name of a paragraph, the parser finds it. -/
theorem HeadingRead.exists_name (read : HeadingRead named words more input reading size inner)
    (within : ∀ word ∈ words, word ∈ Grammar.paragraphWords) (stands : Stands tail input cursor)
    (free : ¬cursor.AtSeparator) : ∃ token after word,
      Stands.Token tail input cursor .word size token after ∧ word ∈ words ∧
        token.isWord word.toList = true := by
  have keywords : ∀ word ∈ words, IsKeyword word.toList :=
    fun word mem => isKeyword_of_mem_paragraphWords word (within word mem)
  obtain ⟨rest, point⟩ := read.point
  rcases stands.step (fronts_of_follows keywords read.keyword (follows_of_point point) tail) with
    at_ | ⟨token, after, here⟩
  · exact absurd at_ free
  · obtain ⟨⟨word, mem, same⟩, -⟩ := Grammar.exists_word_of_keyword read.keyword
    exact ⟨token, after, word, here, mem, isWord_of_sameWord here.toLexeme same⟩

/-- Where the grammar reads the period of a heading, the parser finds it. -/
theorem HeadingRead.exists_period (read : HeadingRead named words more input reading size inner)
    (stands : Stands tail ((input.skip false).drop size) after) (free : ¬after.AtSeparator) :
    ∃ dot last, Stands.Token tail ((input.skip false).drop size) after .dot 1 dot last := by
  obtain ⟨rest, point⟩ := read.point
  have fronts : Fronts tail (((input.skip false).drop size).skip false).rest .dot 1 :=
    point ▸ fronts_dot rest tail
  exact (stands.step fronts).resolve_left free

/-- Where the grammar reads a paragraph of free text, the parser does, up to where no more free text
follows. -/
theorem stands_behind_commentEntryParagraph {dot : CobolTree.Token} {last : Cursor}
    (read : HeadingRead named words (opt Grammar.commentEntry) input reading size inner)
    (here : Stands.Token tail input cursor .word size token after)
    (closed : Stands.Token tail ((input.skip false).drop size) after .dot 1 dot last)
    (later : Declared)
    (ends : (repeating identificationRound later (commentEntryParagraph cursor).next).next.rest =
      tail)
    (plain : ∀ token ∈ (commentEntryParagraph cursor).tokens, token.Plain)
    (tidy : Tidy (Token.lexemes
      (repeating identificationRound later (commentEntryParagraph cursor).next).tokens)) :
    Stands tail reading.next (commentEntryParagraph cursor).next ∧
      (commentEntryParagraph cursor).Bears (Tree.leavesOf reading.trees) := by
  have isDot : (dot.kind == .dot) = true := by
    rw [congrArg Lexeme.kind closed.toLexeme]
    rfl
  obtain ⟨periodTokens, periodNext⟩ :=
    expectPeriod_fields .identificationDivision .paragraphName after
  rw [eatIf_of_test closed.significant isDot] at periodTokens periodNext
  rw [next_bumpSignificant closed.significant] at periodNext
  rw [commentEntryParagraph_apply] at ends plain tidy ⊢
  simp only [Outcome.next_under, Outcome.next_andThen, Outcome.tokens_under,
    Outcome.tokens_andThen, next_bumpSignificant here.significant, periodNext]
    at ends plain tidy ⊢
  have rounds := (faithful_repeating faithful_identificationRound later
    (repeating (fun _ => commentEntryRound) () last).next).reads.rest_eq
  rw [ends] at rounds
  obtain ⟨final, closes, walk⟩ := exists_entryWalk later tidy (commentEntryRounds_end last)
  obtain ⟨stands, bears⟩ := stands_behind_entry closes read.more closed.stands rounds
    (fun token mem => plain token (List.mem_append_right _ (List.mem_append_right _ mem))) walk
  have period : (expectPeriod .identificationDivision .paragraphName after).Bears
      [((input.skip false).drop size).piece .dot 1] := by
    rw [Outcome.Bears, periodTokens]
    exact bears_bumpSignificant closed .dot
  rw [read.pieces, read.next]
  exact ⟨stands, (bears_bumpSignificant here named).andThen (period.andThen bears)⟩

/-- The paragraph begins at the token, behind blanks and comments. -/
theorem Stands.Token.index_trivia {kind : Kind}
    (here : Stands.Token tail input cursor kind size token after) :
    (trivia .identificationDivision cursor).next.position.index = (input.skip false).offset := by
  have read := (next?_trivia .identificationDivision cursor).trans here.significant
  rw [← (Cursor.place_of_next? read).1, here.index]

end Part

/-! ### The parser along the grammar -/

/-- An outcome has what a grammar has read: every piece begins where a token does that carries
meaning, and the paragraphs are the same. -/
structure Outcome.Matches {α : Type} (stream : Stream) (cursor : Cursor) (trees : List GrammarTree)
    (outcome : Outcome α) : Prop where
  bears : outcome.Bears (Tree.leavesOf trees)
  paragraphs : Reparse.paragraphs stream trees = LocatedTree.paragraphsOf (outcome.located cursor)

namespace Outcome

variable {α β : Type} {stream : Stream} {cursor : Cursor} {trees more : List GrammarTree}
  {first : Outcome α} {second : Outcome β}

theorem Matches.andThen (h : first.Matches stream cursor trees) (faithful : first.Faithful cursor)
    (k : second.Matches stream first.next more) :
    (first.andThen second).Matches stream cursor (trees ++ more) where
  bears := by
    rw [Tree.leavesOf_append]
    exact h.bears.andThen k.bears
  paragraphs := by
    rw [Reparse.paragraphs_append, located_andThen faithful, LocatedTree.paragraphsOf_append,
      h.paragraphs, k.paragraphs]

theorem Matches.under (h : first.Matches stream cursor trees) {kind : Kind} {rule : Rule}
    (other : ParagraphSort.ofKind? kind = none)
    (others : ParagraphSort.ofRule? (.grammar .identification rule.name) = none) :
    (first.under kind).Matches stream cursor [.node rule trees] where
  bears := by
    rw [Tree.leavesOf, Tree.leaves, Tree.leavesOf, List.append_nil]
    exact h.bears
  paragraphs := by
    have top : LocatedTree.paragraph? (first.top kind cursor) = none := by
      rw [LocatedTree.paragraph?]
      exact Option.map_eq_none_iff.mpr other
    rw [Reparse.paragraphs_node, others, located_under, LocatedTree.paragraphsOf, Tree.nodesOf,
      Tree.nodesOf, List.append_nil, Outcome.top, Tree.nodes, ← Outcome.top, List.filterMap_cons,
      top, h.paragraphs]
    rfl

/-- A row of tokens matches what has no paragraphs. -/
theorem Flat.matches (h : first.Flat cursor) (bears : first.Bears (Tree.leavesOf trees))
    (none : Reparse.paragraphs stream trees = []) : first.Matches stream cursor trees :=
  ⟨bears, none.trans h.paragraphsOf.symm⟩

theorem Flat.matches_nil (h : first.Flat cursor) : first.Matches stream cursor [] := by
  refine h.matches (fun piece mem => ?_) rfl
  cases mem

end Outcome

section Rounds

open Production

/-- A division goes on with a part that has what the grammar has read, and with more behind it, where
the grammar goes on, too. -/
structure PartRead (stream : Stream) (tail : Text) (declared : Declared) (cursor : Cursor)
    (reading : Reading) (later : Declared) : Prop where
  whole : repeating identificationRound declared cursor =
    ((trivia .identificationDivision cursor).andThen
      (identificationPart (trivia .identificationDivision cursor).next)).andThen
        (repeating identificationRound later
          (identificationPart (trivia .identificationDivision cursor).next).next)
  stands : Stands tail reading.next
    (identificationPart (trivia .identificationDivision cursor).next).next
  part : (identificationPart (trivia .identificationDivision cursor).next).Matches stream
    (trivia .identificationDivision cursor).next reading.trees

variable {tail : Text} {input last : Input} {cursor after : Cursor} {reading inner : Reading}
  {trees : List GrammarTree} {token : Token} {size : Nat} (stream : Stream) (declared : Declared)

/-- Where the name of a paragraph is next, the division goes on with a part. -/
theorem identificationRounds_of_name {word : String} (listed : word ∈ Grammar.paragraphWords)
    (isWord : token.isWord word.toList = true)
    (h : cursor.significant? .identificationDivision = some (token, after)) :
    let lead := trivia .identificationDivision cursor
    token.isBoundaryWord = false ∧ ∃ later, repeating identificationRound declared cursor =
      (lead.andThen (identificationPart lead.next)).andThen
        (repeating identificationRound later (identificationPart lead.next).next) := by
  have plain : ∀ word ∈ Grammar.paragraphWords, ((Division.ofHeaderWord? word.toList).isSome ||
      Text.sameWord word.toList "END".toList) = false := by decide
  have other : token.isBoundaryWord = false :=
    (Lexeme.isBoundaryWord_of_isWord isWord).trans (plain word listed)
  exact ⟨other, identificationRounds_inside declared (not_atUnitBoundary_of_significant? h other)⟩

variable (tidy : Tidy (Token.lexemes (repeating identificationRound declared cursor).tokens))

include tidy

theorem exists_programIdPart (stands : Stands tail input cursor)
    (read : ParagraphRead .programId .kwProgramId ["PROGRAM-ID"] Grammar.nameAndAttributes
      input reading size inner) :
    ∃ later, PartRead stream tail declared cursor reading later := by
  let lead := trivia .identificationDivision cursor
  have free : ¬cursor.AtSeparator :=
    fun at_ => tidy.not_meetsSeparator (meetsSeparator_identificationRounds declared at_)
  obtain ⟨token, after, word, here, mem, isWord⟩ := read.exists_name (by decide) stands free
  obtain rfl := List.mem_singleton.mp mem
  obtain ⟨-, later, whole⟩ :=
    identificationRounds_of_name declared List.mem_cons_self isWord here.significant
  have part : identificationPart lead.next = (programIdParagraph lead.next).withValue () := by
    rw [identificationPart, if_pos]
    rw [atProgramId_of_significant? here.behindTrivia.significant]
    exact isWord
  have keeps := keeps_programIdParagraph read.toHeadingRead here.behindTrivia
  rcases keeps with at_ | ⟨stands, bears⟩
  · rw [whole] at tidy
    rw [← Outcome.next_withValue, ← part] at at_
    exact absurd (Outcome.MeetsSeparator.right (meetsSeparator_identificationRounds later at_))
      tidy.not_meetsSeparator
  · refine ⟨later, whole, part ▸ stands, part ▸ bears, ?_⟩
    have node : LocatedTree.paragraphsOf ((programIdParagraph lead.next).located lead.next) =
        [⟨.programId, some lead.next.position.index⟩] :=
      Outcome.Gathered.paragraphsOf (gathered_programIdParagraph lead.next)
    rw [read.paragraphs, ← here.index_trivia, ← node, part]
    rfl

variable (ends : (repeating identificationRound declared cursor).next.rest = tail)

include ends

theorem exists_freeTextPart (stands : Stands tail input cursor)
    (read : ParagraphRead .freeText .commentParagraphKeyword Grammar.entryWords
      (opt Grammar.commentEntry) input reading size inner) :
    ∃ later, PartRead stream tail declared cursor reading later := by
  let lead := trivia .identificationDivision cursor
  have free : ¬cursor.AtSeparator :=
    fun at_ => tidy.not_meetsSeparator (meetsSeparator_identificationRounds declared at_)
  have within : ∀ word ∈ Grammar.entryWords, word ∈ Grammar.paragraphWords :=
    fun word mem => List.mem_cons_of_mem _ mem
  obtain ⟨token, after, word, here, mem, isWord⟩ := read.exists_name within stands free
  obtain ⟨other, later, whole⟩ :=
    identificationRounds_of_name declared (within word mem) isWord here.significant
  have differ : ∀ word ∈ Grammar.entryWords,
      Text.sameWord word.toList "PROGRAM-ID".toList = false := by decide
  have program : token.isWord "PROGRAM-ID".toList = false :=
    isWord_eq_false_of_isWord isWord (differ word mem)
  -- a separator between the name and its period would be part of the division
  have closed : ¬after.AtSeparator := fun at_ => tidy.not_meetsSeparator
    (meetsSeparator_of_name declared here.significant (Lexeme.kind_of_isWord isWord) other program at_)
  obtain ⟨dot, last, closed⟩ := read.exists_period here.stands closed
  have part : identificationPart lead.next = commentEntryParagraph lead.next := by
    have names : commentEntryWords.any (token.isWord ·) = true := by
      have all : ∀ word ∈ Grammar.entryWords, word.toList ∈ commentEntryWords := by decide
      exact List.any_eq_true.mpr ⟨_, all word mem, isWord⟩
    have paragraph : lead.next.atIdentificationParagraph = true := by
      refine Cursor.atIdentificationParagraph_iff.mpr ⟨token, dot, Cursor.ahead_two_eq_iff.mpr
        ⟨after, last, here.behindTrivia.significant, closed.significant⟩, ?_⟩
      rw [congrArg Lexeme.kind closed.toLexeme, names, Bool.or_true]
      rfl
    rw [identificationPart, atProgramId_of_significant? here.behindTrivia.significant, program,
      if_neg Bool.false_ne_true, if_pos paragraph]
  have parts := whole
  rw [part] at parts
  rw [parts] at ends tidy
  simp only [Outcome.next_andThen, Outcome.tokens_andThen, Token.lexemes_append,
    List.append_assoc] at ends tidy
  have plain : ∀ token ∈ (commentEntryParagraph lead.next).tokens, token.Plain :=
    fun token mem => tidy.behind.plain _ (List.mem_append_left _ (List.mem_map_of_mem mem))
  obtain ⟨stands, bears⟩ := stands_behind_commentEntryParagraph read.toHeadingRead
    here.behindTrivia closed later ends plain tidy.behind.behind
  refine ⟨later, whole, part ▸ stands, part ▸ bears, ?_⟩
  have node : LocatedTree.paragraphsOf ((commentEntryParagraph lead.next).located lead.next) =
      [⟨.freeText, some lead.next.position.index⟩] :=
    Outcome.Gathered.paragraphsOf (gathered_commentEntryParagraph lead.next)
  rw [read.paragraphs, ← here.index_trivia, ← node, part]

omit tidy ends in
theorem carries_identificationPart (atToken : cursor.AtToken) :
    (identificationPart cursor).Carries := by
  unfold identificationPart
  split
  · exact carries_programIdParagraph atToken
  · split
    · exact carries_commentEntryParagraph atToken
    · exact carries_strayText atToken rfl

/-- Where the grammar has reached the end of the division, the parser has. -/
theorem atUnitBoundary_of_done (stands : Stands tail input cursor)
    (done : (input.skip false).rest = []) :
    (trivia .identificationDivision cursor).next.atUnitBoundary = true := by
  have free : ¬cursor.AtSeparator :=
    fun at_ => tidy.not_meetsSeparator (meetsSeparator_identificationRounds declared at_)
  obtain ⟨text, rest, skip⟩ := stands
  have least : (trivia .identificationDivision cursor).next.rest.length ≤ tail.length := by
    have unmarked (y : Text) : (Input.skip false ⟨cursor.position.index, text⟩).rest ≠ '*' :: y := by
      rw [skip, done]
      exact (List.cons_ne_nil _ _).symm
    cases lead rest unmarked with
    | separator at_ => exact absurd at_ free
    | settled same behind _ =>
        rw [behind, ← same, skip, done, List.nil_append]
    | ended _ least => exact least
  by_contra inside
  obtain ⟨later, whole⟩ := identificationRounds_inside declared inside
  have atToken := atToken_of_not_atUnitBoundary rfl inside
  have part := faithful_identificationPart (trivia .identificationDivision cursor).next
  have consumes := part.reads.shorter (carries_identificationPart atToken).consumes
  have behind := (faithful_repeating faithful_identificationRound later
    (identificationPart (trivia .identificationDivision cursor).next).next).reads.length_le
  rw [whole] at ends
  have same := congrArg List.length ends
  simp only [Outcome.next_andThen] at same
  omega

end Rounds

/-- The parser reads the paragraphs of a tidy division along with the grammar. -/
theorem matches_identificationRounds {tail : Text} {input last : Input} {trees : List GrammarTree}
    (stream : Stream) (rounds : Rounds Grammar.identificationPart input trees last)
    (done : (last.skip false).rest = []) (declared : Production.Declared) {cursor : Cursor}
    (stands : Stands tail input cursor)
    (tidy : Tidy (Token.lexemes
      (Production.repeating Production.identificationRound declared cursor).tokens))
    (ends : (Production.repeating Production.identificationRound declared cursor).next.rest = tail) :
    (Production.repeating Production.identificationRound declared cursor).Matches stream cursor
      trees := by
  induction rounds generalizing declared cursor with
  | nil =>
      have boundary := atUnitBoundary_of_done declared tidy ends stands done
      rw [Production.identificationRounds_of_boundary declared boundary]
      exact ((Production.flat_trivia _ cursor).withValue declared).matches_nil
  | @cons input last first trees read _ ih =>
      obtain ⟨later, found⟩ : ∃ later, PartRead stream tail declared cursor first later := by
        rcases paragraphRead_cases read with ⟨size, inner, program⟩ | ⟨size, inner, freeText⟩
        · exact exists_programIdPart stream declared tidy stands program
        · exact exists_freeTextPart stream declared tidy ends stands freeText
      have blanks := Production.flat_trivia .identificationDivision cursor
      have faithful := blanks.faithful.andThen (Production.faithful_identificationPart _)
      rw [found.whole] at tidy ends ⊢
      simp only [Outcome.tokens_andThen, Token.lexemes_append, Outcome.next_andThen] at tidy ends
      exact (blanks.matches_nil.andThen blanks.faithful found.part).andThen faithful
        (ih done later found.stands tidy.behind ends)

/-! ### Divisions -/

section Division

open Production

/-- Behind its header, a division consists of its paragraphs. -/
theorem identificationBody_fields (header : Option Token) (cursor : Cursor) :
    let rounds := repeating identificationRound ⟨false, none⟩ cursor
    (identificationBody header cursor).tokens = rounds.tokens ∧
      (identificationBody header cursor).trees = rounds.trees ∧
        (identificationBody header cursor).next = rounds.next := by
  intro rounds
  have same : Production.rounds .identificationDivision identificationRound ⟨false, none⟩ =
      repeating identificationRound ⟨false, none⟩ :=
    rounds_eq_repeating .identificationDivision faithful_identificationRound
      advances_identificationRound _
  simp only [identificationBody, bind_apply]
  rw [same]
  split <;> simp [rounds]

/-- What the grammar reads of a division: its header, and one paragraph after another. -/
theorem exists_divisionRead {input last : Input} {rule : Rule} {parts : List GrammarTree}
    (read : Grammar.identificationDivision.read? false (input.skip false) =
      some ⟨[.node rule parts], last⟩) : ∃ header trees,
      Grammar.identificationHeader.read? false (input.skip false) = some header ∧
        Rounds Grammar.identificationPart (header.next.skip false) trees last ∧
          rule = .identificationDivision ∧ parts = header.trees ++ trees := by
  obtain ⟨inner, readInner, same⟩ := read?_rule read
  obtain ⟨header, paragraphs, readHeader, readParagraphs, rfl⟩ := read?_seq readInner
  have some : header.trees ++ paragraphs.trees ≠ [] :=
    List.append_ne_nil_of_left_ne_nil (trees_ne_nil_of_bears (by rfl) readHeader) _
  rw [if_neg Bool.false_ne_true, applied_of_trees some] at same
  obtain ⟨tree, rfl⟩ := Reading.mk.inj same
  obtain ⟨rfl, rfl⟩ := Tree.node.inj (List.cons.inj tree).1
  exact ⟨header, paragraphs.trees, readHeader,
    rounds_of_star (Input.skip_skip header.next) readParagraphs, rfl, rfl⟩

/-- Where the grammar reads a whole division, the parser reads the same one, if its text is tidy. -/
theorem matches_division (stream : Stream) (settings : Settings) {tail : Text} {input last : Input}
    {place : Cursor} {rule : Rule} {parts : List GrammarTree}
    (header : place.divisionHeader? = some .identification)
    (read : Grammar.identificationDivision.read? false (input.skip false) =
      some ⟨[.node rule parts], last⟩) (done : (last.skip false).rest = [])
    (stands : Stands tail input place)
    (ends : (division settings .identification place).next.rest = tail)
    (tidy : Tidy (Token.lexemes (division settings .identification place).tokens)) :
    (division settings .identification place).Matches stream place [.node rule parts] := by
  obtain ⟨head, trees, readHeader, rounds, rfl, rfl⟩ := exists_divisionRead read
  have free : ¬place.AtSeparator := by
    rintro ⟨token, after, significant, sort, -⟩
    have next := Cursor.atHeader_of_significant? significant
      (Cursor.isBoundaryWord_of_separator sort)
    rw [Cursor.atHeader, header] at next
    cases next
  obtain ⟨tokens, nodes, next⟩ := identificationBody_fields
    (divisionHeader .identification place).value (divisionHeader .identification place).next
  have whole : (division settings .identification place).tokens =
      (divisionHeader .identification place).tokens ++ (repeating identificationRound
        ⟨false, none⟩ (divisionHeader .identification place).next).tokens :=
    congrArg (_ ++ ·) tokens
  rw [whole, Token.lexemes_append] at tidy
  have ends : (repeating identificationRound ⟨false, none⟩
      (divisionHeader .identification place).next).next.rest = tail := by
    rw [← next]
    exact ends
  have flat := flat_divisionHeader .identification place
  rcases keeps_identificationHeader readHeader stands free with at_ | ⟨behind, bears⟩
  · have meets := meetsSeparator_identificationRounds ⟨false, none⟩ at_
    exact absurd meets tidy.behind.not_meetsSeparator
  · have paragraphs := matches_identificationRounds stream rounds done ⟨false, none⟩
      (behind.of_skip (Input.skip_skip head.next).symm) tidy.behind ends
    have none : Reparse.paragraphs stream head.trees = [] :=
      Reparse.paragraphs_eq_nil stream (nodesIn_of_read? readHeader) (by decide)
    have body : (identificationBody (divisionHeader .identification place).value
        (divisionHeader .identification place).next).Matches stream
          (divisionHeader .identification place).next trees := by
      constructor
      · rw [Outcome.Bears, tokens]
        exact paragraphs.bears
      · rw [Outcome.located, nodes]
        exact paragraphs.paragraphs
    exact ((flat.matches bears none).andThen flat.faithful body).under rfl rfl

end Division

/-! ### Divisions of a parsed text -/

namespace Conversion

variable {settings : Settings} {stream : Stream} {node : LocatedTree} {context : RuleTree}

/-- Where the grammar accepts an IDENTIFICATION DIVISION, the parser has read the same one from the
division's place on, if its text is tidy. -/
theorem exists_matches
    (mem : node ∈ (Parsed.ofText settings stream.text).tree.locate.nodes)
    (kind : LocatedTree.kind node = Division.identification.kind)
    (accepted : Conversion.division stream .identification node = .ok (context, []))
    (tidy : Tidy (node.leaves.map (·.toLexeme))) : ∃ place rule parts,
      (Production.division settings .identification place).located place = [node] ∧
        context = Reparse.ruleTree stream .identification .inPlace (.node rule parts) ∧
          (Production.division settings .identification place).Matches stream place
            [.node rule parts] := by
  obtain ⟨place, tree, header, trees, rfl, leaves⟩ := Parsed.exists_division settings _ mem kind
  have reads := (Production.faithful_division settings .identification place).reads
  have named : GrammarName.ofDivision? .identification = some .identification := rfl
  obtain ⟨leading, lexemes, split, none, rule, parts, last, read, ends, rfl⟩ :=
    read?_of_division stream named accepted
  rw [SourceTree.leaves_locateAt, leaves] at tidy
  obtain ⟨before, behind, tokens, rfl, rfl⟩ := List.map_eq_append_iff.mp (leaves.symm.trans split)
  rw [tokens] at reads
  obtain ⟨middle, first, second⟩ := reads.exists_middle
  have trivial : ∀ token ∈ before, token.isTrivia = true := by
    intro token inside
    have carries := List.filter_eq_nil_iff.mp none _ (List.mem_map_of_mem inside)
    simpa using carries
  have index : middle.position.index =
      place.position.index + (Lexeme.textOf (Token.lexemes before)).byteLength := by
    rw [first.position_eq, Position.index_advance]
  have stands : Stands (Production.division settings .identification place).next.rest
      ⟨place.position.index + (Lexeme.textOf (Token.lexemes before)).byteLength,
        Lexeme.textOf (Token.lexemes behind)⟩ place :=
    .of_reads first trivial ⟨_, second.rest_eq, by rw [index]⟩
  refine ⟨place, rule, parts, ?_, rfl, matches_division stream settings header read ends stands rfl
    tidy⟩
  rw [Outcome.located, trees]
  rfl

end Conversion

namespace Analysis

/-- The paragraphs of an IDENTIFICATION DIVISION are the same for the grammar and for the parser if
its text is tidy. -/
def ParagraphsAgree (division : Division) (node : LocatedTree) (context : RuleTree) : Prop :=
  division = .identification → Tidy (node.leaves.map (·.toLexeme)) →
    RuleTree.paragraphsOf [context] = LocatedTree.paragraphsOf [node]

/-- In every text and in every expanded text, the context of an IDENTIFICATION DIVISION that is read
again has the same paragraphs as the division, at the same places, if no blank holds a form feed, no
token begins with a comma or a semicolon, and only blanks stand between the name of a paragraph and
its period. -/
theorem paragraphs_agree (settings : Settings) :
    (∀ text, ∃ analysis, ofText settings text = .ok analysis ∧
      analysis.Rereads (.ofText text) ParagraphsAgree) ∧
    ∀ document, ∃ analysis, ofDocument settings document = .ok analysis ∧
      analysis.Rereads (.ofDocument document) ParagraphsAgree := by
  have each (stream : Stream) : ∃ analysis, ofStream settings stream = .ok analysis ∧
      analysis.Rereads stream ParagraphsAgree := by
    refine exists_rereads stream fun division node mem kind context accepted sort tidy => ?_
    subst sort
    obtain ⟨place, rule, parts, located, rfl, read⟩ :=
      Conversion.exists_matches mem kind accepted tidy
    rw [← located]
    exact read.paragraphs
  exact ⟨fun text => each (.ofText text), fun document => each (.ofDocument document)⟩

/-- Two paragraphs of free text, one of them over three lines, with a comment between them. -/
theorem paragraphs_agree_three_lines :
    let text : Text := ("ID DIVISION. PROGRAM-ID. A.\nAUTHOR. ME,\n AND  MORE.\n THE END.\n" ++
      "*> NOTE\n SECURITY\n . NONE.").toList
    ∃ analysis, ofText .standard text = .ok analysis ∧
      ∃ node ∈ analysis.parsed.tree.locate.nodes,
        LocatedTree.kind node = Division.identification.kind ∧
          Tidy ((Tree.leaves node).map (·.toLexeme)) ∧
            ∃ context ∈ Conversion.accepted? (.ofText text) .identification node,
              RuleTree.paragraphsOf [context] = LocatedTree.paragraphsOf [node] := by
  intro text
  obtain ⟨node, mem, kind, tidy, accepts⟩ :
      ∃ node ∈ (Parsed.ofText .standard text).tree.locate.nodes,
        LocatedTree.kind node = Division.identification.kind ∧
          Tidy ((Tree.leaves node).map (·.toLexeme)) ∧
            (Conversion.accepted? (.ofText text) .identification node).isSome = true := by
    decide +kernel
  obtain ⟨context, accepted⟩ := Option.isSome_iff_exists.mp accepts
  obtain ⟨analysis, analysed, rereads⟩ := (paragraphs_agree .standard).1 text
  have parsed : analysis.parsed = Parsed.ofText .standard text := parsed_of_ofStream analysed
  rw [← parsed] at mem
  exact ⟨analysis, analysed, node, mem, kind, tidy, context, accepted,
    rereads.tells_of_accepted? mem kind accepted rfl tidy⟩

/-- A form feed is a blank to the tokens, and a blank to the grammar elsewhere. Between free text and
the name of the next paragraph it is none, and the grammar takes the paragraph for free text. -/
theorem paragraphs_differ :
    let text : Text := ("ID DIVISION.\nPROGRAM-ID. A.\nAUTHOR. ME.\n\x0cSECURITY. NONE.").toList
    ∃ node ∈ (Parsed.ofText .standard text).tree.locate.nodes,
      LocatedTree.kind node = Division.identification.kind ∧
        ∃ context ∈ Conversion.accepted? (.ofText text) .identification node,
          RuleTree.paragraphsOf [context] = [⟨.programId, some 13⟩, ⟨.freeText, some 28⟩] ∧
            LocatedTree.paragraphsOf [node] =
              [⟨.programId, some 13⟩, ⟨.freeText, some 28⟩, ⟨.freeText, some 41⟩] := by
  decide +kernel

end Analysis

end CobolTree
