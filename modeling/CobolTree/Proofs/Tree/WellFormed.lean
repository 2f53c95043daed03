import CobolTree.Production.Identification
import CobolTree.Proofs.Tree.Shape

/-!
Well-formed programs, told from their trees alone. `IsRegular` says what a well-formed program asks
of a node of each kind: a header or a sentence ends in a period, a PROGRAM-ID paragraph declares a
name, a unit has its divisions in the mandated order and a trailer, if any, that repeats the name
of the unit; stray text is never regular. A tree is well-formed when its nodes are regular and none
of its tokens is an error token. All of this is a matter of the parts of a forest one by one
(`regularAll_append`, `regularAll_row`, `regularAll_node`).
-/

namespace CobolTree

namespace Lexeme

/-- The last of the lexemes is a period. -/
def EndInPeriod (lexemes : List Lexeme) : Prop := ∃ period ∈ lexemes.getLast?, period.kind = .dot

theorem not_endInPeriod_nil : ¬EndInPeriod [] := by
  rintro ⟨period, mem, -⟩
  cases mem

/-- What is no period makes no difference in front. -/
theorem endInPeriod_append {front : List Lexeme} (h : ∀ lexeme ∈ front, lexeme.kind ≠ .dot)
    (rest : List Lexeme) : EndInPeriod (front ++ rest) ↔ EndInPeriod rest := by
  cases last : rest.getLast? with
  | some period => simp [EndInPeriod, List.getLast?_append, last]
  | none =>
      have none : rest = [] := List.getLast?_eq_none_iff.mp last
      subst none
      constructor
      · rintro ⟨period, mem, isPeriod⟩
        rw [List.append_nil] at mem
        exact absurd isPeriod (h period (List.mem_of_getLast? mem))
      · exact fun ends => absurd ends not_endInPeriod_nil

/-- A header ends in a period when a period has been found behind it. -/
theorem endInPeriod_append_toList {front : List Lexeme} {period : Option Lexeme}
    (h : ∀ lexeme ∈ front, lexeme.kind ≠ .dot) (isPeriod : ∀ lexeme ∈ period, lexeme.kind = .dot) :
    EndInPeriod (front ++ period.toList) ↔ period.isSome = true := by
  rw [endInPeriod_append h]
  cases period with
  | none => simp [not_endInPeriod_nil]
  | some lexeme => simpa [EndInPeriod] using isPeriod lexeme rfl

/-- One of the words that may stand behind the name of a program. -/
def isProgramAttribute (lexeme : Lexeme) : Bool := programAttributeWords.any (lexeme.isWord ·)

theorem kind_of_isProgramAttribute {lexeme : Lexeme} (h : lexeme.isProgramAttribute = true) :
    lexeme.kind = .word := by
  obtain ⟨word, -, reads⟩ := List.any_eq_true.mp h
  exact kind_of_isWord reads

/-- A word or a literal, which can name a program. -/
def IsName (lexeme : Lexeme) : Prop := lexeme.kind = .word ∨ lexeme.kind = .stringLiteral

end Lexeme

namespace SourceTree

open Lexeme (EndInPeriod IsName)

/-! ### Parts of a forest -/

/-- The tokens that stand in a forest as trees of their own. -/
def ownLexemesOf (forest : List SourceTree) : List Lexeme :=
  Lexeme.significant (forest.filterMap Tree.value?)

/-- The tokens of a forest at any depth. -/
def significantOf (forest : List SourceTree) : List Lexeme :=
  Lexeme.significant (Tree.leavesOf forest)

/-- The nodes of one kind in a forest that are trees of their own. -/
def nodesOfKind (kind : Kind) (forest : List SourceTree) : List SourceTree :=
  forest.filter (·.label? == some kind)

/-- The divisions in a forest, in order. -/
def divisionsOf (forest : List SourceTree) : List Division :=
  forest.filterMap fun tree => tree.label?.bind Division.ofKind?

/-- The PROGRAM-ID paragraphs of the IDENTIFICATION DIVISIONs in a forest. -/
def programIdsOf (forest : List SourceTree) : List SourceTree :=
  (nodesOfKind .identificationDivision forest).flatMap fun division =>
    nodesOfKind .programIdParagraph division.children

/-- The name that a PROGRAM-ID paragraph declares, without quotes: its third token. -/
def declaredName? (paragraph : SourceTree) : Option Text :=
  (significantOf paragraph.children)[2]?.map (programName ·.text)

/-- The name behind some PROGRAM-ID paragraphs: what the last of them declares, or the name there
was before them. -/
def nameBehind (before : Option Text) (paragraphs : List SourceTree) : Option Text :=
  match paragraphs.getLast? with
  | some paragraph => declaredName? paragraph
  | none => before

/-- The name that the last PROGRAM-ID paragraph in a forest declares. -/
def unitName? (forest : List SourceTree) : Option Text := nameBehind none (programIdsOf forest)

/-! ### Regular nodes -/

/-- PROGRAM-ID, a period, a name, any number of attributes, and a period. -/
def DeclaresProgram (lexemes : List Lexeme) : Prop :=
  ∃ (word first name : Lexeme) (attributes : List Lexeme) (last : Lexeme),
    lexemes = word :: first :: name :: (attributes ++ [last]) ∧
      word.isWord "PROGRAM-ID".toList = true ∧ first.kind = .dot ∧ name.IsName ∧
      (∀ word ∈ attributes, word.isProgramAttribute = true) ∧ last.kind = .dot

/-- END PROGRAM, a name and a period. -/
def ReadsTrailer (name : Lexeme) (lexemes : List Lexeme) : Prop :=
  ∃ first second period : Lexeme, lexemes = [first, second, name, period] ∧
    first.isWord "END".toList = true ∧ second.isWord "PROGRAM".toList = true ∧ name.IsName ∧
    period.kind = .dot

/-- A trailer with a name that is the declared one but for case and quotes. -/
def RepeatsName (declared : Option Text) (lexemes : List Lexeme) : Prop :=
  ∃ name, ReadsTrailer name lexemes ∧
    ∃ text ∈ declared, Text.sameWord (programName name.text) text = true

/-- Divisions in the mandated order, none of them twice. -/
def InOrder (divisions : List Division) : Prop := divisions.Pairwise (·.rank < ·.rank)

/-- The parts of a unit: one IDENTIFICATION DIVISION, the other divisions behind it in order, and
a trailer, if there is one, that repeats the name of the unit. -/
structure RegularUnit (parts : List SourceTree) : Prop where
  identified : (divisionsOf parts).count .identification = 1
  first : (divisionsOf parts).head? = some .identification
  ordered : InOrder (divisionsOf parts)
  trailer : ownLexemesOf parts ≠ [] → RepeatsName (unitName? parts) (ownLexemesOf parts)

/-- What a well-formed program asks of a node, by its kind and the trees right below it. -/
def Regular : Kind → List SourceTree → Prop
  | .errorNode, _ => False
  | .programUnit, parts => RegularUnit parts
  | .identificationDivision, parts =>
      EndInPeriod (ownLexemesOf parts) ∧ nodesOfKind .programIdParagraph parts ≠ []
  | .environmentDivision, parts => EndInPeriod (ownLexemesOf parts)
  | .dataDivision, parts => EndInPeriod (ownLexemesOf parts)
  | .procedureDivision, parts => EndInPeriod (ownLexemesOf parts)
  | .procedureSection, parts => EndInPeriod (ownLexemesOf parts)
  | .procedureParagraph, parts => EndInPeriod (ownLexemesOf parts)
  | .programIdParagraph, parts => DeclaresProgram (significantOf parts)
  | .sentence, parts => EndInPeriod (significantOf parts)
  | _, _ => True

/-- What a well-formed program asks of each of its nodes. -/
def IsRegular : SourceTree → Prop
  | .leaf _ => True
  | .node kind parts => Regular kind parts

/-- No token of the tree is an error token, and all of its nodes are regular. -/
structure WellFormed (tree : SourceTree) : Prop where
  noErrorToken : ∀ lexeme ∈ tree.leaves, lexeme.kind ≠ .error
  regular : ∀ node ∈ tree.nodes, IsRegular node

/-- No token of a forest is an error token, and all of its nodes are regular. -/
structure RegularAll (forest : List SourceTree) : Prop where
  noErrorToken : ∀ lexeme ∈ Tree.leavesOf forest, lexeme.kind ≠ .error
  regular : ∀ node ∈ Tree.nodesOf forest, IsRegular node

theorem regularAll_nil : RegularAll [] := by
  constructor
  · intro lexeme mem
    cases mem
  · intro node mem
    cases mem

theorem regularAll_append {s t : List SourceTree} :
    RegularAll (s ++ t) ↔ RegularAll s ∧ RegularAll t := by
  have nodes : Tree.nodesOf (s ++ t) = Tree.nodesOf s ++ Tree.nodesOf t := Tree.nodesOf_append s t
  constructor
  · rintro ⟨tokens, regular⟩
    rw [Tree.leavesOf_append, List.forall_mem_append] at tokens
    rw [nodes, List.forall_mem_append] at regular
    exact ⟨⟨tokens.1, regular.1⟩, ⟨tokens.2, regular.2⟩⟩
  · rintro ⟨first, second⟩
    constructor
    · rw [Tree.leavesOf_append, List.forall_mem_append]
      exact ⟨first.noErrorToken, second.noErrorToken⟩
    · rw [nodes, List.forall_mem_append]
      exact ⟨first.regular, second.regular⟩

theorem regularAll_row {lexemes : List Lexeme} :
    RegularAll (row lexemes) ↔ ∀ lexeme ∈ lexemes, lexeme.kind ≠ .error := by
  have nodes : Tree.nodesOf (row lexemes) = [] := Tree.nodesOf_map_leaf lexemes
  constructor
  · intro regular
    simpa using regular.noErrorToken
  · intro tokens
    constructor
    · simpa using tokens
    · simp [nodes]

/-- A node is regular with all that is below it. -/
theorem regularAll_node {kind : Kind} {parts : List SourceTree} :
    RegularAll [.node kind parts] ↔ Regular kind parts ∧ RegularAll parts := by
  have leaves : Tree.leavesOf [(.node kind parts : SourceTree)] = Tree.leavesOf parts :=
    List.append_nil _
  have nodes : Tree.nodesOf [(.node kind parts : SourceTree)] =
      .node kind parts :: Tree.nodesOf parts := List.append_nil _
  constructor
  · rintro ⟨tokens, regular⟩
    rw [leaves] at tokens
    rw [nodes, List.forall_mem_cons] at regular
    exact ⟨regular.1, tokens, regular.2⟩
  · rintro ⟨here, tokens, regular⟩
    constructor
    · rwa [leaves]
    · rw [nodes, List.forall_mem_cons]
      exact ⟨here, regular⟩

theorem RegularAll.of_mem {forest : List SourceTree} (h : RegularAll forest) {tree : SourceTree}
    (mem : tree ∈ forest) : RegularAll [tree] := by
  obtain ⟨before, behind, rfl⟩ := List.append_of_mem mem
  rw [← List.singleton_append, regularAll_append, regularAll_append] at h
  exact h.2.1

/-- The root of a source unit asks for nothing by itself. -/
theorem wellFormed_sourceUnit {children : List SourceTree} :
    WellFormed (.node .sourceUnit children) ↔ RegularAll children := by
  constructor
  · rintro ⟨tokens, regular⟩
    exact ⟨tokens, (List.forall_mem_cons.mp regular).2⟩
  · rintro ⟨tokens, regular⟩
    exact ⟨tokens, List.forall_mem_cons.mpr ⟨trivial, regular⟩⟩

/-! ### Names -/

theorem nameBehind_append (before : Option Text) (s t : List SourceTree) :
    nameBehind before (s ++ t) = nameBehind (nameBehind before s) t := by
  unfold nameBehind
  rw [List.getLast?_append]
  cases t.getLast? with
  | none => rfl
  | some paragraph => rfl

theorem mem_nodesOfKind {kind : Kind} {forest : List SourceTree} {tree : SourceTree} :
    tree ∈ nodesOfKind kind forest ↔ tree ∈ forest ∧ ∃ parts, tree = .node kind parts := by
  rw [nodesOfKind, List.mem_filter]
  refine and_congr_right fun _ => ?_
  cases tree with
  | leaf lexeme => simp [Tree.label?]
  | node label parts => simp [Tree.label?]

/-- A regular forest with an IDENTIFICATION DIVISION in it declares a name. -/
theorem isSome_unitName? {parts : List SourceTree} (regular : RegularAll parts)
    (mem : .identification ∈ divisionsOf parts) : (unitName? parts).isSome = true := by
  obtain ⟨tree, inside, holds⟩ := List.mem_filterMap.mp mem
  obtain ⟨label, isNode, isDivision⟩ := Option.bind_eq_some_iff.mp holds
  cases tree with
  | leaf lexeme => cases isNode
  | node kind below =>
      cases isNode
      obtain rfl := Division.ofKind?_eq_some_iff.mp isDivision
      have declares := (regularAll_node.mp (regular.of_mem inside)).1.2
      obtain ⟨paragraph, first⟩ := List.exists_mem_of_ne_nil _ declares
      have found : paragraph ∈ programIdsOf parts :=
        List.mem_flatMap.mpr ⟨_, mem_nodesOfKind.mpr ⟨inside, below, rfl⟩, first⟩
      obtain ⟨last, isLast⟩ : ∃ last, (programIdsOf parts).getLast? = some last :=
        ⟨_, List.getLast?_eq_some_getLast (List.ne_nil_of_mem found)⟩
      obtain ⟨division, holder, among⟩ := List.mem_flatMap.mp (List.mem_of_getLast? isLast)
      obtain ⟨within, others, rfl⟩ := mem_nodesOfKind.mp holder
      obtain ⟨under, tokens, rfl⟩ := mem_nodesOfKind.mp among
      have whole := (regularAll_node.mp (regular.of_mem within)).2.of_mem under
      obtain ⟨word, period, name, attributes, behind, same, -⟩ := (regularAll_node.mp whole).1
      rw [unitName?, nameBehind, isLast]
      simp [declaredName?, Tree.children, same]

/-- PROGRAM-ID and perhaps a period alone declare nothing. -/
theorem not_declaresProgram {word : Lexeme} {first : Option Lexeme} :
    ¬DeclaresProgram (word :: first.toList) := by
  rintro ⟨w, f, name, attributes, last, same, -⟩
  have lengths := congrArg List.length same
  cases first <;> simp at lengths

/-- A name and its attributes declare a program when the periods before and behind them have been
found. -/
theorem declaresProgram_iff {word name : Lexeme} {first last : Option Lexeme}
    {attributes : List Lexeme} (reads : word.isWord "PROGRAM-ID".toList = true)
    (isFirst : ∀ lexeme ∈ first, lexeme.kind = .dot) (isName : name.IsName)
    (areAttributes : ∀ word ∈ attributes, word.isProgramAttribute = true)
    (isLast : ∀ lexeme ∈ last, lexeme.kind = .dot) :
    DeclaresProgram (word :: (first.toList ++ name :: (attributes ++ last.toList))) ↔
      first.isSome = true ∧ last.isSome = true := by
  have named : name.kind ≠ .dot := by
    rcases isName with word | literal
    · rw [word]
      decide
    · rw [literal]
      decide
  constructor
  · rintro ⟨w, f, n, others, period, same, -, isPeriod, -, -, ends⟩
    cases first with
    | none =>
        simp only [Option.toList_none, List.nil_append, List.cons.injEq] at same
        exact absurd (same.2.1 ▸ isPeriod) named
    | some first =>
        refine ⟨rfl, ?_⟩
        cases last with
        | some last => rfl
        | none =>
            simp only [Option.toList_some, Option.toList_none, List.append_nil,
              List.singleton_append, List.cons.injEq] at same
            have mem : period ∈ attributes := by simp [same.2.2.2]
            rw [Lexeme.kind_of_isProgramAttribute (areAttributes period mem)] at ends
            cases ends
  · rintro ⟨someFirst, someLast⟩
    obtain ⟨first, rfl⟩ := Option.isSome_iff_exists.mp someFirst
    obtain ⟨last, rfl⟩ := Option.isSome_iff_exists.mp someLast
    exact ⟨word, first, name, attributes, last, rfl, reads, isFirst first rfl, isName,
      areAttributes, isLast last rfl⟩

/-! ### Rows and bodies -/

section Append

variable (s t : List SourceTree)

theorem ownLexemesOf_append : ownLexemesOf (s ++ t) = ownLexemesOf s ++ ownLexemesOf t := by
  simp [ownLexemesOf]

theorem nodesOfKind_append (kind : Kind) :
    nodesOfKind kind (s ++ t) = nodesOfKind kind s ++ nodesOfKind kind t :=
  List.filter_append _ _

theorem divisionsOf_append : divisionsOf (s ++ t) = divisionsOf s ++ divisionsOf t :=
  List.filterMap_append

theorem programIdsOf_append : programIdsOf (s ++ t) = programIdsOf s ++ programIdsOf t := by
  rw [programIdsOf, nodesOfKind_append, List.flatMap_append]
  rfl

end Append

section Row

variable (lexemes : List Lexeme)

@[simp] theorem ownLexemesOf_row : ownLexemesOf (row lexemes) = Lexeme.significant lexemes := by
  simp [ownLexemesOf, row, List.filterMap_map, Function.comp_def, Tree.value?]

@[simp] theorem significantOf_row : significantOf (row lexemes) = Lexeme.significant lexemes := by
  rw [significantOf, leavesOf_row]

/-- A row has no nodes. -/
@[simp] theorem nodesOfKind_row (kind : Kind) : nodesOfKind kind (row lexemes) = [] := by
  simp [nodesOfKind, row, Tree.label?]

@[simp] theorem divisionsOf_row : divisionsOf (row lexemes) = [] := by
  simp [divisionsOf, row, Tree.label?]

@[simp] theorem programIdsOf_row : programIdsOf (row lexemes) = [] := by
  simp [programIdsOf]

end Row

section Node

variable (kind : Kind) (parts : List SourceTree)

theorem ownLexemesOf_node : ownLexemesOf [.node kind parts] = [] := rfl

theorem divisionsOf_node : divisionsOf [.node kind parts] = (Division.ofKind? kind).toList := by
  cases h : Division.ofKind? kind with
  | none => simp [divisionsOf, Tree.label?, h]
  | some division => simp [divisionsOf, Tree.label?, h]

theorem programIdsOf_identification :
    programIdsOf [.node .identificationDivision parts] = nodesOfKind .programIdParagraph parts :=
  List.append_nil _

theorem programIdsOf_node {kind : Kind} (other : kind ≠ .identificationDivision) :
    programIdsOf [.node kind parts] = [] := by
  simp [programIdsOf, nodesOfKind, Tree.label?, other]

end Node

/-- Nodes, and the blanks and comments among them, are no tokens of their own. -/
theorem ownLexemesOf_nodes {body : List SourceTree}
    (nodes : Among (fun tree => tree.isNode = true) body) : ownLexemesOf body = [] := by
  induction body with
  | nil => rfl
  | cons tree rest ih =>
      obtain ⟨here, behind⟩ := among_cons.mp nodes
      have others := ih behind
      rcases here with ⟨lexeme, rfl, trivial⟩ | isNode
      · simpa [ownLexemesOf, Tree.value?, Lexeme.significant, trivial] using others
      · cases tree with
        | leaf => cases isNode
        | node =>
            rw [ownLexemesOf, List.filterMap_cons_none rfl]
            exact others

/-- The tokens of a header are the own tokens of a node that has nodes behind its header. -/
theorem ownLexemesOf_headed (header : List Lexeme) {body : List SourceTree}
    (nodes : Among (fun tree => tree.isNode = true) body) :
    ownLexemesOf (row header ++ body) = Lexeme.significant header := by
  rw [ownLexemesOf_append, ownLexemesOf_row, ownLexemesOf_nodes nodes, List.append_nil]

end SourceTree

end CobolTree
