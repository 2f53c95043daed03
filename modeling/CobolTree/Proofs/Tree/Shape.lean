import CobolTree.Division
import CobolTree.Proofs.Tree.Located

/-!
The shape of a source tree. A node is plain when it has tokens alone right below it; sentences,
free text and stray text are plain. A division is a header in a row and plain nodes or blocks
behind it, a unit is a row of parts that may end in a trailer (`UnitParts`), and a source unit
holds units (`IsSourceUnit`). Blanks and comments may stand between any two parts.
-/

namespace CobolTree.SourceTree

/-! ### Rows and plain nodes -/

/-- A blank or a comment. -/
def IsTrivia (tree : SourceTree) : Prop := ∃ lexeme, tree = .leaf lexeme ∧ lexeme.isTrivia = true

/-- Trees of one sort, with blanks and comments among them. -/
def Among (sort : SourceTree → Prop) (forest : List SourceTree) : Prop :=
  ∀ tree ∈ forest, IsTrivia tree ∨ sort tree

/-- A node above tokens alone, not all of them blanks and comments. -/
inductive IsPlain (kind : Kind) : SourceTree → Prop where
  | of {lexemes : List Lexeme} : Lexeme.significant lexemes ≠ [] →
      IsPlain kind (.node kind (row lexemes))

/-! ### Headers and trailers -/

/-- A header word of a division and the word DIVISION come first. -/
def OpensDivision (division : Division) (lexemes : List Lexeme) : Prop :=
  ∃ name word rest, Lexeme.significant lexemes = name :: word :: rest ∧ name.kind = .word ∧
    word.isWord "DIVISION".toList = true ∧ Division.ofHeaderWord? name.text = some division

/-- A word and the word SECTION come first. -/
def OpensSection (lexemes : List Lexeme) : Prop :=
  ∃ name word rest, Lexeme.significant lexemes = name :: word :: rest ∧ name.kind = .word ∧
    word.isWord "SECTION".toList = true

/-- A word and a period, and nothing else. -/
def OpensParagraph (lexemes : List Lexeme) : Prop :=
  ∃ name period, Lexeme.significant lexemes = [name, period] ∧ name.kind = .word ∧
    period.kind = .dot

/-- The words END PROGRAM, perhaps a name, perhaps a period, and nothing else. -/
def IsTrailer (lexemes : List Lexeme) : Prop :=
  ∃ (first second : Lexeme) (name period : Option Lexeme),
    Lexeme.significant lexemes = first :: second :: (name.toList ++ period.toList) ∧
      first.isWord "END".toList = true ∧ second.isWord "PROGRAM".toList = true ∧
      (∀ lexeme ∈ name, lexeme.kind = .word ∨ lexeme.kind = .stringLiteral) ∧
      ∀ lexeme ∈ period, lexeme.kind = .dot

/-! ### Divisions -/

/-- A section or a paragraph: its header in a row, and sentences. -/
inductive IsBlock : SourceTree → Prop where
  | section {header : List Lexeme} {body : List SourceTree} :
      OpensSection header → Among (IsPlain .sentence) body →
        IsBlock (.node .procedureSection (row header ++ body))
  | paragraph {header : List Lexeme} {body : List SourceTree} :
      OpensParagraph header → Among (IsPlain .sentence) body →
        IsBlock (.node .procedureParagraph (row header ++ body))

/-- The nodes behind the header of a division. -/
def IsEntry : Division → SourceTree → Prop
  | .identification, tree =>
      IsPlain .programIdParagraph tree ∨ IsPlain .commentEntryParagraph tree ∨
        IsPlain .errorNode tree
  | .environment, tree => IsPlain .sentence tree
  | .data, tree => IsPlain .sentence tree
  | .procedure, tree => IsPlain .sentence tree ∨ IsBlock tree

/-- A division: its header in a row, and its entries. -/
inductive IsDivision (division : Division) : SourceTree → Prop where
  | of {header : List Lexeme} {body : List SourceTree} :
      OpensDivision division header → Among (IsEntry division) body →
        IsDivision division (.node division.kind (row header ++ body))

/-! ### Units -/

/-- The parts of a unit. The flag says that a division stands before them; only then can a unit
be nested among them, and such a unit opens with an IDENTIFICATION DIVISION. Nothing but blanks
and comments stands behind a trailer. -/
inductive UnitParts : Bool → List SourceTree → Prop where
  | nil {begun : Bool} : UnitParts begun []
  | trivia {begun : Bool} {lexeme : Lexeme} {rest : List SourceTree} :
      lexeme.isTrivia = true → UnitParts begun rest → UnitParts begun (.leaf lexeme :: rest)
  | stray {begun : Bool} {tree : SourceTree} {rest : List SourceTree} :
      IsPlain .errorNode tree → UnitParts begun rest → UnitParts begun (tree :: rest)
  | division {begun : Bool} {division : Division} {tree : SourceTree} {rest : List SourceTree} :
      IsDivision division tree → UnitParts true rest → UnitParts begun (tree :: rest)
  | nested {parts rest : List SourceTree} :
      OpensDivision .identification (Tree.leavesOf parts) → UnitParts false parts →
        UnitParts true rest → UnitParts true (.node .programUnit parts :: rest)
  | trailer {begun : Bool} {lexemes : List Lexeme} :
      IsTrailer lexemes → UnitParts begun (row lexemes)

/-- A program unit, with a token in it at least. -/
inductive IsUnit : SourceTree → Prop where
  | of {parts : List SourceTree} :
      UnitParts false parts → Lexeme.significant (Tree.leavesOf parts) ≠ [] →
        IsUnit (.node .programUnit parts)

/-- The tree of a source text. -/
inductive IsSourceUnit : SourceTree → Prop where
  | of {children : List SourceTree} : Among IsUnit children →
      IsSourceUnit (.node .sourceUnit children)

/-! ### Rows and forests -/

theorem among_nil (sort : SourceTree → Prop) : Among sort [] := by
  intro tree mem
  cases mem

theorem among_cons {sort : SourceTree → Prop} {tree : SourceTree} {rest : List SourceTree} :
    Among sort (tree :: rest) ↔ (IsTrivia tree ∨ sort tree) ∧ Among sort rest :=
  List.forall_mem_cons

theorem Among.append {sort : SourceTree → Prop} {s t : List SourceTree} (h : Among sort s)
    (k : Among sort t) : Among sort (s ++ t) := by
  intro tree mem
  rcases List.mem_append.mp mem with left | right
  · exact h tree left
  · exact k tree right

theorem Among.mono {p q : SourceTree → Prop} {forest : List SourceTree} (h : Among p forest)
    (imp : ∀ tree, p tree → q tree) : Among q forest := by
  intro tree mem
  exact (h tree mem).imp id (imp tree)

theorem among_single {sort : SourceTree → Prop} {tree : SourceTree} (h : sort tree) :
    Among sort [tree] := by
  intro other mem
  rw [List.mem_singleton.mp mem]
  exact .inr h

theorem among_row {lexemes : List Lexeme} (h : Lexeme.significant lexemes = [])
    (sort : SourceTree → Prop) : Among sort (row lexemes) := by
  intro tree mem
  obtain ⟨lexeme, inside, rfl⟩ := List.mem_map.mp mem
  refine .inl ⟨lexeme, rfl, ?_⟩
  simpa using List.filter_eq_nil_iff.mp h lexeme inside

theorem OpensDivision.append {division : Division} {s : List Lexeme}
    (h : OpensDivision division s) (t : List Lexeme) : OpensDivision division (s ++ t) := by
  obtain ⟨name, word, rest, first, others⟩ := h
  exact ⟨name, word, rest ++ Lexeme.significant t, by simp [first], others⟩

theorem OpensSection.append {s : List Lexeme} (h : OpensSection s) (t : List Lexeme) :
    OpensSection (s ++ t) := by
  obtain ⟨name, word, rest, first, others⟩ := h
  exact ⟨name, word, rest ++ Lexeme.significant t, by simp [first], others⟩

/-- Blanks and comments before a header make no difference. -/
theorem OpensDivision.behind {division : Division} {s t : List Lexeme}
    (trivial : Lexeme.significant s = []) (h : OpensDivision division t) :
    OpensDivision division (s ++ t) := by
  obtain ⟨name, word, rest, first, others⟩ := h
  exact ⟨name, word, rest, by simp [trivial, first], others⟩

/-- Blanks and comments before the parts of a unit make no difference. -/
theorem UnitParts.behind {begun : Bool} {lexemes : List Lexeme} {rest : List SourceTree}
    (trivial : Lexeme.significant lexemes = []) (h : UnitParts begun rest) :
    UnitParts begun (row lexemes ++ rest) := by
  induction lexemes with
  | nil => exact h
  | cons lexeme others ih =>
      have all := List.filter_eq_nil_iff.mp trivial
      refine .trivia (by simpa using all lexeme (.head _)) (ih ?_)
      exact List.filter_eq_nil_iff.mpr fun other mem => all other (.tail _ mem)

/-- A section and a paragraph alike are a header with a token, and sentences. -/
theorem IsBlock.exists_header {tree : SourceTree} (h : IsBlock tree) : ∃ kind header body,
    tree = .node kind (row header ++ body) ∧ kind ≠ .programUnit ∧
      Lexeme.significant header ≠ [] ∧ Among (IsPlain .sentence) body := by
  cases h with
  | @«section» header body opens sentences =>
      obtain ⟨name, word, rest, first, -⟩ := opens
      exact ⟨_, header, body, rfl, by decide, by simp [first], sentences⟩
  | @paragraph header body opens sentences =>
      obtain ⟨name, period, both, -⟩ := opens
      exact ⟨_, header, body, rfl, by decide, by simp [both], sentences⟩

theorem IsPlain.isNode {kind : Kind} {tree : SourceTree} (h : IsPlain kind tree) :
    tree.isNode = true := by
  cases h with
  | of _ => rfl

theorem IsEntry.isNode {division : Division} {tree : SourceTree} (h : IsEntry division tree) :
    tree.isNode = true := by
  cases division with
  | identification =>
      rcases h with plain | plain | plain
      · exact plain.isNode
      · exact plain.isNode
      · exact plain.isNode
  | environment => exact IsPlain.isNode h
  | data => exact IsPlain.isNode h
  | procedure =>
      rcases h with plain | block
      · exact plain.isNode
      · obtain ⟨kind, header, body, rfl, -⟩ := block.exists_header
        rfl

theorem IsDivision.isNode {division : Division} {tree : SourceTree} (h : IsDivision division tree) :
    tree.isNode = true := by
  cases h with
  | of _ _ => rfl

theorem IsDivision.opens {division : Division} {tree : SourceTree}
    (h : IsDivision division tree) : OpensDivision division tree.leaves := by
  cases h with
  | of header _ => simpa [Tree.leaves] using header.append _

end CobolTree.SourceTree
