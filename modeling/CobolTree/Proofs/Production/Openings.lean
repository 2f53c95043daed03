import CobolTree.Proofs.Production.Origins
import CobolTree.Proofs.Source.Slices
import CobolTree.Proofs.Token.Partition
import CobolTree.Proofs.Tree.Subtrees

/-!
What a text goes on with at some offset. At an offset stands a cursor (`Text.cursorAt?`), and from
there the rest of the text can be read as words, with blanks and comments passed over
(`Cursor.upcoming`); a heading is told by the first two of these tokens (`Cursor.opens`). The tests
by which the parser looks ahead are just that (`Cursor.opens_eq_atSectionHeader` and its like), in
whatever context they are made. Where a node of a tree begins and ends, and where each of its
leaves begins, the cursors are those between which the node was read
(`Outcome.IsMadeAt.cursorAt?_start`, `Outcome.IsMadeAt.exists_place`).
-/

namespace CobolTree

/-! ### Places in a text -/

/-- The cursor at an offset of a text, unless the offset is inside a character or past the end. -/
def Text.cursorAt? (text : Text) (offset : Nat) : Option Cursor :=
  (text.takeBytes? offset).bind fun before =>
    (text.dropBytes? offset).map fun rest => ⟨Position.zero.advance before, rest⟩

/-- A cursor stands at an offset behind what of the text takes as many bytes. -/
theorem Text.cursorAt?_eq_some_iff {text : Text} {offset : Nat} {cursor : Cursor} :
    text.cursorAt? offset = some cursor ↔ ∃ before, text = before ++ cursor.rest ∧
      before.byteLength = offset ∧ cursor.position = Position.zero.advance before := by
  constructor
  · intro found
    obtain ⟨before, taken, found⟩ := Option.bind_eq_some_iff.mp found
    obtain ⟨rest, dropped, rfl⟩ := Option.map_eq_some_iff.mp found
    obtain ⟨other, split, size⟩ := dropBytes?_eq_some_iff.mp dropped
    have same := takeBytes?_eq_some_iff.mpr ⟨rest, split, size⟩
    cases taken.symm.trans same
    exact ⟨before, split, size, rfl⟩
  · rintro ⟨before, split, size, position⟩
    have taken : text.takeBytes? offset = some before :=
      takeBytes?_eq_some_iff.mpr ⟨cursor.rest, split, size⟩
    have dropped : text.dropBytes? offset = some cursor.rest :=
      dropBytes?_eq_some_iff.mpr ⟨before, split, size⟩
    rw [cursorAt?, taken, dropped, Option.bind_some, Option.map_some, ← position]

/-- A cursor that is reached from the beginning of a text is the one at its offset. -/
theorem Cursor.Reads.cursorAt? {text : Text} {tokens : List Token} {cursor : Cursor}
    (reads : (Cursor.start text).Reads tokens cursor) :
    text.cursorAt? cursor.position.index = some cursor := by
  have position : cursor.position = Position.zero.advance (Lexeme.textOf (Token.lexemes tokens)) :=
    reads.position_eq
  refine Text.cursorAt?_eq_some_iff.mpr ⟨_, reads.rest_eq, ?_, position⟩
  rw [position, Position.index_advance]
  exact (Nat.zero_add _).symm

/-! ### Headings -/

namespace Lexeme

/-- A division begins with a header word and DIVISION. -/
def beginDivision (name word : Lexeme) : Bool :=
  name.kind == .word && word.isWord "DIVISION".toList && (Division.ofHeaderWord? name.text).isSome

/-- The trailer of a program begins with END PROGRAM. -/
def beginTrailer (first second : Lexeme) : Bool :=
  first.isWord "END".toList && second.isWord "PROGRAM".toList

/-- A section begins with a word and SECTION. -/
def beginSection (name word : Lexeme) : Bool :=
  name.kind == .word && word.isWord "SECTION".toList

/-- A paragraph begins with a word that is no statement verb, and a period. -/
def beginParagraph (settings : Settings) (name period : Lexeme) : Bool :=
  name.kind == .word && period.kind == .dot && !settings.isStatementVerb name.text

/-- A paragraph of the IDENTIFICATION DIVISION begins with PROGRAM-ID, or the name of a paragraph
of free text, and a period. -/
def beginIdentificationParagraph (name period : Lexeme) : Bool :=
  period.kind == .dot &&
    (name.isWord "PROGRAM-ID".toList || commentEntryWords.any (name.isWord ·))

/-- The first two of some lexemes are there and pass a test. -/
def beginWith (test : Lexeme → Lexeme → Bool) : List Lexeme → Bool
  | first :: second :: _ => test first second
  | _ => false

theorem beginWith_iff {test : Lexeme → Lexeme → Bool} {lexemes : List Lexeme} :
    beginWith test lexemes = true ↔
      ∃ first second rest, lexemes = first :: second :: rest ∧ test first second = true := by
  match lexemes with
  | [] => simp [beginWith]
  | [_] => simp [beginWith]
  | first :: second :: rest =>
      constructor
      · intro passes
        exact ⟨first, second, rest, rfl, passes⟩
      · rintro ⟨_, _, _, same, passes⟩
        cases same
        exact passes

end Lexeme

namespace Cursor

/-- The tokens from here on that are neither blanks nor comments, all of the text read as words. -/
def upcoming (cursor : Cursor) : List Token := Token.significant (cursor.tokens .programUnit)

/-- The next two tokens are there and pass a test. -/
def opens (test : Lexeme → Lexeme → Bool) (cursor : Cursor) : Bool :=
  Lexeme.beginWith test (Token.lexemes cursor.upcoming)

/-- A division begins here, or the trailer of a program. -/
def opensBoundary (cursor : Cursor) : Bool :=
  cursor.opens Lexeme.beginDivision || cursor.opens Lexeme.beginTrailer

theorem tokens_of_end {context : Context} {cursor : Cursor} (h : cursor.next? context = none) :
    cursor.tokens context = [] := by
  rw [tokens]
  split
  · rfl
  · rename_i read
    cases h.symm.trans read

theorem tokens_of_next? {context : Context} {cursor after : Cursor} {token : Token}
    (h : cursor.next? context = some (token, after)) :
    cursor.tokens context = token :: after.tokens context := by
  rw [tokens]
  split
  · rename_i none
    cases h.symm.trans none
  · rename_i read
    cases h.symm.trans read
    rfl

/-- What comes next is the next token that carries meaning, and what comes behind it. -/
theorem upcoming_eq (cursor : Cursor) :
    cursor.upcoming =
      match cursor.significant? .programUnit with
      | none => []
      | some (token, after) => token :: after.upcoming := by
  fun_induction Cursor.significant? .programUnit cursor with
  | case1 cursor h => rw [upcoming, tokens_of_end h]; rfl
  | case2 cursor token after h shorter trivial ih =>
      rw [← ih, upcoming, tokens_of_next? h, Token.significant,
        List.filter_cons_of_neg (by simp [trivial])]
      rfl
  | case3 cursor token after h shorter carries =>
      rw [upcoming, tokens_of_next? h, Token.significant,
        List.filter_cons_of_pos (by simpa using carries)]
      rfl

theorem upcoming_of_none {cursor : Cursor} (h : cursor.significant? .programUnit = none) :
    cursor.upcoming = [] := by
  rw [upcoming_eq, h]

theorem upcoming_of_some {cursor after : Cursor} {token : Token}
    (h : cursor.significant? .programUnit = some (token, after)) :
    cursor.upcoming = token :: after.upcoming := by
  rw [upcoming_eq, h]

/-- At the end of a text, nothing comes. -/
theorem upcoming_of_atEnd {cursor : Cursor} (h : cursor.rest = []) : cursor.upcoming = [] := by
  rw [upcoming, tokens_of_end (next?_eq_none_iff.mpr h)]
  rfl

/-- Where nothing comes, nothing begins. -/
theorem opens_of_upcoming {cursor : Cursor} (h : cursor.upcoming = [])
    (test : Lexeme → Lexeme → Bool) : cursor.opens test = false := by
  rw [opens, h]
  rfl

section Opens

variable {context : Context} (word : context.mode = .word) {cursor : Cursor}
  {test : Lexeme → Lexeme → Bool}

include word

/-- The next two tokens are those that are ahead in any context of word mode. -/
theorem opens_iff : cursor.opens test = true ↔
    ∃ first second, cursor.ahead context 2 = [first, second] ∧
      test first.toLexeme second.toLexeme = true := by
  have mode : Context.programUnit.mode = context.mode := word.symm
  rw [opens, Lexeme.beginWith_iff]
  constructor
  · rintro ⟨first, second, rest, lexemes, passes⟩
    cases one : cursor.significant? .programUnit with
    | none =>
        rw [upcoming_of_none one] at lexemes
        cases lexemes
    | some read =>
        obtain ⟨name, middle⟩ := read
        cases two : middle.significant? .programUnit with
        | none =>
            rw [upcoming_of_some one, upcoming_of_none two] at lexemes
            cases lexemes
        | some read =>
            obtain ⟨other, after⟩ := read
            rw [upcoming_of_some one, upcoming_of_some two] at lexemes
            cases lexemes
            exact ⟨_, _, ahead_two_eq_iff.mpr ⟨middle, after, significant?_of_mode one mode,
              significant?_of_mode two mode⟩, passes⟩
  · rintro ⟨first, second, ahead, passes⟩
    obtain ⟨middle, after, one, two⟩ := ahead_two_eq_iff.mp ahead
    have one := significant?_of_mode one mode.symm
    have two := significant?_of_mode two mode.symm
    rw [upcoming_of_some one, upcoming_of_some two]
    exact ⟨first.toLexeme, second.toLexeme, _, rfl, passes⟩

end Opens

variable (cursor : Cursor)

theorem opens_eq_atSectionHeader : cursor.opens Lexeme.beginSection = cursor.atSectionHeader :=
  Bool.eq_iff_iff.mpr ((opens_iff rfl).trans atSectionHeader_iff.symm)

theorem opens_eq_atParagraphHeader (settings : Settings) :
    cursor.opens (Lexeme.beginParagraph settings) = cursor.atParagraphHeader settings :=
  Bool.eq_iff_iff.mpr ((opens_iff rfl).trans atParagraphHeader_iff.symm)

theorem opens_eq_atIdentificationParagraph :
    cursor.opens Lexeme.beginIdentificationParagraph = cursor.atIdentificationParagraph :=
  Bool.eq_iff_iff.mpr ((opens_iff rfl).trans atIdentificationParagraph_iff.symm)

theorem opens_eq_atEndProgram : cursor.opens Lexeme.beginTrailer = cursor.atEndProgram :=
  Bool.eq_iff_iff.mpr ((opens_iff rfl).trans atEndProgram_iff.symm)

theorem opens_eq_isSome_divisionHeader? :
    cursor.opens Lexeme.beginDivision = cursor.divisionHeader?.isSome := by
  refine Bool.eq_iff_iff.mpr ((opens_iff (rfl : Context.programUnit.mode = .word)).trans ?_)
  simp only [Option.isSome_iff_exists, divisionHeader?_eq_some_iff, Lexeme.beginDivision,
    Bool.and_eq_true, beq_iff_eq]
  constructor
  · rintro ⟨name, word, ahead, ⟨kind, isDivision⟩, division, found⟩
    exact ⟨division, name, word, ahead, kind, isDivision, found⟩
  · rintro ⟨division, name, word, ahead, kind, isDivision, found⟩
    exact ⟨name, word, ahead, ⟨kind, isDivision⟩, division, found⟩

theorem opensBoundary_eq_atHeader : cursor.opensBoundary = cursor.atHeader := by
  rw [opensBoundary, opens_eq_isSome_divisionHeader?, opens_eq_atEndProgram, atHeader]

end Cursor

/-! ### Places in a node -/

namespace Outcome

open SourceTree LocatedTree

variable {α : Type}

/-- Every token of an outcome was read at a place that goes with it. -/
def Places (good : Cursor → Token → Prop) (cursor : Cursor) (outcome : Outcome α) : Prop :=
  ∀ token ∈ outcome.tokens, ∃ before place, cursor.Reads before place ∧
    place.position = token.position ∧ good place token

section Places

variable {β : Type} {good : Cursor → Token → Prop} {cursor : Cursor} {first : Outcome α}
  {second : Outcome β}

theorem Places.andThen (faithful : first.Faithful cursor) (h : first.Places good cursor)
    (k : second.Places good first.next) : (first.andThen second).Places good cursor := by
  intro token mem
  rcases List.mem_append.mp mem with left | right
  · exact h token left
  · obtain ⟨before, place, reads, rest⟩ := k token right
    exact ⟨first.tokens ++ before, place, faithful.reads.append reads, rest⟩

/-- Tokens that go with every place go with their own. -/
theorem Faithful.places (h : first.Faithful cursor)
    (every : ∀ token ∈ first.tokens, ∀ place, good place token) : first.Places good cursor := by
  intro token mem
  obtain ⟨before, behind, split⟩ := List.append_of_mem mem
  have reads := h.reads
  rw [split] at reads
  obtain ⟨place, front, onwards⟩ := reads.exists_middle
  cases onwards with
  | cons read _ =>
      exact ⟨before, place, front, (Cursor.place_of_next? read).1.symm, every token mem place⟩

end Places

namespace IsMadeAt

variable {text : Text} {reports : List Diagnostic} {node : LocatedTree} {place : Cursor}
  {part : Outcome Unit} (h : IsMadeAt (.start text) reports node place part)

include h

theorem exists_tree : ∃ tree, part.trees = [tree] ∧
    node = locateAt place.position.index tree := by
  have located := h.located
  rw [Outcome.located] at located
  cases trees : part.trees with
  | nil =>
      rw [trees] at located
      cases located
  | cons tree others =>
      rw [trees] at located
      cases others with
      | nil => exact ⟨tree, rfl, (List.cons.inj located).1.symm⟩
      | cons other others => cases located

theorem leaves_eq : node.leaves = part.tokens.map Token.leaf := by
  have leaves := leavesOf_located h.faithful
  rwa [h.located, Tree.leavesOf_cons, Tree.leavesOf, List.append_nil] at leaves

theorem tokens_eq : node.tokens = (Token.significant part.tokens).map Token.leaf := by
  rw [LocatedTree.tokens, h.leaves_eq, List.filter_map]
  rfl

/-- A node begins at the place where it was read. -/
theorem cursorAt?_start : text.cursorAt? (range node).start = some place := by
  obtain ⟨before, reads⟩ := h.reached
  obtain ⟨tree, -, rfl⟩ := h.exists_tree
  rw [start_locateAt]
  exact reads.cursorAt?

/-- A node ends where it was read up to. -/
theorem cursorAt?_stop : text.cursorAt? (range node).stop = some part.next := by
  obtain ⟨before, reads⟩ := h.reached
  obtain ⟨tree, trees, rfl⟩ := h.exists_tree
  have leaves := h.faithful.leaves
  rw [trees, Tree.leavesOf_cons, Tree.leavesOf, List.append_nil] at leaves
  have stop : (range (locateAt place.position.index tree)).stop = part.next.position.index := by
    rw [range_locateAt, h.faithful.reads.position_eq, Position.index_advance, text_eq_textOf,
      leaves]
    rfl
  rw [stop]
  exact (reads.append h.faithful.reads).cursorAt?

/-- A leaf of a node begins at a place that goes with its token. -/
theorem exists_place {good : Cursor → Token → Prop} (places : part.Places good place) {leaf : Leaf}
    (mem : leaf ∈ node.leaves) : ∃ here ∈ text.cursorAt? leaf.start, ∃ token ∈ part.tokens,
      token.leaf = leaf ∧ good here token := by
  obtain ⟨before, reads⟩ := h.reached
  rw [h.leaves_eq] at mem
  obtain ⟨token, within, rfl⟩ := List.mem_map.mp mem
  obtain ⟨between, here, onwards, same, fits⟩ := places token within
  refine ⟨here, ?_, token, within, rfl, fits⟩
  have start : token.leaf.start = here.position.index := congrArg Position.index same.symm
  rw [start]
  exact (reads.append onwards).cursorAt?

end IsMadeAt

end Outcome

end CobolTree
