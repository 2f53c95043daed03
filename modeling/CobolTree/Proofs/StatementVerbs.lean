import CobolTree.Proofs.Production.Lockstep
import CobolTree.Proofs.Verbs.Demotion
import CobolTree.Proofs.Verbs.Forest

/-!
Another statement verb only demotes the paragraphs that go by it. Settings are asked for statement
verbs in the body of the PROCEDURE DIVISION alone, and there the parser comes out where it did, with
the same reports (`Production.demotion_procedureBody`). So the two runs keep in step behind such a
division, and around it (`Outcome.Demotes.lockstep`), and the parse of a text differs in nothing but
the paragraphs that have become sentences (`Parsed.demotes_addVerb`).
-/

namespace CobolTree

/-! ### Two runs -/

/-- The second of two outcomes reads the same tokens, reports the same and gives the same value;
its trees are what becomes of those of the first when a word is made a statement verb. -/
structure Outcome.Demotes {α : Type} (word : Text) (first second : Outcome α) : Prop where
  value : second.value = first.value
  retraces : first.Retraces second
  trees : SourceTree.Demotes word first.trees second.trees

namespace Outcome.Demotes

variable {α β : Type} {word : Text} {first second : Outcome α} {third fourth : Outcome β}

theorem refl (h : SourceTree.Demotes word first.trees first.trees) : first.Demotes word first :=
  ⟨rfl, .refl first, h⟩

/-- A row of tokens stays as it is. -/
theorem ofFlat {cursor : Cursor} (h : first.Flat cursor) : first.Demotes word first := by
  apply refl
  rw [h.trees]
  exact .row _

/-- So does a node above a row of tokens, if it is no division. -/
theorem ofGathered {kind : Kind} {cursor : Cursor} (h : first.Gathered kind cursor)
    (other : kind ≠ .procedureDivision) : first.Demotes word first := by
  apply refl
  rw [h.trees]
  exact (SourceTree.Demotes.row _).node other

theorem withValue (h : first.Demotes word second) (value : β) :
    (first.withValue value).Demotes word (second.withValue value) :=
  ⟨rfl, h.retraces.withValue value value, h.trees⟩

theorem andThen (h : first.Demotes word second) (k : third.Demotes word fourth) :
    (first.andThen third).Demotes word (second.andThen fourth) where
  value := k.value
  retraces := h.retraces.andThen k.retraces
  trees := h.trees.append k.trees

theorem under (h : first.Demotes word second) {kind : Kind} (other : kind ≠ .procedureDivision) :
    (first.under kind).Demotes word (second.under kind) :=
  ⟨h.value, h.retraces.under kind kind, h.trees.node other⟩

/-- Two such runs take the same way. -/
theorem lockstep (word : Text) : Outcome.Lockstep fun _ => Outcome.Demotes word where
  value h := h.value
  next h := h.retraces.next
  withValue value h := h.withValue value
  andThen h k := h.andThen k

end Outcome.Demotes

namespace Production

variable (settings : Settings) {word : Text} (named : word.all Char.isDigit = false)

/-! ### Divisions -/

include named in
/-- A PROCEDURE DIVISION has the same header, and a body in which paragraphs are demoted. -/
theorem demotes_procedureDivision (cursor : Cursor) :
    (division settings .procedure cursor).Demotes word
      (division (settings.addVerb word) .procedure cursor) := by
  rw [division_procedure_eq, division_procedure_eq]
  have row := (flat_divisionHeader .procedure cursor).trees
  generalize divisionHeader .procedure cursor = header at row
  have body := demotion_procedureBody settings named header.next
  have old := faithful_procedureBody settings header.next
  have new := faithful_procedureBody (settings.addVerb word) header.next
  have retraces := (Outcome.Retraces.refl header).andThen body.retraces
  constructor
  case value => simp only [Outcome.value_under, Outcome.value_withValue]
  case retraces => exact (retraces.withValue _ _).under _ _
  case trees =>
    simp only [Outcome.trees_under, Outcome.trees_withValue, Outcome.trees_andThen, row]
    apply SourceTree.demotes_procedureDivision (among_procedureBody settings _)
      (among_procedureBody _ _) _ body.fates
    rw [old.leaves, new.leaves, Token.lexemes_of_placed body.retraces.tokens]

include named in
/-- The other divisions do not ask for verbs. -/
theorem demotes_division {found : Division} {cursor : Cursor}
    (header : cursor.divisionHeader? = some found) :
    (division settings found cursor).Demotes word
      (division (settings.addVerb word) found cursor) := by
  by_cases procedure : found = .procedure
  · rw [procedure]
    exact demotes_procedureDivision settings named cursor
  · have same : division (settings.addVerb word) found = division settings found ∧
        found.kind ≠ .procedureDivision := by
      cases found with
      | procedure => contradiction
      | _ => exact ⟨rfl, by decide⟩
    obtain ⟨tree, trees, isDivision⟩ := isDivision_division settings header
    obtain ⟨children, rfl, below⟩ := isDivision.kindsIn
    rw [same.1]
    apply Outcome.Demotes.refl
    rw [trees]
    exact (SourceTree.Demotes.refl below (by decide)).node same.2

/-! ### Units -/

include named in
theorem demotes_unitPart (state : UnitState) (cursor : Cursor) :
    (unitPart settings state cursor).Demotes word
      (unitPart (settings.addVerb word) state cursor) := by
  cases header : cursor.divisionHeader? with
  | some found =>
      have order : checkOrder (settings.addVerb word) = checkOrder settings := rfl
      have divisions := demotes_division settings named header
      rw [unitPart_of_header settings state header, unitPart_of_header _ state header, order,
        divisions.value]
      have checked := flat_checkOrder settings state.seen found cursor
      exact ((Outcome.Demotes.ofFlat checked).andThen divisions).withValue _
  | none =>
      have stray := gathered_strayText .programUnit cursor
      rw [unitPart_of_stray settings state header, unitPart_of_stray _ state header]
      exact (Outcome.Demotes.ofGathered stray (by decide)).withValue state

theorem demotes_closeUnit (start : Cursor) {parts others : Outcome UnitState}
    (h : parts.Demotes word others) :
    (closeUnit start parts).Demotes word (closeUnit start others) := by
  have ending (seen : Bool) (token : Option Token) (cursor : Cursor) := by
    apply @Outcome.Demotes.ofFlat _ word _ cursor
    exact flat_ite (c := seen) (flat_pure ()) (flat_reportAt token .noIdentificationDivision) cursor
  rw [closeUnit, closeUnit]
  simp only [h.value, h.retraces.next]
  exact (h.andThen (ending _ _ _)).under (by decide)

include named in
theorem stepsRelated_addVerb :
    StepsRelated (fun _ => Outcome.Demotes word) settings (settings.addVerb word) where
  blanks cursor := .ofFlat (flat_trivia .programUnit cursor)
  trailer current cursor := .ofFlat (flat_trailer current cursor)
  part := demotes_unitPart settings named
  unit start _ _ := demotes_closeUnit start

end Production

/-! ### Whole texts -/

namespace Parsed

open LocatedTree (outline procedures)

/-- The second of two parses is the first one but for the paragraphs that go by a word. -/
structure Demotes (word : Text) (old new : Parsed) : Prop where
  /-- The kinds of the tokens, their texts and where they begin. -/
  tokens : new.tokens.map Token.placed = old.tokens.map Token.placed
  diagnostics : new.diagnostics = old.diagnostics
  /-- The program units and the divisions in them, with the bytes that they take. -/
  outline : outline [new.tree.locate] = outline [old.tree.locate]
  divisions : List.Forall₂ (Procedure.Demotes word) (procedures [old.tree.locate])
    (procedures [new.tree.locate])

/-- Where a word that is not of digits alone is made a statement verb, the paragraphs that go by it
become sentences, and nothing else changes. -/
theorem demotes_addVerb (settings : Settings) (word text : Text)
    (named : word.all Char.isDigit = false) :
    (ofText settings text).Demotes word (ofText (settings.addVerb word) text) := by
  have steps := Production.stepsRelated_addVerb settings named
  have run := (Outcome.Demotes.lockstep word).programUnits steps (Cursor.start text)
  have trees := run.trees.node (show Kind.sourceUnit ≠ .procedureDivision by decide)
  constructor
  case tokens => exact run.retraces.tokens
  case diagnostics =>
    simp only [ofText, run.retraces.reports, run.retraces.next]
    rfl
  case outline => exact trees.outline 0
  case divisions => exact trees.divisions 0

/-- A paragraph, in capitals and with a comment before its period, becomes a sentence of the section
that it stood behind; the other one stays. -/
theorem demotes_addVerb_carry_on :
    let word : Text := "Carry-On".toList
    let text : Text :=
      "PROCEDURE DIVISION. MAIN SECTION. CARRY-ON *> now\n. STOP RUN. DONE. EXIT.".toList
    let old := ofText .standard text
    let new := ofText (Settings.standard.addVerb word) text
    let names (parsed : Parsed) :=
      (procedures [parsed.tree.locate]).flatMap fun division =>
        (Procedure.paragraphs division).map Procedure.name?
    word.all Char.isDigit = false ∧ old.Demotes word new ∧
      names old = [some "CARRY-ON".toList, some "DONE".toList] ∧
      names new = [some "DONE".toList] := by
  have named : "Carry-On".toList.all Char.isDigit = false := by decide
  exact ⟨named, demotes_addVerb .standard _ _ named, by decide +kernel, by decide +kernel⟩

end Parsed

end CobolTree
