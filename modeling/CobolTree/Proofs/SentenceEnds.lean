import CobolTree.Proofs.Lossless
import CobolTree.Proofs.Production.Sentences

/-!
Sentences in the tree of a text, and stray text, which is read like a sentence. Each has one period,
its last token, or none; then it ends before a division or a trailer, or where the text ends, and a
sentence is reported there. No token in it begins as a division or a trailer does, unless it is a
picture string that is asked for (`Parsed.SentencesEnd`).
-/

namespace CobolTree

open Production

/-- The diagnostic is about the next token that carries meaning, or about the end of the text where
there is none. -/
def Diagnostic.StandsBefore (text : Text) (place : Cursor) (diagnostic : Diagnostic) : Prop :=
  match place.upcoming with
  | token :: _ => diagnostic.range = token.range ∧ diagnostic.position = token.position
  | [] => diagnostic.range = Range.empty text.byteLength ∧
      diagnostic.position = Position.zero.advance text

/-- A sentence, or text that belongs to no construct. -/
def LocatedTree.isSentence (node : LocatedTree) : Bool :=
  node.kind == .sentence || node.kind == .errorNode

namespace Production

/-- What is reported where a sentence ends stands before what follows. -/
theorem exists_reportHere {text : Text} {offset : Nat} {place : Cursor} (problem : Problem)
    (found : text.cursorAt? offset = some place)
    (ends : place.rest = [] ∨ place.atHeader = true) :
    ∃ diagnostic ∈ (reportHere problem place).reports,
      diagnostic.code = problem.code ∧ diagnostic.StandsBefore text place := by
  unfold reportHere Diagnostic.StandsBefore
  rw [Cursor.upcoming_eq]
  cases next : place.significant? .programUnit with
  | some read => exact ⟨_, List.mem_cons_self, rfl, rfl, rfl⟩
  | none =>
      have free : place.atHeader = false := by
        have nothing := Cursor.upcoming_of_none next
        rw [← Cursor.opensBoundary_eq_atHeader, Cursor.opensBoundary,
          Cursor.opens_of_upcoming nothing, Cursor.opens_of_upcoming nothing]
        rfl
      have ended := ends.resolve_right (Bool.eq_false_iff.mp free)
      obtain ⟨before, split, -, position⟩ := Text.cursorAt?_eq_some_iff.mp found
      rw [ended, List.append_nil] at split
      subst split
      have index : place.position.index = text.byteLength := by
        rw [position, Position.index_advance]
        exact Nat.zero_add _
      refine ⟨_, List.mem_cons_self, rfl, ?_, position⟩
      rw [← index]
      rfl

end Production

namespace Parsed

/-- Sentences and stray text end where they should. -/
structure SentencesEnd (settings : Settings) (text : Text) (parsed : Parsed) : Prop where
  /-- There is one period, and nothing behind it; or there is none, and what follows is nothing or a
  boundary. -/
  ends : ∀ node ∈ parsed.tree.locate.nodes, LocatedTree.isSentence node = true →
    (∃ front period, node.leaves = front ++ [period] ∧ period.kind = .dot ∧
        ∀ leaf ∈ front, leaf.kind ≠ .dot) ∨
      (∀ leaf ∈ node.leaves, leaf.kind ≠ .dot) ∧
        ∃ place ∈ text.cursorAt? (LocatedTree.range node).stop,
          place.upcoming = [] ∨ place.opensBoundary = true
  /-- No boundary stands where a token begins, unless that is the operand of a PICTURE clause. -/
  inside : ∀ node ∈ parsed.tree.locate.nodes, LocatedTree.isSentence node = true →
    ∀ front leaf behind, LocatedTree.tokens node = front ++ leaf :: behind →
      (∃ place ∈ text.cursorAt? leaf.start, place.opensBoundary = false) ∨
        leaf.kind = .pictureString ∧ Lexeme.AskForPicture (front.map (·.toLexeme))
  /-- A missing period is reported before what follows. -/
  reported : settings.maxDiagnostics = none → ∀ node ∈ parsed.tree.locate.nodes,
    LocatedTree.kind node = .sentence → (∀ leaf ∈ node.leaves, leaf.kind ≠ .dot) →
      ∃ place ∈ text.cursorAt? (LocatedTree.range node).stop, ∃ diagnostic ∈ parsed.diagnostics,
        diagnostic.code = .missingPeriod ∧ diagnostic.StandsBefore text place

variable (settings : Settings) (text : Text)

/-- Sentences and stray text come from where a token stands that is no boundary. -/
theorem exists_sentence {node : LocatedTree} (mem : node ∈ (ofText settings text).tree.locate.nodes)
    (isSentence : LocatedTree.isSentence node = true) : ∃ context pictures place,
      (context.mode = .word ∨ context.mode = .sentence) ∧ GoesOn place ∧
        Outcome.IsMadeAt (.start text) (programUnits settings (.start text)).reports node place
          (sentence context (LocatedTree.kind node) pictures place) := by
  have either : LocatedTree.kind node = .sentence ∨ LocatedTree.kind node = .errorNode :=
    (Bool.or_eq_true_iff.mp isSentence).imp eq_of_beq eq_of_beq
  obtain ⟨place, part, made, origin⟩ := exists_origin settings text mem (by
    rcases either with kind | kind <;> rw [kind] <;> decide)
  generalize LocatedTree.kind node = kind at either origin
  cases origin with
  | procedure origin =>
      cases origin with
      | sentence goesOn _ _ => exact ⟨.sentence, false, place, .inr rfl, goesOn, made⟩
      | «section» => simp at either
      | paragraph => simp at either
  | entry pictures goesOn => exact ⟨.sentence, pictures, place, .inr rfl, goesOn, made⟩
  | @stray _ context word goesOn =>
      refine ⟨context, false, place, .inl word, goesOn, made.reached,
        (gathered_sentence context .errorNode false place).faithful, ?_, ?_⟩
      · simpa [Outcome.located, strayText] using made.located
      · refine List.Subset.trans ?_ made.reported
        simp [strayText]
  | @division _ division => cases division <;> simp [Division.kind] at either
  | _ => simp at either

section Made

variable {text} {reports : List Diagnostic} {node : LocatedTree} {context : Context} {kind : Kind}
  {pictures : Bool} {place : Cursor}

/-- What is read as a sentence has one period, its last token, or none and ends where it should. -/
theorem ends_of_sentence (made : Outcome.IsMadeAt (.start text) reports node place
      (sentence context kind pictures place)) :
    (∃ front period, node.leaves = front ++ [period] ∧ period.kind = .dot ∧
        ∀ leaf ∈ front, leaf.kind ≠ .dot) ∨
      (∀ leaf ∈ node.leaves, leaf.kind ≠ .dot) ∧
        ∃ here ∈ text.cursorAt? (LocatedTree.range node).stop,
          here.upcoming = [] ∨ here.opensBoundary = true := by
  rw [made.leaves_eq]
  rcases sentence_ends context kind pictures place with
    ⟨front, period, tokens, dot, others⟩ | ⟨others, stands⟩
  · left
    refine ⟨front.map Token.leaf, period.leaf, by simp [tokens], dot, ?_⟩
    exact List.forall_mem_map.mpr others
  · refine .inr ⟨List.forall_mem_map.mpr others, _, made.cursorAt?_stop, ?_⟩
    rw [Cursor.opensBoundary_eq_atHeader]
    exact stands.imp_left Cursor.upcoming_of_atEnd

/-- Where a token of a sentence is read, no boundary stands, or the token is a picture string and
asked for. -/
theorem inside_of_sentence (made : Outcome.IsMadeAt (.start text) reports node place
      (sentence context kind pictures place))
    (mode : context.mode = .word ∨ context.mode = .sentence) (goesOn : GoesOn place)
    {front behind : List Leaf} {leaf : Leaf}
    (split : LocatedTree.tokens node = front ++ leaf :: behind) :
    (∃ here ∈ text.cursorAt? leaf.start, here.opensBoundary = false) ∨
      leaf.kind = .pictureString ∧ Lexeme.AskForPicture (front.map (·.toLexeme)) := by
  have within : leaf ∈ LocatedTree.tokens node := by
    rw [split]
    exact List.mem_append_right _ List.mem_cons_self
  obtain ⟨among, carries⟩ := List.mem_filter.mp within
  have clear := clear_sentence context kind pictures goesOn.free
  obtain ⟨here, stands, token, -, rfl, trivial | modal | free⟩ :=
    made.exists_place clear.places among
  · simp [Token.leaf, trivial] at carries
  · right
    have asked := picturesAsked_repeating mode pictures .empty place
    have lexemes : (LocatedTree.tokens node).map (·.toLexeme) =
        (repeating (sentenceRound context pictures) .empty place).significant := by
      rw [made.tokens_eq, tokens_sentence, Outcome.significant, ← Token.lexemes_significant,
        List.map_map]
      rfl
    rw [← lexemes, split, List.map_append] at asked
    exact asked _ _ _ rfl modal
  · exact .inl ⟨here, stands, by rw [Cursor.opensBoundary_eq_atHeader, free]⟩

/-- A sentence without a period is reported before what follows. -/
theorem reported_of_sentence (made : Outcome.IsMadeAt (.start text) reports node place
      (sentence context .sentence pictures place))
    (mode : context.mode = .word ∨ context.mode = .sentence) (goesOn : GoesOn place)
    (noPeriod : ∀ leaf ∈ node.leaves, leaf.kind ≠ .dot) :
    ∃ here ∈ text.cursorAt? (LocatedTree.range node).stop, ∃ diagnostic ∈ reports,
      diagnostic.code = .missingPeriod ∧ diagnostic.StandsBefore text here := by
  rw [made.leaves_eq] at noPeriod
  have noPeriod := List.forall_mem_map.mp noPeriod
  have stands : (sentence context .sentence pictures place).next.rest = [] ∨
      (sentence context .sentence pictures place).next.atHeader = true := by
    rcases sentence_ends context .sentence pictures place with
      ⟨front, period, tokens, dot, -⟩ | ⟨-, stands⟩
    · rw [tokens] at noPeriod
      exact absurd dot (noPeriod period (List.mem_append_right _ List.mem_cons_self))
    · exact stands
  obtain ⟨diagnostic, reported, code, before⟩ :=
    exists_reportHere (.missingPeriod .sentence) made.cursorAt?_stop stands
  have all := made.reported (mem_reports_sentence pictures goesOn.atToken mode noPeriod reported)
  exact ⟨_, made.cursorAt?_stop, diagnostic, all, code, before⟩

end Made

/-- Sentences and stray text end where they should, in every text. -/
theorem sentencesEnd_ofText : (ofText settings text).SentencesEnd settings text := by
  constructor
  case ends =>
    intro node mem isSentence
    obtain ⟨context, pictures, place, mode, goesOn, made⟩ :=
      exists_sentence settings text mem isSentence
    exact ends_of_sentence made
  case inside =>
    intro node mem isSentence front leaf behind split
    obtain ⟨context, pictures, place, mode, goesOn, made⟩ :=
      exists_sentence settings text mem isSentence
    exact inside_of_sentence made mode goesOn split
  case reported =>
    intro uncapped node mem kind noPeriod
    obtain ⟨context, pictures, place, mode, goesOn, made⟩ :=
      exists_sentence settings text mem (by rw [LocatedTree.isSentence, kind]; rfl)
    rw [kind] at made
    obtain ⟨here, stop, diagnostic, reported, code, before⟩ :=
      reported_of_sentence made mode goesOn noPeriod
    refine ⟨here, stop, diagnostic, ?_, code, before⟩
    change diagnostic ∈ keep settings.maxDiagnostics _ _
    rwa [uncapped]

end Parsed

end CobolTree
