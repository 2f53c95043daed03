import CobolTree.Production.Basic
import CobolTree.Production.Headers

/-!
Sentences: tokens up to a separator period. A sentence that has begun also ends, without
a period, before a division header, before END PROGRAM, and where the text ends.
-/

namespace CobolTree.Production

/-- How far a sentence has come. -/
inductive SentenceState where
  | empty | begun | terminated
deriving DecidableEq, Repr

/-- The operand of a PICTURE clause: an optional IS, then a picture string. -/
def pictureOperand (context : Context) : Production Unit := do
  let _ ← eatWord context "IS".toList
  trivia .pictureString
  match (← here).peek? .pictureString with
  | some token =>
      if token.kind = .pictureString then do
        let _ ← bump .pictureString
        return ()
      else return ()
  | none => return ()

/-- The word asks for a picture string behind it. -/
def isPictureWord (token : Token) : Bool :=
  token.isWord "PIC".toList || token.isWord "PICTURE".toList

/-- One token of a sentence. -/
def sentenceRound (context : Context) (pictures : Bool) (state : SentenceState) :
    Production (ForInStep SentenceState) := do
  let cursor ← here
  match cursor.peek? context with
  | none => return .done state
  | some token =>
      if token.isTrivia then do
        let _ ← bump context
        return .yield state
      else if state ≠ .empty ∧ cursor.atHeader then return .done state
      else do
        let _ ← bump context
        if token.kind = .dot then return .done .terminated
        else do
          if pictures && isPictureWord token then pictureOperand context
          return .yield .begun

section Round

variable {context : Context} {cursor after : Cursor} {token : Token}

theorem sentenceRound_of_end (pictures : Bool) (state : SentenceState)
    (h : cursor.next? context = none) :
    sentenceRound context pictures state cursor = .still (.done state) cursor := by
  simp [sentenceRound, Cursor.peek?, h]

variable (h : cursor.next? context = some (token, after))

include h

theorem sentenceRound_of_trivia (pictures : Bool) (state : SentenceState)
    (trivial : token.isTrivia = true) :
    sentenceRound context pictures state cursor =
      (bump context cursor).withValue (.yield state) := by
  simp [sentenceRound, Cursor.peek?, h, trivial]

/-- A sentence that has begun ends before a header. -/
theorem sentenceRound_of_header (pictures : Bool) {state : SentenceState}
    (carries : token.isTrivia = false) (begun : state ≠ .empty) (header : cursor.atHeader = true) :
    sentenceRound context pictures state cursor = .still (.done state) cursor := by
  simp [sentenceRound, Cursor.peek?, h, carries, begun, header]

/-- A period ends a sentence. -/
theorem sentenceRound_of_period (pictures : Bool) {state : SentenceState}
    (carries : token.isTrivia = false) (goesOn : ¬(state ≠ .empty ∧ cursor.atHeader = true))
    (period : token.kind = .dot) :
    sentenceRound context pictures state cursor =
      (bump context cursor).withValue (.done .terminated) := by
  unfold sentenceRound
  simp only [bind_apply, here_apply, Outcome.value_still, Outcome.next_still, Cursor.peek?, h,
    Option.map_some, carries, Bool.false_eq_true, if_false, if_neg goesOn, if_pos period]
  simp

/-- Any other token is part of the sentence, with its operand if it asks for a picture. -/
theorem sentenceRound_of_token {pictures : Bool} {state : SentenceState}
    (carries : token.isTrivia = false) (goesOn : ¬(state ≠ .empty ∧ cursor.atHeader = true))
    (other : token.kind ≠ .dot) :
    sentenceRound context pictures state cursor =
      ((bump context cursor).andThen
        (if pictures && isPictureWord token then
          pictureOperand context (bump context cursor).next
        else .still () (bump context cursor).next)).withValue (.yield .begun) := by
  unfold sentenceRound
  simp only [bind_apply, here_apply, Outcome.value_still, Outcome.next_still, Cursor.peek?, h,
    Option.map_some, carries, Bool.false_eq_true, if_false, if_neg goesOn, if_neg other]
  split <;> simp

end Round

/-- The tokens of a sentence, under a node of the given kind. Where `pictures` holds, the
operand of a PICTURE clause is read as a picture string. -/
def sentence (context : Context) (kind : Kind) (pictures : Bool) : Production Unit :=
  node kind do
    let state ← repeating (sentenceRound context pictures) .empty
    if state = .begun ∧ kind = .sentence then reportHere (.missingPeriod .sentence)

/-- Text that belongs to no construct, up to the next period. -/
def strayText (context : Context) : Production Unit := do
  reportHere (.strayText context)
  sentence context .errorNode false

/-- One entry, unless the division ends here. -/
def entryRound (context : Context) (pictures : Bool) : Production (ForInStep Unit) := do
  trivia context
  if (← here).atUnitBoundary then return .done ()
  else do
    sentence .sentence .sentence pictures
    return .yield ()

theorem entryRound_apply (context : Context) (pictures : Bool) (cursor : Cursor) :
    entryRound context pictures cursor =
      let lead := trivia context cursor
      lead.andThen
        (if lead.next.atUnitBoundary then .still (.done ()) lead.next
        else (sentence .sentence .sentence pictures lead.next).withValue (.yield ())) := by
  simp only [entryRound, bind_apply, ite_apply]
  simp

/-- Entries with a period each, up to the end of the division. -/
def entries (context : Context) (pictures : Bool) : Production Unit :=
  rounds context (fun _ => entryRound context pictures) ()

end CobolTree.Production
