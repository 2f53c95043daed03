import CobolTree.Grammar.Reparse
import CobolTree.Proofs.Grammar.Attempts
import CobolTree.Proofs.Source.Recasing
import CobolTree.Proofs.Tree.Mapping

/-!
A text read by a grammar in two places. A `Transport` says how an input stands elsewhere: its
letters in other cases, and more bytes before it. All expressions of the division grammars take a
letter in either case (`Expr.isCaseless`), so what such an expression reads here it reads elsewhere,
by the same rules at the same distance (`Transport.read?_input`), and it attempts the same rules on
the way (`Transport.agrees_trace`). A division that is read alike in two places has the same outcome
in both (`Reparse.run_move`).

A text that begins elsewhere has its attempts counted from offset zero all the same, so an offset is
moved only once there is an attempt (`Transport.Agrees`).
-/

namespace CobolTree

/-- How a text stands elsewhere: its letters in other cases, and more bytes before it. -/
structure Transport extends Recasing where
  bytes : Nat

namespace Expr

/-- Letters are read in either case: of the characters that are asked for exactly, none is a
letter. -/
def isCaseless : Expr → Bool
  | exact expected => expected.all (!·.isAlpha)
  | seq first second => first.isCaseless && second.isCaseless
  | alt first second => first.isCaseless && second.isCaseless
  | star body => body.isCaseless
  | opt body => body.isCaseless
  | absent body => body.isCaseless
  | rule _ _ body => body.isCaseless
  | _ => true

end Expr

theorem GrammarName.isCaseless_unit (grammar : GrammarName) : grammar.unit.isCaseless = true := by
  cases grammar with
  | identification => rfl
  | environment => rfl
  | data => rfl

theorem Input.caseless_isFiller : Caseless isFiller := .of_letters (by decide)

namespace Transport

variable (move : Transport)

/-! ### What is moved -/

def input (input : Input) : Input := ⟨input.offset + move.bytes, move.text input.rest⟩

def piece (piece : Piece) : Piece := ⟨piece.rule, move.text piece.text, piece.start + move.bytes⟩

def tree (tree : GrammarTree) : GrammarTree := tree.map id move.piece

def reading (reading : Reading) : Reading :=
  ⟨reading.trees.map move.tree, move.input reading.next⟩

@[simp] theorem offset_input (input : Input) :
    (move.input input).offset = input.offset + move.bytes := rfl

@[simp] theorem rest_input (input : Input) : (move.input input).rest = move.text input.rest := rfl

@[simp] theorem trees_reading (reading : Reading) :
    (move.reading reading).trees = reading.trees.map move.tree := rfl

@[simp] theorem next_reading (reading : Reading) :
    (move.reading reading).next = move.input reading.next := rfl

@[simp] theorem utf8Size_letter (c : Char) : (move.letter c).utf8Size = c.utf8Size :=
  move.apply_letter caseless_utf8Size c

theorem input_mk (offset : Nat) (text : Text) :
    move.input ⟨offset, text⟩ = ⟨offset + move.bytes, move.text text⟩ := rfl

@[simp] theorem drop_input (input : Input) (count : Nat) :
    (move.input input).drop count = move.input (input.drop count) := by
  simp only [Input.drop, rest_input, offset_input, input_mk, ← Recasing.text_take,
    ← Recasing.text_drop, Recasing.byteLength_text, Nat.add_right_comm]

/-- Where characters are read or not, they are read elsewhere or not. -/
theorem ite_drop_input (holds : Prop) [Decidable holds] (input : Input) (count : Nat) :
    (if holds then some ⟨[], (move.input input).drop count⟩ else none : Option Reading) =
      (if holds then some ⟨[], input.drop count⟩ else none : Option Reading).map
        move.reading := by
  rw [drop_input]
  split
  · rfl
  · rfl

/-! ### What is skipped -/

theorem skipFrom_text (inComment : Bool) (offset : Nat) (text : Text) :
    Input.skipFrom inComment (offset + move.bytes) (move.text text) =
      move.input (Input.skipFrom inComment offset text) := by
  have filler (c : Char) : Input.isFiller (move.letter c) = Input.isFiller c :=
    move.apply_letter Input.caseless_isFiller c
  have feed := move.beq_letter Recasing.caseless_feed
  have carriage := move.beq_letter Recasing.caseless_return
  have star := move.beq_letter Recasing.caseless_star
  have angle := move.beq_letter Recasing.caseless_greater
  fun_induction Input.skipFrom inComment offset text with
  | case1 inComment offset => rfl
  | case2 inComment offset c skips =>
      simp [Input.skipFrom, filler, skips, input_mk, Nat.add_right_comm]
  | case3 inComment offset c stops => simp [Input.skipFrom, filler, stops, input_mk]
  | case4 offset c d rest ih =>
      rw [Recasing.text_cons, Recasing.text_cons, Input.skipFrom, if_pos rfl, carriage, feed,
        utf8Size_letter, Nat.add_right_comm]
      exact ih
  | case5 inComment offset c d rest outside blank ih =>
      rw [Recasing.text_cons, Recasing.text_cons, Input.skipFrom, if_neg outside, filler,
        if_pos blank, utf8Size_letter, Nat.add_right_comm]
      exact ih
  | case6 inComment offset c d rest outside solid opens ih =>
      rw [Recasing.text_cons, Recasing.text_cons, Input.skipFrom, if_neg outside, filler,
        if_neg solid, star, angle, if_pos opens, Nat.add_right_comm]
      exact ih
  | case7 inComment offset c d rest outside solid closed =>
      rw [Recasing.text_cons, Recasing.text_cons, Input.skipFrom, if_neg outside, filler,
        if_neg solid, star, angle, if_neg closed]
      rfl

@[simp] theorem skip_input (atomic : Bool) (input : Input) :
    (move.input input).skip atomic = move.input (input.skip atomic) := by
  unfold Input.skip
  split
  · rfl
  · exact move.skipFrom_text false input.offset input.rest

/-! ### What is read -/

theorem isPrefixOf_text {expected : Text} (marks : expected.all (!·.isAlpha) = true) (text : Text) :
    expected.isPrefixOf (move.text text) = expected.isPrefixOf text := by
  induction expected generalizing text with
  | nil => rfl
  | cons d others ih =>
      obtain ⟨first, marks⟩ := Bool.and_eq_true_iff.mp marks
      cases text with
      | nil => rfl
      | cons c rest =>
          have same : (d == move.letter c) = (d == c) := by
            rw [BEq.comm, move.beq_letter (caseless_eq (by simpa using first)), BEq.comm]
          rw [Recasing.text_cons, List.isPrefixOf, List.isPrefixOf, same, ih marks]

theorem head?_text {p : Char → Bool} (caseless : Caseless p) (text : Text) :
    (move.text text).head?.map p = text.head?.map p := by
  cases text with
  | nil => rfl
  | cons c rest => exact congrArg some (move.apply_letter caseless c)

/-- A leaf is as long elsewhere as it is here, and a node has its parts moved. -/
theorem applied_input (named : Rule) (before : Input) (inner : Reading) :
    Expr.applied named (move.input before) (move.reading inner) =
      move.tree (Expr.applied named before inner) := by
  obtain ⟨trees, next⟩ := inner
  cases trees with
  | nil =>
      simp only [Expr.applied, reading, List.map_nil, rest_input, Recasing.length_text,
        ← Recasing.text_take]
      rfl
  | cons first others =>
      simp only [Expr.applied, reading, List.map_cons, tree, Tree.map, Tree.mapAll_eq_map]
      rfl

/-- The text bounds the rounds, and it has as many letters elsewhere. -/
theorem repeated_input {step others : Input → Option Reading}
    (h : ∀ input, others (move.input input) = (step input).map move.reading) (bound : Text)
    (input : Input) :
    Expr.repeated others (move.text bound) (move.input input) =
      move.reading (Expr.repeated step bound input) := by
  induction bound generalizing input with
  | nil => rfl
  | cons c rest ih =>
      rw [Recasing.text_cons, Expr.repeated, Expr.repeated, h]
      cases step input with
      | none => rfl
      | some first => simp [ih, reading]

theorem lineBreak_input (atomic : Bool) (input : Input) :
    Expr.lineBreak.read? atomic (move.input input) =
      (Expr.lineBreak.read? atomic input).map move.reading := by
  have feed {c : Char} := move.letter_eq_iff Recasing.caseless_feed (c := c)
  have carriage {c : Char} := move.letter_eq_iff Recasing.caseless_return (c := c)
  obtain ⟨offset, rest⟩ := input
  cases rest with
  | nil => rfl
  | cons c rest =>
      by_cases isFeed : c = '\n'
      · subst isFeed
        simp [Expr.read?, feed.mpr rfl, reading]
      · by_cases isReturn : c = '\r'
        · subst isReturn
          cases rest with
          | nil => simp [Expr.read?, carriage.mpr rfl, reading]
          | cons d rest =>
              by_cases isFeed : d = '\n'
              · subst isFeed
                simp [Expr.read?, feed.mpr rfl, carriage.mpr rfl, reading]
              · simp [Expr.read?, carriage.mpr rfl, feed, isFeed, reading]
        · simp [Expr.read?, feed, carriage, isFeed, isReturn]

/-- What an expression reads here it reads elsewhere. -/
theorem read?_input {e : Expr} (caseless : e.isCaseless = true) (atomic : Bool) (input : Input) :
    e.read? atomic (move.input input) = (e.read? atomic input).map move.reading := by
  induction e generalizing atomic input with
  | exact expected =>
      rw [Expr.read?, Expr.read?, rest_input, isPrefixOf_text _ caseless]
      exact move.ite_drop_input _ _ _
  | anyCase expected =>
      rw [Expr.read?, Expr.read?, rest_input, ← Recasing.text_take, Recasing.sameWord_text_left]
      exact move.ite_drop_input _ _ _
  | anyChar =>
      rw [Expr.read?, Expr.read?, rest_input, Recasing.isEmpty_text, drop_input]
      split
      · rfl
      · rfl
  | digit =>
      rw [Expr.read?, Expr.read?, rest_input, head?_text _ caseless_isDigit]
      exact move.ite_drop_input _ _ _
  | alphanumeric =>
      rw [Expr.read?, Expr.read?, rest_input, head?_text _ caseless_isAlphanum]
      exact move.ite_drop_input _ _ _
  | lineBreak => exact move.lineBreak_input atomic input
  | ending =>
      rw [Expr.read?, Expr.read?, rest_input, Recasing.isEmpty_text]
      split
      · rfl
      · rfl
  | seq first second ihFirst ihSecond =>
      obtain ⟨one, two⟩ := Bool.and_eq_true_iff.mp caseless
      rw [Expr.read?, Expr.read?, ihFirst one]
      cases first.read? atomic input with
      | none => rfl
      | some reading =>
          simp only [Option.map_some, next_reading, skip_input, ihSecond two]
          cases second.read? atomic (reading.next.skip atomic) with
          | none => rfl
          | some others => simp [Transport.reading]
  | alt first second ihFirst ihSecond =>
      obtain ⟨one, two⟩ := Bool.and_eq_true_iff.mp caseless
      rw [Expr.read?, Expr.read?, ihFirst one, ihSecond two]
      cases first.read? atomic input <;> rfl
  | star body ih =>
      rw [Expr.read?, Expr.read?, ih caseless]
      cases body.read? atomic input with
      | none => rfl
      | some one =>
          have rounds : Expr.repeated (fun input => body.read? atomic (input.skip atomic))
              (move.text one.next.rest) (move.input one.next) = move.reading
                (Expr.repeated (fun input => body.read? atomic (input.skip atomic))
                  one.next.rest one.next) :=
            move.repeated_input (fun input => by rw [skip_input, ih caseless]) _ _
          simp only [Option.map_some, next_reading, rest_input, rounds]
          simp [Transport.reading]
  | opt body ih =>
      rw [Expr.read?, Expr.read?, ih caseless]
      cases body.read? atomic input <;> rfl
  | absent body ih =>
      rw [Expr.read?, Expr.read?, ih caseless]
      cases body.read? atomic input <;> rfl
  | rule named isAtomic body ih =>
      rw [Expr.read?, Expr.read?, ih caseless]
      cases body.read? (atomic || isAtomic) input with
      | none => rfl
      | some inner =>
          simp only [Option.map_some, applied_input]
          cases atomic <;> rfl

/-! ### What is attempted -/

/-- Attempts in two places: the same rules, at the same distance. Before the first attempt there is
no offset to move. -/
structure Agrees (here there : Attempts) : Prop where
  expected : there.expected = here.expected
  unexpected : there.unexpected = here.unexpected
  offset : there.offset = here.offset + move.bytes ∨ here = .none ∧ there = .none

namespace Agrees

variable {move} {here there before beyond : Attempts}

theorem none : move.Agrees .none .none := ⟨rfl, rfl, .inr ⟨rfl, rfl⟩⟩

theorem message (h : move.Agrees here there) : there.message = here.message := by
  rw [Attempts.message, Attempts.message, h.expected, h.unexpected]

theorem countAt (h : move.Agrees here there) (offset : Nat) :
    there.countAt (offset + move.bytes) = here.countAt offset := by
  rcases h.offset with moved | ⟨rfl, rfl⟩
  · simp only [Attempts.countAt, moved, h.expected, h.unexpected, Nat.add_right_cancel_iff]
  · rw [Attempts.countAt_none, Attempts.countAt_none]

/-- As many rules are kept when attempts are taken back to an earlier state. -/
theorem kept (h : move.Agrees before beyond) (offset : Nat) (rules : Attempts → List Rule)
    (same : (rules beyond).length = (rules before).length) (empty : rules .none = []) :
    (if beyond.offset = offset + move.bytes then (rules beyond).length else 0) =
      if before.offset = offset then (rules before).length else 0 := by
  rcases h.offset with moved | ⟨rfl, rfl⟩
  · simp only [moved, same, Nat.add_right_cancel_iff]
  · rw [empty, List.length_nil, ite_self, ite_self]

theorem restore (h : move.Agrees here there) (k : move.Agrees before beyond) (offset : Nat) :
    move.Agrees (here.restore offset before) (there.restore (offset + move.bytes) beyond) := by
  rcases h.offset with moved | ⟨rfl, rfl⟩
  · simp only [Attempts.restore, moved, Nat.add_right_cancel_iff]
    split
    · have expected := k.kept offset (·.expected) (by rw [k.expected]) rfl
      have unexpected := k.kept offset (·.unexpected) (by rw [k.unexpected]) rfl
      simp only [expected, unexpected, h.expected, h.unexpected]
      exact ⟨rfl, rfl, .inl rfl⟩
    · exact h
  · rw [Attempts.restore_none, Attempts.restore_none]
    exact none

theorem reach (h : move.Agrees here there) (offset : Nat) :
    move.Agrees (here.reach offset) (there.reach (offset + move.bytes)) ∧
      (there.reach (offset + move.bytes)).offset = (here.reach offset).offset + move.bytes := by
  rcases h.offset with moved | ⟨rfl, rfl⟩
  · simp only [Attempts.reach, moved, Nat.add_lt_add_iff_right]
    split
    · exact ⟨⟨rfl, rfl, .inl rfl⟩, rfl⟩
    · exact ⟨h, moved⟩
  · rw [Attempts.reach_none, Attempts.reach_none]
    exact ⟨⟨rfl, rfl, .inl rfl⟩, rfl⟩

theorem add (h : move.Agrees here there) (offset : Nat) (negated : Bool) (rule : Rule) :
    move.Agrees (here.add offset negated rule) (there.add (offset + move.bytes) negated rule) := by
  obtain ⟨reached, moved⟩ := h.reach offset
  simp only [Attempts.add_eq, moved, Nat.add_right_cancel_iff]
  split
  · unfold Attempts.push
    split
    · exact ⟨reached.expected, congrArg (· ++ [rule]) reached.unexpected, .inl moved⟩
    · exact ⟨congrArg (· ++ [rule]) reached.expected, reached.unexpected, .inl moved⟩
  · exact reached

theorem note (h : move.Agrees here there) (k : move.Agrees before beyond) (offset : Nat)
    (negated : Bool) (rule : Rule) :
    move.Agrees (here.note offset negated rule before)
      (there.note (offset + move.bytes) negated rule beyond) := by
  rw [Attempts.note, Attempts.note, h.countAt, k.countAt]
  split
  · exact h
  · exact (h.restore k offset).add offset negated rule

end Agrees

theorem agrees_repeatedAttempts {step others : Input → Option Input}
    {trace beyond : Input → Attempts → Attempts}
    (steps : ∀ input, others (move.input input) = (step input).map move.input)
    (traces : ∀ input {here there}, move.Agrees here there →
      move.Agrees (trace input here) (beyond (move.input input) there))
    (bound : Text) (input : Input) {here there : Attempts} (h : move.Agrees here there) :
    move.Agrees (Expr.repeatedAttempts step trace bound input here)
      (Expr.repeatedAttempts others beyond (move.text bound) (move.input input) there) := by
  induction bound generalizing input here there with
  | nil => exact traces input h
  | cons c rest ih =>
      rw [Recasing.text_cons, Expr.repeatedAttempts, Expr.repeatedAttempts, steps]
      cases step input with
      | none => exact traces input h
      | some next => exact ih next (traces input h)

/-- What an expression attempts here it attempts elsewhere. -/
theorem agrees_trace {e : Expr} (caseless : e.isCaseless = true) (atomic negated : Bool)
    (input : Input) {here there : Attempts} (h : move.Agrees here there) :
    move.Agrees (e.trace atomic negated input here)
      (e.trace atomic negated (move.input input) there) := by
  induction e generalizing atomic negated input here there with
  | exact | anyCase | anyChar | digit | alphanumeric | lineBreak | ending => exact h
  | seq first second ihFirst ihSecond =>
      obtain ⟨one, two⟩ := Bool.and_eq_true_iff.mp caseless
      have begun := ihFirst one atomic negated input h
      rw [Expr.trace, Expr.trace, move.read?_input one]
      cases first.read? atomic input with
      | none => exact begun
      | some reading =>
          simp only [Option.map_some, next_reading, skip_input]
          exact ihSecond two atomic negated _ begun
  | alt first second ihFirst ihSecond =>
      obtain ⟨one, two⟩ := Bool.and_eq_true_iff.mp caseless
      have begun := ihFirst one atomic negated input h
      rw [Expr.trace, Expr.trace, move.read?_input one]
      cases first.read? atomic input with
      | none => exact ihSecond two atomic negated input begun
      | some reading => exact begun
  | star body ih =>
      refine move.agrees_repeatedAttempts (fun input => ?_)
        (fun input _ _ => ih caseless atomic negated input) input.rest input h
      rw [move.read?_input (e := body) caseless]
      cases body.read? atomic input with
      | none => rfl
      | some one => simp
  | opt body ih => exact ih caseless atomic negated input h
  | absent body ih => exact ih caseless atomic (!negated) input h
  | rule named isAtomic body ih =>
      have inner := ih caseless (atomic || isAtomic) negated input h
      simp only [Expr.trace, move.read?_input (e := body) caseless, Option.isSome_map, offset_input]
      split
      · exact inner.note h input.offset negated named
      · exact inner

end Transport

namespace Reparse

/-- The outcome of reading a division, with other terminals and with the failure elsewhere. -/
def mapOutcome (f : Terminal → Terminal) (bytes : Nat) :
    Except ReparseFailure RuleTree → Except ReparseFailure RuleTree
  | .ok tree => .ok (tree.mapTerminals f)
  | .error failure => .error { failure with offset := failure.offset + bytes }

variable (move : Transport) {here there : Stream} {grammar : GrammarName}
  {projection beyond : Projection} {f : Terminal → Terminal}

/-- Where the terminals of two places correspond, so do the rule trees. -/
theorem ruleTrees_move
    (terminals : ∀ piece, terminal there beyond (move.piece piece) =
      f (terminal here projection piece)) (forest : List GrammarTree) :
    ruleTrees there grammar beyond (forest.map move.tree) =
      (ruleTrees here grammar projection forest).map (RuleTree.mapTerminals f) := by
  induction forest using Tree.forest_induction with
  | nil => rfl
  | leaf piece rest ih =>
      rw [List.map_cons, ruleTrees, ruleTrees, List.map_cons, ih]
      exact congrArg (Tree.leaf · :: _) (terminals piece)
  | node rule parts rest below behind =>
      rw [List.map_cons, ruleTrees, ruleTrees, List.map_cons, behind, Transport.tree, Tree.map,
        Tree.mapAll_eq_map, ruleTree, ruleTree, RuleTree.mapTerminals_bounded]
      exact congrArg (RuleTree.bounded _ · :: _) below

/-- A division that is read alike in two places, from inputs where the same rules are attempted,
has the same outcome. -/
theorem run_move {bytes : Nat} {text other : Text}
    (divisions : division? grammar other = (division? grammar text).map move.tree)
    (attempts : division? grammar text = none →
      move.Agrees (grammar.unit.trace false false ⟨0, text⟩ .none)
        (grammar.unit.trace false false ⟨0, other⟩ .none))
    (terminals : ∀ piece, terminal there beyond (move.piece piece) =
      f (terminal here projection piece))
    (offsets : ∀ first second, move.Agrees first second →
      beyond.offset second.offset = projection.offset first.offset + bytes) :
    run there grammar beyond other = mapOutcome f bytes (run here grammar projection text) := by
  rw [run, run, divisions]
  cases found : division? grammar text with
  | none =>
      have agrees := attempts found
      simp only [Option.map_none, mapOutcome, agrees.message, offsets _ _ agrees]
  | some tree =>
      have same : ruleTree there grammar beyond (move.tree tree) =
          (ruleTree here grammar projection tree).mapTerminals f :=
        (List.cons.inj (ruleTrees_move move terminals [tree])).1
      simp only [Option.map_some, same]
      cases ruleTree here grammar projection tree with
      | leaf terminal =>
          exact congrArg Except.ok (RuleTree.mapTerminals_ofTerminals f _ [terminal]).symm
      | node head children =>
          rw [RuleTree.mapTerminals_node, mapOutcome, RuleTree.mapTerminals_node]

end Reparse

end CobolTree
