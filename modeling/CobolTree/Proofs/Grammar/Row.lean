import CobolTree.Proofs.Grammar.Atomic
import CobolTree.Proofs.Grammar.Reparse

/-!
The leaves of a reading, one after another. Outside of its atomic rules a grammar reads no
character, so what it makes of a text is a row of atomic readings with filler between them: `Row`.
The trees above the leaves only say how the row is bracketed (`exists_row`); for a division, the row
goes on to the end of the text (`row_of_read?`).
-/

namespace CobolTree

/-! ### Settled inputs -/

namespace Input

/-- Behind filler there is no more of it. -/
theorem skip_skipFrom (inComment : Bool) (offset : Nat) (text : Text) :
    (skipFrom inComment offset text).skip false = skipFrom inComment offset text := by
  fun_induction skipFrom inComment offset text with
  | case1 => rfl
  | case2 => rfl
  | case3 inComment offset c solid =>
      have outside : isFiller c = false := (Bool.or_eq_false_iff.mp (Bool.eq_false_iff.mpr solid)).2
      show skipFrom false offset [c] = _
      simp [skipFrom, outside]
  | case4 offset c d rest ih => exact ih
  | case5 inComment offset c d rest outside filler ih => exact ih
  | case6 inComment offset c d rest outside solid mark ih => exact ih
  | case7 inComment offset c d rest outside solid unmarked =>
      show skipFrom false offset (c :: d :: rest) = _
      rw [skipFrom, if_neg Bool.false_ne_true, if_neg solid, if_neg unmarked]

theorem skip_skip (input : Input) : (input.skip false).skip false = input.skip false :=
  skip_skipFrom false input.offset input.rest

end Input

/-- Leaves that some rules read one after another between two inputs, with filler around them. -/
inductive Row (rules : List Expr) : Input → List Piece → Input → Prop
  | still {input next : Input} : input.skip false = next.skip false → Row rules input [] next
  | piece {input last : Input} {named : Rule} {body : Expr} {size : Nat} {pieces : List Piece} :
      .rule named true body ∈ rules → body.length? (input.skip false).rest = some size →
        Row rules ((input.skip false).drop size) pieces last →
          Row rules input
            (⟨named, (input.skip false).rest.take size, (input.skip false).offset⟩ :: pieces) last

namespace Row

variable {rules others : List Expr} {input middle last : Input} {pieces more : List Piece}

/-- Filler in front of a row makes no difference. -/
theorem of_skip (row : Row rules input pieces last) {before : Input}
    (same : before.skip false = input.skip false) : Row rules before pieces last := by
  cases row with
  | still ends => exact .still (same.trans ends)
  | piece mem read behind =>
      rw [← same] at read behind ⊢
      exact .piece mem read behind

theorem append (first : Row rules input pieces middle) (second : Row rules middle more last) :
    Row rules input (pieces ++ more) last := by
  induction first with
  | still same => exact second.of_skip same
  | piece mem read _ ih => exact .piece mem read (ih second)

theorem mono (row : Row rules input pieces last) (within : ∀ e ∈ rules, e ∈ others) :
    Row others input pieces last := by
  induction row with
  | still same => exact .still same
  | piece mem read _ ih => exact .piece (within _ mem) read ih

end Row

namespace Expr

/-- The atomic rules that an expression reads by. -/
def leafRules : Expr → List Expr
  | seq first second => first.leafRules ++ second.leafRules
  | alt first second => first.leafRules ++ second.leafRules
  | star body => body.leafRules
  | opt body => body.leafRules
  | rule named isAtomic body => if isAtomic then [rule named isAtomic body] else body.leafRules
  | _ => []

/-- Whatever the expression reads, a rule was applied. -/
def bears : Expr → Bool
  | seq first second => first.bears || second.bears
  | alt first second => first.bears && second.bears
  | rule _ _ _ => true
  | _ => false

/-- All characters are read by atomic rules, and each other rule has parts. -/
def leavesOnly : Expr → Bool
  | exact expected => expected.isEmpty
  | ending => true
  | seq first second => first.leavesOnly && second.leavesOnly
  | alt first second => first.leavesOnly && second.leavesOnly
  | star body => body.leavesOnly
  | opt body => body.leavesOnly
  | absent _ => true
  | rule _ isAtomic body => isAtomic || body.leavesOnly && body.bears
  | _ => false

theorem trees_ne_nil_of_bears {e : Expr} (h : e.bears = true) {input : Input} {reading : Reading}
    (read : e.read? false input = some reading) : reading.trees ≠ [] := by
  induction e generalizing input reading with
  | seq first second ihFirst ihSecond =>
      obtain ⟨one, two, readFirst, readSecond, rfl⟩ := read?_seq read
      rcases Bool.or_eq_true_iff.mp h with first | second
      · exact List.append_ne_nil_of_left_ne_nil (ihFirst first readFirst) _
      · exact List.append_ne_nil_of_right_ne_nil _ (ihSecond second readSecond)
  | alt first second ihFirst ihSecond =>
      obtain ⟨one, two⟩ := Bool.and_eq_true_iff.mp h
      rw [read?] at read
      split at read
      · rename_i found readFirst
        cases read
        exact ihFirst one readFirst
      · exact ihSecond two read
  | rule named isAtomic body =>
      obtain ⟨inner, -, rfl⟩ := read?_rule read
      exact List.cons_ne_nil _ _
  | exact | anyCase | anyChar | digit | alphanumeric | lineBreak | ending | star | opt | absent =>
      cases h

/-- Rounds of a row are a row. -/
theorem row_repeated {rules : List Expr} {body : Expr}
    (each : ∀ input reading, body.read? false (input.skip false) = some reading →
      Row rules input (Tree.leavesOf reading.trees) reading.next) (bound : Text) (input : Input) :
    Row rules input
      (Tree.leavesOf
        (repeated (fun input => body.read? false (input.skip false)) bound input).trees)
      (repeated (fun input => body.read? false (input.skip false)) bound input).next := by
  induction bound generalizing input with
  | nil => exact .still rfl
  | cons c bound ih =>
      rw [repeated]
      cases read : body.read? false (input.skip false) with
      | none => exact .still rfl
      | some first =>
          simp only [Tree.leavesOf_append]
          exact (each input first read).append (ih first.next)

/-- Where a grammar reads at a settled input, its leaves are a row. -/
theorem exists_row {e : Expr} (h : e.leavesOnly = true) {input : Input} {reading : Reading}
    (settled : input.skip false = input) (read : e.read? false input = some reading) :
    Row e.leafRules input (Tree.leavesOf reading.trees) reading.next := by
  induction e generalizing input reading with
  | exact expected =>
      have empty : expected = [] := List.isEmpty_iff.mp h
      subst empty
      cases read
      exact .still rfl
  | ending =>
      rw [read?] at read
      split at read <;> cases read
      exact .still rfl
  | seq first second ihFirst ihSecond =>
      obtain ⟨one, two⟩ := Bool.and_eq_true_iff.mp h
      obtain ⟨before, behind, readFirst, readSecond, rfl⟩ := read?_seq read
      rw [Tree.leavesOf_append]
      have left := (ihFirst one settled readFirst).mono fun e mem =>
        List.mem_append_left second.leafRules mem
      have right := (ihSecond two (Input.skip_skip _) readSecond).mono fun e mem =>
        List.mem_append_right first.leafRules mem
      exact left.append (right.of_skip (Input.skip_skip _).symm)
  | alt first second ihFirst ihSecond =>
      obtain ⟨one, two⟩ := Bool.and_eq_true_iff.mp h
      rw [read?] at read
      split at read
      · rename_i found readFirst
        cases read
        exact (ihFirst one settled readFirst).mono fun e mem => List.mem_append_left _ mem
      · exact (ihSecond two settled read).mono fun e mem => List.mem_append_right _ mem
  | star body ih =>
      have each (input : Input) (reading : Reading)
          (read : body.read? false (input.skip false) = some reading) :
          Row body.leafRules input (Tree.leavesOf reading.trees) reading.next :=
        (ih h (Input.skip_skip input) read).of_skip (Input.skip_skip input).symm
      rw [read?] at read
      split at read
      · cases read
        exact .still rfl
      · rename_i one readFirst
        cases read
        rw [Tree.leavesOf_append]
        rw [← settled] at readFirst
        exact (each input one readFirst).append (row_repeated each _ one.next)
  | opt body ih =>
      rw [read?] at read
      split at read
      · rename_i found readBody
        cases read
        exact ih h settled readBody
      · cases read
        exact .still rfl
  | absent body =>
      rw [read?] at read
      split at read <;> cases read
      exact .still rfl
  | rule named isAtomic body ih =>
      cases isAtomic with
      | true =>
          rw [read?_atomicRule] at read
          obtain ⟨size, length, rfl⟩ := Option.map_eq_some_iff.mp read
          have row : Row [rule named true body] input
              [⟨named, (input.skip false).rest.take size, (input.skip false).offset⟩]
              ((input.skip false).drop size) :=
            .piece List.mem_cons_self (by rwa [settled]) (.still rfl)
          rw [settled] at row
          exact row
      | false =>
          obtain ⟨parts, some⟩ := Bool.and_eq_true_iff.mp h
          obtain ⟨inner, readBody, rfl⟩ := read?_rule read
          have row := ih parts settled readBody
          have left := trees_ne_nil_of_bears some readBody
          simpa [applied_of_trees left, leafRules, Tree.leavesOf, Tree.leaves] using row
  | anyCase | anyChar | digit | alphanumeric | lineBreak => cases h

end Expr

/-- What an expression that consumes reads is at least one character. -/
theorem Expr.pos_of_consumes {e : Expr} (consumes : e.consumes = true) {text : Text} {size : Nat}
    (read : e.length? text = some size) : 0 < size := by
  have atomic := read?_atomic e ⟨0, text⟩
  rw [read] at atomic
  obtain ⟨front, reads⟩ := exists_reads e true ⟨0, text⟩ _ atomic
  have split : text = front ++ text.drop size := reads.moves.rest
  have some := List.length_pos_iff.mpr (reads.text_ne_nil consumes)
  have length := congrArg List.length split
  rw [List.length_append, List.length_drop] at length
  omega

/-! ### Order of a row -/

/-- The bytes that a piece takes. -/
def Piece.range (piece : Piece) : Range := Range.ofText piece.start piece.text

theorem Input.le_skip (input : Input) : input.offset ≤ (input.skip false).offset := by
  obtain ⟨skipped, moves, -⟩ := input.exists_moves_skip false
  rw [moves.offset]
  exact Nat.le_add_right _ _

theorem Row.le_start {rules : List Expr} {input last : Input} {pieces : List Piece}
    (row : Row rules input pieces last) :
    ∀ piece ∈ pieces, (input.skip false).offset ≤ piece.start := by
  induction row with
  | still => nofun
  | @piece input last named body size pieces _ _ _ ih =>
      refine List.forall_mem_cons.mpr ⟨Nat.le_refl _, fun piece mem => ?_⟩
      have middle := Input.le_skip ((input.skip false).drop size)
      have behind := ih piece mem
      simp only [Input.drop] at middle behind
      omega

theorem Row.stop_le {rules : List Expr} {input last : Input} {pieces : List Piece} {size : Nat}
    (behind : Row rules (input.drop size) pieces last) :
    ∀ piece ∈ pieces, input.offset + Text.byteLength (input.rest.take size) ≤ piece.start :=
  fun piece mem => Nat.le_trans (Input.le_skip (input.drop size)) (behind.le_start piece mem)

/-- Where each rule consumes, one piece begins behind another. -/
theorem Row.ascending {rules : List Expr} {input last : Input} {pieces : List Piece}
    (row : Row rules input pieces last) (consumes : ∀ e ∈ rules, e.consumes = true) :
    pieces.Pairwise fun first second => first.start < second.start := by
  induction row with
  | still => exact .nil
  | @piece input last named body size pieces mem read behind ih =>
      refine List.pairwise_cons.mpr ⟨fun piece later => ?_, ih⟩
      have some : body.consumes = true := consumes (.rule named true body) mem
      have pos := Expr.pos_of_consumes some read
      have least := behind.stop_le piece later
      have width := Text.length_le_byteLength ((input.skip false).rest.take size)
      have fits := Expr.fits_length? body _ size read
      rw [List.length_take, Nat.min_eq_left fits] at width
      simp only
      omega

namespace Reparse

theorem leavesOnly_division (grammar : GrammarName) : grammar.division.leavesOnly = true := by
  cases grammar <;> rfl

/-- The leaves of a division tree are a row through the text of the division. -/
theorem row_of_read? {grammar : GrammarName} {input last : Input} {tree : GrammarTree}
    (read : grammar.division.read? false (input.skip false) = some ⟨[tree], last⟩) :
    Row grammar.division.leafRules input tree.leaves last := by
  have row := Expr.exists_row (leavesOnly_division grammar) input.skip_skip read
  rw [show Tree.leavesOf [tree] = tree.leaves from List.append_nil _] at row
  exact row.of_skip input.skip_skip.symm

end Reparse

end CobolTree
