import CobolTree.Proofs.Grammar.Reparse
import CobolTree.Proofs.Grammar.Transport

/-!
Reading a division again is translation invariant. Behind its padding a division is read as it is
read alone: it becomes the same rules over the same texts, or it is refused for the same reason, and
ranges and offsets are moved to where the division stands (`Reparse.run_paddingBefore`).

The grammar of a whole division begins at the padding, and the attempts that explain a failure are
counted from there on. What it reads and attempts is decided behind the padding nonetheless
(`Reparse.exists_body`): a rule that fails where another one has been noted adds nothing
(`Attempts.note_of_settled`).
-/

namespace CobolTree

namespace Reparse

/-! ### Behind the first blanks -/

theorem read?_leading (next : Expr) (text : Text) :
    (Expr.seq Grammar.leading next).read? false ⟨0, text⟩ =
      next.read? false (Input.skipFrom false 0 text) := by
  have begins : Grammar.leading.read? false ⟨0, text⟩ = some ⟨[], ⟨0, text⟩⟩ := rfl
  rw [Expr.read?, begins]
  simp only [Input.skip, Bool.false_eq_true, if_false, List.nil_append]
  cases next.read? false (Input.skipFrom false 0 text) with
  | none => rfl
  | some reading => rfl

section Rules

variable {named : Rule} {body : Expr} {input : Input} {attempts : Attempts}

theorem read?_named : (Expr.rule named false body).read? false input =
    (body.read? false input).map fun inner => ⟨[Expr.applied named input inner], inner.next⟩ := by
  rw [Expr.read?, Bool.or_self]
  cases body.read? false input with
  | none => rfl
  | some inner => rfl

/-- A rule that fails is noted where it begins. -/
theorem trace_named (fails : (Expr.rule named false body).read? false input = none) :
    (Expr.rule named false body).trace false false input attempts =
      (body.trace false false input attempts).note input.offset false named attempts := by
  have none : body.read? false input = none := by
    rw [read?_named] at fails
    exact Option.map_eq_none_iff.mp fails
  simp [Expr.trace, none]

/-- Where a division cannot be read up to the end of the input, a rule has been noted: the division,
or the end of the input behind it. -/
theorem settled_trace (consumes : body.consumes = true)
    (fails : (Expr.seq (.rule named false body) Grammar.eoi).read? false input = none) :
    ((Expr.seq (.rule named false body) Grammar.eoi).trace false false input .none).Settled
      input.offset := by
  rw [Expr.trace]
  rw [Expr.read?] at fails
  cases read : (Expr.rule named false body).read? false input with
  | none =>
      rw [trace_named read]
      exact Attempts.settled_note
  | some division =>
      obtain ⟨text, reads⟩ := Expr.exists_reads _ _ _ _ read
      obtain ⟨skipped, skips, -⟩ := division.next.exists_moves_skip false
      have length := Text.length_le_byteLength text
      have some := List.length_pos_iff.mpr (reads.text_ne_nil consumes)
      have farther : input.offset < (division.next.skip false).offset := by
        rw [skips.offset, reads.moves.offset]
        omega
      have last : Grammar.eoi.read? false (division.next.skip false) = none := by
        rw [read] at fails
        simp only at fails
        split at fails
        · assumption
        · cases fails
      simp only [Grammar.eoi] at last ⊢
      rw [trace_named last]
      exact .inr (Nat.lt_of_lt_of_le farther Attempts.le_offset_note)

end Rules

/-- What a grammar reads of a text, and why it fails, is decided behind the first blanks, by the
division and the end of the input. -/
theorem exists_body (grammar : GrammarName) : ∃ body : Expr, body.isCaseless = true ∧ ∀ text,
    division? grammar text = (body.read? false (Input.skipFrom false 0 text)).bind (·.trees.head?) ∧
      (division? grammar text = none →
        grammar.unit.trace false false ⟨0, text⟩ .none =
          body.trace false false (Input.skipFrom false 0 text) .none) := by
  obtain ⟨named, whole, body, unit, division, -⟩ := unit_eq grammar
  have keeps := keeps_division grammar
  rw [division] at unit keeps
  have caseless := grammar.isCaseless_unit
  rw [unit] at caseless
  have consumes : body.consumes = true := (Bool.and_eq_true_iff.mp keeps).1
  refine ⟨.seq (.rule whole false body) Grammar.eoi, caseless, fun text => ?_⟩
  generalize inner : Expr.seq (.rule whole false body) Grammar.eoi = division at unit ⊢
  have reads : (Expr.rule named false (.seq Grammar.leading division)).read? false ⟨0, text⟩ = _ :=
    read?_named
  rw [read?_leading] at reads
  rw [division?, unit, reads]
  cases read : division.read? false (Input.skipFrom false 0 text) with
  | none =>
      refine ⟨rfl, fun _ => ?_⟩
      rw [read] at reads
      rw [trace_named reads]
      subst inner
      exact Attempts.note_of_settled (settled_trace consumes read) (Nat.zero_le _)
  | some reading =>
      subst inner
      obtain ⟨one, two, first, -, rfl⟩ := Expr.read?_seq read
      rw [read?_named] at first
      obtain ⟨inner, -, rfl⟩ := Option.map_eq_some_iff.mp first
      exact ⟨rfl, nofun⟩

/-- Filler in front of a text makes no difference but for its bytes. -/
theorem skipFrom_padding {filler : Text} (h : ∀ c ∈ filler, Input.isFiller c = true) (text : Text) :
    Input.skipFrom false 0 (filler ++ text) =
      Transport.input ⟨.same, filler.byteLength⟩ (Input.skipFrom false 0 text) := by
  rw [Input.skipFrom_append h, ← Transport.skipFrom_text, Recasing.text_same]

end Reparse

/-- The terminal some bytes farther on in a stream, and placed as the stream has it there. -/
def Terminal.moveTo (stream : Stream) (bytes : Nat) (terminal : Terminal) : Terminal :=
  stream.terminal terminal.type terminal.text
    ⟨terminal.range.start + bytes, terminal.range.stop + bytes⟩

namespace Reparse

/-- Behind the padding for an offset of a stream, a text is read as it is read alone. It need not be
the rest of the stream: of what is before it, no more than the offset shows. It becomes the same
rules, over terminals of the same types and texts in the same order, whose ranges are moved by the
offset; or it is refused with the same message, at an offset that is moved as far. -/
theorem run_paddingBefore (stream : Stream) (grammar : GrammarName) (base : Nat) (text : Text) :
    let padding := stream.paddingBefore base
    run stream grammar ⟨padding.byteLength, base⟩ (padding ++ text) =
      mapOutcome (Terminal.moveTo stream base) base (run (.ofText text) grammar ⟨0, 0⟩ text) := by
  intro padding
  have blank : ∀ c ∈ padding, Input.isFiller c = true := fun c => Text.isFiller_of_mem_padding
  obtain ⟨body, caseless, alone⟩ := exists_body grammar
  have skips := skipFrom_padding blank text
  have divisions : division? grammar (padding ++ text) = (division? grammar text).map
      (Transport.tree ⟨.same, padding.byteLength⟩) := by
    rw [(alone _).1, (alone _).1, skips, Transport.read?_input _ caseless]
    cases body.read? false (Input.skipFrom false 0 text) with
    | none => rfl
    | some reading => exact List.head?_map
  refine run_move ⟨.same, padding.byteLength⟩ divisions ?_ ?_ ?_
  · intro fails
    rw [(alone _).2 fails, (alone _).2 (by rw [divisions, fails]; rfl), skips]
    exact Transport.agrees_trace _ caseless false false _ .none
  · intro piece
    rw [terminal, terminal, Terminal.moveTo, Transport.piece, Recasing.text_same]
    have moved (offset : Nat) : Projection.offset ⟨padding.byteLength, base⟩
        (offset + padding.byteLength) = Projection.offset ⟨0, 0⟩ offset + base := by
      simp only [Projection.offset]
      omega
    simp only [Stream.terminal, Projection.range, Nat.add_right_comm _ padding.byteLength, moved]
  · intro first second agrees
    rcases agrees.offset with moved | ⟨rfl, rfl⟩
    · simp only [Projection.offset, moved]
      omega
    · simp [Projection.offset, Attempts.none]

-- padding keeps columns, so it is shorter than the text before the division
example : ((Stream.ofText "é\nDATA DIVISION.".toList).paddingBefore 3).byteLength = 2 := by
  decide +kernel

end Reparse

end CobolTree
