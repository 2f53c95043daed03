import CobolTree.Proofs.Source.Covering

/-!
What a grammar expression reads. Reading takes a text off the front of the input and counts its
bytes (`Input.Moves`), and what is skipped on the way is filler (`isFiller_iff`), with comments that
go on to the end of their line or of the input (`Input.StopsComments`). Two checks on an expression
tell what is in the text: an expression that `consumes` never reads the empty text, and one that
`keeps` puts all it reads into the leaves of its trees, up to filler. `exists_reads` proves the
checks right, by induction on the expression.
-/

namespace CobolTree

namespace Input

/-- The second input is what is left of the first behind a text. -/
structure Moves (input : Input) (text : Text) (next : Input) : Prop where
  rest : input.rest = text ++ next.rest
  offset : next.offset = input.offset + text.byteLength

theorem moves_nil (input : Input) : input.Moves [] input := ⟨rfl, rfl⟩

theorem Moves.trans {input middle last : Input} {s t : Text} (h : input.Moves s middle)
    (k : middle.Moves t last) : input.Moves (s ++ t) last := by
  constructor
  · rw [h.rest, k.rest, List.append_assoc]
  · rw [k.offset, h.offset, Text.byteLength_append, Nat.add_assoc]

theorem Moves.cons {c : Char} {offset : Nat} {rest text : Text} {next : Input}
    (h : Moves ⟨offset + c.utf8Size, rest⟩ text next) :
    Moves ⟨offset, c :: rest⟩ (c :: text) next := by
  constructor
  · exact congrArg (c :: ·) h.rest
  · rw [h.offset, Text.byteLength, Nat.add_assoc]

theorem moves_drop (input : Input) (count : Nat) :
    input.Moves (input.rest.take count) (input.drop count) :=
  ⟨(List.take_append_drop count input.rest).symm, rfl⟩

/-! ### What is skipped -/

/-- Where the first line of the input ends, or the input with it, a comment may stop. -/
def StopsLine (stops : Nat → Prop) (input : Input) : Prop :=
  ∀ body behind, input.rest = body ++ behind → (∀ c ∈ body, Scan.isLineBreak c = false) →
    (∀ c ∈ behind.head?, Scan.isLineBreak c = true) → stops (input.offset + body.byteLength)

/-- Behind every mark of a comment in the input, a comment may stop where the line ends, or the
input with it. -/
def StopsComments (stops : Nat → Prop) (input : Input) : Prop :=
  ∀ before rest, input.rest = before ++ '*' :: '>' :: rest →
    StopsLine stops ⟨input.offset + (before ++ ['*', '>']).byteLength, rest⟩

variable {stops : Nat → Prop}

theorem StopsComments.of_moves {input next : Input} {text : Text}
    (h : input.StopsComments stops) (moves : input.Moves text next) : next.StopsComments stops := by
  intro before rest split
  have line := h (text ++ before) rest (by rw [moves.rest, split, List.append_assoc])
  rwa [List.append_assoc, Text.byteLength_append, ← Nat.add_assoc, ← moves.offset] at line

/-- Whether a text is filler for a reader that may be inside of a comment: then the comment goes on
for a while, up to a place where it may stop. -/
def IsFillerFrom (stops : Nat → Prop) (inComment : Bool) (offset : Nat) (text : Text) : Prop :=
  if inComment then
    ∃ body rest, text = body ++ rest ∧ (∀ c ∈ body, Scan.isLineBreak c = false) ∧
      stops (offset + body.byteLength) ∧ IsFiller stops (offset + body.byteLength) rest
  else IsFiller stops offset text

/-- What a reader may be inside of where it goes on: the comment that is open has to stop, too. -/
def StopsFrom (stops : Nat → Prop) (inComment : Bool) (input : Input) : Prop :=
  input.StopsComments stops ∧ (inComment = true → input.StopsLine stops)

theorem isFillerFrom_nil {inComment : Bool} {input : Input}
    (h : StopsFrom stops inComment input) (ends : input.rest = [] ∨ inComment = false) :
    IsFillerFrom stops inComment input.offset [] := by
  cases inComment with
  | false => exact .nil
  | true =>
      have rest : input.rest = [] := ends.resolve_right Bool.noConfusion
      have stop : stops (input.offset + Text.byteLength []) := h.2 rfl [] [] rest nofun nofun
      exact ⟨[], [], rfl, nofun, stop, .nil⟩

/-- Inside of a comment every character is skipped, and a line break leads out of it. -/
theorem isFillerFrom_comment_cons {c : Char} {offset : Nat} {rest text : Text}
    (h : StopsFrom stops true ⟨offset, c :: rest⟩)
    (filler : IsFillerFrom stops (!Scan.isLineBreak c) (offset + c.utf8Size) text) :
    IsFillerFrom stops true offset (c :: text) := by
  cases breaks : Scan.isLineBreak c with
  | true =>
      rw [breaks] at filler
      have blank : isFiller c = true := by
        simp only [Scan.isLineBreak, Bool.or_eq_true, beq_iff_eq] at breaks
        rcases breaks with rfl | rfl
        · rfl
        · rfl
      have stop : stops (offset + Text.byteLength []) := h.2 rfl [] (c :: rest) rfl nofun (by
        intro d first
        cases first
        exact breaks)
      exact ⟨[], c :: text, rfl, nofun, stop, .blank blank filler⟩
  | false =>
      rw [breaks] at filler
      obtain ⟨body, others, rfl, line, stop, behind⟩ := filler
      rw [Nat.add_assoc] at stop behind
      exact ⟨c :: body, others, rfl, List.forall_mem_cons.mpr ⟨breaks, line⟩, stop, behind⟩

/-- A reader that goes on by a character goes on inside of the comment, unless the line ends. -/
theorem StopsFrom.cons {inComment : Bool} {c : Char} {offset : Nat} {rest : Text}
    (h : StopsFrom stops inComment ⟨offset, c :: rest⟩) :
    StopsFrom stops (inComment && !Scan.isLineBreak c) ⟨offset + c.utf8Size, rest⟩ := by
  have moves : Moves ⟨offset, c :: rest⟩ [c] ⟨offset + c.utf8Size, rest⟩ := (moves_nil _).cons
  refine ⟨h.1.of_moves moves, fun goesOn body behind split line ends => ?_⟩
  obtain ⟨inside, inLine⟩ := Bool.and_eq_true_iff.mp goesOn
  have stop := h.2 inside (c :: body) behind (congrArg (c :: ·) split)
    (List.forall_mem_cons.mpr ⟨by simpa using inLine, line⟩) ends
  rwa [Text.byteLength, ← Nat.add_assoc] at stop

/-- What is skipped is filler. -/
theorem exists_moves_skipFrom (inComment : Bool) (offset : Nat) (text : Text) :
    ∃ skipped, Moves ⟨offset, text⟩ skipped (skipFrom inComment offset text) ∧
      ∀ stops, StopsFrom stops inComment ⟨offset, text⟩ →
        IsFillerFrom stops inComment offset skipped := by
  fun_induction skipFrom inComment offset text with
  | case1 inComment offset =>
      exact ⟨[], moves_nil _, fun stops ends => isFillerFrom_nil ends (.inl rfl)⟩
  | case2 inComment offset c skips =>
      refine ⟨[c], (moves_nil _).cons, fun stops ends => ?_⟩
      cases inComment with
      | true => exact isFillerFrom_comment_cons ends (isFillerFrom_nil ends.cons (.inl rfl))
      | false => exact .blank skips .nil
  | case3 inComment offset c halts =>
      have outside : inComment = false := by
        cases inComment with
        | true => exact absurd rfl halts
        | false => rfl
      exact ⟨[], moves_nil _, fun stops ends => isFillerFrom_nil ends (.inr outside)⟩
  | case4 offset c d rest ih =>
      obtain ⟨skipped, moves, filler⟩ := ih
      exact ⟨c :: skipped, moves.cons, fun stops ends =>
        isFillerFrom_comment_cons ends (filler stops ends.cons)⟩
  | case5 inComment offset c d rest outside blank ih =>
      obtain ⟨skipped, moves, others⟩ := ih
      obtain rfl : inComment = false := by simpa using outside
      exact ⟨c :: skipped, moves.cons, fun stops ends => .blank blank (others stops ends.cons)⟩
  | case6 inComment offset c d rest outside solid opens ih =>
      obtain ⟨skipped, moves, filler⟩ := ih
      simp only [Bool.and_eq_true, beq_iff_eq] at opens
      obtain ⟨rfl, rfl⟩ := opens
      obtain rfl : inComment = false := by simpa using outside
      refine ⟨'*' :: '>' :: skipped, Moves.cons (Moves.cons moves), fun stops ends => ?_⟩
      have opened : StopsFrom stops true ⟨offset + '*'.utf8Size + '>'.utf8Size, rest⟩ :=
        ⟨ends.cons.cons.1, fun _ => ends.1 [] rest rfl⟩
      obtain ⟨body, others, rfl, line, stop, behind⟩ := filler stops opened
      have size : offset + 2 + body.byteLength =
          offset + Text.byteLength ('*' :: '>' :: body) := by
        have star : '*'.utf8Size = 1 := rfl
        have angle : '>'.utf8Size = 1 := rfl
        simp only [Text.byteLength, star, angle]
        omega
      rw [size] at stop behind
      exact .comment line stop behind
  | case7 inComment offset c d rest outside _ _ =>
      exact ⟨[], moves_nil _, fun stops ends =>
        isFillerFrom_nil ends (.inr (by simpa using outside))⟩

theorem skipFrom_comment_cons (c : Char) (offset : Nat) (rest : Text) :
    skipFrom true offset (c :: rest) =
      skipFrom (!Scan.isLineBreak c) (offset + c.utf8Size) rest := by
  cases rest with
  | nil => simp [skipFrom]
  | cons d behind => rw [skipFrom, if_pos rfl, Scan.isLineBreak]

theorem skipFrom_blank_cons {c : Char} (filler : isFiller c = true) (offset : Nat) (rest : Text) :
    skipFrom false offset (c :: rest) = skipFrom false (offset + c.utf8Size) rest := by
  cases rest with
  | nil => simp [skipFrom, filler]
  | cons d behind => rw [skipFrom, if_neg Bool.false_ne_true, if_pos filler]

/-- Filler is skipped to its end, from within a comment too. -/
theorem rest_skipFrom_of_isFiller {start : Nat} {text : Text} (h : IsFiller stops start text)
    (inComment : Bool) (offset : Nat) : (skipFrom inComment offset text).rest = [] := by
  induction h generalizing inComment offset with
  | nil => rw [skipFrom]
  | blank filler _ ih =>
      cases inComment with
      | true =>
          rw [skipFrom_comment_cons]
          exact ih _ _
      | false =>
          rw [skipFrom_blank_cons filler]
          exact ih _ _
  | @comment _ body rest inLine ends behind ih =>
      clear ends behind
      have line (offset : Nat) : (skipFrom true offset (body ++ rest)).rest = [] := by
        induction body generalizing offset with
        | nil => exact ih true offset
        | cons c others ihBody =>
            obtain ⟨first, behind⟩ := List.forall_mem_cons.mp inLine
            rw [List.cons_append, skipFrom_comment_cons, first, Bool.not_false]
            exact ihBody behind _
      cases inComment with
      | true =>
          have star : Scan.isLineBreak '*' = false := by decide
          have angle : Scan.isLineBreak '>' = false := by decide
          rw [skipFrom_comment_cons, star, Bool.not_false, skipFrom_comment_cons, angle,
            Bool.not_false]
          exact line _
      | false =>
          rw [skipFrom, if_neg Bool.false_ne_true, if_neg (by decide), if_pos (by decide)]
          exact line _

/-- Filler is what the grammars skip. -/
theorem isFiller_iff {offset : Nat} {text : Text} (ends : StopsComments stops ⟨offset, text⟩) :
    IsFiller stops offset text ↔ (skipFrom false offset text).rest = [] := by
  constructor
  · intro h
    exact rest_skipFrom_of_isFiller h false offset
  · intro none
    obtain ⟨skipped, moves, filler⟩ := exists_moves_skipFrom false offset text
    have all : text = skipped ++ (skipFrom false offset text).rest := moves.rest
    rw [all, none, List.append_nil]
    exact filler stops ⟨ends, nofun⟩

theorem exists_moves_skip (atomic : Bool) (input : Input) :
    ∃ skipped, input.Moves skipped (input.skip atomic) ∧
      ∀ stops, input.StopsComments stops → IsFiller stops input.offset skipped := by
  unfold skip
  split
  · exact ⟨[], moves_nil input, fun _ _ => .nil⟩
  · obtain ⟨skipped, moves, filler⟩ := exists_moves_skipFrom false input.offset input.rest
    exact ⟨skipped, moves, fun stops ends => filler stops ⟨ends, nofun⟩⟩

end Input

/-- The piece has the text and begins at the offset. -/
def Piece.StandsFor (piece : Piece) (start : Nat) (text : Text) : Prop :=
  piece.start = start ∧ piece.text = text

namespace Expr

/-! ### Sequences and rules -/

theorem read?_seq {atomic : Bool} {first second : Expr} {input : Input} {reading : Reading}
    (h : (seq first second).read? atomic input = some reading) : ∃ one two,
      first.read? atomic input = some one ∧
        second.read? atomic (one.next.skip atomic) = some two ∧
          reading = ⟨one.trees ++ two.trees, two.next⟩ := by
  rw [read?] at h
  split at h
  · cases h
  · rename_i one readFirst
    split at h
    · cases h
    · rename_i two readSecond
      cases h
      exact ⟨one, two, readFirst, readSecond, rfl⟩

theorem read?_opt {body : Expr} {atomic : Bool} {input : Input} {reading : Reading}
    (h : (opt body).read? atomic input = some reading) :
    body.read? atomic input = some reading ∨
      body.read? atomic input = none ∧ reading = ⟨[], input⟩ := by
  rw [read?] at h
  split at h
  · rename_i one found
    exact .inl (found.trans h)
  · rename_i none
    exact .inr ⟨none, (Option.some.inj h).symm⟩

theorem read?_alt {first second : Expr} {atomic : Bool} {input : Input} {reading : Reading}
    (h : (alt first second).read? atomic input = some reading) :
    first.read? atomic input = some reading ∨ second.read? atomic input = some reading := by
  rw [read?] at h
  split at h
  · rename_i one found
    exact .inl (found.trans h)
  · exact .inr h

theorem read?_rule {atomic isAtomic : Bool} {named : Rule} {body : Expr} {input : Input}
    {reading : Reading} (h : (rule named isAtomic body).read? atomic input = some reading) :
    ∃ inner, body.read? (atomic || isAtomic) input = some inner ∧
      reading = ⟨if atomic then [] else [applied named input inner], inner.next⟩ := by
  rw [read?] at h
  split at h
  · cases h
  · rename_i inner read
    cases h
    exact ⟨inner, read, rfl⟩

theorem applied_of_trees {named : Rule} {before : Input} {inner : Reading}
    (parts : inner.trees ≠ []) : applied named before inner = .node named inner.trees := by
  unfold applied
  split
  · rename_i none
    exact absurd none parts
  · rfl

/-! ### Checks on expressions -/

/-- No text that the expression reads is empty. -/
def consumes : Expr → Bool
  | exact expected => !expected.isEmpty
  | anyCase expected => !expected.isEmpty
  | anyChar => true
  | digit => true
  | alphanumeric => true
  | lineBreak => true
  | ending => false
  | seq first second => first.consumes || second.consumes
  | alt first second => first.consumes && second.consumes
  | star _ => false
  | opt _ => false
  | absent _ => false
  | rule _ _ body => body.consumes

/-- What the expression reads is in the leaves of its trees, up to filler. -/
def keeps : Expr → Bool
  | exact expected => expected.isEmpty
  | anyCase _ => false
  | anyChar => false
  | digit => false
  | alphanumeric => false
  | lineBreak => false
  | ending => true
  | seq first second => first.keeps && second.keeps
  | alt first second => first.keeps && second.keeps
  | star body => body.keeps
  | opt body => body.keeps
  | absent _ => true
  | rule _ isAtomic body => body.consumes && (isAtomic || body.keeps)

/-- What an expression has read: a text off the front of the input, and trees. An atomic reading
has no trees, and the checks tell what is in the text. -/
structure Reads (e : Expr) (atomic : Bool) (input : Input) (text : Text) (reading : Reading) :
    Prop where
  moves : input.Moves text reading.next
  trees : atomic = true → reading.trees = []
  text_ne_nil : e.consumes = true → text ≠ []
  covers : e.keeps = true → atomic = false → ∀ stops, input.StopsComments stops →
    Covers stops Piece.StandsFor input.offset text (Tree.leavesOf reading.trees)

namespace Reads

variable {atomic : Bool} {input : Input} {e : Expr}

/-- Some characters are read, by an expression that keeps none. -/
theorem drop {count : Nat} (some : e.consumes = true → input.rest.take count ≠ [])
    (none : e.keeps = true → input.rest.take count = []) :
    Reads e atomic input (input.rest.take count) ⟨[], input.drop count⟩ where
  moves := input.moves_drop count
  trees _ := rfl
  text_ne_nil := some
  covers keeps _ _ _ := by
    rw [none keeps]
    exact .gap .nil

/-- One character or more are read off an input that has one. -/
theorem drop_succ (left : input.rest ≠ []) (none : e.keeps = false) (count : Nat) :
    Reads e atomic input (input.rest.take (count + 1)) ⟨[], input.drop (count + 1)⟩ := by
  refine .drop ?_ ?_
  · intro _
    simpa using left
  · intro keeps
    rw [none] at keeps
    cases keeps

/-- Nothing is read. -/
theorem still (empty : e.consumes = false) : Reads e atomic input [] ⟨[], input⟩ where
  moves := input.moves_nil
  trees _ := rfl
  text_ne_nil some := absurd some (by simp [empty])
  covers _ _ _ _ := .gap .nil

/-- A reading of one expression is a reading of another that promises no more. -/
theorem of_imp {other : Expr} {text : Text} {reading : Reading}
    (h : Reads e atomic input text reading) (some : other.consumes = true → e.consumes = true)
    (kept : other.keeps = true → e.keeps = true) : Reads other atomic input text reading where
  moves := h.moves
  trees := h.trees
  text_ne_nil consumes := h.text_ne_nil (some consumes)
  covers keeps := h.covers (kept keeps)

/-- One expression is read, something is skipped, and another expression is read. -/
theorem seq {first second : Expr} {s skipped t : Text} {one two : Reading} {middle : Input}
    (h : Reads first atomic input s one) (skips : one.next.Moves skipped middle)
    (filler : ∀ stops, one.next.StopsComments stops → IsFiller stops one.next.offset skipped)
    (k : Reads second atomic middle t two) :
    Reads (.seq first second) atomic input (s ++ (skipped ++ t))
      ⟨one.trees ++ two.trees, two.next⟩ where
  moves := h.moves.trans (skips.trans k.moves)
  trees isAtomic := by rw [h.trees isAtomic, k.trees isAtomic, List.append_nil]
  text_ne_nil consumes := by
    rcases Bool.or_eq_true_iff.mp consumes with left | right
    · exact List.append_ne_nil_of_left_ne_nil (h.text_ne_nil left) _
    · exact List.append_ne_nil_of_right_ne_nil _
        (List.append_ne_nil_of_right_ne_nil _ (k.text_ne_nil right))
  covers keeps isNot stops ends := by
    obtain ⟨left, right⟩ := Bool.and_eq_true_iff.mp keeps
    have endsBehind := ends.of_moves h.moves
    have others := k.covers right isNot stops (endsBehind.of_moves skips)
    rw [skips.offset] at others
    have behind := others.behind (filler stops endsBehind)
    rw [h.moves.offset] at behind
    rw [Tree.leavesOf_append]
    exact (h.covers left isNot stops ends).append behind

/-- A rule is read when its body is; it has the trees of its body below it, or is a leaf. -/
theorem rule {named : Rule} {isAtomic : Bool} {body : Expr} {text : Text} {inner : Reading}
    (h : Reads body (atomic || isAtomic) input text inner) :
    Reads (.rule named isAtomic body) atomic input text
      ⟨if atomic then [] else [applied named input inner], inner.next⟩ where
  moves := h.moves
  trees isAtomic := if_pos isAtomic
  text_ne_nil consumes := h.text_ne_nil consumes
  covers keeps isNot stops ends := by
    obtain ⟨some, kept⟩ := Bool.and_eq_true_iff.mp keeps
    have apart : Tree.leavesOf [applied named input inner] = (applied named input inner).leaves :=
      List.append_nil _
    rw [if_neg (by simp [isNot]), apart]
    unfold applied
    split
    · have size : input.rest.length - inner.next.rest.length = text.length := by
        rw [h.moves.rest, List.length_append]
        omega
      have piece : input.rest.take text.length = text := by
        rw [h.moves.rest, List.take_left]
      simp only [size, piece, Tree.leaves]
      exact .single (h.text_ne_nil some) ⟨rfl, rfl⟩
    · rename_i parts
      -- a rule above trees is not atomic, so its body keeps what it reads
      have inside : ¬(atomic || isAtomic) = true := fun is => parts (h.trees is)
      have nonAtomic : (atomic || isAtomic) = false := by simpa using inside
      have body : body.keeps = true := by
        rcases Bool.or_eq_true_iff.mp kept with is | keeps
        · exact absurd (by simp [is]) inside
        · exact keeps
      exact h.covers body nonAtomic stops ends

end Reads

/-! ### Readings, by the form of the expression -/

section

variable {atomic : Bool} {input : Input} {reading : Reading}

theorem exists_reads_exact {expected : Text}
    (h : (exact expected).read? atomic input = some reading) :
    ∃ text, Reads (.exact expected) atomic input text reading := by
  rw [read?] at h
  split at h
  · rename_i found
    cases h
    obtain ⟨rest, split⟩ := List.isPrefixOf_iff_prefix.mp found
    have read : input.rest.take expected.length = expected := by rw [← split, List.take_left]
    refine ⟨_, .drop ?_ ?_⟩
    · intro consumes
      rw [read]
      simpa [Expr.consumes] using consumes
    · intro keeps
      rw [read]
      simpa [Expr.keeps] using keeps
  · cases h

theorem exists_reads_anyCase {expected : Text}
    (h : (anyCase expected).read? atomic input = some reading) :
    ∃ text, Reads (.anyCase expected) atomic input text reading := by
  rw [read?] at h
  split at h
  · rename_i found
    cases h
    refine ⟨_, .drop ?_ nofun⟩
    intro consumes empty
    rw [empty] at found
    have same : Text.upper [] = Text.upper expected := by simpa [Text.sameWord] using found
    have none : expected = [] := List.map_eq_nil_iff.mp same.symm
    simp [Expr.consumes, none] at consumes
  · cases h

theorem exists_reads_lineBreak (h : lineBreak.read? atomic input = some reading) :
    ∃ text, Reads .lineBreak atomic input text reading := by
  rw [read?] at h
  split at h
  · rename_i rest
    cases h
    exact ⟨_, .drop_succ (by simp [rest]) rfl 0⟩
  · rename_i rest
    cases h
    exact ⟨_, .drop_succ (by simp [rest]) rfl 1⟩
  · rename_i rest
    cases h
    exact ⟨_, .drop_succ (by simp [rest]) rfl 0⟩
  · cases h

end

/-- Rounds read a text, if every step does. -/
theorem exists_reads_repeated {atomic : Bool} {body : Expr}
    (each : ∀ input reading, body.read? atomic input = some reading →
      ∃ text, Reads body atomic input text reading) (bound : Text) (input : Input) :
    ∃ text, Reads (.star body) atomic input text
      (repeated (fun input => body.read? atomic (input.skip atomic)) bound input) := by
  induction bound generalizing input with
  | nil => exact ⟨[], .still rfl⟩
  | cons c bound ih =>
      rw [repeated]
      split
      · exact ⟨[], .still rfl⟩
      · rename_i first read
        obtain ⟨skipped, skips, filler⟩ := input.exists_moves_skip atomic
        obtain ⟨s, one⟩ := each _ first read
        obtain ⟨t, others⟩ := ih first.next
        dsimp only
        refine ⟨skipped ++ (s ++ t), skips.trans (one.moves.trans others.moves), ?_, nofun, ?_⟩
        · intro isAtomic
          rw [one.trees isAtomic, others.trees isAtomic, List.append_nil]
        · intro keeps isNot stops ends
          have endsHere := ends.of_moves skips
          have behind := others.covers keeps isNot stops (endsHere.of_moves one.moves)
          rw [one.moves.offset] at behind
          rw [Tree.leavesOf_append]
          have here := (one.covers keeps isNot stops endsHere).append behind
          rw [skips.offset] at here
          exact here.behind (filler stops ends)

/-- Whatever an expression reads, it takes off the front of the input, and the checks tell what
is in it. -/
theorem exists_reads (e : Expr) (atomic : Bool) (input : Input) (reading : Reading)
    (h : e.read? atomic input = some reading) : ∃ text, Reads e atomic input text reading := by
  induction e generalizing atomic input reading with
  | exact expected => exact exists_reads_exact h
  | anyCase expected => exact exists_reads_anyCase h
  | anyChar =>
      rw [read?] at h
      split at h
      · cases h
      · rename_i left
        cases h
        exact ⟨_, .drop_succ (by simpa using left) rfl 0⟩
  | digit | alphanumeric =>
      rw [read?] at h
      split at h
      · rename_i found
        cases h
        have left : input.rest ≠ [] := by
          intro none
          simp [none] at found
        exact ⟨_, .drop_succ left rfl 0⟩
      · cases h
  | lineBreak => exact exists_reads_lineBreak h
  | ending =>
      rw [read?] at h
      split at h
      · cases h
        exact ⟨[], .still rfl⟩
      · cases h
  | seq first second ihFirst ihSecond =>
      obtain ⟨one, two, readFirst, readSecond, rfl⟩ := read?_seq h
      obtain ⟨s, left⟩ := ihFirst _ _ _ readFirst
      obtain ⟨skipped, skips, filler⟩ := one.next.exists_moves_skip atomic
      obtain ⟨t, right⟩ := ihSecond _ _ _ readSecond
      exact ⟨_, left.seq skips filler right⟩
  | alt first second ihFirst ihSecond =>
      rw [read?] at h
      split at h
      · rename_i one readFirst
        cases h
        obtain ⟨s, left⟩ := ihFirst _ _ _ readFirst
        exact ⟨s, left.of_imp (fun both => (Bool.and_eq_true_iff.mp both).1)
          fun both => (Bool.and_eq_true_iff.mp both).1⟩
      · obtain ⟨t, right⟩ := ihSecond _ _ _ h
        exact ⟨t, right.of_imp (fun both => (Bool.and_eq_true_iff.mp both).2)
          fun both => (Bool.and_eq_true_iff.mp both).2⟩
  | star body ih =>
      rw [read?] at h
      split at h
      · cases h
        exact ⟨[], .still rfl⟩
      · rename_i one readOne
        cases h
        obtain ⟨s, first⟩ := ih _ _ _ readOne
        obtain ⟨t, others⟩ := exists_reads_repeated (ih atomic) one.next.rest one.next
        exact ⟨_, (first.seq one.next.moves_nil (fun _ _ => .nil) others).of_imp nofun fun keeps =>
          Bool.and_eq_true_iff.mpr ⟨keeps, keeps⟩⟩
  | opt body ih =>
      rw [read?] at h
      split at h
      · rename_i one readOne
        cases h
        obtain ⟨s, first⟩ := ih _ _ _ readOne
        exact ⟨s, first.of_imp nofun id⟩
      · cases h
        exact ⟨[], .still rfl⟩
  | absent body ih =>
      rw [read?] at h
      split at h
      · cases h
      · cases h
        exact ⟨[], .still rfl⟩
  | rule named isAtomic body ih =>
      obtain ⟨inner, readInner, rfl⟩ := read?_rule h
      obtain ⟨s, body⟩ := ih _ _ _ readInner
      exact ⟨s, body.rule⟩

end Expr

end CobolTree
