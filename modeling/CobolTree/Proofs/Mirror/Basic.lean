import CobolTree.Proofs.Mirror.Operands
import Mathlib.Data.List.Forall2

/-!
Productions on a text inside another one. What a production makes of the text it makes of the whole:
the same trees, tokens and problems, each as the whole has it (`Placement.Alike`). That takes a look
ahead that stays in the text, so a mirror is a statement that goes backwards
(`Placement.Mirrored`): if the text foresees where the production ends, it foresees where the
production begins, and the outcomes are alike. Such statements compose, each part handing to the one
before it what that one needs, and each production has a lemma that says so of it.
-/

namespace CobolTree

/-- The answer of a round with another state. -/
def Production.mapStep {σ τ : Type} (f : σ → τ) : ForInStep σ → ForInStep τ
  | .done final => .done (f final)
  | .yield next => .yield (f next)

namespace Placement

variable (place : Placement)

/-! ### Outcomes -/

def tree (tree : SourceTree) : SourceTree := tree.map id place.lexeme

def identity (program : ProgramIdentity) : ProgramIdentity :=
  ⟨place.text program.name, place.range program.declared⟩

/-- The problem with the texts and ranges in it as the whole has them. -/
def problem : Problem → Problem
  | .unrecognized text => .unrecognized (place.text text)
  | .endProgramMismatch found program =>
      .endProgramMismatch (place.text found) (place.identity program)
  | .strayToken text => .strayToken (place.text text)
  | other => other

/-- Two diagnostics tell of one problem, the second one where the whole has it. -/
def Tells (diagnostic whole : Diagnostic) : Prop :=
  ∃ (problem : Problem) (range : Range) (position : Position) (severity : Severity),
    diagnostic = (problem.within range position).withSeverity severity ∧
      whole = ((place.problem problem).within (place.range range)
        (place.position position)).withSeverity severity

variable {α β γ δ σ τ : Type}

/-- An outcome and the one that the whole has for it. -/
structure Alike (f : α → β) (outcome : Outcome α) (whole : Outcome β) : Prop where
  value : whole.value = f outcome.value
  trees : whole.trees = outcome.trees.map place.tree
  tokens : whole.tokens = outcome.tokens.map place.token
  reports : List.Forall₂ place.Tells outcome.reports whole.reports
  next : whole.next = place.cursor outcome.next

/-- Where a picture string hides the end of the text from the look ahead for the word IS, the text
behind must not begin with this word. -/
def Allows (tokens : List Token) (rest : Text) : Prop :=
  Token.HidesEnd rest tokens → ∀ first after,
    (Cursor.start place.behind).significant? .programUnit = some (first, after) →
      first.isWord "IS".toList = false

/-- An outcome is mirrored if the text foresees where it begins whenever it foresees where it ends,
and the whole has an outcome like it. Its tokens have the word IS before a picture string, or not
ahead of it. -/
structure Mirrored (pictures : Bool) (f : α → β) (cursor : Cursor) (outcome : Outcome α)
    (whole : Outcome β) : Prop where
  reads : cursor.ReadsOperands outcome.tokens outcome.next
  hands : place.Allows outcome.tokens outcome.next.rest → place.Foresees pictures outcome.next →
    place.Foresees pictures cursor ∧ place.Alike f outcome whole

/-- A production is mirrored by another one if all of its outcomes are. -/
def Mirrors (pictures : Bool) (f : α → β) (production : Production α) (whole : Production β) :
    Prop :=
  ∀ cursor, place.Mirrored pictures f cursor (production cursor) (whole (place.cursor cursor))

variable {place} {pictures : Bool}

/-! ### What picture strings allow -/

namespace Allows

variable {tokens later : List Token} {rest : Text}

theorem nil (rest : Text) : place.Allows [] rest := by
  rintro ⟨operand, mem, -⟩
  cases mem

/-- Where nothing stands behind the text, nothing can be found there. -/
theorem of_alone (alone : place.behind = []) : place.Allows tokens rest := by
  intro _ first after found
  rw [alone] at found
  exact absurd rfl (Cursor.rest_ne_nil_of_significant? found)

theorem behind (allowed : place.Allows (tokens ++ later) rest) : place.Allows later rest :=
  fun hides => allowed hides.behind

theorem before (allowed : place.Allows (tokens ++ later) rest) :
    place.Allows tokens (Lexeme.textOf (Token.lexemes later) ++ rest) :=
  fun hides => allowed hides.before

/-- What an outcome allows, the one before it allows, since the text that it leaves is read. -/
theorem of_reads {middle last : Cursor} (allowed : place.Allows (tokens ++ later) last.rest)
    (reads : middle.Reads later last) : place.Allows tokens middle.rest := by
  rw [reads.rest_eq]
  exact allowed.before

end Allows

/-! ### Putting outcomes together -/

namespace Alike

variable {f : α → β} {g : γ → δ} {first : Outcome α} {whole : Outcome β} {second : Outcome γ}
  {others : Outcome δ}

theorem still {value : α} {other : β} (same : other = f value) (cursor : Cursor) :
    place.Alike f (.still value cursor) (.still other (place.cursor cursor)) :=
  ⟨same, rfl, rfl, .nil, rfl⟩

theorem withValue (h : place.Alike f first whole) {value : γ} {other : δ}
    (same : other = g value) : place.Alike g (first.withValue value) (whole.withValue other) :=
  ⟨same, h.trees, h.tokens, h.reports, h.next⟩

theorem andThen (h : place.Alike f first whole) (k : place.Alike g second others) :
    place.Alike g (first.andThen second) (whole.andThen others) where
  value := k.value
  trees := by simp [h.trees, k.trees]
  tokens := by simp [h.tokens, k.tokens]
  reports := List.rel_append h.reports k.reports
  next := k.next

theorem under (kind : Kind) (h : place.Alike f first whole) :
    place.Alike f (first.under kind) (whole.under kind) where
  value := h.value
  trees := by simp [h.trees, tree, Tree.map, Tree.mapAll_eq_map]
  tokens := h.tokens
  reports := h.reports
  next := h.next

end Alike

namespace Mirrored

variable {f : α → β} {g : γ → δ} {cursor : Cursor} {first : Outcome α} {whole : Outcome β}

theorem still {value : α} {other : β} (same : other = f value) (cursor : Cursor) :
    place.Mirrored pictures f cursor (.still value cursor) (.still other (place.cursor cursor)) :=
  ⟨.nil cursor, fun _ foresees => ⟨foresees, .still same cursor⟩⟩

theorem withValue (h : place.Mirrored pictures f cursor first whole) {value : γ} {other : δ}
    (same : other = g value) :
    place.Mirrored pictures g cursor (first.withValue value) (whole.withValue other) := by
  refine ⟨h.reads, fun allowed foresees => ?_⟩
  obtain ⟨here, alike⟩ := h.hands allowed foresees
  exact ⟨here, alike.withValue same⟩

theorem under (kind : Kind) (h : place.Mirrored pictures f cursor first whole) :
    place.Mirrored pictures f cursor (first.under kind) (whole.under kind) := by
  refine ⟨h.reads, fun allowed foresees => ?_⟩
  obtain ⟨here, alike⟩ := h.hands allowed foresees
  exact ⟨here, alike.under kind⟩

/-- The second outcome hands foresight to the first. What the whole makes behind the first one is
known as soon as the first ones are alike. -/
theorem andThen {second : Outcome γ} {behind others : Outcome δ}
    (h : place.Mirrored pictures f cursor first whole)
    (k : place.Mirrored pictures g first.next second behind)
    (same : whole.value = f first.value → whole.next = place.cursor first.next →
      others = behind) :
    place.Mirrored pictures g cursor (first.andThen second) (whole.andThen others) := by
  refine ⟨h.reads.append k.reads, fun allowed foresees => ?_⟩
  rw [Outcome.tokens_andThen] at allowed
  obtain ⟨middle, alikeBehind⟩ := k.hands allowed.behind foresees
  obtain ⟨here, alike⟩ := h.hands (allowed.of_reads k.reads.reads) middle
  rw [same alike.value alike.next]
  exact ⟨here, alike.andThen alikeBehind⟩

/-- The whole is looked at only once it is known what the text foresees. -/
theorem of_foresees (h : place.Mirrored pictures f cursor first whole) {other : Outcome β}
    (same : place.Foresees pictures cursor → other = whole) :
    place.Mirrored pictures f cursor first other := by
  refine ⟨h.reads, fun allowed foresees => ?_⟩
  obtain ⟨here, alike⟩ := h.hands allowed foresees
  rw [same here]
  exact ⟨here, alike⟩

/-- What is asked where the outcome begins has one answer in the text and in the whole. -/
theorem ite {b c : Prop} [Decidable b] [Decidable c] {yes no : Outcome α} {yes' no' : Outcome β}
    (same : place.Foresees pictures cursor → (c ↔ b))
    (h : b → place.Mirrored pictures f cursor yes yes')
    (k : ¬b → place.Mirrored pictures f cursor no no') :
    place.Mirrored pictures f cursor (if b then yes else no) (if c then yes' else no') := by
  by_cases holds : b
  · rw [if_pos holds]
    refine (h holds).of_foresees fun foresees => ?_
    rw [if_pos ((same foresees).mpr holds)]
  · rw [if_neg holds]
    refine (k holds).of_foresees fun foresees => ?_
    rw [if_neg fun other => holds ((same foresees).mp other)]

end Mirrored

/-! ### Putting productions together -/

section Combinators

variable {f : α → β} {g : γ → δ}

open Production

theorem mirrors_pure {value : α} {other : β} (same : other = f value) :
    place.Mirrors pictures f (pure value) (pure other) := fun cursor => .still same cursor

theorem mirrors_bind {first : Production α} {whole : Production β} {rest : α → Production γ}
    {others : β → Production δ} (h : place.Mirrors pictures f first whole)
    (k : ∀ value, place.Mirrors pictures g (rest value) (others (f value))) :
    place.Mirrors pictures g (first >>= rest) (whole >>= others) :=
  fun cursor => (h cursor).andThen (k _ _) fun value next => by rw [value, next]

theorem mirrors_ite {c : Prop} [Decidable c] {yes no : Production α} {yes' no' : Production β}
    (h : place.Mirrors pictures f yes yes') (k : place.Mirrors pictures f no no') :
    place.Mirrors pictures f (if c then yes else no) (if c then yes' else no') := by
  split
  · exact h
  · exact k

theorem mirrors_node (kind : Kind) {body : Production α} {whole : Production β}
    (h : place.Mirrors pictures f body whole) :
    place.Mirrors pictures f (node kind body) (node kind whole) :=
  fun cursor => (h cursor).under kind

/-- A loop is mirrored if its rounds are: what is left of the whole shrinks as the text does. -/
theorem mirrors_repeating {f : σ → τ} {round : σ → Production (ForInStep σ)}
    {others : τ → Production (ForInStep τ)}
    (h : ∀ state, place.Mirrors pictures (mapStep f) (round state) (others (f state)))
    (state : σ) : place.Mirrors pictures f (repeating round state) (repeating others (f state)) := by
  intro cursor
  fun_induction repeating round state cursor with
  | case1 state cursor first final ends =>
      refine ⟨(h state cursor).reads, fun allowed foresees => ?_⟩
      obtain ⟨here, alike⟩ := (h state cursor).hands allowed foresees
      have value : (others (f state) (place.cursor cursor)).value = .done (f final) := by
        rw [alike.value, ends]
        rfl
      rw [repeating_of_done value]
      exact ⟨here, alike.withValue rfl⟩
  | case2 state cursor first next goesOn shorter ih =>
      refine ⟨(h state cursor).reads.append ih.reads, fun allowed foresees => ?_⟩
      rw [Outcome.tokens_andThen] at allowed
      obtain ⟨middle, behind⟩ := ih.hands allowed.behind foresees
      obtain ⟨here, alike⟩ := (h state cursor).hands (allowed.of_reads ih.reads.reads) middle
      have value : (others (f state) (place.cursor cursor)).value = .yield (f next) := by
        rw [alike.value, goesOn]
        rfl
      have less : (others (f state) (place.cursor cursor)).next.rest.length <
          (place.cursor cursor).rest.length := by
        simpa [alike.next] using shorter
      rw [repeating_of_yield value less, alike.next]
      exact ⟨here, alike.andThen behind⟩
  | case3 state cursor first next goesOn same =>
      refine ⟨(h state cursor).reads, fun allowed foresees => ?_⟩
      obtain ⟨here, alike⟩ := (h state cursor).hands allowed foresees
      have value : (others (f state) (place.cursor cursor)).value = .yield (f next) := by
        rw [alike.value, goesOn]
        rfl
      have stays : ¬(others (f state) (place.cursor cursor)).next.rest.length <
          (place.cursor cursor).rest.length := by
        simpa [alike.next] using same
      rw [repeating, value]
      simp only [if_neg stays]
      exact ⟨here, alike.withValue rfl⟩

/-- A loop that may skip tokens skips none if its rounds advance. -/
theorem mirrors_rounds {f : σ → τ} {round : σ → Production (ForInStep σ)}
    {others : τ → Production (ForInStep τ)} (context : Context)
    (faithful : ∀ state, Faithful (round state)) (advances : Advances round)
    (faithful' : ∀ state, Faithful (others state)) (advances' : Advances others)
    (h : ∀ state, place.Mirrors pictures (mapStep f) (round state) (others (f state)))
    (state : σ) :
    place.Mirrors pictures f (rounds context round state) (rounds context others (f state)) := by
  rw [rounds_eq_repeating context faithful advances, rounds_eq_repeating context faithful' advances']
  exact mirrors_repeating h state

end Combinators

/-! ### Problems -/

theorem tells_ofToken (problem : Problem) (token : Token) :
    place.Tells (problem.ofToken token) ((place.problem problem).ofToken (place.token token)) := by
  refine ⟨problem, token.range, token.position, problem.severity, rfl, ?_⟩
  have grave : (place.problem problem).severity = problem.severity := by
    cases problem <;> rfl
  rw [← grave, Problem.ofToken, range_token]
  rfl

theorem tells_atPosition (problem : Problem) (position : Position) :
    place.Tells (problem.atPosition position)
      ((place.problem problem).atPosition (place.position position)) := by
  refine ⟨problem, .empty position.index, position, problem.severity, rfl, ?_⟩
  have grave : (place.problem problem).severity = problem.severity := by
    cases problem <;> rfl
  rw [← grave]
  rfl

theorem tells_withSeverity {diagnostic whole : Diagnostic} (severity : Severity)
    (h : place.Tells diagnostic whole) :
    place.Tells (diagnostic.withSeverity severity) (whole.withSeverity severity) := by
  obtain ⟨problem, range, position, _, rfl, rfl⟩ := h
  exact ⟨problem, range, position, severity, rfl, rfl⟩

/-- Letters and quotes are told apart in every case, so an error token is the same error. -/
theorem ofOpaque_text (text : Text) :
    Problem.ofOpaque (place.text text) = place.problem (Problem.ofOpaque text) := by
  unfold Problem.ofOpaque
  rw [place.dropWhile_text caseless_isLiteralLetter, Recasing.text, List.head?_map]
  cases (text.dropWhile Scan.isLiteralLetter).head? with
  | none => rfl
  | some c =>
      simp only [Option.map_some, place.isQuote_letter]
      split
      · rfl
      · rfl

namespace Mirrored

open Production

variable {cursor : Cursor}

theorem report {diagnostic whole : Diagnostic} (tells : place.Tells diagnostic whole) :
    place.Mirrored pictures id cursor (report diagnostic cursor)
      (report whole (place.cursor cursor)) :=
  ⟨.nil cursor, fun _ foresees => ⟨foresees, rfl, rfl, rfl, .cons tells .nil, rfl⟩⟩

end Mirrored

open Production

theorem mirrors_report {diagnostic whole : Diagnostic} (tells : place.Tells diagnostic whole) :
    place.Mirrors pictures id (report diagnostic) (report whole) := fun _ => .report tells

theorem mirrors_reportHere (problem : Problem) :
    place.Mirrors pictures id (reportHere problem) (reportHere (place.problem problem)) := by
  intro cursor
  cases h : cursor.significant? .programUnit with
  | none =>
      have alone : reportHere problem cursor =
          report (problem.atPosition cursor.position) cursor := by simp [reportHere, h]
      rw [alone]
      refine (Mirrored.report (tells_atPosition problem _)).of_foresees fun foresees => ?_
      simp [reportHere, significant?_cursor_of_none foresees.sees h]
  | some read =>
      obtain ⟨token, after⟩ := read
      have found : reportHere problem cursor = report (problem.ofToken token) cursor := by
        simp [reportHere, h]
      rw [found]
      refine (Mirrored.report (tells_ofToken problem token)).of_foresees fun foresees => ?_
      simp [reportHere, significant?_cursor_of_some foresees.sees h]

theorem mirrors_reportAt (token : Option Token) (problem : Problem) :
    place.Mirrors pictures id (reportAt token problem)
      (reportAt (token.map place.token) (place.problem problem)) := by
  cases token with
  | none => exact mirrors_reportHere problem
  | some token => exact mirrors_report (tells_ofToken problem token)

/-! ### Tokens -/

/-- Taking a token, of whatever context, is alike where the text is told from what is behind. -/
theorem alike_bump {cursor : Cursor} (apart : place.Apart cursor) (context : Context) :
    place.Alike (Option.map place.token) (bump context cursor)
      (bump context (place.cursor cursor)) := by
  cases h : cursor.next? context with
  | none =>
      have whole := next?_cursor_of_none apart h
      have ends : bump context cursor = .still none cursor := by simp [bump, h]
      have others : bump context (place.cursor cursor) = .still none (place.cursor cursor) := by
        simp [bump, whole]
      rw [ends, others]
      exact .still rfl cursor
  | some read =>
      obtain ⟨token, after⟩ := read
      have whole := next?_cursor_of_some apart h
      constructor
      case value => rw [value_bump h, value_bump whole]; rfl
      case trees => simp [bump, h, whole, tree, Tree.map]
      case tokens => rw [tokens_bump h, tokens_bump whole]; rfl
      case next => rw [next_bump h, next_bump whole]
      case reports =>
        by_cases wrong : token.kind = .error
        · simpa [bump, h, whole, wrong, ofOpaque_text] using tells_ofToken _ token
        · simp [bump, h, whole, wrong]

/-- Whatever is read but picture strings hands foresight back. -/
theorem mirrors_bump {context : Context} (mode : context.mode ≠ .picture) :
    place.Mirrors pictures (Option.map place.token) (bump context) (bump context) := by
  intro cursor
  refine ⟨readsOperands_bump mode cursor, fun _ foresees => ?_⟩
  cases h : cursor.next? context with
  | none =>
      have ends : bump context cursor = .still none cursor := by simp [bump, h]
      rw [ends] at foresees
      exact ⟨foresees, alike_bump foresees.apart context⟩
  | some read =>
      obtain ⟨token, after⟩ := read
      rw [next_bump h] at foresees
      have here := foresees.of_next? mode h
      exact ⟨here, alike_bump here.apart context⟩

theorem mirrors_triviaRound {context : Context} (mode : context.mode ≠ .picture) :
    place.Mirrors pictures (mapStep id) (triviaRound context) (triviaRound context) := by
  intro cursor
  cases h : cursor.next? context with
  | none =>
      rw [triviaRound_of_end h]
      refine (Mirrored.still rfl cursor).of_foresees fun foresees => ?_
      exact triviaRound_of_end (next?_cursor_of_none foresees.apart h)
  | some read =>
      obtain ⟨token, after⟩ := read
      cases trivial : token.isTrivia with
      | true =>
          rw [triviaRound_of_trivia h trivial]
          refine ((mirrors_bump mode cursor).withValue rfl).of_foresees fun foresees => ?_
          exact triviaRound_of_trivia (next?_cursor_of_some foresees.apart h) trivial
      | false =>
          rw [triviaRound_of_carries h trivial]
          refine (Mirrored.still rfl cursor).of_foresees fun foresees => ?_
          exact triviaRound_of_carries (next?_cursor_of_some foresees.apart h) trivial

theorem mirrors_trivia {context : Context} (mode : context.mode ≠ .picture) :
    place.Mirrors pictures id (trivia context) (trivia context) :=
  mirrors_repeating (fun _ => mirrors_triviaRound mode) ()

theorem mirrors_bumpSignificant {context : Context} (mode : context.mode ≠ .picture) :
    place.Mirrors pictures (Option.map place.token) (bumpSignificant context)
      (bumpSignificant context) :=
  mirrors_bind (mirrors_trivia mode) fun _ => mirrors_bump mode

theorem mirrors_nextSignificant (context : Context) :
    place.Mirrors pictures (Option.map place.token) (nextSignificant context)
      (nextSignificant context) := by
  intro cursor
  refine (Mirrored.still rfl cursor).of_foresees fun foresees => ?_
  rw [nextSignificant, significant?_map_cursor foresees.sees]

/-- A token is eaten in the whole if it is eaten in the text, with a test that sees both alike. -/
theorem mirrored_eatIf {context : Context} (mode : context.mode ≠ .picture)
    {test others : Token → Bool} {cursor : Cursor}
    (same : place.Foresees pictures cursor → ∀ token, others (place.token token) = test token) :
    place.Mirrored pictures (Option.map place.token) cursor (eatIf context test cursor)
      (eatIf context others (place.cursor cursor)) := by
  cases h : cursor.significant? context with
  | none =>
      rw [eatIf_of_end h]
      refine (Mirrored.still rfl cursor).of_foresees fun foresees => ?_
      exact eatIf_of_end (significant?_cursor_of_none foresees.sees h) others
  | some read =>
      obtain ⟨token, after⟩ := read
      cases passes : test token with
      | true =>
          rw [eatIf_of_test h passes]
          refine (mirrors_bumpSignificant mode cursor).of_foresees fun foresees => ?_
          have whole := significant?_cursor_of_some foresees.sees h
          rw [eatIf_of_test whole (by rw [same foresees, passes])]
      | false =>
          rw [eatIf_of_not_test h passes]
          refine (Mirrored.still rfl cursor).of_foresees fun foresees => ?_
          have whole := significant?_cursor_of_some foresees.sees h
          exact eatIf_of_not_test whole (by rw [same foresees, passes])

theorem mirrors_eatIf {context : Context} (mode : context.mode ≠ .picture) {test : Token → Bool}
    (same : ∀ token, test (place.token token) = test token) :
    place.Mirrors pictures (Option.map place.token) (eatIf context test) (eatIf context test) :=
  fun _ => mirrored_eatIf mode fun _ => same

theorem mirrors_eatWord {context : Context} (mode : context.mode ≠ .picture) (word : Text) :
    place.Mirrors pictures (Option.map place.token) (eatWord context word)
      (eatWord context word) :=
  mirrors_eatIf mode fun token => by simp

theorem mirrors_expectPeriod {context : Context} (mode : context.mode ≠ .picture)
    (site : PeriodSite) :
    place.Mirrors pictures (Option.map place.token) (expectPeriod context site)
      (expectPeriod context site) := by
  refine mirrors_bind (mirrors_eatIf mode fun token => rfl) fun found => ?_
  cases found with
  | some period => exact mirrors_pure rfl
  | none => exact mirrors_bind (mirrors_reportHere _) fun _ => mirrors_pure rfl

end Placement

end CobolTree
