import CobolTree.Proofs.Production.Conformance
import CobolTree.Proofs.Tree.WellFormed

/-!
What productions report. A production that builds rows of tokens reports every error token, and
apart from them it reports nothing exactly when some condition holds, say that a period has been
found (`Outcome.QuietWhen`). A production that builds nodes tells whether they are regular: it
reports nothing exactly when all of its trees are (`Outcome.Tells`). Loops of rounds that tell tell
(`tells_repeating`).
-/

namespace CobolTree

namespace Outcome

variable {α β : Type}

section Fields

variable (first : Outcome α) (second : Outcome β) (value : β) (cursor : Cursor) (kind : Kind)

@[simp] theorem reports_still : (still value cursor).reports = [] := rfl
@[simp] theorem reports_withValue : (first.withValue value).reports = first.reports := rfl
@[simp] theorem reports_andThen :
    (first.andThen second).reports = first.reports ++ second.reports := rfl
@[simp] theorem reports_under : (first.under kind).reports = first.reports := rfl

end Fields

/-- None of the tokens of the outcome is an error token. -/
def NoErrorTokens (outcome : Outcome α) : Prop := ∀ token ∈ outcome.tokens, token.kind ≠ .error

/-- The outcome reports nothing exactly when it has no error token and a condition holds. -/
def QuietWhen (condition : Prop) (outcome : Outcome α) : Prop :=
  outcome.reports = [] ↔ outcome.NoErrorTokens ∧ condition

/-- The outcome reports nothing exactly when all of its trees are regular. -/
def Tells (outcome : Outcome α) : Prop :=
  outcome.reports = [] ↔ SourceTree.RegularAll outcome.trees

theorem noErrorTokens_andThen {first : Outcome α} {second : Outcome β} :
    (first.andThen second).NoErrorTokens ↔ first.NoErrorTokens ∧ second.NoErrorTokens :=
  List.forall_mem_append

namespace QuietWhen

variable {p q : Prop} {first : Outcome α} {second : Outcome β}

theorem still (value : α) (cursor : Cursor) : (Outcome.still value cursor).QuietWhen True := by
  simp [QuietWhen, NoErrorTokens]

theorem withValue (value : β) (h : first.QuietWhen p) : (first.withValue value).QuietWhen p := h

theorem andThen (h : first.QuietWhen p) (k : second.QuietWhen q) :
    (first.andThen second).QuietWhen (p ∧ q) := by
  unfold QuietWhen at h k ⊢
  rw [reports_andThen, List.append_eq_nil_iff, h, k, noErrorTokens_andThen]
  constructor
  · rintro ⟨⟨noErrors, condition⟩, others, another⟩
    exact ⟨⟨noErrors, others⟩, condition, another⟩
  · rintro ⟨⟨noErrors, others⟩, condition, another⟩
    exact ⟨⟨noErrors, condition⟩, others, another⟩

theorem congr (h : first.QuietWhen p) (same : p ↔ q) : first.QuietWhen q := by
  unfold QuietWhen at h ⊢
  rw [h, same]

/-- An outcome goes on being quiet when the other one always is. -/
theorem andThen_quiet (h : first.QuietWhen p) (k : second.QuietWhen True) :
    (first.andThen second).QuietWhen p := (h.andThen k).congr (and_iff_left trivial)

theorem quiet_andThen (h : first.QuietWhen True) (k : second.QuietWhen q) :
    (first.andThen second).QuietWhen q := (h.andThen k).congr (and_iff_right trivial)

/-- A row tells that its tokens are no error tokens. -/
theorem tells {cursor : Cursor} (h : first.QuietWhen True) (flat : first.Flat cursor) :
    first.Tells := by
  unfold QuietWhen at h
  unfold Tells
  rw [h, flat.trees, SourceTree.regularAll_row, and_iff_left trivial]
  simp [NoErrorTokens, Token.lexemes]

/-- A node above a row tells whether it is regular if the row is quiet just then. -/
theorem tells_gathered {cursor : Cursor} {kind : Kind} (gathered : first.Gathered kind cursor)
    (h : first.QuietWhen p)
    (same : p ↔ SourceTree.Regular kind (SourceTree.row (Token.lexemes first.tokens))) :
    first.Tells := by
  unfold QuietWhen at h
  unfold Tells
  rw [h, gathered.trees, SourceTree.regularAll_node, SourceTree.regularAll_row, same, and_comm]
  simp [NoErrorTokens, Token.lexemes]

end QuietWhen

theorem Tells.withValue {outcome : Outcome α} (value : β) (h : outcome.Tells) :
    (outcome.withValue value).Tells := h

theorem Tells.andThen {first : Outcome α} {second : Outcome β} (h : first.Tells)
    (k : second.Tells) : (first.andThen second).Tells := by
  unfold Tells at h k ⊢
  rw [reports_andThen, trees_andThen, List.append_eq_nil_iff, h, k, SourceTree.regularAll_append]

theorem tells_still (value : α) (cursor : Cursor) : (Outcome.still value cursor).Tells := by
  simp [Tells, SourceTree.regularAll_nil]

end Outcome

namespace Production

open Lexeme (EndInPeriod)
open SourceTree

variable {α β σ : Type}

/-- The production reports error tokens and nothing else. -/
def Quiet (production : Production α) : Prop := ∀ cursor, (production cursor).QuietWhen True

/-! ### Quiet productions -/

theorem quiet_pure (value : α) : Quiet (pure value) := fun cursor => .still value cursor

theorem quiet_here : Quiet here := fun cursor => .still cursor cursor

theorem quiet_bind {first : Production α} {second : α → Production β} (h : Quiet first)
    (k : ∀ value, Quiet (second value)) : Quiet (first >>= second) :=
  fun cursor => (h cursor).andThen_quiet (k _ _)

theorem quiet_ite {c : Prop} [Decidable c] {yes no : Production α} (h : Quiet yes)
    (k : Quiet no) : Quiet (if c then yes else no) := by
  split
  · exact h
  · exact k

/-- Taking a token reports it if it is an error token. -/
theorem quiet_bump (context : Context) : Quiet (bump context) := by
  intro cursor
  unfold bump
  split
  · exact .still none cursor
  · rename_i token after h
    by_cases isError : token.kind = .error
    · simp [Outcome.QuietWhen, Outcome.NoErrorTokens, isError]
    · simp [Outcome.QuietWhen, Outcome.NoErrorTokens, isError]

/-- A loop of quiet rounds is quiet, however many rounds it takes. -/
theorem quiet_repeating {round : σ → Production (ForInStep σ)} (h : ∀ state, Quiet (round state))
    (state : σ) : Quiet (repeating round state) := by
  intro cursor
  fun_induction repeating round state cursor with
  | case1 state cursor first final _ => exact (h state cursor).withValue final
  | case2 state cursor first next _ shorter ih => exact (h state cursor).andThen_quiet ih
  | case3 state cursor first next _ same => exact (h state cursor).withValue next

theorem quiet_triviaRound (context : Context) : Quiet (triviaRound context) := by
  refine quiet_bind quiet_here fun cursor => ?_
  split
  · refine quiet_ite ?_ (quiet_pure _)
    exact quiet_bind (quiet_bump _) fun _ => quiet_pure _
  · exact quiet_pure _

theorem quiet_trivia (context : Context) : Quiet (trivia context) :=
  quiet_repeating (fun _ => quiet_triviaRound context) ()

theorem quiet_bumpSignificant (context : Context) : Quiet (bumpSignificant context) :=
  quiet_bind (quiet_trivia _) fun _ => quiet_bump _

theorem quiet_nextSignificant (context : Context) : Quiet (nextSignificant context) :=
  fun cursor => .still _ cursor

theorem quiet_eatIf (context : Context) (test : Token → Bool) : Quiet (eatIf context test) := by
  refine quiet_bind (quiet_nextSignificant _) fun next => ?_
  split
  · exact quiet_ite (quiet_bumpSignificant _) (quiet_pure _)
  · exact quiet_pure _

theorem quiet_eatWord (context : Context) (word : Text) : Quiet (eatWord context word) :=
  quiet_eatIf _ _

theorem quiet_pictureOperand (context : Context) : Quiet (pictureOperand context) := by
  refine quiet_bind (quiet_eatWord _ _) fun _ => ?_
  refine quiet_bind (quiet_trivia _) fun _ => quiet_bind quiet_here fun cursor => ?_
  split
  · exact quiet_ite (quiet_bind (quiet_bump _) fun _ => quiet_pure _) (quiet_pure _)
  · exact quiet_pure _

theorem quiet_sentenceRound (context : Context) (pictures : Bool) (state : SentenceState) :
    Quiet (sentenceRound context pictures state) := by
  refine quiet_bind quiet_here fun cursor => ?_
  split
  · exact quiet_pure _
  · rename_i token _
    refine quiet_ite (quiet_bind (quiet_bump _) fun _ => quiet_pure _) ?_
    refine quiet_ite (quiet_pure _) (quiet_bind (quiet_bump _) fun _ => ?_)
    refine quiet_ite (quiet_pure _) (quiet_ite ?_ (quiet_pure _))
    exact quiet_bind (quiet_pictureOperand _) fun _ => quiet_pure _

theorem quiet_programAttributes (context : Context) : Quiet (programAttributes context) := by
  refine quiet_repeating (fun _ => quiet_bind (quiet_eatIf _ _) fun found => ?_) ()
  split <;> exact quiet_pure _

theorem quiet_commentEntryRound : Quiet commentEntryRound := by
  refine quiet_bind quiet_here fun cursor => ?_
  split
  · exact quiet_pure _
  · exact quiet_ite (quiet_pure _) (quiet_bind (quiet_bump _) fun _ => quiet_pure _)

theorem quiet_headerPhraseRound (context : Context) : Quiet (headerPhraseRound context) := by
  refine quiet_bind quiet_here fun cursor => quiet_ite (quiet_pure _) ?_
  exact quiet_bind (quiet_bumpSignificant _) fun _ => quiet_pure _

theorem quiet_headerPhrase (context : Context) : Quiet (headerPhrase context) := by
  refine quiet_bind (quiet_nextSignificant _) fun next => ?_
  split
  · refine quiet_ite ?_ (quiet_pure _)
    exact quiet_repeating (fun _ => quiet_headerPhraseRound context) ()
  · exact quiet_pure _

/-! ### Productions that tell -/

theorem tells_trivia (context : Context) (cursor : Cursor) : (trivia context cursor).Tells :=
  (quiet_trivia context cursor).tells (flat_trivia context cursor)

/-- A loop tells whether its trees are regular if each of its rounds does. -/
theorem tells_repeating {round : σ → Production (ForInStep σ)}
    (each : ∀ state cursor, (round state cursor).Tells) (state : σ) (cursor : Cursor) :
    (repeating round state cursor).Tells := by
  fun_induction repeating round state cursor with
  | case1 state cursor first final _ => exact (each state cursor).withValue final
  | case2 state cursor first next _ shorter ih => exact (each state cursor).andThen ih
  | case3 state cursor first next _ same => exact (each state cursor).withValue next

/-! ### Reports of what is missing -/

theorem reports_reportHere_ne_nil (problem : Problem) (cursor : Cursor) :
    (reportHere problem cursor).reports ≠ [] := by
  unfold reportHere
  split <;> exact List.cons_ne_nil _ _

theorem quietWhen_reportHere (problem : Problem) (cursor : Cursor) :
    (reportHere problem cursor).QuietWhen False := by
  simp [Outcome.QuietWhen, reports_reportHere_ne_nil]

theorem reports_reportAt_ne_nil (token : Option Token) (problem : Problem) (cursor : Cursor) :
    (reportAt token problem cursor).reports ≠ [] := by
  unfold reportAt
  split
  · exact List.cons_ne_nil _ _
  · exact reports_reportHere_ne_nil problem cursor

/-- A period is reported exactly when it is missing. -/
theorem quietWhen_expectPeriod (context : Context) (site : PeriodSite) (cursor : Cursor) :
    (expectPeriod context site cursor).QuietWhen
      ((expectPeriod context site cursor).value.isSome = true) := by
  have eaten := quiet_eatIf context (·.kind == .dot) cursor
  simp only [expectPeriod, bind_apply]
  cases found : (eatIf context (·.kind == .dot) cursor).value with
  | some period => exact (eaten.andThen (.still _ _)).congr (by simp)
  | none =>
      exact (eaten.andThen ((quietWhen_reportHere _ _).andThen (.still _ _))).congr (by simp)

end Production

end CobolTree
