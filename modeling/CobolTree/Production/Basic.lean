import CobolTree.Diagnostic.Problem
import CobolTree.Tree.Located

/-!
Productions: what turns the text at a cursor into trees. A production answers with a
value, the trees it built, the tokens it consumed, the problems it found, and the cursor
behind what it consumed. Running one production after another appends the trees, tokens
and problems, so what a sequence consumes is what its parts consume, in order.
-/

namespace CobolTree

/-- What a production made of the text at a cursor. -/
structure Outcome (α : Type) where
  value : α
  trees : List SourceTree
  tokens : List Token
  reports : List Diagnostic
  next : Cursor

namespace Outcome

variable {α β : Type}

/-- Nothing consumed and nothing to report. -/
def still (value : α) (cursor : Cursor) : Outcome α := ⟨value, [], [], [], cursor⟩

/-- The same outcome with another value. -/
def withValue (value : β) (outcome : Outcome α) : Outcome β :=
  ⟨value, outcome.trees, outcome.tokens, outcome.reports, outcome.next⟩

/-- One outcome after the other, with the value of the second. -/
def andThen (first : Outcome α) (second : Outcome β) : Outcome β :=
  ⟨second.value, first.trees ++ second.trees, first.tokens ++ second.tokens,
    first.reports ++ second.reports, second.next⟩

/-- The outcome with its trees gathered under one node. -/
def under (kind : Kind) (outcome : Outcome α) : Outcome α :=
  { outcome with trees := [.node kind outcome.trees] }

section Fields

variable (first : Outcome α) (second : Outcome β) (value : β) (cursor : Cursor) (kind : Kind)

@[simp] theorem value_still : (still value cursor).value = value := rfl
@[simp] theorem trees_still : (still value cursor).trees = [] := rfl
@[simp] theorem tokens_still : (still value cursor).tokens = [] := rfl
@[simp] theorem next_still : (still value cursor).next = cursor := rfl

@[simp] theorem value_withValue : (first.withValue value).value = value := rfl
@[simp] theorem trees_withValue : (first.withValue value).trees = first.trees := rfl
@[simp] theorem tokens_withValue : (first.withValue value).tokens = first.tokens := rfl
@[simp] theorem next_withValue : (first.withValue value).next = first.next := rfl

@[simp] theorem value_andThen : (first.andThen second).value = second.value := rfl
@[simp] theorem trees_andThen : (first.andThen second).trees = first.trees ++ second.trees := rfl
@[simp] theorem tokens_andThen :
    (first.andThen second).tokens = first.tokens ++ second.tokens := rfl
@[simp] theorem next_andThen : (first.andThen second).next = second.next := rfl

@[simp] theorem value_under : (first.under kind).value = first.value := rfl
@[simp] theorem trees_under : (first.under kind).trees = [.node kind first.trees] := rfl
@[simp] theorem tokens_under : (first.under kind).tokens = first.tokens := rfl
@[simp] theorem next_under : (first.under kind).next = first.next := rfl

/-- Standing still before an outcome changes nothing. -/
@[simp] theorem still_andThen : (still value cursor).andThen first = first := rfl

/-- Standing still behind an outcome only changes its value. -/
@[simp] theorem andThen_still : first.andThen (still value first.next) = first.withValue value := by
  simp [andThen, still, withValue]

@[simp] theorem withValue_self : first.withValue first.value = first := rfl

@[simp] theorem withValue_andThen {γ : Type} (other : γ) :
    (first.withValue other).andThen second = first.andThen second := rfl

@[simp] theorem andThen_withValue {γ : Type} (other : γ) :
    first.andThen (second.withValue other) = (first.andThen second).withValue other := rfl

@[simp] theorem withValue_withValue {γ : Type} (other : γ) :
    (first.withValue value).withValue other = first.withValue other := rfl

@[simp] theorem withValue_still {γ : Type} (other : γ) :
    (still value cursor).withValue other = still other cursor := rfl

end Fields

end Outcome

/-- What reads text at a cursor and builds trees of it. -/
def Production (α : Type) : Type := Cursor → Outcome α

namespace Production

variable {α β σ : Type}

/-! ### Sequences -/

instance : Monad Production where
  pure value := fun cursor => .still value cursor
  bind first second := fun cursor =>
    let outcome := first cursor
    outcome.andThen (second outcome.value outcome.next)

/-- The cursor as it stands. -/
def here : Production Cursor := fun cursor => .still cursor cursor

@[simp] theorem pure_apply (value : α) (cursor : Cursor) :
    (pure value : Production α) cursor = .still value cursor := rfl

@[simp] theorem bind_apply (first : Production α) (second : α → Production β)
    (cursor : Cursor) :
    (first >>= second) cursor =
      (first cursor).andThen (second (first cursor).value (first cursor).next) := rfl

@[simp] theorem here_apply (cursor : Cursor) : here cursor = .still cursor cursor := rfl

@[simp] theorem ite_apply {c : Prop} [Decidable c] (yes no : Production α) (cursor : Cursor) :
    (if c then yes else no) cursor = if c then yes cursor else no cursor := by
  split <;> rfl

/-- A production whose trees are gathered under one node. -/
def node (kind : Kind) (body : Production α) : Production α := fun cursor =>
  (body cursor).under kind

/-! ### Reports -/

/-- Adds one diagnostic. -/
def report (diagnostic : Diagnostic) : Production Unit := fun cursor =>
  ⟨(), [], [], [diagnostic], cursor⟩

/-- Reports a problem at the next token that is neither blank nor comment, or at the cursor
when there is none. -/
def reportHere (problem : Problem) : Production Unit := fun cursor =>
  match cursor.significant? .programUnit with
  | some (token, _) => report (problem.ofToken token) cursor
  | none => report (problem.atPosition cursor.position) cursor

section ReportHere

variable (problem : Problem) (cursor : Cursor)

@[simp] theorem trees_reportHere : (reportHere problem cursor).trees = [] := by
  unfold reportHere
  split <;> rfl

@[simp] theorem tokens_reportHere : (reportHere problem cursor).tokens = [] := by
  unfold reportHere
  split <;> rfl

@[simp] theorem next_reportHere : (reportHere problem cursor).next = cursor := by
  unfold reportHere
  split <;> rfl

end ReportHere

/-- Reports a problem at a token, or where the cursor stands when there is no token. -/
def reportAt (token : Option Token) (problem : Problem) : Production Unit :=
  match token with
  | some token => report (problem.ofToken token)
  | none => reportHere problem

section ReportAt

variable (token : Option Token) (problem : Problem) (cursor : Cursor)

@[simp] theorem trees_reportAt : (reportAt token problem cursor).trees = [] := by
  cases token with
  | none => exact trees_reportHere problem cursor
  | some token => rfl

@[simp] theorem tokens_reportAt : (reportAt token problem cursor).tokens = [] := by
  cases token with
  | none => exact tokens_reportHere problem cursor
  | some token => rfl

@[simp] theorem next_reportAt : (reportAt token problem cursor).next = cursor := by
  cases token with
  | none => exact next_reportHere problem cursor
  | some token => rfl

end ReportAt

/-! ### Tokens -/

/-- Consumes the next token, as a leaf. A token that no pattern accepts is reported. -/
def bump (context : Context) : Production (Option Token) := fun cursor =>
  match cursor.next? context with
  | none => .still none cursor
  | some (token, after) =>
      { value := some token
        trees := [.leaf token.toLexeme]
        tokens := [token]
        reports :=
          if token.kind = .error then [(Problem.ofOpaque token.text).ofToken token] else []
        next := after }

/-! ### Loops -/

/-- Repeats a round as long as it yields a state and consumes text. -/
def repeating (round : σ → Production (ForInStep σ)) (state : σ) (cursor : Cursor) :
    Outcome σ :=
  let first := round state cursor
  match first.value with
  | .done final => first.withValue final
  | .yield state =>
      if first.next.rest.length < cursor.rest.length then
        first.andThen (repeating round state first.next)
      else first.withValue state
termination_by cursor.rest.length

theorem repeating_of_done {round : σ → Production (ForInStep σ)} {state final : σ}
    {cursor : Cursor} (h : (round state cursor).value = .done final) :
    repeating round state cursor = (round state cursor).withValue final := by
  rw [repeating, h]

theorem repeating_of_yield {round : σ → Production (ForInStep σ)} {state next : σ}
    {cursor : Cursor} (h : (round state cursor).value = .yield next)
    (shorter : (round state cursor).next.rest.length < cursor.rest.length) :
    repeating round state cursor =
      (round state cursor).andThen (repeating round next (round state cursor).next) := by
  rw [repeating, h]
  exact if_pos shorter

/-- One blank or comment, if one is next. -/
def triviaRound (context : Context) : Production (ForInStep Unit) := do
  match (← here).peek? context with
  | some token =>
      if token.isTrivia then do
        let _ ← bump context
        return .yield ()
      else return .done ()
  | none => return .done ()

/-- Consumes blanks and comments. -/
def trivia (context : Context) : Production Unit := repeating (fun _ => triviaRound context) ()

/-! ### Lengths -/

/-- A loop adds no text if none of its rounds does. -/
theorem repeating_length_le {σ : Type} {round : σ → Production (ForInStep σ)}
    (shrinks : ∀ state cursor, (round state cursor).next.rest.length ≤ cursor.rest.length)
    (state : σ) (cursor : Cursor) :
    (repeating round state cursor).next.rest.length ≤ cursor.rest.length := by
  fun_induction repeating round state cursor with
  | case1 state cursor first final h => exact shrinks state cursor
  | case2 state cursor first state' h shorter ih =>
      exact Nat.le_trans ih (Nat.le_of_lt shorter)
  | case3 state cursor first state' h same => exact shrinks state cursor

theorem bump_length_le (context : Context) (cursor : Cursor) :
    (bump context cursor).next.rest.length ≤ cursor.rest.length := by
  unfold bump
  split
  · exact Nat.le_refl _
  · rename_i token after h
    exact Nat.le_of_lt (Cursor.shorter_of_next? h)

/-- Consuming blanks and comments adds no text. -/
theorem trivia_length_le (context : Context) (cursor : Cursor) :
    (trivia context cursor).next.rest.length ≤ cursor.rest.length := by
  refine repeating_length_le (fun _ cursor => ?_) () cursor
  simp only [triviaRound, bind_apply, here_apply, Outcome.andThen, Outcome.still]
  cases cursor.peek? context with
  | none => exact Nat.le_refl _
  | some token =>
      cases trivial : token.isTrivia with
      | true => simpa [trivial, Outcome.andThen, Outcome.still] using bump_length_le context cursor
      | false => simp [trivial, Outcome.still]

/-! ### Tokens that carry meaning -/

/-- Consumes blanks and comments, then one more token. -/
def bumpSignificant (context : Context) : Production (Option Token) := do
  trivia context
  bump context

/-- The next token that is neither blank nor comment, left where it is. -/
def nextSignificant (context : Context) : Production (Option Token) := fun cursor =>
  .still ((cursor.significant? context).map (·.1)) cursor

/-- Consumes the next token, with the blanks before it, if it passes a test. -/
def eatIf (context : Context) (test : Token → Bool) : Production (Option Token) := do
  match ← nextSignificant context with
  | some token => if test token then bumpSignificant context else return none
  | none => return none

/-- Consumes the next token, with the blanks before it, if it is the given word. -/
def eatWord (context : Context) (word : Text) : Production (Option Token) :=
  eatIf context (·.isWord word)

/-- Consumes a separator period, with the blanks before it, or reports that it is missing. -/
def expectPeriod (context : Context) (site : PeriodSite) : Production (Option Token) := do
  match ← eatIf context (·.kind == .dot) with
  | some token => return some token
  | none =>
      reportHere (.missingPeriod site)
      return none

/-- Skips one token, with a report, if a round has left the cursor where it was. -/
def ensureProgress (before : Position) (context : Context) : Production Unit := do
  let cursor ← here
  if cursor.position = before ∧ cursor.hasMore then
    let text := ((cursor.peek? context).map (·.text)).getD []
    reportHere (.strayToken text)
    let _ ← bump context
    return ()
  else return ()

/-- A round that has a token skipped if it goes on and has not moved the cursor by itself. -/
def orSkip (context : Context) (round : σ → Production (ForInStep σ)) (state : σ) :
    Production (ForInStep σ) := do
  let before ← here
  match ← round state with
  | .done final => return .done final
  | .yield state => do
      ensureProgress before.position context
      return .yield state

/-- Repeats a round that consumes text by itself or has a token skipped. -/
def rounds (context : Context) (round : σ → Production (ForInStep σ)) (state : σ) :
    Production σ :=
  repeating (orSkip context round) state

end Production

end CobolTree
