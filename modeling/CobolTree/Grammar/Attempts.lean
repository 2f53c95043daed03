import CobolTree.Grammar.Match

/-!
Why a text could not be read: the rules that were attempted at the farthest offset where
an attempt decided anything. A rule that fails there was expected; a rule that succeeds
where it should be absent was unexpected. A rule stands in for the attempts inside it,
unless there was exactly one of them.
-/

namespace CobolTree

/-- The attempts at the farthest offset so far. -/
structure Attempts where
  offset : Nat
  expected : List Rule
  unexpected : List Rule
deriving DecidableEq, Repr

namespace Attempts

/-- No attempts so far. -/
def none : Attempts := ⟨0, [], []⟩

/-- How many attempts there are at an offset. -/
def countAt (offset : Nat) (attempts : Attempts) : Nat :=
  if attempts.offset = offset then attempts.expected.length + attempts.unexpected.length else 0

/-- The attempts at an offset with those dropped that came after an earlier state. -/
def restore (offset : Nat) (attempts before : Attempts) : Attempts :=
  if attempts.offset = offset then
    let same := before.offset = offset
    { attempts with
      expected := attempts.expected.take (if same then before.expected.length else 0)
      unexpected := attempts.unexpected.take (if same then before.unexpected.length else 0) }
  else attempts

/-- A rule added at an offset; a farther offset drops what was attempted before it. -/
def add (offset : Nat) (negated : Bool) (rule : Rule) (attempts : Attempts) : Attempts :=
  let attempts := if attempts.offset < offset then ⟨offset, [], []⟩ else attempts
  if attempts.offset = offset then
    if negated then { attempts with unexpected := attempts.unexpected ++ [rule] }
    else { attempts with expected := attempts.expected ++ [rule] }
  else attempts

/-- Notes that a rule was decisive at an offset, given the attempts after and before its body.
A single attempt within the rule stands for itself. -/
def note (offset : Nat) (negated : Bool) (rule : Rule) (attempts before : Attempts) : Attempts :=
  if attempts.countAt offset = before.countAt offset + 1 then attempts
  else (attempts.restore offset before).add offset negated rule

/-- Rules in the order of the grammar, each once. -/
def ordered (rules : List Rule) : List Rule := Rule.all.filter (rules.contains ·)

/-- Names in a row, the last one behind "or". -/
def enumerate : List String → String
  | [] => ""
  | [only] => only
  | [first, second] => first ++ " or " ++ second
  | names => ", ".intercalate names.dropLast ++ ", or " ++ names.getLastD ""

/-- Some rules by name. -/
def names (rules : List Rule) : String := enumerate ((ordered rules).map (·.name))

/-- What was expected and what was not. -/
def message (attempts : Attempts) : String :=
  "parsing error: " ++
    match attempts.unexpected, attempts.expected with
    | [], [] => "unknown parsing error"
    | [], expected => "expected " ++ names expected
    | unexpected, [] => "unexpected " ++ names unexpected
    | unexpected, expected => "unexpected " ++ names unexpected ++ "; expected " ++ names expected

end Attempts

namespace Expr

/-- The attempts of repeated rounds: at every input where a round begins. -/
def repeatedAttempts (step : Input → Option Input) (trace : Input → Attempts → Attempts) :
    Text → Input → Attempts → Attempts
  | [], input, attempts => trace input attempts
  | _ :: bound, input, attempts =>
      let attempts := trace input attempts
      match step input with
      | some next => repeatedAttempts step trace bound next attempts
      | none => attempts

/-- The attempts that reading an expression adds to those so far. `negated` holds inside an odd
number of absence tests. -/
def trace (atomic negated : Bool) : Expr → Input → Attempts → Attempts
  | seq first second, input, attempts =>
      let attempts := first.trace atomic negated input attempts
      match first.read? atomic input with
      | some one => second.trace atomic negated (one.next.skip atomic) attempts
      | none => attempts
  | alt first second, input, attempts =>
      let attempts := first.trace atomic negated input attempts
      match first.read? atomic input with
      | some _ => attempts
      | none => second.trace atomic negated input attempts
  | star body, input, attempts =>
      let step (input : Input) := (body.read? atomic input).map (·.next.skip atomic)
      repeatedAttempts step (body.trace atomic negated) input.rest input attempts
  | opt body, input, attempts => body.trace atomic negated input attempts
  | absent body, input, attempts => body.trace atomic (!negated) input attempts
  | rule named isAtomic body, input, attempts =>
      let after := body.trace (atomic || isAtomic) negated input attempts
      let succeeds := (body.read? (atomic || isAtomic) input).isSome
      if !atomic && succeeds == negated then
        after.note input.offset negated named attempts
      else after
  | _, _, attempts => attempts

end Expr

end CobolTree
