import CobolTree.Proofs.Production.Progress

/-!
Two runs in lockstep. Where outcomes that are related give the same value and end at the same place,
two loops take the same rounds; so runs over program units under two settings are related if the
steps that they are made of are (`Outcome.Lockstep.programUnits`).
-/

namespace CobolTree

/-- A relation between outcomes of two runs that take the same way: what they have read decides the
same for both, and outcomes are related that are put together from related ones. -/
structure Outcome.Lockstep (related : (α : Type) → Outcome α → Outcome α → Prop) : Prop where
  value : ∀ {α : Type} {first second : Outcome α}, related α first second →
    second.value = first.value
  next : ∀ {α : Type} {first second : Outcome α}, related α first second →
    second.next = first.next
  withValue : ∀ {α β : Type} {first second : Outcome α} (value : β), related α first second →
    related β (first.withValue value) (second.withValue value)
  andThen : ∀ {α β : Type} {first second : Outcome α} {third fourth : Outcome β},
    related α first second → related β third fourth →
      related β (first.andThen third) (second.andThen fourth)

namespace Production

/-- Outcomes of the steps in a run over program units are related under two settings. -/
structure StepsRelated (related : (α : Type) → Outcome α → Outcome α → Prop)
    (settings other : Settings) : Prop where
  blanks : ∀ cursor, related Unit (trivia .programUnit cursor) (trivia .programUnit cursor)
  trailer : ∀ current cursor, related Unit (trailer current cursor) (trailer current cursor)
  part : ∀ state cursor, related UnitState (unitPart settings state cursor)
    (unitPart other state cursor)
  unit : ∀ start {parts others : Outcome UnitState}, related UnitState parts others →
    related Unit (closeUnit start parts) (closeUnit start others)

end Production

namespace Outcome.Lockstep

open Production

variable {related : (α : Type) → Outcome α → Outcome α → Prop} (lockstep : Lockstep related)

include lockstep

/-- Loops are related whose rounds are. -/
theorem repeating {σ : Type} {round another : σ → Production (ForInStep σ)}
    (each : ∀ state cursor, related _ (round state cursor) (another state cursor))
    (state : σ) (cursor : Cursor) :
    related σ (Production.repeating round state cursor)
      (Production.repeating another state cursor) := by
  fun_induction Production.repeating round state cursor with
  | case1 state cursor first final h =>
      have same := each state cursor
      rw [repeating_of_done ((lockstep.value same).trans h)]
      exact lockstep.withValue final same
  | case2 state cursor first next h shorter ih =>
      have same := each state cursor
      have less : (another state cursor).next.rest.length < cursor.rest.length := by
        rw [lockstep.next same]
        exact shorter
      rw [repeating_of_yield ((lockstep.value same).trans h) less, lockstep.next same]
      exact lockstep.andThen same ih
  | case3 state cursor first next h longer =>
      have same := each state cursor
      have value : (another state cursor).value = .yield next := (lockstep.value same).trans h
      have stays : ¬(another state cursor).next.rest.length < cursor.rest.length := by
        rw [lockstep.next same]
        exact longer
      rw [Production.repeating, value]
      simp only [if_neg stays]
      exact lockstep.withValue next same

variable {settings other : Settings} (steps : StepsRelated related settings other)

include steps

theorem unitStep (enclosing : List ProgramIdentity) (state : UnitState) (cursor : Cursor)
    (nested : ∀ inner, state.seen ≠ [] →
      related _ (unitRounds settings inner .fresh cursor) (unitRounds other inner .fresh cursor)) :
    related _ (Production.unitStep settings enclosing state cursor)
      (Production.unitStep other enclosing state cursor) := by
  by_cases inside : cursor.divisionHeader? = some .identification ∧ state.seen ≠ []
  · rw [unitStep_of_nested settings enclosing inside, unitStep_of_nested other enclosing inside]
    exact lockstep.withValue state (steps.unit cursor (nested _ inside.2))
  · rw [unitStep_of_not_nested settings enclosing inside,
      unitStep_of_not_nested other enclosing inside]
    exact steps.part state cursor

/-- The parts of a unit are related, and so is what they leave for the unit around them. -/
theorem unitRounds (enclosing : List ProgramIdentity) (state : UnitState) (cursor : Cursor) :
    related _ (Production.unitRounds settings enclosing state cursor)
      (Production.unitRounds other enclosing state cursor) := by
  refine unitRounds_induction_within settings enclosing
    (motive := fun enclosing state cursor outcome =>
      related _ outcome (Production.unitRounds other enclosing state cursor))
    ?ends ?leaves ?closes ?goesOn state cursor
  case ends =>
    intro enclosing state cursor lead ended
    rw [unitRounds_eq, if_pos ended]
    exact lockstep.withValue state (steps.blanks cursor)
  case leaves =>
    intro enclosing state cursor lead closing enclosed
    rw [unitRounds_eq, if_neg (not_atEnd_of_atEndProgram closing), if_pos closing, if_pos enclosed]
    exact lockstep.withValue state (steps.blanks cursor)
  case closes =>
    intro enclosing state cursor lead closing own
    rw [unitRounds_eq, if_neg (not_atEnd_of_atEndProgram closing), if_pos closing,
      if_neg (Bool.eq_false_iff.mp own)]
    have trailers := steps.trailer state.identity lead.next
    exact lockstep.withValue state (lockstep.andThen (steps.blanks cursor) trailers)
  case goesOn =>
    intro enclosing state cursor lead part rest atToken notTrailer nested later
    have step := lockstep.unitStep steps enclosing state lead.next nested
    rw [unitRounds_eq, if_neg (fun ended => atToken.rest_ne_nil (Cursor.atEnd_iff.mp ended)),
      if_neg (Bool.eq_false_iff.mp notTrailer)]
    simp only
    rw [lockstep.value step, lockstep.next step]
    exact lockstep.andThen (lockstep.andThen (steps.blanks cursor) step) later

theorem programUnits (cursor : Cursor) :
    related Unit (Production.programUnits settings cursor)
      (Production.programUnits other cursor) := by
  have loop (settings : Settings) := rounds_eq_repeating .programUnit
    (fun _ => faithful_programUnitRound settings) (advances_programUnitRound settings) ()
  rw [Production.programUnits, Production.programUnits, loop, loop]
  apply lockstep.repeating
  intro _ cursor
  rw [programUnitRound_apply, programUnitRound_apply]
  simp only
  split
  · rw [Outcome.andThen_still]
    exact lockstep.withValue _ (steps.blanks cursor)
  · have rounds := lockstep.unitRounds steps [] .fresh (trivia .programUnit cursor).next
    exact lockstep.andThen (steps.blanks cursor) (lockstep.withValue _ (steps.unit _ rounds))

end Outcome.Lockstep

end CobolTree
