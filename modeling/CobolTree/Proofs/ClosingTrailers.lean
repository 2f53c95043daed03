import CobolTree.Proofs.Mismatches
import CobolTree.Proofs.Production.OpenUnits

/-!
Which unit a trailer closes. A unit is open where it has begun and its trailer has not been read
(`LocatedTree.OpenAt`). A trailer is that of the innermost unit open there that goes by the name in
it, or of the innermost of all if none of them does (`LocatedTree.ClosesAt`). Every unit decides this
for itself: it leaves a trailer that names a unit around it and not the unit itself. So what the parts
of a unit have behind them says which of the units within are still open (`Outcome.Ordered`), and
that none of those goes by the name of the trailer that is left (`Outcome.Closing`); the units around
are known by their names only. Both hold of the parts of any unit, by induction on the parts, and
with an empty row of units around it they make every trailer of a text close the right unit
(`Parsed.closesUnits_ofText`).
-/

namespace CobolTree

namespace LocatedTree

/-- A program of the declared name answers to the name in a trailer. -/
def Answers (declared : Option Text) (name : Leaf) : Prop :=
  ∃ text ∈ declared, Text.sameWord text (programName name.text) = true

/-- Of some units, the trailer that begins at an offset closes the given one by right: those that are
open within it have no trailer and do not answer to the name; and if the unit does not answer to it,
no other unit that is open does, and none is open within. -/
structure ClosesAt (units : List LocatedTree) (unit : LocatedTree) (place : Nat) (name : Leaf) :
    Prop where
  within : ∀ other ∈ units, OpenAt place other → (range unit).start < (range other).start →
    other.ownTokens = [] ∧ ¬Answers (goesBy? other) name
  otherwise : ¬Answers (goesBy? unit) name → ∀ other ∈ units, OpenAt place other →
    (range other).start ≤ (range unit).start ∧ ¬Answers (goesBy? other) name

/-- Units that are not open do not matter. -/
theorem ClosesAt.mono {units others : List LocatedTree} {unit : LocatedTree} {place : Nat}
    {name : Leaf} (h : ClosesAt units unit place name)
    (only : ∀ other ∈ others, OpenAt place other → other ∈ units) :
    ClosesAt others unit place name where
  within := fun other mem isOpen => h.within other (only other mem isOpen) isOpen
  otherwise := fun differs other mem isOpen =>
    h.otherwise differs other (only other mem isOpen) isOpen

/-- A name that differs is none that the program answers to. -/
theorem Contradicts.not_answers {declared : Option Text} {name : Leaf}
    (h : Contradicts declared name) : ¬Answers declared name := by
  obtain ⟨text, isName, differs⟩ := h
  rintro ⟨other, same, answers⟩
  cases Option.mem_unique isName same
  rw [Text.sameWord, beq_iff_eq] at answers
  rw [Text.sameWord, answers, beq_self_eq_true] at differs
  cases differs

end LocatedTree

namespace Outcome

open LocatedTree
open SourceTree (ownTokensOf_append)
open Production (UnitState trailerName?)

variable {α β : Type} {cursor : Cursor}

/-! ### What the parts close -/

/-- A part of a unit closes the right units, where the given programs are around it, the unit itself
among them: a trailer in it that its own unit does not answer to is none that one of the programs
answers to; and units in it that are open where a trailer is left behind it do not answer to that,
but one of the programs does. -/
structure Passes (programs : List ProgramIdentity) (cursor : Cursor) (outcome : Outcome α) :
    Prop where
  inside : ∀ unit ∈ unitsOf (outcome.located cursor), ∀ first ∈ unit.ownTokens.head?,
    ∀ name ∈ trailerName unit,
      ClosesAt (unitsOf (outcome.located cursor)) unit first.start name ∧
        (¬Answers (goesBy? unit) name → ∀ program ∈ programs, ¬Answers (some program.name) name)
  left : outcome.next.atEndProgram = true → ∀ token ∈ trailerName? outcome.next,
    ∀ unit ∈ unitsOf (outcome.located cursor), OpenAt outcome.next.position.index unit →
      unit.ownTokens = [] ∧ ¬Answers (goesBy? unit) token.leaf ∧
        ∃ program ∈ programs, Answers (some program.name) token.leaf

theorem passes_of_nil (programs : List ProgramIdentity) {outcome : Outcome α}
    (none : unitsOf (outcome.located cursor) = []) : outcome.Passes programs cursor := by
  constructor
  · intro unit mem
    rw [none] at mem
    cases mem
  · intro _ _ _ unit mem
    rw [none] at mem
    cases mem

/-- Blanks before a part do not matter. -/
theorem Passes.behind {programs : List ProgramIdentity} {first : Outcome α} {second : Outcome β}
    (faithful : first.Faithful cursor) (none : unitsOf (first.located cursor) = [])
    (h : second.Passes programs first.next) : (first.andThen second).Passes programs cursor := by
  have same : unitsOf ((first.andThen second).located cursor) =
      unitsOf (second.located first.next) := by
    rw [located_andThen faithful, unitsOf_append, none, List.nil_append]
  refine ⟨?_, ?_⟩
  · rw [same]
    exact h.inside
  · rw [same]
    exact h.left

/-- The parts of a unit close the right units within others. The trailer of the unit itself closes
those of the units in it that are open, or else is the unit's by right; and a trailer that is left
behind the parts is for one of the units around. -/
structure Closing (enclosing : List ProgramIdentity) (cursor : Cursor)
    (outcome : Outcome UnitState) : Prop where
  inside : ∀ unit ∈ unitsOf (outcome.located cursor), ∀ first ∈ unit.ownTokens.head?,
    ∀ name ∈ trailerName unit,
      ClosesAt (unitsOf (outcome.located cursor)) unit first.start name ∧
        (¬Answers (goesBy? unit) name →
          ∀ program ∈ outcome.value.identity.toList ++ enclosing,
            ¬Answers (some program.name) name)
  own : ∀ first ∈ (ownTokensOf (outcome.located cursor)).head?,
    ∀ name ∈ nameAfter (ownTokensOf (outcome.located cursor)),
      (∀ unit ∈ unitsOf (outcome.located cursor), OpenAt first.start unit →
        unit.ownTokens = [] ∧ ¬Answers (goesBy? unit) name) ∧
      (¬Answers (outcome.value.identity.map (·.name)) name →
        (∀ unit ∈ unitsOf (outcome.located cursor), ¬OpenAt first.start unit) ∧
          ∀ program ∈ enclosing, ¬Answers (some program.name) name)
  left : outcome.next.atEndProgram = true → ∀ token ∈ trailerName? outcome.next,
    (∀ unit ∈ unitsOf (outcome.located cursor), OpenAt outcome.next.position.index unit →
      unit.ownTokens = [] ∧ ¬Answers (goesBy? unit) token.leaf) ∧
    (ownTokensOf (outcome.located cursor) = [] →
      ¬Answers (outcome.value.identity.map (·.name)) token.leaf ∧
        ∃ program ∈ enclosing, Answers (some program.name) token.leaf)

/-- Parts without units are told by the trailer that they have or leave. -/
theorem closing_of_nil {enclosing : List ProgramIdentity} {outcome : Outcome UnitState}
    (none : unitsOf (outcome.located cursor) = [])
    (own : ∀ name ∈ nameAfter (ownTokensOf (outcome.located cursor)),
      ¬Answers (outcome.value.identity.map (·.name)) name →
        ∀ program ∈ enclosing, ¬Answers (some program.name) name)
    (left : outcome.next.atEndProgram = true → ∀ token ∈ trailerName? outcome.next,
      ownTokensOf (outcome.located cursor) = [] →
        ¬Answers (outcome.value.identity.map (·.name)) token.leaf ∧
          ∃ program ∈ enclosing, Answers (some program.name) token.leaf) :
    outcome.Closing enclosing cursor := by
  have closed {p : LocatedTree → Prop} : ∀ unit ∈ unitsOf (outcome.located cursor), p unit := by
    rw [none]
    exact List.forall_mem_nil p
  exact ⟨closed, fun _ _ name named => ⟨closed, fun differs => ⟨closed, own name named differs⟩⟩,
    fun ends token isName => ⟨closed, left ends token isName⟩⟩

theorem answers_of_mem_toList {identity : Option ProgramIdentity} {program : ProgramIdentity}
    (mem : program ∈ identity.toList) {name : Leaf} (answers : Answers (some program.name) name) :
    Answers (identity.map (·.name)) name := by
  rw [Option.mem_toList] at mem
  rw [Option.mem_def.mp mem]
  exact answers

section Closing

variable {enclosing : List ProgramIdentity} {identity : Option ProgramIdentity}

/-- A unit of a part that is open where the trailer of later parts begins is open where the part
ends, and was left by that trailer there. -/
theorem Passes.left_of_openAt {programs : List ProgramIdentity} {first : Outcome α}
    {second : Outcome UnitState} (passes : first.Passes programs cursor)
    (faithful : first.Faithful cursor) (later : second.Faithful first.next)
    (order : second.Ordered first.next) {leaf name : Leaf}
    (isFirst : leaf ∈ (ownTokensOf (second.located first.next)).head?)
    (named : name ∈ nameAfter (ownTokensOf (second.located first.next))) {unit : LocatedTree}
    (mem : unit ∈ unitsOf (first.located cursor)) (isOpen : OpenAt leaf.start unit) :
    unit.ownTokens = [] ∧ ¬Answers (goesBy? unit) name ∧
      ∃ program ∈ programs, Answers (some program.name) name := by
  have place := ((inside_located later).leaves leaf
    (mem_leavesOf_of_own (List.mem_of_head? isFirst))).1
  have same := eq_of_openAt faithful mem isOpen place
  obtain ⟨ends, found⟩ := order.opens leaf isFirst same
  rw [found] at named
  obtain ⟨token, isName, rfl⟩ := Option.map_eq_some_iff.mp (Option.mem_def.mp named)
  rw [same] at isOpen
  exact passes.left ends token isName unit mem isOpen

/-- A part goes before other parts of a unit that has come to its name. -/
theorem Closing.andThen {first : Outcome α} {second : Outcome UnitState}
    (faithful : first.Faithful cursor) (later : second.Faithful first.next)
    (none : ownTokensOf (first.located cursor) = [])
    (passes : first.Passes (identity.toList ++ enclosing) cursor)
    (kept : unitsOf (first.located cursor) ≠ [] → second.value.identity = identity)
    (order : second.Ordered first.next) (h : second.Closing enclosing first.next) :
    (first.andThen second).Closing enclosing cursor where
  inside := by
    intro unit mem leaf isFirst name named
    rw [located_andThen faithful, unitsOf_append] at mem ⊢
    rw [value_andThen]
    rcases List.mem_append.mp mem with left | right
    · obtain ⟨closes, around⟩ := passes.inside unit left leaf isFirst name named
      rw [kept (List.ne_nil_of_mem left)]
      refine ⟨closes.mono fun other mem isOpen => ?_, around⟩
      have place := (between_of_own faithful left (List.mem_of_head? isFirst)).2
      refine (List.mem_append.mp mem).resolve_right fun behind => ?_
      exact not_openAt_of_lt later behind place isOpen
    · obtain ⟨closes, around⟩ := h.inside unit right leaf isFirst name named
      refine ⟨closes.mono fun other mem isOpen => ?_, around⟩
      have place := order.behind unit right leaf isFirst
      refine (List.mem_append.mp mem).resolve_left fun before => ?_
      have same := eq_of_openAt faithful before isOpen (Nat.le_of_lt place)
      omega
  own := by
    intro leaf isFirst name named
    simp only [located_andThen faithful, ownTokensOf_append, none, List.nil_append, unitsOf_append,
      value_andThen, List.mem_append] at isFirst named ⊢
    obtain ⟨within, otherwise⟩ := h.own leaf isFirst name named
    have before {unit : LocatedTree} (mem : unit ∈ unitsOf (first.located cursor)) :=
      passes.left_of_openAt faithful later order isFirst named mem
    constructor
    · rintro unit (left | right) isOpen
      · obtain ⟨untrailed, differs, -⟩ := before left isOpen
        exact ⟨untrailed, differs⟩
      · exact within unit right isOpen
    · intro differs
      obtain ⟨closed, around⟩ := otherwise differs
      refine ⟨?_, around⟩
      rintro unit (left | right) isOpen
      · obtain ⟨-, -, program, mem, answers⟩ := before left isOpen
        rcases List.mem_append.mp mem with itself | outer
        · rw [kept (List.ne_nil_of_mem left)] at differs
          exact differs (answers_of_mem_toList itself answers)
        · exact around program outer answers
      · exact closed unit right isOpen
  left := by
    intro ends token isName
    simp only [located_andThen faithful, ownTokensOf_append, none, List.nil_append, unitsOf_append,
      value_andThen, Outcome.next_andThen, List.mem_append] at ends isName ⊢
    obtain ⟨within, outer⟩ := h.left ends token isName
    refine ⟨?_, outer⟩
    rintro unit (left | right) isOpen
    · have same := eq_of_openAt faithful left isOpen (index_le_next later)
      have still := (still_of_index_le later (Nat.le_of_eq same)).1
      rw [still] at ends isName isOpen
      obtain ⟨untrailed, differs, -⟩ := passes.left ends token isName unit left isOpen
      exact ⟨untrailed, differs⟩
    · exact within unit right isOpen

end Closing

/-! ### Units that no other encloses -/

/-- Units that no other encloses close the right units: none of them is open where a trailer follows;
and a trailer of one of them begins with the first token only if it stands there. -/
structure Closed (cursor : Cursor) (outcome : Outcome α) : Prop where
  inside : ∀ unit ∈ unitsOf (outcome.located cursor), ∀ first ∈ unit.ownTokens.head?,
    ∀ name ∈ trailerName unit, ClosesAt (unitsOf (outcome.located cursor)) unit first.start name
  left : outcome.next.atEndProgram = true → ∀ token ∈ trailerName? outcome.next,
    ∀ unit ∈ unitsOf (outcome.located cursor), ¬OpenAt outcome.next.position.index unit
  opens : ∀ unit ∈ unitsOf (outcome.located cursor), ∀ first ∈ unit.ownTokens.head?,
    first.start = cursor.position.index → cursor.atEndProgram = true ∧
      trailerName unit = (trailerName? cursor).map Token.leaf

theorem Closed.withValue {outcome : Outcome α} (value : β) (h : outcome.Closed cursor) :
    (outcome.withValue value).Closed cursor := ⟨h.inside, h.left, h.opens⟩

theorem closed_of_nil {outcome : Outcome α} (none : unitsOf (outcome.located cursor) = []) :
    outcome.Closed cursor := by
  have closed {p : LocatedTree → Prop} : ∀ unit ∈ unitsOf (outcome.located cursor), p unit := by
    rw [none]
    exact List.forall_mem_nil p
  exact ⟨closed, fun _ _ _ => closed, closed⟩

theorem Closed.andThen {first : Outcome α} {second : Outcome β} (faithful : first.Faithful cursor)
    (later : second.Faithful first.next) (h : first.Closed cursor)
    (k : second.Closed first.next) : (first.andThen second).Closed cursor where
  inside := by
    intro unit mem leaf isFirst name named
    rw [located_andThen faithful, unitsOf_append] at mem ⊢
    rcases List.mem_append.mp mem with left | right
    · refine (h.inside unit left leaf isFirst name named).mono fun other mem isOpen => ?_
      have place := (between_of_own faithful left (List.mem_of_head? isFirst)).2
      refine (List.mem_append.mp mem).resolve_right fun behind => ?_
      exact not_openAt_of_lt later behind place isOpen
    · refine (k.inside unit right leaf isFirst name named).mono fun other mem isOpen => ?_
      refine (List.mem_append.mp mem).resolve_left fun before => ?_
      have place := (between_of_own later right (List.mem_of_head? isFirst)).1
      have same := eq_of_openAt faithful before isOpen place
      obtain ⟨ends, found⟩ := k.opens unit right leaf isFirst same
      rw [found] at named
      obtain ⟨token, isName, -⟩ := Option.map_eq_some_iff.mp (Option.mem_def.mp named)
      rw [same] at isOpen
      exact h.left ends token isName other before isOpen
  left := by
    intro ends token isName unit mem isOpen
    rw [located_andThen faithful, unitsOf_append] at mem
    rw [Outcome.next_andThen] at ends isName isOpen
    rcases List.mem_append.mp mem with left | right
    · have same := eq_of_openAt faithful left isOpen (index_le_next later)
      rw [(still_of_index_le later (Nat.le_of_eq same)).1] at ends isName isOpen
      exact h.left ends token isName unit left isOpen
    · exact k.left ends token isName unit right isOpen
  opens := by
    intro unit mem leaf isFirst same
    rw [located_andThen faithful, unitsOf_append] at mem
    rcases List.mem_append.mp mem with left | right
    · exact h.opens unit left leaf isFirst same
    · have place := (between_of_own later right (List.mem_of_head? isFirst)).1
      have still := (still_of_index_le faithful (by omega)).1
      rw [← still] at same ⊢
      exact k.opens unit right leaf isFirst same

end Outcome

namespace Production

open LocatedTree
open Outcome (index_le_next inside_located)

variable {cursor : Cursor}

/-- A trailer with a name is left if the program does not answer to it, and one of those around does. -/
theorem closesEnclosing_eq {token : Token} (ends : cursor.atEndProgram = true)
    (isName : trailerName? cursor = some token) (current : Option ProgramIdentity)
    (enclosing : List ProgramIdentity) :
    closesEnclosing current enclosing cursor = true ↔
      ¬Answers (current.map (·.name)) token.leaf ∧
        ∃ program ∈ enclosing, Answers (some program.name) token.leaf := by
  obtain ⟨first, second, ahead, words⟩ := Cursor.atEndProgram_iff.mp ends
  obtain ⟨middle, after, one, two⟩ := Cursor.ahead_two_eq_iff.mp ahead
  have isProgram := (Bool.and_eq_true_iff.mp words).2
  rw [trailerName?, next_bump_eatWord one two isProgram] at isName
  obtain ⟨behind, third, -⟩ := exists_significant?_of_eatIf isName
  rw [closesEnclosing_apply one two, third]
  cases current <;> simp [Answers, Token.leaf]

section Units

variable (settings : Settings)

/-- A unit that has been read is a part of those around it. -/
theorem passes_closeUnit (start : Cursor) {enclosing : List ProgramIdentity}
    {parts : Outcome UnitState} (faithful : parts.Faithful cursor)
    (named : goesBy? (parts.top .programUnit cursor) = parts.value.identity.map (·.name))
    (order : parts.Ordered cursor) (h : parts.Closing enclosing cursor) :
    (closeUnit start parts).Passes enclosing cursor := by
  have inside := inside_located faithful
  have begins (other : LocatedTree) (mem : other ∈ unitsOf (parts.located cursor)) :
      (range (parts.top .programUnit cursor)).start ≤ (range other).start :=
    (inside.bounds mem).1
  constructor
  · intro unit mem leaf isFirst name trailer
    rw [located_closeUnit, Outcome.top, unitsOf_unit rfl] at mem ⊢
    rcases List.mem_cons.mp mem with rfl | inner
    · obtain ⟨within, otherwise⟩ := h.own leaf isFirst name trailer
      rw [← named] at otherwise
      refine ⟨⟨fun other mem isOpen later => ?_, fun differs other mem isOpen => ?_⟩,
        fun differs => (otherwise differs).2⟩
      · rcases List.mem_cons.mp mem with rfl | among
        · exact absurd later (Nat.lt_irrefl _)
        · exact within other among isOpen
      · rcases List.mem_cons.mp mem with rfl | among
        · exact ⟨Nat.le_refl _, differs⟩
        · exact absurd isOpen ((otherwise differs).1 other among)
    · obtain ⟨closes, around⟩ := h.inside unit inner leaf isFirst name trailer
      have outer := begins unit inner
      refine ⟨⟨fun other mem isOpen later => ?_, fun differs other mem isOpen => ?_⟩,
        fun differs program mem => around differs program (List.mem_append_right _ mem)⟩
      · rcases List.mem_cons.mp mem with rfl | among
        · exact absurd later (Nat.not_lt.mpr outer)
        · exact closes.within other among isOpen later
      · rcases List.mem_cons.mp mem with rfl | among
        · refine ⟨outer, ?_⟩
          rintro ⟨text, isName, answers⟩
          change text ∈ goesBy? (parts.top .programUnit cursor) at isName
          rw [named] at isName
          obtain ⟨program, identity, rfl⟩ := Option.map_eq_some_iff.mp (Option.mem_def.mp isName)
          refine around differs program (List.mem_append_left _ ?_) ⟨_, rfl, answers⟩
          exact Option.mem_toList.mpr identity
        · exact closes.otherwise differs other among isOpen
  · intro ends token isName unit mem isOpen
    rw [located_closeUnit, Outcome.top, unitsOf_unit rfl] at mem
    rw [next_closeUnit] at ends isName isOpen
    obtain ⟨within, outer⟩ := h.left ends token isName
    rcases List.mem_cons.mp mem with rfl | inner
    · have untrailed : ownTokensOf (parts.located cursor) = [] := by
        refine List.eq_nil_iff_forall_not_mem.mpr fun leaf own => ?_
        have before := (inside.leaves leaf (mem_leavesOf_of_own own)).2
        have behind := isOpen.2.2 leaf own
        omega
      obtain ⟨differs, around⟩ := outer untrailed
      rw [← named] at differs
      exact ⟨untrailed, differs, around⟩
    · obtain ⟨untrailed, differs⟩ := within unit inner isOpen
      exact ⟨untrailed, differs, (outer (order.reach unit inner isOpen)).2⟩

/-- A part of a unit closes the right units if a unit nested there does. -/
theorem passes_unitStep (enclosing : List ProgramIdentity) (state : UnitState)
    (nested : ∀ inner, state.seen ≠ [] →
      (unitRounds settings inner .fresh cursor).Closing inner cursor) :
    (unitStep settings enclosing state cursor).Passes (state.identity.toList ++ enclosing)
      cursor := by
  by_cases inside : cursor.divisionHeader? = some .identification ∧ state.seen ≠ []
  · rw [unitStep_of_nested settings enclosing inside]
    have closed := passes_closeUnit cursor (faithful_unitRounds settings _ .fresh cursor)
      (goesBy?_top settings _ cursor) (ordered_unitRounds settings _ .fresh cursor)
      (nested (state.identity.toList ++ enclosing) inside.2)
    exact ⟨closed.inside, closed.left⟩
  · rw [unitStep_of_not_nested settings enclosing inside]
    exact Outcome.passes_of_nil _ (unitsOf_unitPart settings state cursor)

/-- A unit that another is nested in keeps its name. -/
theorem identity_unitStep (enclosing : List ProgramIdentity) (state : UnitState) :
    let part := unitStep settings enclosing state cursor
    unitsOf (part.located cursor) ≠ [] →
      (unitRounds settings enclosing part.value part.next).value.identity = state.identity := by
  intro part holds
  have inside := seen_ne_nil_of_unitsOf settings enclosing holds
  have same : part.value = state := by
    simp only [part, unitStep_of_nested settings enclosing inside]
    rfl
  rw [same]
  exact ((namesUnit_unitRounds settings enclosing state part.next).begun inside.2).2.1

/-- The parts of a unit close the right units, in whatever state the unit is. -/
theorem closing_unitRounds (enclosing : List ProgramIdentity) (state : UnitState)
    (cursor : Cursor) :
    (unitRounds settings enclosing state cursor).Closing enclosing cursor := by
  have units (state : UnitState) (cursor : Cursor) :
      unitsOf (((trivia .programUnit cursor).withValue state).located cursor) = [] := by
    rw [Outcome.located_withValue, unitsOf_flat (flat_trivia _ cursor)]
  refine unitRounds_induction_within settings enclosing
    (motive := fun enclosing _ cursor outcome => outcome.Closing enclosing cursor)
    ?ends ?leaves ?closes ?goesOn state cursor
  case ends =>
    intro enclosing state cursor lead ended
    refine Outcome.closing_of_nil (units state cursor) ?_ ?_
    · intro name named
      rw [Outcome.located_withValue, ownTokensOf_trivia] at named
      cases named
    · intro ends
      exact absurd ends (Bool.eq_false_iff.mp (atEndProgram_of_atEnd ended))
  case leaves =>
    intro enclosing state cursor lead ends enclosed
    refine Outcome.closing_of_nil (units state cursor) ?_ ?_
    · intro name named
      rw [Outcome.located_withValue, ownTokensOf_trivia] at named
      cases named
    · exact fun _ token isName _ => (closesEnclosing_eq ends isName _ _).mp enclosed
  case closes =>
    intro enclosing state cursor lead ends stays
    have own := ownTokensOf_trivia_andThen cursor (trailer state.identity lead.next)
    refine Outcome.closing_of_nil ?_ ?_ ?_
    · exact (unitsOf_trivia_andThen cursor _).trans (unitsOf_flat (flat_trailer _ lead.next))
    · intro name named differs program mem answers
      rw [Outcome.located_withValue, own, nameAfter_trailer state.identity ends] at named
      obtain ⟨token, isName, rfl⟩ := Option.map_eq_some_iff.mp (Option.mem_def.mp named)
      have leaves := (closesEnclosing_eq ends isName state.identity enclosing).mpr
        ⟨differs, program, mem, answers⟩
      rw [leaves] at stays
      cases stays
    · intro _ token _ none
      rw [Outcome.located_withValue, own] at none
      exact absurd none (ownTokensOf_trailer state.identity ends)
  case goesOn =>
    intro enclosing state cursor lead part rest atToken notTrailer nested later
    have flat := flat_trivia .programUnit cursor
    have step := faithful_unitStep settings enclosing state lead.next
    have passes := (passes_unitStep settings enclosing state nested).behind flat.faithful
      (unitsOf_flat flat)
    refine Outcome.Closing.andThen (flat.faithful.andThen step)
      (faithful_unitRounds settings enclosing _ _)
      (ownTokensOf_unitStep settings enclosing state cursor) passes ?_
      (ordered_unitRounds settings enclosing _ _) later
    rw [unitsOf_trivia_andThen]
    exact identity_unitStep settings enclosing state

/-- A unit that no other encloses closes the right units. -/
theorem closed_closeUnit (start cursor : Cursor) :
    (closeUnit start (unitRounds settings [] .fresh cursor)).Closed cursor := by
  have order := ordered_unitRounds settings [] .fresh cursor
  have passes := passes_closeUnit start (faithful_unitRounds settings [] .fresh cursor)
    (goesBy?_top settings [] cursor) order (closing_unitRounds settings [] .fresh cursor)
  refine ⟨fun unit mem first isFirst name named => ?_, fun ends token isName unit mem isOpen => ?_,
    fun unit mem first isFirst same => ?_⟩
  · exact (passes.inside unit mem first isFirst name named).1
  · obtain ⟨-, -, program, around, -⟩ := passes.left ends token isName unit mem isOpen
    cases around
  · rw [located_closeUnit, Outcome.top, unitsOf_unit rfl] at mem
    rcases List.mem_cons.mp mem with rfl | inner
    · exact order.opens first isFirst same
    · have behind := order.behind unit inner first isFirst
      omega

theorem closed_programUnits (cursor : Cursor) : (programUnits settings cursor).Closed cursor := by
  refine programUnits_of_unit settings
    (motive := fun cursor outcome => outcome.Closed cursor) ?_ ?_ ?_ ?_ cursor
  · exact fun value h => h.withValue value
  · exact fun faithful later h k => h.andThen faithful later k
  · exact fun cursor => Outcome.closed_of_nil (unitsOf_flat (flat_trivia _ cursor))
  · exact fun cursor => closed_closeUnit settings cursor cursor

end Units

end Production

namespace Parsed

open LocatedTree

/-- Every trailer of a text closes the right unit. END PROGRAM opens a trailer, unless END is the name
in a trailer or in a PROGRAM-ID paragraph. A unit with a trailer that has a name is open where the
trailer begins, and the trailer closes it by right; the units that are open there have declared all
their names before; and a mismatch is reported with the name only if none of them goes by it. -/
structure ClosesUnits (parsed : Parsed) : Prop where
  opens : ∀ first second : Token,
    [first, second] <:+: parsed.tokens.filter (!·.isTrivia) → first.isWord "END".toList = true →
      second.isWord "PROGRAM".toList = true →
        parsed.landmarks.OpensTrailer first.leaf ∨ parsed.landmarks.NamesTrailer first.leaf ∨
          parsed.landmarks.NamesProgram first.leaf
  closes : ∀ unit ∈ parsed.units, ∀ first ∈ unit.ownTokens.head?, ∀ name ∈ trailerName unit,
    OpenAt first.start unit ∧ ClosesAt parsed.units unit first.start name
  declared : DeclareBefore parsed.units
  reported : ∀ unit ∈ parsed.units, ∀ first ∈ unit.ownTokens.head?, ∀ name ∈ trailerName unit,
    Diagnostic.TellsOf parsed.diagnostics name → ∀ other ∈ parsed.units,
      OpenAt first.start other → ¬Answers (goesBy? other) name

/-- The trailers of every text close the right units. -/
theorem closesUnits_ofText (settings : Settings) (text : Text) :
    (ofText settings text).ClosesUnits := by
  have closed (unit : LocatedTree) (mem : unit ∈ (ofText settings text).units) (first : Leaf)
      (isFirst : first ∈ unit.ownTokens.head?) (name : Leaf) (named : name ∈ trailerName unit) :
      ClosesAt (ofText settings text).units unit first.start name := by
    rw [units_ofText] at mem ⊢
    exact (Production.closed_programUnits settings (.start text)).inside unit mem first isFirst
      name named
  constructor
  · intro first second neighbours isEnd isProgram
    exact trailer_of_neighbours settings text neighbours isEnd isProgram
  · intro unit mem first isFirst name named
    exact ⟨openAt_trailer mem isFirst, closed unit mem first isFirst name named⟩
  · exact declareBefore_ofText settings text
  · intro unit mem first isFirst name named told other among isOpen
    have differs := (contradicts_of_tellsOf mem named told).not_answers
    exact ((closed unit mem first isFirst name named).otherwise differs other among isOpen).2

end Parsed

end CobolTree
