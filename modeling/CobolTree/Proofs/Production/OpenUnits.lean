import CobolTree.Proofs.Production.Trailers

/-!
Units that are open. A unit is open at an offset where it has begun and has not ended, if its trailer
does not begin before (`LocatedTree.OpenAt`); so it is open where its trailer begins
(`Parsed.openAt_trailer`). Each part of a unit begins where the one before it ends, so a unit that is
open at an offset behind it is open at its end, and only until more is read (`Outcome.eq_of_openAt`,
`Production.ordered_unitRounds`). Where a trailer begins, the units that are open have declared all
their names already (`Parsed.declareBefore_ofText`).
-/

namespace CobolTree

namespace LocatedTree

/-- The unit is open at an offset: it has begun, it has not ended, and its trailer does not begin
before. -/
def OpenAt (place : Nat) (unit : LocatedTree) : Prop :=
  (range unit).start ≤ place ∧ place ≤ (range unit).stop ∧
    ∀ leaf ∈ unit.ownTokens, place ≤ leaf.start

section Inside

variable {first last place : Nat} {forest : List LocatedTree} {unit : LocatedTree}

theorem Inside.bounds (h : Inside first last forest) (mem : unit ∈ unitsOf forest) :
    first ≤ (range unit).start ∧ (range unit).stop ≤ last :=
  h.nodes unit (List.mem_filter.mp mem).1

/-- The trailer of a unit stands between the bounds of the unit. -/
theorem Inside.trailer (h : Inside first last forest) (mem : unit ∈ unitsOf forest) {leaf : Leaf}
    (own : leaf ∈ unit.ownTokens) :
    (range unit).start ≤ leaf.start ∧ leaf.start < (range unit).stop :=
  h.below unit (List.mem_filter.mp mem).1 leaf (mem_leavesOf_of_own own)

end Inside

/-! ### Names that are declared -/

theorem mem_of_paragraphNames {forest : List LocatedTree} {name : Leaf}
    (mem : name ∈ paragraphNames forest) : name ∈ Tree.leavesOf forest := by
  obtain ⟨paragraph, sort, declares⟩ := List.mem_filterMap.mp mem
  have token : name ∈ paragraph.tokens :=
    List.mem_of_mem_drop (List.mem_of_find?_eq_some declares)
  rw [Tree.leavesOf_eq_flatMap]
  exact List.mem_flatMap.mpr ⟨paragraph, (List.mem_filter.mp sort).1, (List.mem_filter.mp token).1⟩

/-- A name that is declared in a forest is a leaf of the forest. -/
theorem mem_of_declaredNames {forest : List LocatedTree} {name : Leaf}
    (mem : name ∈ declaredNames forest) : name ∈ Tree.leavesOf forest := by
  obtain ⟨division, sort, declares⟩ := List.mem_flatMap.mp mem
  have below := mem_of_paragraphNames declares
  rw [Tree.leavesOf_eq_flatMap]
  refine List.mem_flatMap.mpr ⟨division, (List.mem_filter.mp sort).1, ?_⟩
  cases division with
  | leaf => cases below
  | node => exact below

/-- A unit declares its names before it ends. -/
theorem Inside.declared {first last : Nat} {forest : List LocatedTree} {unit : LocatedTree}
    (h : Inside first last forest) (mem : unit ∈ unitsOf forest) {name : Leaf}
    (declares : name ∈ declaredNames unit.children) : name.start < last := by
  have place := h.below unit (List.mem_filter.mp mem).1 name (mem_of_declaredNames declares)
  have stop := (h.bounds mem).2
  omega

/-- All names that a forest declares stand before an offset. -/
def NamesBefore (place : Nat) (forest : List LocatedTree) : Prop :=
  ∀ name ∈ declaredNames forest, name.start < place

/-- Where a trailer of one of the units begins, those of them that are open have declared their
names. -/
def DeclareBefore (units : List LocatedTree) : Prop :=
  ∀ unit ∈ units, ∀ first ∈ unit.ownTokens.head?, ∀ other ∈ units, OpenAt first.start other →
    NamesBefore first.start other.children

end LocatedTree

namespace Outcome

open LocatedTree
open SourceTree (ownTokensOf_append)
open Production (UnitState trailerName?)

variable {α β : Type} {cursor : Cursor}

/-- Where a token has been read, the cursor has moved. -/
theorem index_lt_next {outcome : Outcome α} (h : outcome.Faithful cursor)
    (some : outcome.tokens ≠ []) : cursor.position.index < outcome.next.position.index := by
  have long := List.length_pos_iff.mpr (h.reads.text_ne_nil some)
  have size := Text.length_le_byteLength (Lexeme.textOf (Token.lexemes outcome.tokens))
  rw [h.reads.position_eq, Position.index_advance]
  omega

/-- Where the cursor has not moved, nothing has been read. -/
theorem still_of_index_le {outcome : Outcome α} (h : outcome.Faithful cursor)
    (still : outcome.next.position.index ≤ cursor.position.index) :
    outcome.next = cursor ∧ ownTokensOf (outcome.located cursor) = [] := by
  have none : outcome.tokens = [] := by
    by_contra some
    exact absurd (index_lt_next h some) (Nat.not_lt.mpr still)
  have reads := h.reads
  have leaves := leavesOf_located h
  rw [none] at reads leaves
  refine ⟨by cases reads; rfl, List.eq_nil_iff_forall_not_mem.mpr fun leaf own => ?_⟩
  have mem := mem_leavesOf_of_own own
  rw [leaves] at mem
  cases mem

/-- A unit that is open at an offset behind a row of trees is open at its end. -/
theorem eq_of_openAt {outcome : Outcome α} (h : outcome.Faithful cursor) {unit : LocatedTree}
    (mem : unit ∈ unitsOf (outcome.located cursor)) {place : Nat} (isOpen : OpenAt place unit)
    (after : outcome.next.position.index ≤ place) : place = outcome.next.position.index := by
  have stop := ((inside_located h).bounds mem).2
  have reaches := isOpen.2.1
  omega

/-- A unit behind an offset is not open there. -/
theorem not_openAt_of_lt {outcome : Outcome α} (h : outcome.Faithful cursor) {unit : LocatedTree}
    (mem : unit ∈ unitsOf (outcome.located cursor)) {place : Nat}
    (before : place < cursor.position.index) : ¬OpenAt place unit := by
  intro isOpen
  have start := ((inside_located h).bounds mem).1
  have begun := isOpen.1
  omega

/-- The trailers of units stand between the cursors around the units. -/
theorem between_of_own {outcome : Outcome α} (h : outcome.Faithful cursor) {unit : LocatedTree}
    (mem : unit ∈ unitsOf (outcome.located cursor)) {leaf : Leaf} (own : leaf ∈ unit.ownTokens) :
    cursor.position.index ≤ leaf.start ∧ leaf.start < outcome.next.position.index := by
  have bounds := (inside_located h).bounds mem
  have place := (inside_located h).trailer mem own
  omega

/-! ### Where the parts lie -/

/-- Where the parts of a unit lie: a unit among them that is open behind them has kept the unit around
it from its trailer; trailers within stand behind the first token; and if the trailer of the unit
begins with the first token, END PROGRAM stands there. -/
structure Ordered (cursor : Cursor) (outcome : Outcome UnitState) : Prop where
  reach : ∀ unit ∈ unitsOf (outcome.located cursor), OpenAt outcome.next.position.index unit →
    ownTokensOf (outcome.located cursor) = []
  behind : ∀ unit ∈ unitsOf (outcome.located cursor), ∀ first ∈ unit.ownTokens.head?,
    cursor.position.index < first.start
  opens : ∀ first ∈ (ownTokensOf (outcome.located cursor)).head?,
    first.start = cursor.position.index → cursor.atEndProgram = true ∧
      nameAfter (ownTokensOf (outcome.located cursor)) = (trailerName? cursor).map Token.leaf

/-- Parts without units and without a trailer are in order. -/
theorem ordered_of_nil {outcome : Outcome UnitState}
    (none : unitsOf (outcome.located cursor) = [])
    (own : ownTokensOf (outcome.located cursor) = []) : outcome.Ordered cursor where
  reach := fun _ _ _ => own
  behind := by
    intro unit mem
    rw [none] at mem
    cases mem
  opens := by
    intro first mem
    rw [own] at mem
    cases mem

/-- A part that reads something goes before other parts. -/
theorem Ordered.andThen {first : Outcome α} {second : Outcome UnitState}
    (faithful : first.Faithful cursor) (later : second.Faithful first.next)
    (own : ownTokensOf (first.located cursor) = [])
    (moved : cursor.position.index < first.next.position.index)
    (before : ∀ unit ∈ unitsOf (first.located cursor), ∀ leaf ∈ unit.ownTokens.head?,
      cursor.position.index < leaf.start)
    (h : second.Ordered first.next) : (first.andThen second).Ordered cursor where
  reach := by
    intro unit mem isOpen
    rw [located_andThen faithful, unitsOf_append] at mem
    rw [located_andThen faithful, ownTokensOf_append, own, List.nil_append]
    rw [Outcome.next_andThen] at isOpen
    rcases List.mem_append.mp mem with left | right
    · have still := eq_of_openAt faithful left isOpen (index_le_next later)
      exact (still_of_index_le later (Nat.le_of_eq still)).2
    · exact h.reach unit right isOpen
  behind := by
    intro unit mem leaf isFirst
    rw [located_andThen faithful, unitsOf_append] at mem
    rcases List.mem_append.mp mem with left | right
    · exact before unit left leaf isFirst
    · exact Nat.lt_trans moved (h.behind unit right leaf isFirst)
  opens := by
    intro leaf isFirst same
    rw [located_andThen faithful, ownTokensOf_append, own, List.nil_append] at isFirst
    have place := (inside_located later).leaves leaf
      (mem_leavesOf_of_own (List.mem_of_head? isFirst))
    omega

/-! ### When names are declared -/

/-- Units before others have declared their names before the trailers of those begin. -/
theorem declareBefore_andThen {first : Outcome α} {second : Outcome β}
    (faithful : first.Faithful cursor) (later : second.Faithful first.next)
    (h : DeclareBefore (unitsOf (first.located cursor)))
    (k : DeclareBefore (unitsOf (second.located first.next))) :
    DeclareBefore (unitsOf ((first.andThen second).located cursor)) := by
  intro unit mem leaf isFirst other among isOpen
  rw [located_andThen faithful, unitsOf_append] at mem among
  rcases List.mem_append.mp mem with left | right
  · rcases List.mem_append.mp among with before | behind
    · exact h unit left leaf isFirst other before isOpen
    · have place := (between_of_own faithful left (List.mem_of_head? isFirst)).2
      exact absurd isOpen (not_openAt_of_lt later behind place)
  · rcases List.mem_append.mp among with before | behind
    · intro name declares
      have place := (between_of_own later right (List.mem_of_head? isFirst)).1
      exact Nat.lt_of_lt_of_le ((inside_located faithful).declared before declares) place
    · exact k unit right leaf isFirst other behind isOpen

/-- Where the trailer of a unit begins, or that of a unit among its parts, the unit and those among its
parts that are open have declared their names. -/
def DeclaresBefore (cursor : Cursor) (outcome : Outcome UnitState) : Prop :=
  ∀ trailer ∈ ownTokensOf (outcome.located cursor) ::
      (unitsOf (outcome.located cursor)).map ownTokens,
    ∀ first ∈ trailer.head?, NamesBefore first.start (outcome.located cursor) ∧
      ∀ other ∈ unitsOf (outcome.located cursor), OpenAt first.start other →
        NamesBefore first.start other.children

/-- A part with units in it is followed by no names. -/
theorem DeclaresBefore.andThen {first : Outcome α} {second : Outcome UnitState}
    (faithful : first.Faithful cursor) (later : second.Faithful first.next)
    (own : ownTokensOf (first.located cursor) = [])
    (before : DeclareBefore (unitsOf (first.located cursor)))
    (none : unitsOf (first.located cursor) ≠ [] →
      declaredNames ((first.andThen second).located cursor) = [])
    (h : second.DeclaresBefore first.next) : (first.andThen second).DeclaresBefore cursor := by
  have inside := inside_located faithful
  intro trailer mem leaf isFirst
  rw [located_andThen faithful] at none
  rw [located_andThen faithful, unitsOf_append, ownTokensOf_append, own, List.nil_append,
    List.map_append] at mem
  rw [located_andThen faithful, unitsOf_append]
  by_cases behind : trailer ∈ ownTokensOf (second.located first.next) ::
      (unitsOf (second.located first.next)).map ownTokens
  · obtain ⟨names, others⟩ := h trailer behind leaf isFirst
    have place : first.next.position.index ≤ leaf.start := by
      rcases List.mem_cons.mp behind with rfl | within
      · exact ((inside_located later).leaves leaf
          (mem_leavesOf_of_own (List.mem_of_head? isFirst))).1
      · obtain ⟨unit, right, rfl⟩ := List.mem_map.mp within
        exact (between_of_own later right (List.mem_of_head? isFirst)).1
    refine ⟨fun name declares => ?_, fun other among isOpen => ?_⟩
    · rw [declaredNames_append] at declares
      rcases List.mem_append.mp declares with left | right
      · exact Nat.lt_of_lt_of_le (inside.leaves name (mem_of_declaredNames left)).2 place
      · exact names name right
    · rcases List.mem_append.mp among with left | right
      · exact fun name declares => Nat.lt_of_lt_of_le (inside.declared left declares) place
      · exact others other right isOpen
  · have left : trailer ∈ (unitsOf (first.located cursor)).map ownTokens := by
      rcases List.mem_cons.mp mem with itself | among
      · exact absurd (itself ▸ List.mem_cons_self) behind
      · exact (List.mem_append.mp among).resolve_right
          fun right => behind (List.mem_cons_of_mem _ right)
    obtain ⟨unit, holds, rfl⟩ := List.mem_map.mp left
    refine ⟨?_, fun other among isOpen => ?_⟩
    · rw [NamesBefore, none (List.ne_nil_of_mem holds)]
      exact List.forall_mem_nil _
    · rcases List.mem_append.mp among with within | right
      · exact before unit holds leaf isFirst other within isOpen
      · have place := (between_of_own faithful holds (List.mem_of_head? isFirst)).2
        exact absurd isOpen (not_openAt_of_lt later right place)

/-- A unit has its own name, and those of its parts, before the trailers in it. -/
theorem DeclaresBefore.top {outcome : Outcome UnitState} (h : outcome.DeclaresBefore cursor) :
    DeclareBefore (unitsOf [outcome.top .programUnit cursor]) := by
  rw [Outcome.top, unitsOf_unit rfl]
  intro unit mem leaf isFirst other among isOpen
  have trailer : unit.ownTokens ∈ ownTokensOf (outcome.located cursor) ::
      (unitsOf (outcome.located cursor)).map ownTokens := by
    rcases List.mem_cons.mp mem with rfl | inner
    · exact List.mem_cons_self
    · exact List.mem_cons_of_mem _ (List.mem_map_of_mem inner)
  obtain ⟨names, others⟩ := h unit.ownTokens trailer leaf isFirst
  rcases List.mem_cons.mp among with rfl | within
  · exact names
  · exact others other within isOpen

end Outcome

namespace Production

open LocatedTree
open Outcome (index_le_next inside_located)

variable {cursor : Cursor}

/-- Where nothing is left there is no trailer. -/
theorem atEndProgram_of_atEnd (h : cursor.atEnd = true) : cursor.atEndProgram = false :=
  Bool.eq_false_iff.mpr fun ends => not_atEnd_of_atEndProgram ends h

/-- A trailer has tokens, the first of them END. -/
theorem ownTokensOf_trailer (current : Option ProgramIdentity) (h : cursor.atEndProgram = true) :
    ownTokensOf ((trailer current cursor).located cursor) ≠ [] := by
  obtain ⟨first, second, ahead, words⟩ := Cursor.atEndProgram_iff.mp h
  obtain ⟨middle, after, one, two⟩ := Cursor.ahead_two_eq_iff.mp ahead
  rw [Outcome.ownTokensOf_located (flat_trailer current cursor),
    tokens_significant_trailer current one two (Bool.and_eq_true_iff.mp words).2]
  exact List.cons_ne_nil _ _

section Units

variable (settings : Settings)

/-- The trailers of units in a part begin behind its first token. -/
theorem behind_unitStep (enclosing : List ProgramIdentity) (state : UnitState)
    (notTrailer : cursor.atEndProgram = false)
    (nested : ∀ inner, state.seen ≠ [] →
      (unitRounds settings inner .fresh cursor).Ordered cursor) :
    ∀ unit ∈ unitsOf ((unitStep settings enclosing state cursor).located cursor),
      ∀ first ∈ unit.ownTokens.head?, cursor.position.index < first.start := by
  intro unit mem first isFirst
  by_cases inside : cursor.divisionHeader? = some .identification ∧ state.seen ≠ []
  · have order := nested (state.identity.toList ++ enclosing) inside.2
    rw [unitStep_of_nested settings enclosing inside, Outcome.located_withValue, located_closeUnit,
      Outcome.top, unitsOf_unit rfl] at mem
    rcases List.mem_cons.mp mem with rfl | inner
    · have place := ((inside_located (faithful_unitRounds settings _ .fresh cursor)).leaves first
        (mem_leavesOf_of_own (List.mem_of_head? isFirst))).1
      refine Nat.lt_of_le_of_ne place fun same => ?_
      rw [(order.opens first isFirst same.symm).1] at notTrailer
      cases notTrailer
    · exact order.behind unit inner first isFirst
  · rw [unitStep_of_not_nested settings enclosing inside, unitsOf_unitPart] at mem
    cases mem

theorem unitsOf_trivia_andThen {β : Type} (cursor : Cursor) (second : Outcome β) :
    let lead := trivia .programUnit cursor
    unitsOf ((lead.andThen second).located cursor) = unitsOf (second.located lead.next) := by
  intro lead
  have flat := flat_trivia .programUnit cursor
  rw [Outcome.located_andThen flat.faithful, unitsOf_append, unitsOf_flat flat, List.nil_append]

theorem ownTokensOf_trivia_andThen {β : Type} (cursor : Cursor) (second : Outcome β) :
    let lead := trivia .programUnit cursor
    ownTokensOf ((lead.andThen second).located cursor) =
      ownTokensOf (second.located lead.next) := by
  intro lead
  rw [Outcome.located_andThen (flat_trivia .programUnit cursor).faithful,
    SourceTree.ownTokensOf_append, ownTokensOf_trivia, List.nil_append]

/-- A trailer behind blanks is in order. -/
theorem ordered_trailer (state : UnitState) {cursor : Cursor} :
    let lead := trivia .programUnit cursor
    lead.next.atEndProgram = true →
      ((lead.andThen (trailer state.identity lead.next)).withValue state).Ordered cursor := by
  intro lead ends
  have units : unitsOf ((lead.andThen (trailer state.identity lead.next)).located cursor) = [] :=
    (unitsOf_trivia_andThen cursor _).trans (unitsOf_flat (flat_trailer _ lead.next))
  refine ⟨fun unit mem => ?_, fun unit mem => ?_, fun first mem same => ?_⟩
  · rw [Outcome.located_withValue, units] at mem
    cases mem
  · rw [Outcome.located_withValue, units] at mem
    cases mem
  · rw [Outcome.located_withValue, ownTokensOf_trivia_andThen] at mem ⊢
    have place := ((inside_located (flat_trailer state.identity lead.next).faithful).leaves first
      (mem_leavesOf_of_own (List.mem_of_head? mem))).1
    have here : lead.next.position.index ≤ cursor.position.index := by omega
    have still : lead.next = cursor :=
      (Outcome.still_of_index_le (flat_trivia .programUnit cursor).faithful here).1
    rw [nameAfter_trailer state.identity ends]
    rw [still] at ends ⊢
    exact ⟨ends, rfl⟩

/-- The parts of a unit are in order, in whatever state the unit is. -/
theorem ordered_unitRounds (enclosing : List ProgramIdentity) (state : UnitState)
    (cursor : Cursor) : (unitRounds settings enclosing state cursor).Ordered cursor := by
  have blanks (state : UnitState) (cursor : Cursor) :
      ((trivia .programUnit cursor).withValue state).Ordered cursor := by
    refine Outcome.ordered_of_nil ?_ ?_
    · rw [Outcome.located_withValue, unitsOf_flat (flat_trivia _ cursor)]
    · rw [Outcome.located_withValue, ownTokensOf_trivia]
  refine unitRounds_induction_within settings enclosing
    (motive := fun _ _ cursor outcome => outcome.Ordered cursor)
    ?ends ?leaves ?closes ?goesOn state cursor
  case ends => exact fun _ state cursor _ => blanks state cursor
  case leaves => exact fun _ state cursor _ _ => blanks state cursor
  case closes => exact fun _ state cursor ends _ => ordered_trailer state ends
  case goesOn =>
    intro enclosing state cursor lead part rest atToken notTrailer nested later
    have flat := (flat_trivia .programUnit cursor).faithful
    have step := faithful_unitStep settings enclosing state lead.next
    have blank : cursor.position.index ≤ lead.next.position.index := index_le_next flat
    have moved : lead.next.position.index < part.next.position.index :=
      Outcome.index_lt_next step (carries_unitStep settings enclosing state atToken).consumes
    refine Outcome.Ordered.andThen (flat.andThen step)
      (faithful_unitRounds settings enclosing _ _)
      (ownTokensOf_unitStep settings enclosing state cursor) (Nat.lt_of_le_of_lt blank moved) ?_ later
    intro unit mem first isFirst
    rw [unitsOf_trivia_andThen] at mem
    exact Nat.lt_of_le_of_lt blank
      (behind_unitStep settings enclosing state notTrailer nested unit mem first isFirst)

/-- The units in a part have declared their names before the trailers in it, if one that is nested there
has. -/
theorem declareBefore_unitStep (enclosing : List ProgramIdentity) (state : UnitState)
    (nested : ∀ inner, state.seen ≠ [] →
      (unitRounds settings inner .fresh cursor).DeclaresBefore cursor) :
    DeclareBefore (unitsOf ((unitStep settings enclosing state cursor).located cursor)) := by
  by_cases inside : cursor.divisionHeader? = some .identification ∧ state.seen ≠ []
  · rw [unitStep_of_nested settings enclosing inside, Outcome.located_withValue, located_closeUnit]
    exact (nested _ inside.2).top
  · rw [unitStep_of_not_nested settings enclosing inside, unitsOf_unitPart]
    exact List.forall_mem_nil _

/-- A unit is nested only where the unit around it has begun. -/
theorem seen_ne_nil_of_unitsOf (enclosing : List ProgramIdentity) {state : UnitState}
    (holds : unitsOf ((unitStep settings enclosing state cursor).located cursor) ≠ []) :
    cursor.divisionHeader? = some .identification ∧ state.seen ≠ [] := by
  by_contra other
  rw [unitStep_of_not_nested settings enclosing other, unitsOf_unitPart] at holds
  exact holds rfl

theorem declaresBefore_flat {outcome : Outcome UnitState} (h : outcome.Flat cursor) :
    outcome.DeclaresBefore cursor := by
  intro trailer mem first isFirst
  rw [unitsOf_flat h, Outcome.located_flat h]
  refine ⟨?_, List.forall_mem_nil _⟩
  rw [NamesBefore, declaredNames_leaves]
  exact List.forall_mem_nil _

/-- Parts of a unit declare their names before the trailers in them. -/
theorem declaresBefore_unitRounds (enclosing : List ProgramIdentity) (state : UnitState)
    (cursor : Cursor) :
    (unitRounds settings enclosing state cursor).DeclaresBefore cursor := by
  refine unitRounds_induction_within settings enclosing
    (motive := fun _ _ cursor outcome => outcome.DeclaresBefore cursor)
    ?ends ?leaves ?closes ?goesOn state cursor
  case ends => exact fun _ state cursor _ => declaresBefore_flat ((flat_trivia _ cursor).withValue state)
  case leaves =>
    exact fun _ state cursor _ _ => declaresBefore_flat ((flat_trivia _ cursor).withValue state)
  case closes =>
    exact fun _ state cursor _ _ =>
      declaresBefore_flat (((flat_trivia _ cursor).andThen (flat_trailer _ _)).withValue state)
  case goesOn =>
    intro enclosing state cursor lead part rest _ _ nested later
    have flat := (flat_trivia .programUnit cursor).faithful
    have step := faithful_unitStep settings enclosing state lead.next
    refine Outcome.DeclaresBefore.andThen (flat.andThen step)
      (faithful_unitRounds settings enclosing _ _)
      (ownTokensOf_unitStep settings enclosing state cursor) ?_ ?_ later
    · rw [unitsOf_trivia_andThen]
      exact declareBefore_unitStep settings enclosing state nested
    · rw [unitsOf_trivia_andThen]
      intro holds
      have begun := (seen_ne_nil_of_unitsOf settings enclosing holds).2
      have names := (namesUnit_round settings enclosing state cursor).andThen (flat.andThen step)
        (namesUnit_unitRounds settings enclosing part.value part.next)
      rw [declaredNames]
      rw [show ofKind _ _ = [] from (names.begun begun).2.2]
      rfl

theorem declareBefore_programUnits (cursor : Cursor) :
    DeclareBefore (unitsOf ((programUnits settings cursor).located cursor)) := by
  refine programUnits_of_unit settings
    (motive := fun cursor outcome => DeclareBefore (unitsOf (outcome.located cursor)))
    ?_ ?_ ?_ ?_ cursor
  · exact fun _ h => h
  · exact fun faithful later h k => Outcome.declareBefore_andThen faithful later h k
  · intro cursor
    rw [unitsOf_flat (flat_trivia _ cursor)]
    exact List.forall_mem_nil _
  · intro cursor
    rw [programUnit, located_closeUnit]
    exact (declaresBefore_unitRounds settings [] .fresh cursor).top

end Units

end Production

namespace Parsed

open LocatedTree

/-- A unit is open where its trailer begins. -/
theorem openAt_trailer {settings : Settings} {text : Text} {unit : LocatedTree}
    (mem : unit ∈ (ofText settings text).units) {first : Leaf}
    (isFirst : first ∈ unit.ownTokens.head?) : OpenAt first.start unit := by
  rw [units_ofText] at mem
  have faithful := Production.faithful_programUnits settings (Cursor.start text)
  obtain ⟨start, stop⟩ :=
    (Outcome.inside_located faithful).trailer mem (List.mem_of_head? isFirst)
  refine ⟨start, Nat.le_of_lt stop, ?_⟩
  have order := SourceTree.pairwise_ownTokens (List.mem_filter.mp mem).1
  obtain ⟨rest, whole⟩ := List.head?_eq_some_iff.mp isFirst
  rw [whole] at order ⊢
  exact List.forall_mem_cons.mpr ⟨Nat.le_refl _, (List.pairwise_cons.mp order).1⟩

/-- Where a trailer begins, the units that are open have declared all their names. -/
theorem declareBefore_ofText (settings : Settings) (text : Text) :
    DeclareBefore (ofText settings text).units := by
  rw [units_ofText]
  exact Production.declareBefore_programUnits settings (.start text)

end Parsed

end CobolTree
