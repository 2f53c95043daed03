import CobolTree.Proofs.Production.Divisions
import CobolTree.Proofs.Production.Trailers
import CobolTree.View.ProgramUnit

/-!
When the name in a trailer is reported. The parser compares the name in a trailer with the name
that the unit goes by when the trailer is read, and the tree tells which name that is
(`LocatedTree.goesBy?`). So a mismatch is reported with a trailer exactly when the unit that has the
trailer goes by another name (`Parsed.checksNames_ofText`). The name is also what the view of the
unit tells (`ProgramUnit.name?`), if the unit has only one PROGRAM-ID paragraph, and that one has
its period behind PROGRAM-ID; else the two may differ (`Parsed.name_differs`).
-/

namespace CobolTree

/-- The name in a trailer is another one than the declared name. -/
def LocatedTree.Contradicts (declared : Option Text) (name : Leaf) : Prop :=
  ∃ text ∈ declared, Text.sameWord (programName name.text) text = false

instance (declared : Option Text) (name : Leaf) :
    Decidable (LocatedTree.Contradicts declared name) :=
  inferInstanceAs (Decidable (∃ text ∈ declared, _))

/-- A mismatch is reported with a token. -/
def Diagnostic.TellsOf (reports : List Diagnostic) (name : Leaf) : Prop :=
  ∃ diagnostic ∈ reports, diagnostic.code = .endProgramMismatch ∧ diagnostic.range = name.range

instance (reports : List Diagnostic) (name : Leaf) : Decidable (Diagnostic.TellsOf reports name) :=
  inferInstanceAs (Decidable (∃ diagnostic ∈ reports, _))

namespace Diagnostic

theorem tellsOf_append {s t : List Diagnostic} {name : Leaf} :
    TellsOf (s ++ t) name ↔ TellsOf s name ∨ TellsOf t name := by
  simp only [TellsOf, List.mem_append, or_and_right, exists_or]

end Diagnostic

namespace Outcome

open SourceTree LocatedTree
open Diagnostic (TellsOf tellsOf_append)
open Production (UnitState)

variable {α β : Type} {cursor : Cursor} {first : Outcome α} {second : Outcome β}

/-- All mismatches that an outcome reports it reports with tokens that it has read. -/
def Placed (cursor : Cursor) (outcome : Outcome α) : Prop :=
  ∀ diagnostic ∈ outcome.reports, diagnostic.code = .endProgramMismatch →
    cursor.position.index ≤ diagnostic.range.start ∧
      diagnostic.range.start < outcome.next.position.index

/-- The outcome reports a mismatch with the name of a trailer exactly when the unit of the trailer
goes by another name. -/
structure Checked (cursor : Cursor) (outcome : Outcome α) : Prop where
  placed : outcome.Placed cursor
  told : ∀ unit ∈ unitsOf (outcome.located cursor), ∀ name ∈ trailerName unit,
    TellsOf outcome.reports name ↔ Contradicts (goesBy? unit) name

theorem Local.placed (h : first.Local) : first.Placed cursor :=
  fun diagnostic mem code => absurd code (h diagnostic mem).code_ne.2.2

theorem Checked.withValue (value : β) (h : first.Checked cursor) :
    (first.withValue value).Checked cursor := ⟨h.placed, h.told⟩

/-- What has no units in it and reports no mismatch is checked. -/
theorem Local.checked (h : first.Local) (none : unitsOf (first.located cursor) = []) :
    first.Checked cursor where
  placed := h.placed
  told := by
    intro unit mem
    rw [none] at mem
    cases mem

theorem Placed.andThen (faithful : first.Faithful cursor) (later : second.Faithful first.next)
    (h : first.Placed cursor) (k : second.Placed first.next) :
    (first.andThen second).Placed cursor := by
  have ahead := index_le_next faithful
  have behind := index_le_next later
  intro diagnostic mem code
  rw [Outcome.next_andThen]
  rcases List.mem_append.mp mem with left | right
  · obtain ⟨start, stop⟩ := h diagnostic left code
    exact ⟨start, by omega⟩
  · obtain ⟨start, stop⟩ := k diagnostic right code
    exact ⟨by omega, stop⟩

/-- Behind a place nothing is reported with a token before it. -/
theorem Placed.not_tellsOf_before (h : first.Placed cursor) {name : Leaf}
    (before : name.start < cursor.position.index) : ¬TellsOf first.reports name := by
  rintro ⟨diagnostic, mem, code, range⟩
  have place := (h diagnostic mem code).1
  have start : diagnostic.range.start = name.start := by
    rw [range]
    rfl
  omega

/-- Before a place nothing is reported with a token behind it. -/
theorem Placed.not_tellsOf_behind (h : first.Placed cursor) {name : Leaf}
    (behind : first.next.position.index ≤ name.start) : ¬TellsOf first.reports name := by
  rintro ⟨diagnostic, mem, code, range⟩
  have place := (h diagnostic mem code).2
  have start : diagnostic.range.start = name.start := by
    rw [range]
    rfl
  omega

/-- The name in the trailer of a unit stands between the cursors around the unit. -/
theorem between_of_trailerName (faithful : first.Faithful cursor) {unit : LocatedTree}
    (mem : unit ∈ unitsOf (first.located cursor)) {name : Leaf} (named : name ∈ trailerName unit) :
    cursor.position.index ≤ name.start ∧ name.start < first.next.position.index := by
  have inside := inside_located faithful
  have node := (List.mem_filter.mp mem).1
  obtain ⟨start, stop⟩ := inside.nodes unit node
  obtain ⟨from_, upTo⟩ := inside.below unit node name (mem_leavesOf_of_own (mem_of_nameAfter named))
  omega

theorem Checked.andThen (faithful : first.Faithful cursor) (later : second.Faithful first.next)
    (h : first.Checked cursor) (k : second.Checked first.next) :
    (first.andThen second).Checked cursor where
  placed := h.placed.andThen faithful later k.placed
  told := by
    intro unit mem name named
    rw [located_andThen faithful, unitsOf_append] at mem
    rw [reports_andThen, tellsOf_append]
    rcases List.mem_append.mp mem with left | right
    · have before := (between_of_trailerName faithful left named).2
      rw [← h.told unit left name named]
      exact or_iff_left (k.placed.not_tellsOf_before before)
    · have behind := (between_of_trailerName later right named).1
      rw [← k.told unit right name named]
      exact or_iff_right (h.placed.not_tellsOf_behind behind)

/-- The parts of a unit are checked, and so is the trailer among them, against the name that the unit
goes by behind them. -/
structure CheckedInUnit (cursor : Cursor) (outcome : Outcome UnitState) : Prop where
  checked : outcome.Checked cursor
  own : ∀ name ∈ nameAfter (ownTokensOf (outcome.located cursor)),
    TellsOf outcome.reports name ↔ Contradicts (outcome.value.identity.map (·.name)) name

/-- What has no tokens right below its unit goes before other parts of the unit. -/
theorem CheckedInUnit.behind {second : Outcome UnitState} (faithful : first.Faithful cursor)
    (later : second.Faithful first.next) (own : ownTokensOf (first.located cursor) = [])
    (h : first.Checked cursor) (k : second.CheckedInUnit first.next) :
    (first.andThen second).CheckedInUnit cursor where
  checked := h.andThen faithful later k.checked
  own := by
    intro name named
    rw [located_andThen faithful, ownTokensOf_append, own, List.nil_append] at named
    have leaf := mem_leavesOf_of_own (mem_of_nameAfter named)
    have place := ((inside_located later).leaves name leaf).1
    rw [reports_andThen, tellsOf_append, value_andThen, ← k.own name named]
    exact or_iff_right (h.placed.not_tellsOf_behind place)

end Outcome

namespace Production

open LocatedTree
open Diagnostic (TellsOf)

variable {cursor : Cursor}

/-! ### Trailers -/

theorem placed_trailer (current : Option ProgramIdentity) (h : cursor.atEndProgram = true) :
    (trailer current cursor).Placed cursor := by
  intro diagnostic mem code
  rcases (mem_reports_trailer current cursor).1 mem with isLocal | ⟨token, found, program, -, -, rfl⟩
  · exact absurd code isLocal.code_ne.2.2
  · have named : token.leaf ∈ nameAfter (ownTokensOf ((trailer current cursor).located cursor)) := by
      rw [nameAfter_trailer current h, Option.mem_def.mp found]
      rfl
    exact (Outcome.inside_located (flat_trailer current cursor).faithful).leaves _
      (mem_leavesOf_of_own (mem_of_nameAfter named))

/-- A trailer reports a mismatch exactly when the unit goes by another name than the trailer has. -/
theorem tellsOf_trailer (current : Option ProgramIdentity) (h : cursor.atEndProgram = true) :
    ∀ name ∈ nameAfter (ownTokensOf ((trailer current cursor).located cursor)),
      TellsOf (trailer current cursor).reports name ↔
        Contradicts (current.map (·.name)) name := by
  intro name named
  rw [nameAfter_trailer current h] at named
  obtain ⟨token, found, rfl⟩ := Option.map_eq_some_iff.mp (Option.mem_def.mp named)
  constructor
  · rintro ⟨diagnostic, mem, code, -⟩
    rcases (mem_reports_trailer current cursor).1 mem with
      isLocal | ⟨other, same, program, declared, differs, -⟩
    · exact absurd code isLocal.code_ne.2.2
    · rw [found] at same
      cases same
      exact ⟨program.name, Option.mem_map_of_mem _ declared, differs⟩
  · rintro ⟨text, declared, differs⟩
    obtain ⟨program, isProgram, rfl⟩ := Option.map_eq_some_iff.mp (Option.mem_def.mp declared)
    have tells : TellsMismatch current (trailerName? cursor)
        ((Problem.endProgramMismatch (programName token.text) program).ofToken token) :=
      ⟨token, found, program, isProgram, differs, rfl⟩
    exact ⟨_, (mem_reports_trailer current cursor).2 tells, rfl, rfl⟩

theorem checkedInUnit_trailer (state : UnitState) (h : cursor.atEndProgram = true) :
    ((trailer state.identity cursor).withValue state).CheckedInUnit cursor where
  checked :=
    { placed := placed_trailer state.identity h
      told := by
        intro unit mem
        rw [Outcome.located_withValue, unitsOf_flat (flat_trailer state.identity cursor)] at mem
        cases mem }
  own := tellsOf_trailer state.identity h

/-! ### Units -/

section Units

variable (settings : Settings)

theorem checked_trivia (cursor : Cursor) : (trivia .programUnit cursor).Checked cursor :=
  Outcome.Local.checked (local_trivia _ cursor) (unitsOf_flat (flat_trivia _ cursor))

/-- Blanks are parts of a unit without a trailer. -/
theorem checkedInUnit_trivia (state : UnitState) (cursor : Cursor) :
    ((trivia .programUnit cursor).withValue state).CheckedInUnit cursor where
  checked := (checked_trivia cursor).withValue state
  own := by
    intro name named
    rw [Outcome.located_withValue, ownTokensOf_trivia] at named
    cases named

/-- A unit is checked if its parts are, since it goes by the name that it has behind them. -/
theorem checked_closeUnit (start : Cursor) {parts : Outcome UnitState}
    (faithful : parts.Faithful cursor) (h : parts.CheckedInUnit cursor)
    (named : goesBy? (parts.top .programUnit cursor) = parts.value.identity.map (·.name)) :
    (closeUnit start parts).Checked cursor := by
  obtain ⟨ending, isLocal, flat, -, whole⟩ := closeUnit_eq start parts
  have silent (name : Leaf) : ¬TellsOf ending.reports name := by
    rintro ⟨diagnostic, mem, code, -⟩
    exact (isLocal diagnostic mem).code_ne.2.2 code
  have reports (name : Leaf) :
      TellsOf (closeUnit start parts).reports name ↔ TellsOf parts.reports name := by
    rw [whole, Outcome.reports_under, Outcome.reports_andThen, Diagnostic.tellsOf_append]
    exact or_iff_left (silent name)
  constructor
  · rw [whole]
    exact h.checked.placed.andThen faithful flat.faithful isLocal.placed
  · intro unit mem name trailer
    rw [located_closeUnit, Outcome.top, unitsOf_unit rfl] at mem
    rw [reports]
    rcases List.mem_cons.mp mem with rfl | inside
    · have own := h.own name trailer
      rwa [← named] at own
    · exact h.checked.told unit inside name trailer

theorem checked_unitPart (state : UnitState) (cursor : Cursor) :
    (unitPart settings state cursor).Checked cursor where
  placed := by
    cases header : cursor.divisionHeader? with
    | some found =>
        rw [unitPart_of_header settings state header]
        intro diagnostic mem code
        rcases List.mem_append.mp mem with order | inside
        · rcases code_checkOrder settings _ _ _ diagnostic order with same | same
          · rw [same] at code
            cases code
          · rw [same] at code
            cases code
        · exact absurd code (local_division settings found cursor diagnostic inside).code_ne.2.2
    | none =>
        rw [unitPart_of_stray settings state header]
        exact Outcome.Local.placed (local_strayText .programUnit cursor)
  told := by
    intro unit mem
    rw [unitsOf_unitPart] at mem
    cases mem

theorem checked_unitStep (enclosing : List ProgramIdentity) (state : UnitState)
    (nested : ∀ inner, state.seen ≠ [] →
      (unitRounds settings inner .fresh cursor).CheckedInUnit cursor) :
    (unitStep settings enclosing state cursor).Checked cursor := by
  by_cases inside : cursor.divisionHeader? = some .identification ∧ state.seen ≠ []
  · rw [unitStep_of_nested settings enclosing inside]
    exact (checked_closeUnit cursor (faithful_unitRounds settings _ .fresh cursor)
      (nested _ inside.2) (goesBy?_top settings _ cursor)).withValue _
  · rw [unitStep_of_not_nested settings enclosing inside]
    exact checked_unitPart settings state cursor

/-- The parts of a unit are checked, in whatever state the unit is. -/
theorem checkedInUnit_unitRounds (enclosing : List ProgramIdentity) (state : UnitState)
    (cursor : Cursor) :
    (unitRounds settings enclosing state cursor).CheckedInUnit cursor := by
  refine unitRounds_induction_within settings enclosing
    (motive := fun _ _ cursor outcome => outcome.CheckedInUnit cursor)
    ?ends ?leaves ?closes ?goesOn state cursor
  case ends => exact fun _ state cursor _ => checkedInUnit_trivia state cursor
  case leaves => exact fun _ state cursor _ _ => checkedInUnit_trivia state cursor
  case closes =>
    intro enclosing state cursor lead closing _
    exact Outcome.CheckedInUnit.behind (flat_trivia _ cursor).faithful
      ((flat_trailer _ lead.next).faithful.withValue state) (ownTokensOf_trivia cursor)
      (checked_trivia cursor) (checkedInUnit_trailer state closing)
  case goesOn =>
    intro enclosing state cursor lead part rest _ _ nested later
    have flat := (flat_trivia .programUnit cursor).faithful
    have step := faithful_unitStep settings enclosing state lead.next
    exact Outcome.CheckedInUnit.behind (flat.andThen step)
      (faithful_unitRounds settings enclosing _ _)
      (ownTokensOf_unitStep settings enclosing state cursor)
      ((checked_trivia cursor).andThen flat step
        (checked_unitStep settings enclosing state nested)) later

theorem checked_programUnits (cursor : Cursor) :
    (programUnits settings cursor).Checked cursor := by
  refine programUnits_of_unit settings
    (motive := fun cursor outcome => outcome.Checked cursor) ?_ ?_ ?_ ?_ cursor
  · exact fun value h => h.withValue value
  · exact fun faithful later h k => h.andThen faithful later k
  · exact checked_trivia
  · exact fun cursor => checked_closeUnit _ (faithful_unitRounds settings [] .fresh cursor)
      (checkedInUnit_unitRounds settings [] .fresh cursor) (goesBy?_top settings [] cursor)

end Units

end Production

namespace Parsed

open LocatedTree

/-- What is kept of some reports tells no more than these. -/
theorem tellsOf_of_keep {most : Option Nat} {final : Position} {reports : List Diagnostic}
    {name : Leaf} (h : Diagnostic.TellsOf (keep most final reports) name) :
    Diagnostic.TellsOf reports name := by
  obtain ⟨diagnostic, mem, code, range⟩ := h
  unfold keep at mem
  split at mem
  · exact ⟨diagnostic, mem, code, range⟩
  · split at mem
    · exact ⟨diagnostic, mem, code, range⟩
    · rcases List.mem_append.mp mem with kept | remark
      · exact ⟨diagnostic, List.mem_of_mem_take kept, code, range⟩
      · rw [List.mem_singleton.mp remark] at code
        cases code

section Trailers

variable {settings : Settings} {text : Text} {unit : LocatedTree}
  (mem : unit ∈ (ofText settings text).units) {name : Leaf} (named : name ∈ trailerName unit)

include mem named

/-- A mismatch that is reported with the name in a trailer is one. -/
theorem contradicts_of_tellsOf
    (h : Diagnostic.TellsOf (ofText settings text).diagnostics name) :
    Contradicts (goesBy? unit) name := by
  rw [units_ofText] at mem
  exact ((Production.checked_programUnits settings (.start text)).told unit mem name named).mp
    (tellsOf_of_keep h)

/-- A mismatch is reported with the name in a trailer exactly when the unit goes by another name. -/
theorem tellsOf_diagnostics (uncapped : settings.maxDiagnostics = none) :
    Diagnostic.TellsOf (ofText settings text).diagnostics name ↔
      Contradicts (goesBy? unit) name := by
  rw [units_ofText] at mem
  have told := (Production.checked_programUnits settings (.start text)).told unit mem name named
  simpa only [ofText, uncapped, keep] using told

end Trailers

end Parsed

/-! ### The name in the view of a unit -/

/-- A node right below a node of a forest is a node of the forest. -/
theorem Tree.mem_nodesOf_of_mem_children {ν α : Type} {forest : List (Tree ν α)}
    {node child : Tree ν α} (mem : node ∈ nodesOf forest) (below : child ∈ node.children)
    (isNode : child.isNode = true) : child ∈ nodesOf forest := by
  induction forest using forest_induction with
  | nil => cases mem
  | leaf value rest ih => exact ih mem
  | node label children rest inner behind =>
      rw [nodesOf, nodes, List.cons_append] at mem ⊢
      refine List.mem_cons_of_mem _ (List.mem_append.mpr ?_)
      rcases List.mem_cons.mp mem with rfl | mem
      · left
        rw [nodesOf_eq_flatMap]
        refine List.mem_flatMap.mpr ⟨child, below, ?_⟩
        cases child with
        | leaf => cases isNode
        | node => exact List.mem_cons_self
      · exact (List.mem_append.mp mem).imp inner behind

namespace LocatedTree

/-- The PROGRAM-ID paragraphs of a unit. -/
def programIds (unit : LocatedTree) : List LocatedTree :=
  (unit.childrenOf .identificationDivision).flatMap (childrenOf .programIdParagraph)

/-- The unit has one PROGRAM-ID paragraph at most, and that one has its period behind PROGRAM-ID. -/
structure DeclaresPlainly (unit : LocatedTree) : Prop where
  single : unit.programIds.length ≤ 1
  period : ∀ paragraph ∈ unit.programIds, ∃ period ∈ paragraph.ownTokens[1]?, period.kind = .dot

end LocatedTree

namespace Production

open LocatedTree

/-- Behind a period, the view finds the name that the parser reads. -/
theorem declaredName?_eq {node : LocatedTree} (h : IsProgramId node)
    (dotted : ∃ period ∈ node.ownTokens[1]?, period.kind = .dot) :
    ProgramUnit.declaredName? node = declared? node := by
  obtain ⟨value, word, period, name, rest, isWord, reads⟩ := h
  obtain ⟨second, isSecond, dot⟩ := dotted
  have notDot : (word.leaf.kind != .dot) = true := by
    have kind : word.leaf.kind = .word := Lexeme.kind_of_isWord isWord
    rw [kind]
    rfl
  have isName (token : Token) (found : name = some token) :
      token.leaf.kind = .word ∨ token.leaf.kind = .stringLiteral := by
    simpa [Leaf.namesProgram] using reads.isName token found
  rw [reads.own, reads.tokens, List.map_cons, List.getElem?_cons_succ] at isSecond
  rw [reads.declared?, ProgramUnit.declaredName?, reads.own, reads.tokens, List.map_cons,
    List.dropWhile_cons_of_pos (p := fun leaf : Leaf => leaf.kind != .dot) notDot]
  cases point : period with
  | none =>
      -- without a period, the token behind PROGRAM-ID is the name
      rw [point, Option.toList_none, List.nil_append] at isSecond
      cases found : name with
      | none =>
          rw [found, reads.nothing found] at isSecond
          cases isSecond
      | some token =>
          rw [found] at isSecond
          cases isSecond
          rcases isName token found with word | literal
          · rw [dot] at word
            cases word
          · rw [dot] at literal
            cases literal
  | some point_ =>
      have stops : ¬(point_.leaf.kind != .dot) = true := by
        have kind : point_.leaf.kind = .dot := reads.isPeriod point_ point
        rw [kind]
        exact Bool.false_ne_true
      rw [Option.toList_some, List.singleton_append, List.map_cons,
        List.dropWhile_cons_of_neg (p := fun leaf : Leaf => leaf.kind != .dot) stops]
      cases found : name with
      | none =>
          rw [reads.nothing found]
          rfl
      | some token => exact if_pos (isName token found)

end Production

namespace Parsed

open LocatedTree

/-- The PROGRAM-ID paragraphs of the units of a text are what such paragraphs were read as. -/
theorem isProgramId_of_mem (settings : Settings) (text : Text) {unit paragraph : LocatedTree}
    (mem : unit ∈ (ofText settings text).units) (below : paragraph ∈ unit.programIds) :
    Production.IsProgramId paragraph := by
  obtain ⟨found, isDivision, inside⟩ := List.mem_flatMap.mp below
  rw [childrenOf_eq] at isDivision inside
  obtain ⟨child, sort⟩ := List.mem_filter.mp isDivision
  obtain ⟨isNode, kind⟩ := Bool.and_eq_true_iff.mp sort
  have node : found ∈ (ofText settings text).tree.locate.nodes := by
    have whole := Tree.mem_nodesOf_of_mem_children (List.mem_filter.mp mem).1 child isNode
    rwa [Tree.nodesOf, Tree.nodesOf, List.append_nil] at whole
  obtain ⟨place, header, located⟩ :=
    @exists_place settings text .identification _ node (beq_iff_eq.mp kind)
  obtain ⟨extent, -, parts⟩ := Production.located_identification settings place
  rw [located] at parts
  rw [(List.cons.inj parts).1, Tree.children, ofKind_append,
    Outcome.located_flat (Production.flat_divisionHeader .identification place), ofKind_leaves,
    List.nil_append] at inside
  exact Production.holdsProgramIds_identificationBody _ _ paragraph inside

/-- The view of a unit tells the name that the unit goes by, where the unit declares one plainly. -/
theorem name?_eq_goesBy? (settings : Settings) (text : Text) {unit : LocatedTree}
    (mem : unit ∈ (ofText settings text).units) (plain : DeclaresPlainly unit) :
    ProgramUnit.name? unit = goesBy? unit := by
  have single : (unit.childrenOf .identificationDivision).length ≤ 1 := by
    rw [childrenOf_eq]
    obtain ⟨enclosing, place, rfl⟩ := exists_unitRounds settings text mem
    exact (Production.namesUnit_unitRounds settings enclosing .fresh place).single
  have same (paragraph : LocatedTree) (below : paragraph ∈ unit.programIds) :
      ProgramUnit.declaredName? paragraph = declared? paragraph :=
    Production.declaredName?_eq (isProgramId_of_mem settings text mem below)
      (plain.period paragraph below)
  have names : declaredNames unit.children = unit.programIds.filterMap declared? := by
    simp only [declaredNames, paragraphNames, programIds, childrenOf_eq, List.filterMap_flatMap]
  rw [goesBy?, names, ProgramUnit.name?, ProgramUnit.nameToken?, ProgramUnit.division?,
    Division.kind]
  have fewer := plain.single
  unfold programIds at same fewer ⊢
  cases found : unit.childrenOf .identificationDivision with
  | nil => rfl
  | cons division others =>
      rw [found] at single same fewer
      have none : others = [] := List.length_eq_zero_iff.mp (by simpa using single)
      subst none
      rw [List.flatMap_singleton] at same fewer ⊢
      rw [List.head?_cons, Option.bind_some, ProgramUnit.programId?]
      cases paragraphs : division.childrenOf .programIdParagraph with
      | nil => rfl
      | cons paragraph rest =>
          rw [paragraphs] at same fewer
          have none : rest = [] := List.length_eq_zero_iff.mp (by simpa using fewer)
          subst none
          rw [List.head?_cons, Option.bind_some, same paragraph List.mem_cons_self]
          cases declares : declared? paragraph <;> simp [declares, lastOf]

/-- The names in trailers are checked: a mismatch is reported with the name in a trailer exactly when
the unit goes by another name, and the view tells the name that a unit goes by if the unit declares
it plainly. -/
structure ChecksNames (parsed : Parsed) : Prop where
  reported : ∀ unit ∈ parsed.units, ∀ name ∈ trailerName unit,
    Diagnostic.TellsOf parsed.diagnostics name ↔ Contradicts (goesBy? unit) name
  viewed : ∀ unit ∈ parsed.units, DeclaresPlainly unit → ProgramUnit.name? unit = goesBy? unit

/-- Where diagnostics are not capped, the names in the trailers of every text are checked. -/
theorem checksNames_ofText {settings : Settings} (uncapped : settings.maxDiagnostics = none)
    (text : Text) : (ofText settings text).ChecksNames where
  reported := fun _ mem _ named => tellsOf_diagnostics mem named uncapped
  viewed := fun _ mem => name?_eq_goesBy? settings text mem

theorem checksNames_ofText_standard : Settings.standard.maxDiagnostics = none ∧
    (ofText .standard "ID DIVISION. PROGRAM-ID. A. END PROGRAM B.".toList).ChecksNames :=
  ⟨rfl, checksNames_ofText rfl _⟩

/-- Without a period behind PROGRAM-ID the parser knows the name, and the view does not: the mismatch
is reported, but no name is told that differs. -/
theorem name_differs :
    ∃ unit ∈ (ofText .standard "ID DIVISION. PROGRAM-ID A. END PROGRAM B.".toList).units,
      ∃ name ∈ trailerName unit,
        Diagnostic.TellsOf
          (ofText .standard "ID DIVISION. PROGRAM-ID A. END PROGRAM B.".toList).diagnostics name ∧
          ProgramUnit.name? unit = none := by
  decide +kernel

end Parsed

end CobolTree
