import CobolTree.Proofs.Mirror.ProgramUnit
import CobolTree.Proofs.Production.Landmarks
import CobolTree.Proofs.Token.Partition

/-!
Units that a trailer closes. Behind a trailer with a name and a period nothing is looked for, so
where it ends a text, what stands behind the text does not show in it, whatever that is, as long as
it begins with no blank or comment (`Placement.alike_trailer`). With this in place of foresight at
the end, the last unit of a text is the same in the whole, and all units before it are
(`Placement.alike_units`): the units of the whole are those of the text and, read from where the
text ends, those behind it.
-/

namespace CobolTree

/-- No blank and no comment stands here. -/
def Cursor.Solid (cursor : Cursor) : Prop :=
  ∀ token after, cursor.next? .programUnit = some (token, after) → token.isTrivia = false

namespace Cursor

variable {cursor other : Cursor} {context : Context}

/-- What stands here is a matter of the text alone. -/
theorem Solid.of_rest (solid : cursor.Solid) (same : other.rest = cursor.rest) : other.Solid := by
  intro token after h
  have left := rest_ne_nil_of_next? h
  have there := solid _ _ (next?_of_rest (same ▸ left) .programUnit)
  rw [next?_of_rest left, Option.some.injEq, Prod.mk.injEq] at h
  obtain ⟨rfl, -⟩ := h
  rw [same]
  exact there

/-- There is nothing to skip here. -/
theorem Solid.trivia (solid : cursor.Solid) (word : context.mode = .word) :
    Production.trivia context cursor = .still () cursor := by
  cases h : cursor.next? context with
  | none => exact Production.trivia_of_end h
  | some read =>
      obtain ⟨token, after⟩ := read
      have same := next?_of_mode h (by rw [word]; rfl : context.mode = Context.programUnit.mode)
      have carries := solid _ _ same
      rw [Token.toLexeme_inContext] at carries
      exact Production.trivia_of_carries h carries

theorem AtToken.solid (h : cursor.AtToken) : cursor.Solid := by
  obtain ⟨token, after, read, carries⟩ := h
  intro other behind k
  rw [read, Option.some.injEq, Prod.mk.injEq] at k
  rw [← k.1]
  exact carries

/-- Behind blanks and comments there is nothing more to skip. -/
theorem solid_trivia (word : context.mode = .word) (cursor : Cursor) :
    (Production.trivia context cursor).next.Solid := by
  by_cases left : (Production.trivia context cursor).next.rest = []
  · intro token after h
    exact absurd left (rest_ne_nil_of_next? h)
  · exact (Production.atToken_trivia word left).solid

end Cursor

namespace Outcome

open LocatedTree

variable {α β : Type} {cursor : Cursor} {first : Outcome α} {second : Outcome β}

/-- A node right in the forest of an outcome has four tokens of its own, and the last of them is the
last one of the outcome. -/
def IsClosed (cursor : Cursor) (outcome : Outcome α) : Prop :=
  ∃ unit ∈ outcome.located cursor, ∃ last, Tree.isNode unit = true ∧
    (ownTokens unit).length = 4 ∧ (ownTokens unit).getLast? = some last ∧
      ((Token.significant outcome.tokens).map Token.leaf).getLast? = some last

/-- The tokens right below a node are among those of the outcome. -/
theorem mem_significant_of_mem_ownTokens (faithful : first.Faithful cursor) {unit : LocatedTree}
    (mem : unit ∈ first.located cursor) {leaf : Leaf} (own : leaf ∈ ownTokens unit) :
    leaf ∈ (Token.significant first.tokens).map Token.leaf := by
  obtain ⟨own, carries⟩ := List.mem_filter.mp own
  obtain ⟨child, below, value⟩ := List.mem_filterMap.mp own
  have leaves : leaf ∈ Tree.leavesOf (first.located cursor) := by
    cases child with
    | node => cases value
    | leaf other =>
        cases value
        cases unit with
        | leaf => cases below
        | node label children =>
            rw [Tree.leavesOf_eq_flatMap]
            refine List.mem_flatMap.mpr ⟨_, mem, ?_⟩
            rw [Tree.leaves, Tree.leavesOf_eq_flatMap]
            exact List.mem_flatMap.mpr ⟨_, below, List.mem_singleton_self _⟩
  rw [leavesOf_located faithful] at leaves
  obtain ⟨token, mem, rfl⟩ := List.mem_map.mp leaves
  exact List.mem_map.mpr ⟨token, List.mem_filter.mpr ⟨mem, carries⟩, rfl⟩

/-- Where two outcomes are closed, the second one is, or it has no tokens and the first one is. -/
theorem IsClosed.split (closed : (first.andThen second).IsClosed cursor)
    (one : first.Faithful cursor) (two : second.Faithful first.next) :
    second.IsClosed first.next ∨
      first.IsClosed cursor ∧ Token.significant second.tokens = [] := by
  obtain ⟨unit, mem, last, isNode, full, own, all⟩ := closed
  have mine : last ∈ ownTokens unit := List.mem_of_getLast? own
  rw [located_andThen one, List.mem_append] at mem
  rw [tokens_andThen, Token.significant_append, List.map_append, List.getLast?_append] at all
  cases behind : ((Token.significant second.tokens).map Token.leaf).getLast? with
  | none =>
      have none := List.map_eq_nil_iff.mp (List.getLast?_eq_none_iff.mp behind)
      rcases mem with here | there
      · rw [behind, Option.none_or] at all
        exact .inr ⟨⟨unit, here, last, isNode, full, own, all⟩, none⟩
      · have among := mem_significant_of_mem_ownTokens two there mine
        rw [none] at among
        cases among
  | some other =>
      rw [behind, Option.some_or, Option.some.injEq] at all
      subst all
      rcases mem with here | there
      · -- the last token would be one of the first outcome and one of the second
        obtain ⟨token, before, same⟩ := List.mem_map.mp
          (mem_significant_of_mem_ownTokens one here mine)
        obtain ⟨later, after, alike⟩ := List.mem_map.mp (List.mem_of_getLast? behind)
        have order := (List.pairwise_append.mp (one.reads.append two.reads).ascending).2.2 token
          (List.mem_filter.mp before).1 later (List.mem_filter.mp after).1
        have place : token.position.index = later.position.index :=
          congrArg Leaf.start (same.trans alike.symm)
        omega
      · exact .inl ⟨unit, there, other, isNode, full, own, behind⟩

/-- A row of tokens holds no node. -/
theorem Flat.not_isClosed (flat : first.Flat cursor) : ¬first.IsClosed cursor := by
  rintro ⟨unit, mem, -, isNode, -⟩
  rw [located_flat flat] at mem
  obtain ⟨leaf, -, rfl⟩ := List.mem_map.mp mem
  cases isNode

end Outcome

namespace Placement

open Production

variable {place : Placement} {pictures : Bool} {cursor : Cursor} {context : Context}

/-! ### Where a text ends -/

/-- Blanks and comments up to the end of the text are those of the whole, if no more of them stand
behind. -/
theorem alike_trivia_of_end (word : context.mode = .word) (solid : (Cursor.start place.behind).Solid)
    (apart : cursor.rest ≠ [] → place.Apart cursor) (ends : (trivia context cursor).next.rest = []) :
    place.Alike id (trivia context cursor) (trivia context (place.cursor cursor)) := by
  fun_induction Cursor.significant? context cursor with
  | case1 cursor h =>
      have rest := Cursor.next?_eq_none_iff.mp h
      have there : (place.cursor cursor).Solid := solid.of_rest (by rw [rest_cursor, rest]; rfl)
      rw [trivia_of_end h, there.trivia word]
      exact .still rfl cursor
  | case2 cursor token after h shorter trivial ih =>
      have here := apart (Cursor.rest_ne_nil_of_next? h)
      rw [trivia_of_trivia h trivial] at ends ⊢
      rw [trivia_of_trivia (next?_cursor_of_some here h) trivial]
      refine (alike_bump here context).andThen (ih (fun left => ?_) ends)
      exact here.suffix (Cursor.suffix_of_next? h) left
  | case3 cursor token after h shorter carries =>
      have carries : token.isTrivia = false := by simpa using carries
      rw [trivia_of_carries h carries] at ends
      exact absurd ends (Cursor.rest_ne_nil_of_next? h)

section Trailer

variable {first second name period : Token} {middle after behind last : Cursor}

theorem expectPeriod_of_dot (h : cursor.significant? context = some (period, last))
    (dot : period.kind = .dot) (site : PeriodSite) :
    expectPeriod context site cursor = bumpSignificant context cursor := by
  have eaten : eatIf context (·.kind == .dot) cursor = bumpSignificant context cursor :=
    eatIf_of_test h (by simp [dot])
  have value := value_bumpSignificant h
  simp only [expectPeriod, bind_apply, eaten]
  simp only [value]
  rw [pure_apply, Outcome.andThen_still, ← value, Outcome.withValue_self]

theorem next_checkTrailerName (current : Option ProgramIdentity) (name : Option Token)
    (cursor : Cursor) : (checkTrailerName current name cursor).next = cursor := by
  unfold checkTrailerName
  split
  · dsimp only
    split <;> rfl
  · rfl
  · exact next_reportHere _ cursor

/-- A name and a period that are ahead are taken one after the other. -/
theorem trailerEnding_apply (current : Option ProgramIdentity)
    (third : after.significant? .endProgram = some (name, behind))
    (names : namesProgram name = true)
    (fourth : behind.significant? .endProgram = some (period, last)) (dot : period.kind = .dot) :
    trailerEnding current after =
      (bumpSignificant .endProgram after).andThen
        ((checkTrailerName current (some name) behind).andThen
          ((bumpSignificant .endProgram behind).andThen (trivia .programUnit last))) := by
  simp only [trailerEnding, bind_apply, eatIf_of_test third names, value_bumpSignificant third,
    next_bumpSignificant third, next_checkTrailerName, expectPeriod_of_dot fourth dot,
    next_bumpSignificant fourth]

/-- A trailer with four tokens has a name and a period. -/
theorem exists_name_of_full {current : Option ProgramIdentity}
    (one : cursor.significant? .endProgram = some (first, middle))
    (two : middle.significant? .endProgram = some (second, after))
    (program : second.isWord "PROGRAM".toList = true)
    (full : (Token.significant (trailer current cursor).tokens).length = 4) :
    ∃ name behind period last, after.significant? .endProgram = some (name, behind) ∧
      namesProgram name = true ∧ behind.significant? .endProgram = some (period, last) ∧
        period.kind = .dot := by
  rw [tokens_significant_trailer current one two program] at full
  simp only [List.length_cons, List.length_append] at full
  cases named : (eatIf .endProgram namesProgram after).value with
  | none =>
      rw [named] at full
      have most := Option.length_toList_le (o := (expectPeriod .endProgram .endProgram
        (checkTrailerName current none (eatIf .endProgram namesProgram after).next).next).value)
      simp at full
      omega
  | some name =>
      obtain ⟨behind, third, names⟩ := exists_significant?_of_eatIf named
      rw [named, eatIf_of_test third names, next_bumpSignificant third,
        next_checkTrailerName] at full
      cases ended : (expectPeriod .endProgram .endProgram behind).value with
      | none => simp [ended] at full
      | some period =>
          obtain ⟨last, fourth, dot⟩ := exists_significant?_of_expectPeriod ended
          exact ⟨name, behind, period, last, third, names, fourth, dot⟩

/-- From the name in a trailer on, all is the same in the whole, if nothing but blanks and comments
are left of the text behind the period. -/
theorem alike_trailerEnding (current : Option ProgramIdentity) (apart : place.Apart after)
    (third : after.significant? .endProgram = some (name, behind))
    (names : namesProgram name = true)
    (fourth : behind.significant? .endProgram = some (period, last)) (dot : period.kind = .dot)
    (ends : (trivia .programUnit last).next.rest = [])
    (solid : (Cursor.start place.behind).Solid) :
    place.Alike id (trailerEnding current after)
      (trailerEnding (current.map place.identity) (place.cursor after)) := by
  have apartBehind := apart.behind third fourth
  have sees : place.Sees after := .of_significant? apart (Cursor.significant?_of_mode third rfl)
  -- the period is no word, so nothing behind it has to be seen
  have foresees : place.Foresees false behind :=
    .of_mark apartBehind rfl fourth (by rw [dot]; exact nofun)
  have whole := trailerEnding_apply (current.map place.identity)
    (significant?_cursor_of_some sees third) (by rw [namesProgram_token, names])
    (significant?_cursor_of_some foresees.sees fourth) dot
  have checked : place.Alike id (checkTrailerName current (some name) behind)
      (checkTrailerName (current.map place.identity) (some (place.token name))
        (place.cursor behind)) := by
    have mirrors : place.Mirrors false id (checkTrailerName current (some name))
        (checkTrailerName (current.map place.identity) (some (place.token name))) :=
      mirrors_checkTrailerName current (some name)
    refine ((mirrors behind).hands ?_ ?_).2
    · rw [tokens_checkTrailerName]
      exact .nil _
    · rwa [next_checkTrailerName]
  rw [trailerEnding_apply current third names fourth dot, whole]
  refine (alike_bumpSignificant apart third).andThen (checked.andThen
    ((alike_bumpSignificant apartBehind fourth).andThen
      (alike_trivia_of_end rfl solid (fun left => ?_) ends)))
  exact apartBehind.suffix (Cursor.suffix_of_significant? fourth) left

/-- A trailer with a name and a period, and with nothing but blanks and comments behind it, is the
same in the whole. -/
theorem alike_trailer (current : Option ProgramIdentity) (apart : place.Apart cursor)
    (h : cursor.atEndProgram = true)
    (full : (Token.significant (trailer current cursor).tokens).length = 4)
    (ends : (trailer current cursor).next.rest = [])
    (solid : (Cursor.start place.behind).Solid) :
    place.Foresees false cursor ∧
      place.Alike id (trailer current cursor)
        (trailer (current.map place.identity) (place.cursor cursor)) := by
  obtain ⟨first, middle, second, after, one, two, -, program⟩ := exists_words_of_atEndProgram h
  obtain ⟨name, behind, period, last, three, names, four, dot⟩ :=
    exists_name_of_full one two program full
  have apartMiddle := apart.behind one two
  have foresees : place.Foresees false cursor := .of_two apart rfl one two
  have sees : place.Sees middle :=
    .of_significant? apartMiddle (Cursor.significant?_of_mode two rfl)
  have whole := trailer_apply (significant?_cursor_of_some foresees.sees one)
    (significant?_cursor_of_some sees two) (by simpa using program) (current.map place.identity)
  rw [trailer_apply one two program] at ends ⊢
  rw [whole]
  refine ⟨foresees, (alike_bumpSignificant apart one).andThen
    ((alike_bumpSignificant apartMiddle two).andThen ?_)⟩
  refine alike_trailerEnding current (apartMiddle.behind two three) three names four dot ?_ solid
  rwa [Outcome.next_andThen, Outcome.next_andThen,
    trailerEnding_apply current three names four dot] at ends

end Trailer

/-! ### Units -/

/-- What is mirrored hands on what is the same in the whole behind it. -/
theorem Mirrored.before {α β γ δ : Type} {f : α → β} {g : γ → δ} {first : Outcome α}
    {whole : Outcome β} {second : Outcome γ} {behind others : Outcome δ}
    (h : place.Mirrored pictures f cursor first whole)
    (allowed : place.Allows first.tokens first.next.rest)
    (k : place.Foresees pictures first.next ∧ place.Alike g second behind)
    (same : whole.value = f first.value → whole.next = place.cursor first.next →
      others = behind) :
    place.Foresees pictures cursor ∧
      place.Alike g (first.andThen second) (whole.andThen others) := by
  obtain ⟨here, alike⟩ := h.hands allowed k.1
  rw [same alike.value alike.next]
  exact ⟨here, alike.andThen k.2⟩

open LocatedTree SourceTree

theorem ownTokensOf_trivia (cursor : Cursor) :
    ownTokensOf ((trivia .programUnit cursor).located cursor) = [] := by
  rw [Outcome.ownTokensOf_located (flat_trivia .programUnit cursor), tokens_significant_trivia]
  rfl

theorem ownTokensOf_unitStep (settings : Settings) (enclosing : List ProgramIdentity)
    (state : UnitState) (cursor : Cursor) :
    ownTokensOf ((unitStep settings enclosing state cursor).located cursor) = [] := by
  obtain ⟨kind, children, trees⟩ := trees_unitStep settings enclosing state cursor
  rw [Outcome.located, trees]
  exact ownTokensOf_cons (.inr rfl) [] _

section Units

variable (settings : Settings) (solid : (Cursor.start place.behind).Solid)

include solid

/-- A unit that a full trailer closes where the text ends is the same in the whole. -/
theorem alike_unitBody_of_trailer {state : UnitState} (apart : place.Apart cursor)
    (left : ¬cursor.atEnd = true) (closing : cursor.atEndProgram = true)
    (full : (ownTokensOf ((unitBody settings [] state cursor).located cursor)).length = 4)
    (ends : (unitBody settings [] state cursor).next.rest = []) :
    place.Foresees false cursor ∧
      place.Alike place.unit (unitBody settings [] state cursor)
        (unitBody settings [] (place.unit state) (place.cursor cursor)) := by
  rw [unitBody_of_trailer settings left closing (closesEnclosing_nil _ _)] at full ends ⊢
  have own := Outcome.ownTokensOf_located ((flat_trailer state.identity cursor).withValue state)
  rw [own, List.length_map] at full
  obtain ⟨here, alike⟩ := alike_trailer state.identity apart closing full ends solid
  rw [unitBody_of_trailer settings (by rwa [apart.atEnd])
    ((atEndProgram_cursor here).trans closing) (closesEnclosing_nil _ _)]
  exact ⟨here, alike.withValue rfl⟩

omit solid in
/-- A part of a unit is mirrored, so it is the same in the whole if the parts behind it are. -/
theorem alike_unitBody_of_part {state : UnitState} (left : ¬cursor.atEnd = true)
    (goesOn : ¬cursor.atEndProgram = true)
    (allowed : place.Allows (unitStep settings [] state cursor).tokens
      (unitStep settings [] state cursor).next.rest)
    (later : let part := unitStep settings [] state cursor
      place.Foresees false part.next ∧
        place.Alike place.unit (unitRounds settings [] part.value part.next)
          (unitRounds settings [] (place.unit part.value) (place.cursor part.next))) :
    place.Foresees false cursor ∧
      place.Alike place.unit (unitBody settings [] state cursor)
        (unitBody settings [] (place.unit state) (place.cursor cursor)) := by
  have step : place.Mirrored false place.unit cursor (unitStep settings [] state cursor)
      (unitStep settings [] (place.unit state) (place.cursor cursor)) :=
    mirrored_unitStep settings fun _ => mirrors_unitRounds settings _ .fresh cursor
  have parts : place.Foresees false cursor ∧
      place.Alike place.unit
        (let part := unitStep settings [] state cursor
        part.andThen (unitRounds settings [] part.value part.next))
        (let part := unitStep settings [] (place.unit state) (place.cursor cursor)
        part.andThen (unitRounds settings [] part.value part.next)) :=
    step.before allowed later fun value next => by rw [← value, ← next]
  obtain ⟨here, alike⟩ := parts
  rw [unitBody_of_part settings left goesOn,
    unitBody_of_part settings (by rwa [here.apart.atEnd]) (by rwa [atEndProgram_cursor here])]
  exact ⟨here, alike⟩

/-- A unit that a full trailer closes where the text ends is the same in the whole. -/
theorem alike_unitRounds (state : UnitState) (cursor : Cursor)
    (apart : cursor.rest ≠ [] → place.Apart cursor)
    (full : (ownTokensOf ((unitRounds settings [] state cursor).located cursor)).length = 4)
    (ends : (unitRounds settings [] state cursor).next.rest = [])
    (allowed : place.Allows (unitRounds settings [] state cursor).tokens
      (unitRounds settings [] state cursor).next.rest) :
    place.Foresees false cursor ∧
      place.Alike place.unit (unitRounds settings [] state cursor)
        (unitRounds settings [] (place.unit state) (place.cursor cursor)) := by
  let lead := trivia .programUnit cursor
  have flat := flat_trivia .programUnit cursor
  rw [unitRounds_eq_andThen] at full ends allowed ⊢
  rw [Outcome.located_andThen flat.faithful, ownTokensOf_append, ownTokensOf_trivia,
    List.nil_append] at full
  rw [Outcome.tokens_andThen] at allowed
  have bodyReads := (faithful_unitBody settings [] state lead.next).reads
  suffices place.Foresees false lead.next ∧
      place.Alike place.unit (unitBody settings [] state lead.next)
        (unitBody settings [] (place.unit state) (place.cursor lead.next)) by
    rw [unitRounds_eq_andThen]
    exact Mirrored.before (mirrors_trivia (by decide) cursor) (allowed.of_reads bodyReads) this
      fun _ next => by rw [next]
  by_cases left : lead.next.atEnd = true
  · rw [unitBody_of_end settings left] at full
    cases full
  · have some : lead.next.rest ≠ [] := fun empty => left (Cursor.atEnd_iff.mpr empty)
    have suffix : lead.next.rest <:+ cursor.rest := suffix_of_faithful (flat_trivia _).faithful cursor
    have begins : cursor.rest ≠ [] := fun empty => some (List.suffix_nil.mp (empty ▸ suffix))
    have apartLead := (apart begins).suffix suffix some
    by_cases closing : lead.next.atEndProgram = true
    · exact alike_unitBody_of_trailer settings solid apartLead left closing full ends
    · let part := unitStep settings [] state lead.next
      have step := faithful_unitStep settings [] state lead.next
      rw [unitBody_of_part settings left closing] at full ends allowed
      rw [Outcome.located_andThen step, ownTokensOf_append, ownTokensOf_unitStep,
        List.nil_append] at full
      have later := (faithful_unitRounds settings [] part.value part.next).reads
      have shorter : part.next.rest.length < cursor.rest.length :=
        (step.reads.shorter (carries_unitStep settings [] state
          (atToken_of_not_atEnd rfl left)).consumes).trans_le (trivia_length_le _ cursor)
      have behind (left : part.next.rest ≠ []) : place.Apart part.next := by
        refine apartLead.suffix ?_ left
        rw [step.reads.rest_eq]
        exact List.suffix_append _ _
      exact alike_unitBody_of_part settings left closing (allowed.behind.of_reads later)
        (alike_unitRounds part.value part.next behind full ends allowed.behind.behind)
termination_by cursor.rest.length

end Units

/-! ### The units of a text -/

theorem tokens_closeUnit (start : Cursor) (parts : Outcome UnitState) :
    (closeUnit start parts).tokens = parts.tokens := by
  unfold closeUnit
  rw [Outcome.tokens_under, Outcome.tokens_andThen]
  split
  · exact List.append_nil _
  · rw [tokens_reportAt, List.append_nil]

/-- A unit with a first token is gathered and closed just as in the text, whatever stands behind
it. -/
theorem alike_closeUnit {token : Token} {after : Cursor} {parts whole : Outcome UnitState}
    (sees : place.Sees cursor) (first : cursor.significant? .programUnit = some (token, after))
    (h : place.Alike place.unit parts whole) :
    place.Alike id (closeUnit cursor parts) (closeUnit (place.cursor cursor) whole) := by
  have there := significant?_cursor_of_some sees first
  have seen : (place.unit parts.value).seen = parts.value.seen := rfl
  simp only [closeUnit, first, there, Option.map_some, h.value, seen, reportAt, h.next]
  refine .under _ (h.andThen ?_)
  split
  · exact .still rfl _
  · exact ⟨rfl, rfl, rfl, .cons (tells_ofToken .noIdentificationDivision token) .nil, rfl⟩

section Forest

variable (settings : Settings)

/-- Behind the last part of a unit there is nothing to skip. -/
theorem solid_unitRounds (enclosing : List ProgramIdentity) (state : UnitState) (cursor : Cursor) :
    (unitRounds settings enclosing state cursor).next.Solid := by
  refine unitRounds_induction settings enclosing
    (motive := fun _ _ outcome => outcome.next.Solid) ?ends ?closes ?goesOn state cursor
  case ends => exact fun _ cursor => Cursor.solid_trivia rfl cursor
  case closes => exact fun _ _ _ => Cursor.solid_trivia rfl _
  case goesOn => exact fun _ _ _ _ _ _ _ later => later

/-- The units of a text: one behind blanks, and those behind it. -/
theorem programUnits_apply (cursor : Cursor) :
    programUnits settings cursor =
      let lead := trivia .programUnit cursor
      if lead.next.atEnd then lead
      else
        let unit := programUnit settings lead.next
        lead.andThen (unit.andThen (programUnits settings unit.next)) := by
  have faithful := fun _ : Unit => faithful_programUnitRound settings
  have advances := advances_programUnitRound settings
  rw [programUnits, rounds_eq_repeating .programUnit faithful advances,
    repeating_eq faithful advances, programUnitRound_apply]
  by_cases left : (trivia .programUnit cursor).next.atEnd = true
  · simp only [if_pos left, Outcome.andThen_still]
    rfl
  · simp only [if_neg left, Outcome.value_withValue, Outcome.andThen_withValue,
      Outcome.withValue_andThen, Outcome.next_withValue, Outcome.next_andThen]
    simp [Outcome.andThen]

/-- Where a token stands, a unit takes it. -/
theorem carries_programUnits {cursor : Cursor} (atToken : cursor.AtToken) :
    (programUnits settings cursor).Carries := by
  have still : trivia .programUnit cursor = .still () cursor := atToken.solid.trivia rfl
  have left : ¬cursor.atEnd = true := fun ends =>
    atToken.rest_ne_nil (Cursor.atEnd_iff.mp ends)
  rw [programUnits_apply, still]
  dsimp only
  split
  · rename_i ends
    exact absurd ends left
  · exact carries_andThen_right _
      (carries_andThen_left (carries_programUnit settings atToken) _)

theorem programUnits_of_end {cursor : Cursor} (ends : cursor.rest = []) :
    programUnits settings cursor = .still () cursor := by
  have still : trivia .programUnit cursor = .still () cursor :=
    trivia_of_end (Cursor.next?_eq_none_iff.mpr ends)
  rw [programUnits_apply, still]
  exact if_pos (Cursor.atEnd_iff.mpr ends)

/-- The last unit of a text is the same in the whole if a full trailer closes it. -/
theorem alike_programUnit (solid : (Cursor.start place.behind).Solid) (atToken : cursor.AtToken)
    (apart : place.Apart cursor)
    (full : (ownTokensOf ((unitRounds settings [] .fresh cursor).located cursor)).length = 4)
    (ends : (programUnit settings cursor).next.rest = [])
    (allowed : place.Allows (programUnit settings cursor).tokens
      (programUnit settings cursor).next.rest) :
    place.Foresees false cursor ∧
      place.Alike id (programUnit settings cursor)
        (programUnit settings (place.cursor cursor)) := by
  rw [programUnit, next_closeUnit] at ends
  rw [programUnit, tokens_closeUnit, next_closeUnit] at allowed
  obtain ⟨here, alike⟩ := alike_unitRounds settings solid .fresh cursor (fun _ => apart) full ends
    allowed
  obtain ⟨token, after, read, carries⟩ := atToken
  exact ⟨here, alike_closeUnit here.sees (Cursor.significant?_of_next? read carries) alike⟩

/-- Behind a last unit the text ends, since the unit takes the blanks behind its last part. -/
theorem rest_eq_nil_of_last {cursor : Cursor}
    (none : Token.significant (programUnits settings (programUnit settings cursor).next).tokens = []) :
    (programUnit settings cursor).next.rest = [] := by
  have solid : (programUnit settings cursor).next.Solid := by
    rw [programUnit, next_closeUnit]
    exact solid_unitRounds settings [] .fresh cursor
  by_contra left
  have read := Cursor.next?_of_rest left .programUnit
  refine carries_programUnits settings ⟨_, _, read, solid _ _ read⟩ ?_
  rw [← Token.lexemes_significant, none]
  rfl

theorem full_of_isClosed {cursor : Cursor} (closed : (programUnit settings cursor).IsClosed cursor) :
    (ownTokensOf ((unitRounds settings [] .fresh cursor).located cursor)).length = 4 := by
  obtain ⟨unit, mem, -, -, full, -⟩ := closed
  rw [programUnit, Outcome.located, trees_closeUnit] at mem
  cases List.mem_singleton.mp mem
  exact full

theorem programUnits_of_unit {cursor : Cursor}
    (left : ¬(trivia .programUnit cursor).next.atEnd = true) :
    programUnits settings cursor =
      let lead := trivia .programUnit cursor
      let unit := programUnit settings lead.next
      lead.andThen (unit.andThen (programUnits settings unit.next)) := by
  rw [programUnits_apply]
  exact if_neg left

variable (place) in
/-- What the whole makes begins as it does in the text, and goes on where the text ends as if it
began there. -/
def Continues (cursor : Cursor) (outcome whole : Outcome Unit) : Prop :=
  place.Foresees false cursor ∧ ∃ first, place.Alike id outcome first ∧
    whole = first.andThen (programUnits settings (place.cursor outcome.next))

/-- What is mirrored hands on how the whole goes on. -/
theorem Mirrored.continues {α β : Type} {f : α → β} {first : Outcome α} {whole : Outcome β}
    {second others : Outcome Unit} (h : place.Mirrored false f cursor first whole)
    (allowed : place.Allows first.tokens first.next.rest)
    (k : place.Continues settings first.next second others) :
    place.Continues settings cursor (first.andThen second) (whole.andThen others) := by
  obtain ⟨seen, behind, alike, rfl⟩ := k
  obtain ⟨here, before⟩ := h.hands allowed seen
  refine ⟨here, _, before.andThen alike, ?_⟩
  rw [Outcome.andThen_assoc]
  rfl

/-- How the whole goes on is handed over a unit that is not the last one. -/
theorem continues_of_later {cursor : Cursor}
    (allowed : place.Allows (programUnit settings cursor).tokens
      (programUnit settings cursor).next.rest)
    (k : let next := (programUnit settings cursor).next
      place.Continues settings next (programUnits settings next)
        (programUnits settings (place.cursor next))) :
    let unit := programUnit settings cursor
    let whole := programUnit settings (place.cursor cursor)
    place.Continues settings cursor (unit.andThen (programUnits settings unit.next))
      (whole.andThen (programUnits settings whole.next)) := by
  intro unit whole
  have first := ((mirrors_programUnit settings cursor).hands allowed k.1).2
  rw [first.next]
  exact (mirrors_programUnit settings cursor).continues settings allowed k

/-- The whole goes on so behind the last unit, if a full trailer closes the unit. -/
theorem continues_of_last (solid : (Cursor.start place.behind).Solid) {cursor : Cursor}
    (atToken : cursor.AtToken) (apart : place.Apart cursor)
    (allowed : place.Allows (programUnit settings cursor).tokens
      (programUnit settings cursor).next.rest)
    (closed : (programUnit settings cursor).IsClosed cursor)
    (none : Token.significant (programUnits settings (programUnit settings cursor).next).tokens = []) :
    let unit := programUnit settings cursor
    let whole := programUnit settings (place.cursor cursor)
    place.Continues settings cursor (unit.andThen (programUnits settings unit.next))
      (whole.andThen (programUnits settings whole.next)) := by
  intro unit whole
  have ends : unit.next.rest = [] := rest_eq_nil_of_last settings none
  obtain ⟨here, alike⟩ := alike_programUnit settings solid atToken apart
    (full_of_isClosed settings closed) ends allowed
  have alone : unit.andThen (programUnits settings unit.next) = unit := by
    rw [programUnits_of_end settings ends, Outcome.andThen_still]
    rfl
  rw [alone]
  refine ⟨here, whole, alike, ?_⟩
  rw [alike.next]

/-- How the whole goes on is handed over the blanks before a unit. -/
theorem continues_of_unit {cursor : Cursor}
    (left : ¬(trivia .programUnit cursor).next.atEnd = true)
    (allowed : place.Allows (trivia .programUnit cursor).tokens
      (trivia .programUnit cursor).next.rest)
    (k : let start := (trivia .programUnit cursor).next
      let unit := programUnit settings start
      let whole := programUnit settings (place.cursor start)
      place.Continues settings start (unit.andThen (programUnits settings unit.next))
        (whole.andThen (programUnits settings whole.next))) :
    place.Continues settings cursor (programUnits settings cursor)
      (programUnits settings (place.cursor cursor)) := by
  have mirrored : place.Mirrored false id cursor (trivia .programUnit cursor)
      (trivia .programUnit (place.cursor cursor)) := mirrors_trivia (by decide) cursor
  have first := (mirrored.hands allowed k.1).2
  have goesOn : ¬(trivia .programUnit (place.cursor cursor)).next.atEnd = true := by
    rwa [first.next, k.1.apart.atEnd]
  rw [programUnits_of_unit settings left, programUnits_of_unit settings goesOn]
  simp only [first.next]
  exact mirrored.continues settings allowed k

/-- The units of a text are those of the whole up to where the text ends, if a full trailer closes
the last of them; there the whole goes on as if it began there. -/
theorem continues_programUnits (solid : (Cursor.start place.behind).Solid) (cursor : Cursor)
    (apart : cursor.rest ≠ [] → place.Apart cursor)
    (closed : (programUnits settings cursor).IsClosed cursor)
    (allowed : place.Allows (programUnits settings cursor).tokens
      (programUnits settings cursor).next.rest) :
    place.Continues settings cursor (programUnits settings cursor)
      (programUnits settings (place.cursor cursor)) := by
  have flat := flat_trivia .programUnit cursor
  by_cases left : (trivia .programUnit cursor).next.atEnd = true
  · rw [programUnits_apply, if_pos left] at closed
    exact absurd closed flat.not_isClosed
  have atToken := atToken_of_not_atEnd rfl left
  have apartStart : place.Apart (trivia .programUnit cursor).next := by
    have some := atToken.rest_ne_nil
    have suffix : (trivia .programUnit cursor).next.rest <:+ cursor.rest :=
      suffix_of_faithful (flat_trivia _).faithful cursor
    exact (apart fun empty => some (List.suffix_nil.mp (empty ▸ suffix))).suffix suffix some
  have unit := faithful_programUnit settings (trivia .programUnit cursor).next
  have others := faithful_programUnits settings
    (programUnit settings (trivia .programUnit cursor).next).next
  have shorter := (unit.reads.shorter (carries_programUnit settings atToken).consumes).trans_le
    (trivia_length_le .programUnit cursor)
  rw [programUnits_of_unit settings left] at closed allowed
  simp only [Outcome.tokens_andThen, Outcome.next_andThen] at allowed
  refine continues_of_unit settings left (allowed.of_reads (unit.andThen others).reads) ?_
  have pair := (closed.split flat.faithful (unit.andThen others)).resolve_right
    fun lone => flat.not_isClosed lone.1
  rcases pair.split unit others with later | ⟨last, none⟩
  · refine continues_of_later settings (allowed.behind.of_reads others.reads)
      (continues_programUnits solid _ (fun left => apartStart.suffix ?_ left) later
        allowed.behind.behind)
    rw [unit.reads.rest_eq]
    exact List.suffix_append _ _
  · exact continues_of_last settings solid atToken apartStart
      (allowed.behind.of_reads others.reads) last none
termination_by cursor.rest.length

end Forest

end Placement

end CobolTree
