import CobolTree.Proofs.Production.Diagnosis
import CobolTree.Proofs.Production.Landmarks

/-!
The names that programs go by. While a unit is read, the parser knows it by the name that the last
PROGRAM-ID paragraph with a name has declared; the tree tells this name, too
(`LocatedTree.goesBy?`). What is read is `Named` when the name that the parser has behind it is what
its trees declare, or else the name that it had before (`namesUnit_unitRounds`). An IDENTIFICATION
DIVISION behind another division begins a nested unit, so a unit that has begun keeps its name.
-/

namespace CobolTree

namespace LocatedTree

/-- The nodes of one kind right in a forest. -/
def ofKind (sort : Kind) (forest : List LocatedTree) : List LocatedTree :=
  forest.filter fun tree => tree.isNode && kind tree == sort

/-- The names that the PROGRAM-ID paragraphs in a forest declare. -/
def paragraphNames (forest : List LocatedTree) : List Leaf :=
  (ofKind .programIdParagraph forest).filterMap declared?

/-- The names that the IDENTIFICATION DIVISIONS in a forest declare. -/
def declaredNames (forest : List LocatedTree) : List Leaf :=
  (ofKind .identificationDivision forest).flatMap fun division => paragraphNames division.children

/-- The last of some names, without quotes. -/
def lastOf (names : List Leaf) : Option Text := names.getLast?.map (programName ·.text)

/-- The name that a unit goes by: the last one that it declares. -/
def goesBy? (unit : LocatedTree) : Option Text := lastOf (declaredNames unit.children)

section Names

variable (sort : Kind) (s t : List LocatedTree)

theorem ofKind_append : ofKind sort (s ++ t) = ofKind sort s ++ ofKind sort t :=
  List.filter_append ..

theorem ofKind_leaves (leaves : List Leaf) : ofKind sort (leaves.map .leaf) = [] := by
  apply List.filter_eq_nil_iff.mpr
  intro tree mem
  obtain ⟨leaf, -, rfl⟩ := List.mem_map.mp mem
  exact Bool.false_ne_true

theorem ofKind_node (extent : Extent) (children : List LocatedTree) :
    ofKind sort [.node extent children] =
      if extent.kind = sort then [.node extent children] else [] := by
  simp [ofKind, kind, Tree.isNode, Tree.label?, List.filter_cons]

theorem childrenOf_eq (tree : LocatedTree) : childrenOf sort tree = ofKind sort tree.children := by
  rw [childrenOf, Tree.childNodes, List.filter_filter, ofKind]
  exact List.filter_congr fun tree _ => Bool.and_comm _ _

theorem lastOf_append (names others : List Leaf) :
    lastOf (names ++ others) = (lastOf others).or (lastOf names) := by
  rw [lastOf, List.getLast?_append, lastOf, lastOf]
  cases others.getLast? <;> rfl

theorem paragraphNames_append :
    paragraphNames (s ++ t) = paragraphNames s ++ paragraphNames t := by
  rw [paragraphNames, ofKind_append, List.filterMap_append]
  rfl

theorem declaredNames_append : declaredNames (s ++ t) = declaredNames s ++ declaredNames t := by
  rw [declaredNames, ofKind_append, List.flatMap_append]
  rfl

theorem paragraphNames_leaves (leaves : List Leaf) : paragraphNames (leaves.map .leaf) = [] := by
  rw [paragraphNames, ofKind_leaves]
  rfl

theorem declaredNames_leaves (leaves : List Leaf) : declaredNames (leaves.map .leaf) = [] := by
  rw [declaredNames, ofKind_leaves]
  rfl

theorem paragraphNames_node {extent : Extent} (other : extent.kind ≠ .programIdParagraph)
    (children : List LocatedTree) : paragraphNames [.node extent children] = [] := by
  rw [paragraphNames, ofKind_node, if_neg other]
  rfl

theorem declaredNames_node {extent : Extent} (other : extent.kind ≠ .identificationDivision)
    (children : List LocatedTree) : declaredNames [.node extent children] = [] := by
  rw [declaredNames, ofKind_node, if_neg other]
  rfl

end Names

end LocatedTree

namespace Outcome

open LocatedTree

variable {α β : Type} {cursor : Cursor} {names : List LocatedTree → List Leaf}
  {before middle behind : Option ProgramIdentity} {first : Outcome α} {second : Outcome β}

/-- Behind the trees of an outcome, a program goes by the last of the names in them, or by the name
that it had before. -/
def Named (names : List LocatedTree → List Leaf) (before behind : Option ProgramIdentity)
    (cursor : Cursor) (outcome : Outcome α) : Prop :=
  behind.map (·.name) = (lastOf (names (outcome.located cursor))).or (before.map (·.name))

/-- Where there are no names, a program keeps its name. -/
theorem named_of_nil (none : names (first.located cursor) = []) :
    first.Named names before before cursor := by
  rw [Named, none]
  rfl

theorem Named.withValue (value : β) (h : first.Named names before behind cursor) :
    (first.withValue value).Named names before behind cursor := h

/-- What has the same trees has the same names. -/
theorem Named.congr {outcome : Outcome β} (h : first.Named names before behind cursor)
    (same : outcome.trees = first.trees) : outcome.Named names before behind cursor := by
  unfold Named at h ⊢
  rw [located, same]
  exact h

theorem Named.andThen (append : ∀ s t, names (s ++ t) = names s ++ names t)
    (faithful : first.Faithful cursor) (h : first.Named names before middle cursor)
    (k : second.Named names middle behind first.next) :
    (first.andThen second).Named names before behind cursor := by
  unfold Named at h k ⊢
  rw [k, h, located_andThen faithful, append, lastOf_append, Option.or_assoc]

end Outcome

namespace Production

open SourceTree LocatedTree

variable {α : Type} {cursor : Cursor}

/-! ### The IDENTIFICATION DIVISION -/

/-- What is read in a PROGRAM-ID paragraph: the word PROGRAM-ID, perhaps a period, and perhaps a name
with what follows it. -/
structure ReadsProgramId (value : Option ProgramIdentity) (word : Token) (node : LocatedTree)
    (period name : Option Token) (rest : List Token) : Prop where
  isNode : node.isNode = true
  kind : LocatedTree.kind node = .programIdParagraph
  tokens : node.tokens =
    (word :: (period.toList ++ (name.toList ++ rest))).map Token.leaf
  own : node.ownTokens = node.tokens
  isPeriod : ∀ token ∈ period, token.kind = .dot
  isName : ∀ token ∈ name, token.leaf.namesProgram = true
  nothing : name = none → rest = []
  value : value.map (·.name) = name.map (programName ·.text)

theorem exists_programIdParagraph {after : Cursor} {word : Token}
    (h : cursor.significant? .identificationDivision = some (word, after)) :
    ∃ node period name rest, (programIdParagraph cursor).located cursor = [node] ∧
      ReadsProgramId (programIdParagraph cursor).value word node period name rest := by
  let context := Context.identificationDivision
  let keyword := bumpSignificant context cursor
  let period := expectPeriod context .programId keyword.next
  let name := eatIf context (nameTest period.next) period.next
  let rest := behindName name.value name.next
  let body := keyword.andThen (period.andThen (name.andThen rest))
  have whole : programIdParagraph cursor = body.under .programIdParagraph :=
    programIdParagraph_apply cursor
  have gathered := gathered_programIdParagraph cursor
  have faithful := gathered.faithful
  rw [whole] at gathered faithful ⊢
  have begins : Token.significant keyword.tokens = [word] := tokens_significant_bumpSignificant h
  have dot : Token.significant period.tokens = period.value.toList :=
    tokens_significant_expectPeriod _ _ _
  have named : Token.significant name.tokens = name.value.toList := tokens_significant_eatIf _ _ _
  have tokens : Token.significant body.tokens =
      word :: (period.value.toList ++ (name.value.toList ++ Token.significant rest.tokens)) := by
    simp only [body, Outcome.tokens_andThen, Token.significant_append, begins, dot, named]
    rfl
  have flat : body.Flat cursor := by
    have row := (Tree.node.inj (List.cons.inj gathered.trees).1).2
    exact ⟨gathered.reads, row⟩
  refine ⟨body.top .programIdParagraph cursor, period.value, name.value,
    Token.significant rest.tokens, rfl, rfl, rfl, ?_, ?_, ?_, ?_, ?_, ?_⟩
  · rw [Outcome.tokens_top faithful, tokens]
  · rw [Outcome.tokens_top faithful]
    exact Outcome.ownTokensOf_located flat
  · exact fun token found => kind_of_expectPeriod found
  · exact fun token found => (nameTest_iff.mp (test_of_eatIf found)).2
  · intro none
    have words := (behindName_none name.next).1
    rw [← none] at words
    exact List.map_eq_nil_iff.mp ((Token.lexemes_significant rest.tokens).trans words)
  · have value : (body.under .programIdParagraph).value = (behindName name.value name.next).value :=
      rfl
    rw [value]
    cases name.value <;> rfl

namespace ReadsProgramId

variable {value : Option ProgramIdentity} {word : Token} {node : LocatedTree}
  {period name : Option Token} {rest : List Token}

/-- A PROGRAM-ID paragraph declares the first word or literal behind PROGRAM-ID. -/
theorem declared? (h : ReadsProgramId value word node period name rest) :
    LocatedTree.declared? node = name.map Token.leaf := by
  rw [LocatedTree.declared?, h.tokens, List.map_cons, List.drop_one, List.tail_cons]
  cases found : name with
  | some token =>
      rw [Option.toList_some, List.singleton_append, find?_name h.isPeriod (h.isName token found)]
      rfl
  | none =>
      rw [h.nothing found, Option.toList_none, List.nil_append, List.append_nil]
      cases dotted : period with
      | none => rfl
      | some token =>
          have other : ¬token.leaf.namesProgram = true := by
            simp [Leaf.namesProgram, Token.leaf, h.isPeriod token dotted]
          rw [Option.toList_some, List.map_singleton, List.find?_cons_of_neg other]
          rfl

end ReadsProgramId

/-- What is read in a row has no nodes, so no names. -/
theorem paragraphNames_flat {outcome : Outcome α} (h : outcome.Flat cursor) :
    paragraphNames (outcome.located cursor) = [] := by
  rw [Outcome.located_flat h, paragraphNames_leaves]

theorem paragraphNames_gathered {outcome : Outcome α} {kind : Kind}
    (h : outcome.Gathered kind cursor) (other : kind ≠ .programIdParagraph) :
    paragraphNames (outcome.located cursor) = [] := by
  rw [Outcome.located, h.trees]
  exact paragraphNames_node other _

theorem names_programIdParagraph (atToken : cursor.AtToken) (before : Option ProgramIdentity) :
    (programIdParagraph cursor).Named paragraphNames before
      ((programIdParagraph cursor).value.or before) cursor := by
  have mode : Context.identificationDivision.mode = .word := rfl
  obtain ⟨word, after, read⟩ := atToken.exists_significant? (.inl mode)
  obtain ⟨node, period, name, rest, located, reads⟩ := exists_programIdParagraph read
  have itself : ofKind .programIdParagraph [node] = [node] :=
    List.filter_cons_of_pos (by simp [reads.isNode, reads.kind])
  have names : paragraphNames [node] = (name.map Token.leaf).toList := by
    rw [paragraphNames, itself]
    cases found : name <;> simp [reads.declared?, found]
  have value := reads.value
  unfold Outcome.Named
  rw [located, names]
  cases declares : (programIdParagraph cursor).value with
  | none =>
      rw [declares] at value
      rw [Option.map_eq_none_iff.mp value.symm]
      rfl
  | some program =>
      rw [declares] at value
      obtain ⟨token, found, same⟩ := Option.map_eq_some_iff.mp value.symm
      rw [found]
      simp [lastOf, ← same, Token.leaf]

theorem names_identificationRound (declared : Declared) (cursor : Cursor) :
    (identificationRound declared cursor).Named paragraphNames declared.identity
      (identificationRound declared cursor).value.value.identity cursor := by
  have flat := flat_trivia .identificationDivision cursor
  rw [identificationRound_apply]
  refine .andThen paragraphNames_append flat.faithful
    (Outcome.named_of_nil (paragraphNames_flat flat)) ?_
  rw [Outcome.value_andThen]
  split
  · exact Outcome.named_of_nil rfl
  · rename_i inside
    split
    · exact names_programIdParagraph (atToken_of_not_atUnitBoundary rfl inside) declared.identity
    · split
      · refine Outcome.Named.withValue _ (Outcome.named_of_nil ?_)
        exact paragraphNames_gathered (gathered_commentEntryParagraph _) (by decide)
      · refine Outcome.Named.withValue _ (Outcome.named_of_nil ?_)
        exact paragraphNames_gathered (gathered_strayText _ _) (by decide)

theorem names_identification (declared : Declared) (cursor : Cursor) :
    (rounds .identificationDivision identificationRound declared cursor).Named paragraphNames
      declared.identity
      (rounds .identificationDivision identificationRound declared cursor).value.identity cursor := by
  rw [rounds_eq_repeating .identificationDivision faithful_identificationRound
    advances_identificationRound]
  refine repeating_induction_from (motive := fun declared cursor outcome =>
    outcome.Named paragraphNames declared.identity outcome.value.identity cursor)
    faithful_identificationRound advances_identificationRound ?last ?goesOn declared cursor
  case last =>
    intro declared cursor final h
    have round := names_identificationRound declared cursor
    rw [h] at round
    exact round
  case goesOn =>
    intro declared cursor next outcome h rest
    have round := names_identificationRound declared cursor
    rw [h] at round
    exact round.andThen paragraphNames_append (faithful_identificationRound declared cursor) rest

/-- Behind the paragraphs of the division, a program goes by the last name in them. -/
theorem names_identificationBody (header : Option Token) (cursor : Cursor) :
    (identificationBody header cursor).Named paragraphNames none
      (identificationBody header cursor).value cursor := by
  have body := names_identification ⟨false, none⟩ cursor
  simp only [identificationBody, bind_apply, ite_apply]
  split
  · exact body.congr (by simp)
  · exact body.congr (by simp [trees_reportAt])

/-- The node is what a PROGRAM-ID paragraph was read as. -/
def IsProgramId (node : LocatedTree) : Prop :=
  ∃ value word period name rest, word.isWord "PROGRAM-ID".toList = true ∧
    ReadsProgramId value word node period name rest

/-- The PROGRAM-ID paragraphs among the trees of an outcome are what such paragraphs were read as. -/
def HoldsProgramIds (cursor : Cursor) (outcome : Outcome α) : Prop :=
  ∀ node ∈ ofKind .programIdParagraph (outcome.located cursor), IsProgramId node

theorem HoldsProgramIds.andThen {β : Type} {first : Outcome α} {second : Outcome β}
    (faithful : first.Faithful cursor) (h : HoldsProgramIds cursor first)
    (k : HoldsProgramIds first.next second) : HoldsProgramIds cursor (first.andThen second) := by
  intro node mem
  rw [Outcome.located_andThen faithful, ofKind_append] at mem
  rcases List.mem_append.mp mem with left | right
  · exact h node left
  · exact k node right

theorem holdsProgramIds_of_nil {outcome : Outcome α}
    (none : ofKind .programIdParagraph (outcome.located cursor) = []) :
    HoldsProgramIds cursor outcome := by
  intro node mem
  rw [none] at mem
  cases mem

theorem holdsProgramIds_gathered {outcome : Outcome α} {kind : Kind}
    (h : outcome.Gathered kind cursor) (other : kind ≠ .programIdParagraph) :
    HoldsProgramIds cursor outcome := by
  refine holdsProgramIds_of_nil ?_
  rw [Outcome.located, h.trees]
  exact (ofKind_node _ _ _).trans (if_neg other)

theorem holdsProgramIds_identificationRound (declared : Declared) (cursor : Cursor) :
    HoldsProgramIds cursor (identificationRound declared cursor) := by
  have flat := flat_trivia .identificationDivision cursor
  have blanks : HoldsProgramIds cursor (trivia .identificationDivision cursor) := by
    refine holdsProgramIds_of_nil ?_
    rw [Outcome.located_flat flat, ofKind_leaves]
  rw [identificationRound_apply]
  refine blanks.andThen flat.faithful ?_
  generalize (trivia .identificationDivision cursor).next = here
  split
  · exact holdsProgramIds_of_nil rfl
  · split
    · rename_i declares
      intro node mem
      obtain ⟨word, after, read, reads⟩ := exists_significant?_of_isWord declares
      obtain ⟨paragraph, period, name, rest, located, tokens⟩ := exists_programIdParagraph read
      have only : node ∈ [paragraph] := by
        rw [← located]
        exact (List.mem_filter.mp mem).1
      rw [List.mem_singleton.mp only]
      exact ⟨_, word, period, name, rest, reads, tokens⟩
    · split
      · have comment : HoldsProgramIds here (commentEntryParagraph here) :=
          holdsProgramIds_gathered (gathered_commentEntryParagraph here) (by decide)
        exact comment
      · have stray : HoldsProgramIds here (strayText .identificationDivision here) :=
          holdsProgramIds_gathered (gathered_strayText _ here) (by decide)
        exact stray

theorem holdsProgramIds_identificationBody (header : Option Token) (cursor : Cursor) :
    HoldsProgramIds cursor (identificationBody header cursor) := by
  have body : HoldsProgramIds cursor
      (rounds .identificationDivision identificationRound ⟨false, none⟩ cursor) := by
    rw [rounds_eq_repeating .identificationDivision faithful_identificationRound
      advances_identificationRound]
    refine repeating_induction (motive := fun cursor outcome => HoldsProgramIds cursor outcome)
      faithful_identificationRound advances_identificationRound ?last ?goesOn _ cursor
    case last => exact fun declared cursor _ _ => holdsProgramIds_identificationRound declared cursor
    case goesOn =>
      intro declared cursor next outcome _ rest
      exact (holdsProgramIds_identificationRound declared cursor).andThen
        (faithful_identificationRound declared cursor) rest
  have same : (identificationBody header cursor).located cursor =
      (rounds .identificationDivision identificationRound ⟨false, none⟩ cursor).located cursor := by
    simp only [identificationBody, bind_apply, ite_apply]
    split <;> simp [Outcome.located, trees_reportAt]
  intro node mem
  rw [same] at mem
  exact body node mem

/-! ### Divisions -/

/-- The trees right below an IDENTIFICATION DIVISION: its header, and what was read behind it. -/
theorem located_identification (settings : Settings) (cursor : Cursor) :
    let header := divisionHeader .identification cursor
    ∃ extent : Extent, extent.kind = .identificationDivision ∧
      (division settings .identification cursor).located cursor =
        [.node extent (header.located cursor ++
          (identificationBody header.value header.next).located header.next)] := by
  intro header
  have flat := flat_divisionHeader .identification cursor
  have parts := Outcome.located_andThen flat.faithful (identificationBody header.value header.next)
  have node : (division settings .identification cursor).located cursor =
      [(header.andThen (identificationBody header.value header.next)).top
        .identificationDivision cursor] := rfl
  rw [node, Outcome.top, parts]
  exact ⟨_, rfl, rfl⟩

/-- An IDENTIFICATION DIVISION declares the names in its paragraphs. -/
theorem declaredNames_division (settings : Settings) (cursor : Cursor) :
    let header := divisionHeader .identification cursor
    declaredNames ((division settings .identification cursor).located cursor) =
      paragraphNames ((identificationBody header.value header.next).located header.next) := by
  intro header
  obtain ⟨extent, kind, located⟩ := located_identification settings cursor
  rw [located, declaredNames, ofKind_node, if_pos kind, List.flatMap_singleton, Tree.children,
    paragraphNames_append, paragraphNames_flat (flat_divisionHeader .identification cursor),
    List.nil_append]

/-- A division declares the names in it if it is an IDENTIFICATION DIVISION, and none otherwise. -/
theorem names_division (settings : Settings) (found : Division) (before : Option ProgramIdentity)
    (cursor : Cursor) :
    (division settings found cursor).Named declaredNames before
      ((division settings found cursor).value.or before) cursor := by
  have other (none : (division settings found cursor).value = none)
      (differs : found.kind ≠ .identificationDivision) :
      (division settings found cursor).Named declaredNames before
        ((division settings found cursor).value.or before) cursor := by
    rw [none]
    exact Outcome.named_of_nil (declaredNames_node differs _)
  cases found with
  | environment => exact other rfl (by decide)
  | data => exact other rfl (by decide)
  | procedure => exact other rfl (by decide)
  | identification =>
      have inside := names_identificationBody (divisionHeader .identification cursor).value
        (divisionHeader .identification cursor).next
      unfold Outcome.Named at inside ⊢
      rw [declaredNames_division]
      have value : (division settings .identification cursor).value = (identificationBody
        (divisionHeader .identification cursor).value
        (divisionHeader .identification cursor).next).value := rfl
      rw [value]
      rw [Option.map_none, Option.or_none] at inside
      rw [← inside]
      cases (identificationBody (divisionHeader .identification cursor).value
        (divisionHeader .identification cursor).next).value <;> rfl

theorem value_division (settings : Settings) {found : Division} (other : found ≠ .identification)
    (cursor : Cursor) : (division settings found cursor).value = none := by
  cases found with
  | identification => exact absurd rfl other
  | environment => rfl
  | data => rfl
  | procedure => rfl

end Production

/-! ### Units -/

namespace Outcome

open LocatedTree
open Production (UnitState)

variable {α : Type} {cursor : Cursor} {state : UnitState} {first second : Outcome UnitState}

/-- The IDENTIFICATION DIVISIONS among the trees of an outcome. -/
def identifications (cursor : Cursor) (outcome : Outcome α) : List LocatedTree :=
  ofKind .identificationDivision (outcome.located cursor)

/-- Behind parts of a unit that has come to a state, the unit goes by what they declare, or by the
name that it had. One of them at most is an IDENTIFICATION DIVISION, and none where the unit has
begun; so a unit that has begun keeps its name. -/
structure NamesUnit (state : UnitState) (cursor : Cursor) (outcome : Outcome UnitState) : Prop where
  named : outcome.Named declaredNames state.identity outcome.value.identity cursor
  single : (outcome.identifications cursor).length ≤ 1
  begins : outcome.identifications cursor ≠ [] → outcome.value.seen ≠ []
  begun : state.seen ≠ [] → outcome.value.seen ≠ [] ∧
    outcome.value.identity = state.identity ∧ outcome.identifications cursor = []

theorem identifications_andThen (faithful : first.Faithful cursor) :
    (first.andThen second).identifications cursor =
      first.identifications cursor ++ second.identifications first.next := by
  rw [identifications, located_andThen faithful, ofKind_append]
  rfl

theorem NamesUnit.andThen (faithful : first.Faithful cursor) (h : first.NamesUnit state cursor)
    (k : second.NamesUnit first.value first.next) :
    (first.andThen second).NamesUnit state cursor where
  named := h.named.andThen declaredNames_append faithful k.named
  single := by
    rw [identifications_andThen faithful]
    by_cases none : first.identifications cursor = []
    · rw [none]
      exact k.single
    · rw [(k.begun (h.begins none)).2.2, List.append_nil]
      exact h.single
  begins := by
    intro some
    rw [identifications_andThen faithful] at some
    by_cases none : first.identifications cursor = []
    · rw [none] at some
      exact k.begins some
    · exact (k.begun (h.begins none)).1
  begun := by
    intro seen
    obtain ⟨begun, same, none⟩ := h.begun seen
    obtain ⟨still, kept, others⟩ := k.begun begun
    refine ⟨still, kept.trans same, ?_⟩
    rw [identifications_andThen faithful, none, others]
    rfl

/-- What has no IDENTIFICATION DIVISION in it leaves the unit as it is. -/
theorem namesUnit_of_nil {outcome : Outcome α} (none : outcome.identifications cursor = [])
    (state : UnitState) : (outcome.withValue state).NamesUnit state cursor := by
  have same : (outcome.withValue state).identifications cursor = [] := none
  refine ⟨?_, ?_, ?_, ?_⟩
  · refine (named_of_nil ?_).withValue state
    rw [declaredNames, show ofKind _ _ = [] from none]
    rfl
  · rw [same]
    exact Nat.zero_le _
  · exact fun some => absurd same some
  · exact fun seen => ⟨seen, rfl, same⟩

end Outcome

namespace Production

open LocatedTree

variable (settings : Settings) {α : Type} {cursor : Cursor}

theorem identifications_flat {outcome : Outcome α} (h : outcome.Flat cursor) :
    outcome.identifications cursor = [] := by
  rw [Outcome.identifications, Outcome.located_flat h, ofKind_leaves]

theorem located_closeUnit (start : Cursor) (parts : Outcome UnitState) :
    (closeUnit start parts).located cursor = [parts.top .programUnit cursor] := by
  rw [Outcome.located, trees_closeUnit]
  rfl

/-- A part of a unit that has begun is no IDENTIFICATION DIVISION of the unit. -/
theorem namesUnit_unitStep (enclosing : List ProgramIdentity) (state : UnitState)
    (cursor : Cursor) :
    (unitStep settings enclosing state cursor).NamesUnit state cursor := by
  by_cases inside : cursor.divisionHeader? = some .identification ∧ state.seen ≠ []
  · rw [unitStep_of_nested settings enclosing inside]
    refine Outcome.namesUnit_of_nil ?_ state
    rw [Outcome.identifications, located_closeUnit]
    exact (ofKind_node _ _ _).trans (if_neg (by simp))
  · rw [unitStep_of_not_nested settings enclosing inside]
    cases header : cursor.divisionHeader? with
    | none =>
        rw [unitPart_of_stray settings state header]
        refine Outcome.namesUnit_of_nil ?_ state
        rw [Outcome.identifications, Outcome.located, (gathered_strayText .programUnit cursor).trees]
        exact (ofKind_node _ _ _).trans (if_neg (by simp))
    | some found =>
        have part := unitPart_of_header settings state header
        have names := names_division settings found state.identity cursor
        have trees : (unitPart settings state cursor).trees =
            (division settings found cursor).trees := by
          rw [part, Outcome.trees_withValue, Outcome.trees_andThen, (trees_checkOrder _ _ _ _).1,
            List.nil_append]
        have single : (unitPart settings state cursor).identifications cursor =
            if found.kind = .identificationDivision then
              (division settings found cursor).located cursor else [] := by
          rw [Outcome.identifications, Outcome.located, trees]
          exact ofKind_node _ _ _
        have seen : (unitPart settings state cursor).value.seen ≠ [] := by simp [part]
        refine ⟨?_, ?_, fun _ => seen, fun begun => ⟨seen, ?_, ?_⟩⟩
        · rw [part]
          exact names.congr ((congrArg _ part).symm.trans trees)
        · rw [single]
          split
          · exact Nat.le_refl 1
          · exact Nat.zero_le 1
        all_goals
          have other : found ≠ .identification := by
            rintro rfl
            exact inside ⟨header, begun⟩
        · rw [part, Outcome.value_withValue, value_division settings other]
          rfl
        · rw [single, if_neg]
          cases found <;> simp_all [Division.kind]

/-- Blanks name nothing. -/
theorem namesUnit_trivia (state : UnitState) (cursor : Cursor) :
    ((trivia .programUnit cursor).withValue state).NamesUnit state cursor :=
  Outcome.namesUnit_of_nil (identifications_flat (flat_trivia _ cursor)) state

/-- Nor do they before a part of a unit. -/
theorem namesUnit_round (enclosing : List ProgramIdentity) (state : UnitState) (cursor : Cursor) :
    let lead := trivia .programUnit cursor
    (lead.andThen (unitStep settings enclosing state lead.next)).NamesUnit state cursor := by
  intro lead
  have flat := (flat_trivia .programUnit cursor).faithful
  exact Outcome.NamesUnit.andThen (flat.withValue state) (namesUnit_trivia state cursor)
    (namesUnit_unitStep settings enclosing state lead.next)

/-- The parts of a unit name it, in whatever state it is. -/
theorem namesUnit_unitRounds (enclosing : List ProgramIdentity) (state : UnitState)
    (cursor : Cursor) :
    (unitRounds settings enclosing state cursor).NamesUnit state cursor := by
  refine unitRounds_induction settings enclosing
    (motive := fun state cursor outcome => outcome.NamesUnit state cursor)
    ?ends ?closes ?goesOn state cursor
  case ends => exact namesUnit_trivia
  case closes =>
    intro state cursor lead closing
    have faithful := (flat_trivia .programUnit cursor).faithful.withValue state
    have none := identifications_flat (flat_trailer state.identity lead.next)
    exact (namesUnit_trivia state cursor).andThen faithful (Outcome.namesUnit_of_nil none state)
  case goesOn =>
    intro enclosing state cursor outcome lead part _ _ _ later
    have flat := (flat_trivia .programUnit cursor).faithful
    have step := faithful_unitStep settings enclosing state lead.next
    exact (namesUnit_round settings enclosing state cursor).andThen (flat.andThen step) later

/-- A unit goes by the name that it has behind its parts. -/
theorem goesBy?_top (enclosing : List ProgramIdentity) (cursor : Cursor) :
    goesBy? ((unitRounds settings enclosing .fresh cursor).top .programUnit cursor) =
      (unitRounds settings enclosing .fresh cursor).value.identity.map (·.name) := by
  have named := (namesUnit_unitRounds settings enclosing .fresh cursor).named
  unfold Outcome.Named at named
  rw [named, UnitState.fresh, Option.map_none, Option.or_none]
  rfl

end Production

end CobolTree
