import CobolTree.Proofs.Production.Boundary
import CobolTree.Proofs.Production.Conformance
import CobolTree.Proofs.Tree.Headed

/-!
What becomes of boundaries in the tree. A word at a boundary is the first token of the division
that the boundary opens, or the first of the trailer of a unit, unless it is taken for the name of
a program: a trailer takes any word behind END PROGRAM for the name, and a PROGRAM-ID paragraph
takes any word for it that opens no division. An outcome is marked where its trees show this of
each word that it reads at a boundary (`Outcome.Marked`); so the boundary words of a text are all
in the places that the tree says they are (`Parsed.keepsBoundaries_ofText`).
-/

namespace CobolTree

/-- Words and literals can name a program. -/
def Leaf.namesProgram (leaf : Leaf) : Bool := leaf.kind == .word || leaf.kind == .stringLiteral

/-- The name in a PROGRAM-ID paragraph: the first word or literal behind the word PROGRAM-ID. -/
def LocatedTree.declared? (paragraph : LocatedTree) : Option Leaf :=
  (paragraph.tokens.drop 1).find? Leaf.namesProgram

/-- The tokens right below each unit in a forest: its trailer. -/
def LocatedTree.trailersOf (forest : List LocatedTree) : List (List Leaf) :=
  ((Tree.nodesOf forest).filter (LocatedTree.kind · == .programUnit)).map LocatedTree.ownTokens

/-- What there is in a forest for boundaries to be: nodes, and trailers. -/
structure Landmarks where
  nodes : List LocatedTree
  trailers : List (List Leaf)

/-- The nodes in a forest, and the trailers of the units in it. -/
def LocatedTree.landmarks (forest : List LocatedTree) : Landmarks :=
  ⟨Tree.nodesOf forest, LocatedTree.trailersOf forest⟩

namespace Landmarks

variable (marks : Landmarks) (leaf : Leaf)

/-- A division begins with the token. -/
def OpensDivision (division : Division) : Prop :=
  ∃ node ∈ marks.nodes, LocatedTree.kind node = division.kind ∧ node.tokens.head? = some leaf

/-- A trailer begins with the token. -/
def OpensTrailer : Prop := ∃ trailer ∈ marks.trailers, trailer.head? = some leaf

/-- A trailer has the token for its name. -/
def NamesTrailer : Prop := ∃ trailer ∈ marks.trailers, trailer[2]? = some leaf

/-- A PROGRAM-ID paragraph has the token for its name. -/
def NamesProgram : Prop :=
  ∃ node ∈ marks.nodes, LocatedTree.kind node = .programIdParagraph ∧
    LocatedTree.declared? node = some leaf

/-- A token is where it may be read: if a boundary stands there, the token is what the boundary
opens, or the name of a program. -/
structure Admits (place : Cursor) (token : Token) : Prop where
  division : ∀ division, place.divisionHeader? = some division →
    marks.OpensDivision token.leaf division ∨ marks.NamesTrailer token.leaf
  trailer : place.atEndProgram = true →
    marks.OpensTrailer token.leaf ∨ marks.NamesTrailer token.leaf ∨ marks.NamesProgram token.leaf

/-- The landmarks with the trailer of a unit around them. -/
def behind (trailer : List Leaf) : Landmarks := ⟨marks.nodes, trailer :: marks.trailers⟩

variable {marks}

/-- The landmarks are among others. -/
structure Within (marks others : Landmarks) : Prop where
  nodes : marks.nodes ⊆ others.nodes
  trailers : marks.trailers ⊆ others.trailers

theorem Within.trans {middle others : Landmarks} (h : marks.Within middle)
    (k : middle.Within others) : marks.Within others :=
  ⟨List.Subset.trans h.nodes k.nodes, List.Subset.trans h.trailers k.trailers⟩

/-- More landmarks admit more. -/
theorem Admits.mono {others : Landmarks} (within : marks.Within others) {place : Cursor}
    {token : Token} (h : marks.Admits place token) : others.Admits place token := by
  have named : marks.NamesTrailer token.leaf → others.NamesTrailer token.leaf := by
    rintro ⟨trailer, mem, same⟩
    exact ⟨trailer, within.trailers mem, same⟩
  constructor
  · intro division header
    rcases h.division division header with ⟨node, mem, same⟩ | name
    · exact .inl ⟨node, within.nodes mem, same⟩
    · exact .inr (named name)
  · intro ends
    rcases h.trailer ends with ⟨trailer, mem, same⟩ | name | ⟨node, mem, same⟩
    · exact .inl ⟨trailer, within.trailers mem, same⟩
    · exact .inr (.inl (named name))
    · exact .inr (.inr ⟨node, within.nodes mem, same⟩)

/-- Where no boundary stands, any token may be read. -/
theorem admits_of_free (marks : Landmarks) {place : Cursor} (free : place.atHeader = false)
    (token : Token) : marks.Admits place token := by
  obtain ⟨noHeader, noEnd⟩ := Bool.or_eq_false_iff.mp free
  constructor
  · intro division header
    rw [header] at noHeader
    cases noHeader
  · intro ends
    rw [ends] at noEnd
    cases noEnd

end Landmarks

/-! ### Located outcomes -/

namespace Outcome

open SourceTree LocatedTree

variable {α β : Type} {cursor : Cursor} {first : Outcome α} {second : Outcome β} {marks : Landmarks}

/-- The trees of an outcome, where they lie in the text. -/
def located (cursor : Cursor) (outcome : Outcome α) : List LocatedTree :=
  locateAllAt cursor.position.index outcome.trees

theorem leavesOf_located (h : first.Faithful cursor) :
    Tree.leavesOf (first.located cursor) = first.tokens.map Token.leaf := by
  rw [located, leavesOf_locateAllAt_eq_row, h.leaves, h.reads.row_eq]

theorem located_flat (h : first.Flat cursor) :
    first.located cursor = (first.tokens.map Token.leaf).map .leaf := by
  rw [located, h.trees, locateAllAt_row, h.reads.row_eq]

theorem located_andThen (h : first.Faithful cursor) (second : Outcome β) :
    (first.andThen second).located cursor =
      first.located cursor ++ second.located first.next := by
  have size : (textOf first.trees).byteLength =
      (Lexeme.textOf (Token.lexemes first.tokens)).byteLength := by
    rw [textOf_eq, h.leaves]
  rw [located, trees_andThen, locateAllAt_append, size, located, located, h.reads.position_eq,
    Position.index_advance]

/-- The landmarks of an outcome. -/
def landmarks (cursor : Cursor) (outcome : Outcome α) : Landmarks :=
  LocatedTree.landmarks (outcome.located cursor)

/-- The trees of the outcome show what its boundary words are. -/
def Marked (cursor : Cursor) (outcome : Outcome α) : Prop :=
  outcome.Guarded (outcome.landmarks cursor).Admits cursor

theorem Guarded.mono {p q : Cursor → Token → Prop} (h : first.Guarded p cursor)
    (imp : ∀ place token, p place token → q place token) : first.Guarded q cursor :=
  Cursor.ReadsWords.mono h imp

/-- Where no boundary is met, there is nothing to show. -/
theorem Clear.guarded (h : first.Clear cursor) (marks : Landmarks) :
    first.Guarded marks.Admits cursor :=
  h.mono fun _ token free => marks.admits_of_free free token

theorem Clear.marked (h : first.Clear cursor) : first.Marked cursor := h.guarded _

theorem within_append_left (s t : List LocatedTree) :
    (LocatedTree.landmarks s).Within (LocatedTree.landmarks (s ++ t)) := by
  constructor
  · simp [LocatedTree.landmarks]
  · simp [LocatedTree.landmarks, trailersOf]

theorem within_append_right (s t : List LocatedTree) :
    (LocatedTree.landmarks t).Within (LocatedTree.landmarks (s ++ t)) := by
  constructor
  · simp [LocatedTree.landmarks]
  · simp [LocatedTree.landmarks, trailersOf]

theorem within_andThen_left (faithful : first.Faithful cursor) (second : Outcome β) :
    (first.landmarks cursor).Within ((first.andThen second).landmarks cursor) := by
  have whole := located_andThen faithful second
  rw [landmarks, landmarks, whole]
  exact within_append_left _ _

theorem within_andThen_right (faithful : first.Faithful cursor) (second : Outcome β) :
    (second.landmarks first.next).Within ((first.andThen second).landmarks cursor) := by
  have whole := located_andThen faithful second
  rw [landmarks, landmarks, whole]
  exact within_append_right _ _

theorem Marked.andThen (h : first.Marked cursor) (faithful : first.Faithful cursor)
    (k : second.Marked first.next) : (first.andThen second).Marked cursor := by
  refine Guarded.andThen ?_ ?_
  · exact h.mono fun _ _ => .mono (within_andThen_left faithful second)
  · exact k.mono fun _ _ => .mono (within_andThen_right faithful second)

/-! ### Nodes -/

/-- The node above the trees of an outcome. -/
def top (kind : Kind) (cursor : Cursor) (outcome : Outcome α) : LocatedTree :=
  .node ⟨kind, Range.ofText cursor.position.index (textOf outcome.trees)⟩ (outcome.located cursor)

theorem located_under (kind : Kind) (outcome : Outcome α) :
    (outcome.under kind).located cursor = [outcome.top kind cursor] := rfl

theorem tokens_top {kind : Kind} (h : (first.under kind).Faithful cursor) :
    (first.top kind cursor).tokens = (Token.significant first.tokens).map Token.leaf := by
  have leaves := leavesOf_located h
  rw [located_under, Tree.leavesOf_cons, Tree.leavesOf, List.append_nil] at leaves
  rw [LocatedTree.tokens, leaves, tokens_under, List.filter_map]
  rfl

theorem nodes_landmarks_under (kind : Kind) (outcome : Outcome α) :
    ((outcome.under kind).landmarks cursor).nodes =
      outcome.top kind cursor :: (outcome.landmarks cursor).nodes := by
  simp [landmarks, LocatedTree.landmarks, located_under, Tree.nodesOf, Tree.nodes, top]

theorem trailers_landmarks_under (kind : Kind) (outcome : Outcome α) :
    ((outcome.under kind).landmarks cursor).trailers =
      (if kind = .programUnit then [ownTokensOf (outcome.located cursor)] else []) ++
        (outcome.landmarks cursor).trailers := by
  simp only [landmarks, LocatedTree.landmarks, located_under, trailersOf, Tree.nodesOf, Tree.nodes,
    top, List.append_nil]
  by_cases unit : kind = .programUnit
  · rw [if_pos unit, List.filter_cons_of_pos (by simp [LocatedTree.kind, unit])]
    rfl
  · rw [if_neg unit, List.filter_cons_of_neg (by simp [LocatedTree.kind, unit])]
    rfl

theorem within_under (kind : Kind) (outcome : Outcome α) :
    (outcome.landmarks cursor).Within ((outcome.under kind).landmarks cursor) := by
  constructor
  · rw [nodes_landmarks_under]
    exact List.subset_cons_self _ _
  · rw [trailers_landmarks_under]
    exact List.subset_append_right _ _

end Outcome

namespace Production

open SourceTree LocatedTree

variable {σ : Type} {cursor : Cursor}

/-- A loop of marked rounds is marked. -/
theorem marked_repeating {round : σ → Production (ForInStep σ)}
    (faithful : ∀ state, Faithful (round state))
    (each : ∀ state cursor, (round state cursor).Marked cursor) (state : σ) (cursor : Cursor) :
    (repeating round state cursor).Marked cursor := by
  fun_induction repeating round state cursor with
  | case1 state cursor first final h => exact each state cursor
  | case2 state cursor first next h shorter ih =>
      exact (each state cursor).andThen (faithful state cursor) ih
  | case3 state cursor first next h same => exact each state cursor

theorem marked_trivia (context : Context) (cursor : Cursor) :
    (trivia context cursor).Marked cursor := guarded_trivia context cursor

/-! ### Names -/

/-- The name in a PROGRAM-ID paragraph is the first word or literal behind its period, if it has
one. -/
theorem find?_name {period : Option Token} (dot : ∀ token ∈ period, token.kind = .dot)
    {name : Token} (found : name.leaf.namesProgram = true) (rest : List Token) :
    ((period.toList ++ name :: rest).map Token.leaf).find? Leaf.namesProgram = some name.leaf := by
  cases period with
  | none => exact List.find?_cons_of_pos found
  | some token =>
      have other : ¬token.leaf.namesProgram = true := by
        simp [Leaf.namesProgram, Token.leaf, dot token rfl]
      rw [Option.toList_some, List.singleton_append, List.map_cons, List.find?_cons_of_neg other]
      exact List.find?_cons_of_pos found

theorem clear_behindName (name : Option Token) (cursor : Cursor) :
    (behindName name cursor).Clear cursor := by
  cases name with
  | none => exact (guarded_reportHere _ _).andThen .nil
  | some token =>
      refine Outcome.Guarded.andThen (clear_programAttributes _ _) ?_
      exact (guarded_expectPeriod _ _ _).andThen .nil

/-- A word that is read for a name opens no division, but may be END of END PROGRAM; then it is
the name of a program. -/
theorem guarded_name {marks : Landmarks} {place : Cursor}
    (names : ∀ token ∈ (eatIf .identificationDivision (nameTest place) place).value,
      token.kind = .word → marks.NamesProgram token.leaf) :
    (eatIf .identificationDivision (nameTest place) place).Guarded marks.Admits place := by
  apply guarded_eatIf
  intro token after read passes word
  constructor
  · intro division header
    rw [Cursor.divisionHeader?_congr (significant?_trivia _ place),
      (nameTest_iff.mp passes).1] at header
    cases header
  · intro _
    exact .inr (.inr (names token (value_eatIf_of_test read passes) word))

/-- A PROGRAM-ID paragraph has for its name the word that was read for it. -/
theorem namesProgram_programIdParagraph (atToken : cursor.AtToken) :
    let context := Context.identificationDivision
    let period := expectPeriod context .programId (bumpSignificant context cursor).next
    ∀ token ∈ (eatIf context (nameTest period.next) period.next).value, token.kind = .word →
      ((programIdParagraph cursor).landmarks cursor).NamesProgram token.leaf := by
  intro context period token value word
  let keyword := bumpSignificant context cursor
  let name := eatIf context (nameTest period.next) period.next
  let rest := behindName name.value name.next
  let body := keyword.andThen (period.andThen (name.andThen rest))
  have whole : programIdParagraph cursor = body.under .programIdParagraph :=
    programIdParagraph_apply cursor
  have faithful := (gathered_programIdParagraph cursor).faithful
  rw [whole] at faithful ⊢
  have mode : context.mode = .word := rfl
  obtain ⟨first, middle, opening⟩ := atToken.exists_significant? (.inl mode)
  have begins : Token.significant keyword.tokens = [first] :=
    tokens_significant_bumpSignificant opening
  have dot : Token.significant period.tokens = period.value.toList :=
    tokens_significant_expectPeriod _ _ _
  have named : Token.significant name.tokens = [token] := by
    rw [tokens_significant_eatIf, show name.value = some token from value, Option.toList_some]
  have tokens : Token.significant body.tokens =
      first :: (period.value.toList ++ token :: Token.significant rest.tokens) := by
    simp only [body, Outcome.tokens_andThen, Token.significant_append, begins, dot, named]
    rfl
  refine ⟨body.top .programIdParagraph cursor, ?_, rfl, ?_⟩
  · rw [Outcome.nodes_landmarks_under]
    exact List.mem_cons_self
  · rw [LocatedTree.declared?, Outcome.tokens_top faithful, tokens]
    have names : token.leaf.namesProgram = true := by simp [Leaf.namesProgram, Token.leaf, word]
    exact find?_name (fun token dot => kind_of_expectPeriod dot) names _

theorem marked_programIdParagraph (atToken : cursor.AtToken) (free : cursor.atHeader = false) :
    (programIdParagraph cursor).Marked cursor := by
  have names := namesProgram_programIdParagraph atToken
  refine Outcome.Guarded.andThen ((clear_bumpSignificant free _).guarded _) ?_
  refine Outcome.Guarded.andThen (guarded_expectPeriod _ _ _) ?_
  exact (guarded_name names).andThen ((clear_behindName _ _).guarded _)

theorem marked_identificationBody (header : Option Token) (cursor : Cursor) :
    (identificationBody header cursor).Marked cursor := by
  have body : (rounds .identificationDivision identificationRound ⟨false, none⟩ cursor).Marked
      cursor := by
    rw [rounds_eq_repeating .identificationDivision faithful_identificationRound
      advances_identificationRound]
    refine marked_repeating faithful_identificationRound (fun declared cursor => ?_) _ cursor
    rw [identificationRound_apply]
    refine (marked_trivia _ cursor).andThen (flat_trivia _ cursor).faithful ?_
    split
    · exact .nil
    · rename_i inside
      have atToken := atToken_of_not_atUnitBoundary rfl inside
      have free := atHeader_of_not_atUnitBoundary inside
      split
      · exact marked_programIdParagraph atToken free
      · split
        · exact (clear_commentEntryParagraph free).marked
        · exact (clear_strayText _ free).marked
  refine body.andThen (faithful_rounds _ faithful_identificationRound _ cursor) ?_
  exact guarded_ite .nil ((guarded_reportAt _ _ _).andThen .nil)

/-! ### Divisions -/

section Division

variable (settings : Settings)

theorem marked_divisionBody (division : Division) (header : Option Token) (cursor : Cursor) :
    (divisionBody settings division header cursor).Marked cursor := by
  cases division with
  | identification => exact marked_identificationBody header cursor
  | environment => exact Outcome.Clear.marked (.andThen (clear_entries rfl false cursor) .nil)
  | data => exact Outcome.Clear.marked (.andThen (clear_entries rfl true cursor) .nil)
  | procedure => exact Outcome.Clear.marked (.andThen (clear_procedureBody settings cursor) .nil)

/-- The header word that is ahead is the first token of the division. -/
theorem marked_division {division : Division} (h : cursor.divisionHeader? = some division) :
    (Production.division settings division cursor).Marked cursor := by
  let context := division.context
  let header := divisionHeader division cursor
  let body := divisionBody settings division header.value header.next
  have whole : Production.division settings division cursor =
      (header.andThen body).under division.kind := rfl
  have faithful := faithful_division settings division cursor
  rw [whole] at faithful ⊢
  have within := (Outcome.within_andThen_right (flat_divisionHeader division cursor).faithful
    body).trans (Outcome.within_under division.kind (header.andThen body))
  have opening : (bumpSignificant context cursor).Guarded
      (((header.andThen body).under division.kind).landmarks cursor).Admits cursor := by
    refine guarded_bumpSignificant fun token after read _ => ?_
    have same := significant?_trivia context cursor
    constructor
    · intro other found
      rw [Cursor.divisionHeader?_congr same, h] at found
      cases found
      refine .inl ⟨(header.andThen body).top division.kind cursor, ?_, rfl, ?_⟩
      · rw [Outcome.nodes_landmarks_under]
        exact List.mem_cons_self
      · obtain ⟨rest, tokens⟩ : ∃ rest, (header.andThen body).tokens =
            (bumpSignificant context cursor).tokens ++ rest := ⟨_, List.append_assoc _ _ _⟩
        rw [Outcome.tokens_top faithful, tokens, Token.significant_append,
          tokens_significant_bumpSignificant read]
        rfl
    · intro ends
      rw [Cursor.atEndProgram_congr same, Cursor.atEndProgram_of_divisionHeader? h] at ends
      cases ends
  refine Outcome.Guarded.andThen (opening.andThen (Outcome.Clear.guarded ?_ _)) ?_
  · refine Outcome.Guarded.andThen (clear_eatWord _ (by decide) _) ?_
    refine guarded_ite ?_ ((guarded_expectPeriod _ _ _).andThen .nil)
    refine Outcome.Guarded.andThen (clear_headerPhrase _ _) ?_
    exact (guarded_expectPeriod _ _ _).andThen .nil
  · exact (marked_divisionBody settings division _ _).mono fun _ _ => .mono within

end Division

/-! ### Trailers -/

/-- END is the first token of a trailer, and the word behind END PROGRAM is its name, whatever word
that is. -/
theorem guarded_trailer (current : Option ProgramIdentity) (h : cursor.atEndProgram = true)
    (marks : Landmarks) :
    (trailer current cursor).Guarded
      (marks.behind ((Token.significant (trailer current cursor).tokens).map Token.leaf)).Admits
        cursor := by
  obtain ⟨first, second, ahead, words⟩ := Cursor.atEndProgram_iff.mp h
  obtain ⟨middle, after, one, two⟩ := Cursor.ahead_two_eq_iff.mp ahead
  have isProgram := (Bool.and_eq_true_iff.mp words).2
  have tokens := tokens_significant_trailer current one two isProgram
  let row := (Token.significant (trailer current cursor).tokens).map Token.leaf
  have opening : (bumpSignificant .endProgram cursor).Guarded (marks.behind row).Admits cursor := by
    refine guarded_bumpSignificant fun token behind read _ => ?_
    cases one.symm.trans read
    have same := significant?_trivia .endProgram cursor
    constructor
    · intro division header
      rw [Cursor.divisionHeader?_congr same] at header
      rw [Cursor.atEndProgram_of_divisionHeader? header] at h
      cases h
    · intro _
      refine .inl ⟨row, List.mem_cons_self, ?_⟩
      rw [show row = _ from congrArg _ tokens]
      rfl
  have behind :
      (eatWord .endProgram "PROGRAM".toList (bumpSignificant .endProgram cursor).next).next =
        after := next_bump_eatWord one two isProgram
  have named : (eatIf .endProgram namesProgram after).Guarded (marks.behind row).Admits after := by
    refine guarded_eatIf fun token _ read passes _ => ?_
    have name : (marks.behind row).NamesTrailer token.leaf := by
      refine ⟨row, List.mem_cons_self, ?_⟩
      rw [show row = _ from congrArg _ tokens, value_eatIf_of_test read passes]
      rfl
    constructor
    · intro division _
      exact .inr name
    · intro _
      exact .inr (.inl name)
  refine Outcome.Guarded.andThen opening ?_
  refine Outcome.Guarded.andThen ((clear_eatWord _ (by decide) _).guarded _) ?_
  rw [behind]
  refine Outcome.Guarded.andThen named ?_
  refine Outcome.Guarded.andThen (guarded_checkTrailerName _ _ _) ?_
  exact Outcome.Guarded.andThen (guarded_expectPeriod _ _ _) (guarded_trivia _ _)

end Production

/-! ### Units -/

namespace Outcome

open SourceTree LocatedTree

variable {α β : Type} {cursor : Cursor} {first : Outcome α} {second : Outcome β}

/-- The landmarks of the parts of a unit: those in the parts, and the trailer among them. -/
def unitLandmarks (cursor : Cursor) (outcome : Outcome α) : Landmarks :=
  (outcome.landmarks cursor).behind (ownTokensOf (outcome.located cursor))

/-- The parts of a unit show what the boundary words in them are, when the unit is closed. -/
def MarkedInUnit (cursor : Cursor) (outcome : Outcome α) : Prop :=
  outcome.Guarded (outcome.unitLandmarks cursor).Admits cursor

theorem ownTokensOf_located (h : first.Flat cursor) :
    ownTokensOf (first.located cursor) = (Token.significant first.tokens).map Token.leaf := by
  have values : ((first.tokens.map Token.leaf).map (Tree.leaf : Leaf → LocatedTree)).filterMap
      Tree.value? = first.tokens.map Token.leaf := by
    simp [List.filterMap_map, Function.comp_def, Tree.value?]
  rw [located_flat h, ownTokensOf, values, List.filter_map]
  rfl

/-- What has no tokens right below its unit goes before other parts of the unit. -/
theorem MarkedInUnit.behind (faithful : first.Faithful cursor)
    (own : ownTokensOf (first.located cursor) = []) (h : first.Marked cursor)
    (k : second.MarkedInUnit first.next) : (first.andThen second).MarkedInUnit cursor := by
  have trailer : ownTokensOf ((first.andThen second).located cursor) =
      ownTokensOf (second.located first.next) := by
    rw [located_andThen faithful, ownTokensOf_append, own, List.nil_append]
  have left : (first.landmarks cursor).Within ((first.andThen second).unitLandmarks cursor) := by
    obtain ⟨nodes, trailers⟩ := within_andThen_left faithful second
    exact ⟨nodes, List.subset_cons_of_subset _ trailers⟩
  have right : (second.unitLandmarks first.next).Within
      ((first.andThen second).unitLandmarks cursor) := by
    obtain ⟨nodes, trailers⟩ := within_andThen_right faithful second
    rw [unitLandmarks, unitLandmarks, trailer]
    exact ⟨nodes, List.cons_subset_cons _ trailers⟩
  apply Guarded.andThen
  · exact h.mono fun _ _ => .mono left
  · exact k.mono fun _ _ => .mono right

end Outcome

namespace Production

open SourceTree LocatedTree

variable {cursor : Cursor} (settings : Settings)

/-- The trailer among the parts of a unit is that of the unit. -/
theorem marked_closeUnit (start : Cursor) {parts : Outcome UnitState}
    (h : parts.MarkedInUnit cursor) : (closeUnit start parts).Marked cursor := by
  have landmarks : (closeUnit start parts).landmarks cursor =
      (parts.under .programUnit).landmarks cursor := by
    rw [Outcome.landmarks, Outcome.landmarks, Outcome.located, trees_closeUnit]
    rfl
  have within : (parts.unitLandmarks cursor).Within
      ((parts.under .programUnit).landmarks cursor) := by
    constructor
    · rw [Outcome.nodes_landmarks_under]
      exact List.subset_cons_self _ _
    · rw [Outcome.trailers_landmarks_under, if_pos rfl]
      exact List.Subset.refl _
  unfold Outcome.Marked
  rw [landmarks]
  apply Outcome.Guarded.andThen
  · exact h.mono fun _ _ => .mono within
  · split
    · exact .nil
    · exact guarded_reportAt _ _ _

theorem marked_unitPart (state : UnitState) (notTrailer : cursor.atEndProgram = false) :
    (unitPart settings state cursor).Marked cursor := by
  cases header : cursor.divisionHeader? with
  | some found =>
      rw [unitPart_of_header settings state header]
      have stays := (trees_checkOrder settings state.seen found cursor).2
      apply Outcome.Marked.andThen (guarded_checkOrder _ _ _ _)
        (flat_checkOrder settings _ _ cursor).faithful
      rw [stays]
      exact marked_division settings header
  | none =>
      rw [unitPart_of_stray settings state header]
      have free : cursor.atHeader = false := by
        rw [Cursor.atHeader, header, notTrailer]
        rfl
      exact (clear_strayText _ free).marked

theorem marked_unitStep (enclosing : List ProgramIdentity) (state : UnitState)
    (notTrailer : cursor.atEndProgram = false)
    (nested : ∀ inner, state.seen ≠ [] →
      (unitRounds settings inner .fresh cursor).MarkedInUnit cursor) :
    (unitStep settings enclosing state cursor).Marked cursor := by
  by_cases inside : cursor.divisionHeader? = some .identification ∧ state.seen ≠ []
  · rw [unitStep_of_nested settings enclosing inside]
    exact marked_closeUnit cursor (nested _ inside.2)
  · rw [unitStep_of_not_nested settings enclosing inside]
    exact marked_unitPart settings state notTrailer

/-- The parts of a unit show what the boundary words in them are, in whatever state the unit is. -/
theorem marked_unitRounds (enclosing : List ProgramIdentity) (state : UnitState)
    (cursor : Cursor) :
    (unitRounds settings enclosing state cursor).MarkedInUnit cursor := by
  have own (cursor : Cursor) : ownTokensOf ((trivia .programUnit cursor).located cursor) = [] := by
    rw [Outcome.ownTokensOf_located (flat_trivia .programUnit cursor), tokens_significant_trivia]
    rfl
  refine unitRounds_induction settings enclosing
    (motive := fun _ cursor outcome => outcome.MarkedInUnit cursor)
    ?ends ?closes ?goesOn state cursor
  case ends => exact fun _ cursor => guarded_trivia .programUnit cursor
  case closes =>
    intro state cursor lead closing
    apply Outcome.MarkedInUnit.behind (flat_trivia _ cursor).faithful (own cursor)
      (marked_trivia _ cursor)
    have trailer := guarded_trailer state.identity closing
      ((trailer state.identity lead.next).landmarks lead.next)
    rwa [← Outcome.ownTokensOf_located (flat_trailer _ _)] at trailer
  case goesOn =>
    intro enclosing state cursor outcome lead part _ notTrailer nested later
    have flat := flat_trivia .programUnit cursor
    have step := faithful_unitStep settings enclosing state lead.next
    have marked := marked_unitStep settings enclosing state notTrailer nested
    apply Outcome.MarkedInUnit.behind (flat.faithful.andThen step) ?_
      ((marked_trivia _ _).andThen flat.faithful marked) later
    obtain ⟨kind, children, trees⟩ := trees_unitStep settings enclosing state lead.next
    rw [Outcome.located_andThen flat.faithful, ownTokensOf_append, own, Outcome.located, trees]
    exact ownTokensOf_cons (.inr rfl) [] _

theorem marked_programUnits (cursor : Cursor) : (programUnits settings cursor).Marked cursor := by
  rw [programUnits, rounds_eq_repeating .programUnit (fun _ => faithful_programUnitRound settings)
    (advances_programUnitRound settings)]
  apply marked_repeating fun _ => faithful_programUnitRound settings
  intro _ cursor
  rw [programUnitRound_apply]
  apply (marked_trivia .programUnit cursor).andThen (flat_trivia _ cursor).faithful
  split
  · exact .nil
  · exact marked_closeUnit _ (marked_unitRounds settings [] .fresh _)

end Production

/-! ### Whole texts -/

/-- Two neighbours that pass a test have only what fails it between them. -/
theorem exists_between_of_infix {α : Type} {p : α → Bool} {row : List α} {a b : α}
    (h : [a, b] <:+: row.filter p) :
    ∃ before between behind, row = before ++ a :: (between ++ b :: behind) ∧
      ∀ x ∈ between, p x = false := by
  obtain ⟨s, t, whole⟩ := h
  rw [List.append_assoc] at whole
  obtain ⟨before, others, rfl, -, rest⟩ := List.filter_eq_append_iff.mp whole.symm
  obtain ⟨skipped, behind, rfl, -, -, rest⟩ := List.filter_eq_cons_iff.mp rest
  obtain ⟨between, behind, rfl, none, -, -⟩ := List.filter_eq_cons_iff.mp rest
  refine ⟨before ++ skipped, between, behind, (List.append_assoc _ _ _).symm, ?_⟩
  intro x mem
  exact Bool.eq_false_iff.mpr (none x mem)

namespace Parsed

/-- The landmarks of a parse. -/
def landmarks (parsed : Parsed) : Landmarks := LocatedTree.landmarks [parsed.tree.locate]

/-- The boundaries of the text are kept in the tree. A header word and DIVISION open the division of
the word, unless the word is the name in a trailer; END PROGRAM opens a trailer, unless END is the
name in a trailer or in a PROGRAM-ID paragraph. -/
structure KeepsBoundaries (parsed : Parsed) : Prop where
  divisions : ∀ first second : Token,
    [first, second] <:+: parsed.tokens.filter (!·.isTrivia) → first.kind = .word →
      second.isWord "DIVISION".toList = true → ∀ division,
        Division.ofHeaderWord? first.text = some division →
          parsed.landmarks.OpensDivision first.leaf division ∨
            parsed.landmarks.NamesTrailer first.leaf
  trailers : ∀ first second : Token,
    [first, second] <:+: parsed.tokens.filter (!·.isTrivia) → first.isWord "END".toList = true →
      second.isWord "PROGRAM".toList = true →
        parsed.landmarks.OpensTrailer first.leaf ∨ parsed.landmarks.NamesTrailer first.leaf ∨
          parsed.landmarks.NamesProgram first.leaf

/-- Every word is read where the tree admits it. -/
theorem readsWords_ofText (settings : Settings) (text : Text) :
    ∃ last, (Cursor.start text).ReadsWords (ofText settings text).landmarks.Admits
      (ofText settings text).tokens last := by
  have marked := Production.marked_programUnits settings (Cursor.start text)
  exact ⟨_, marked.mono fun _ _ => .mono (Outcome.within_under .sourceUnit _)⟩

/-- Two words that are neighbours but for blanks and comments were ahead where the first of them
was read. -/
theorem exists_ahead (settings : Settings) (text : Text) {first second : Token}
    (h : [first, second] <:+: (ofText settings text).tokens.filter (!·.isTrivia))
    (word : first.kind = .word) (another : second.kind = .word) :
    ∃ place, (ofText settings text).landmarks.Admits place first ∧
      ∀ context, context.mode = .word →
        place.ahead context 2 = [first.inContext context, second.inContext context] := by
  obtain ⟨last, reads⟩ := readsWords_ofText settings text
  obtain ⟨before, between, behind, whole, trivial⟩ := exists_between_of_infix h
  rw [whole] at reads
  obtain ⟨place, -, reads⟩ := reads.exists_middle
  cases reads with
  | cons one admitted rest =>
      obtain ⟨middle, blanks, rest⟩ := rest.exists_middle
      cases rest with
      | cons two _ _ =>
          refine ⟨place, admitted word, fun context mode => ?_⟩
          exact Cursor.ahead_two_of_reads mode one word blanks
            (fun token mem => by simpa using trivial token mem) two another

/-- END before PROGRAM opens the trailer of a unit where it is read, or is a name. -/
theorem trailer_of_neighbours (settings : Settings) (text : Text) {first second : Token}
    (h : [first, second] <:+: (ofText settings text).tokens.filter (!·.isTrivia))
    (isEnd : first.isWord "END".toList = true) (isProgram : second.isWord "PROGRAM".toList = true) :
    (ofText settings text).landmarks.OpensTrailer first.leaf ∨
      (ofText settings text).landmarks.NamesTrailer first.leaf ∨
        (ofText settings text).landmarks.NamesProgram first.leaf := by
  obtain ⟨place, admitted, ahead⟩ := exists_ahead settings text h
    (Lexeme.kind_of_isWord isEnd) (Lexeme.kind_of_isWord isProgram)
  apply admitted.trailer
  exact Cursor.atEndProgram_iff.mpr ⟨_, _, ahead .endProgram rfl,
    Bool.and_eq_true_iff.mpr ⟨isEnd, isProgram⟩⟩

/-- Every text, however malformed, keeps its boundaries but for those that are names. -/
theorem keepsBoundaries_ofText (settings : Settings) (text : Text) :
    (ofText settings text).KeepsBoundaries := by
  constructor
  · intro first second neighbours word isDivision division opens
    obtain ⟨place, admitted, ahead⟩ := exists_ahead settings text neighbours word
      (Lexeme.kind_of_isWord isDivision)
    apply admitted.division division
    exact Cursor.divisionHeader?_eq_some_iff.mpr ⟨_, _, ahead .programUnit rfl, word, isDivision,
      opens⟩
  · intro first second neighbours isEnd isProgram
    exact trailer_of_neighbours settings text neighbours isEnd isProgram

end Parsed

end CobolTree
