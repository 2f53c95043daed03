import CobolTree.Proofs.Conversion.Correspondence
import CobolTree.View.ProgramUnit

/-!
The name in a trailer, read twice. The view of a unit skips to END among the tokens of the unit,
passes over two of them and takes what stands before the next period; the conversion goes along the
same tokens and makes a rule of what has gathered at each period, and of what is left at the end.
Main statement (`Analysis.readsTrailers`): in every analysed text, whatever is nested in what, both
find a trailer in the same units, with the same tokens in it and the same name, or none.

They agree because a unit has no tokens of its own but those of one trailer, which has at most one
name and one period (`trailerTokens_ownTokensOf`).
-/

namespace CobolTree

open Conversion SourceTree
open LocatedTree (isUnit ownTokensOf)
open ProgramUnit (trailerName?)

/-! ### Trailers as they are told -/

/-- A trailer at a glance: its terminals, and those of each name in it. -/
structure TrailerSketch where
  terminals : List Terminal
  names : List (List Terminal)
deriving DecidableEq, Repr

/-- The trailers right in the rule of a unit. -/
def RuleTree.trailers (rule : RuleTree) : List TrailerSketch :=
  (rule.rulesOf .endProgramStatement).map fun statement =>
    ⟨statement.terminals, (statement.rulesOf .programName).map (·.terminals)⟩

/-- What the tokens of a unit and its view tell of its trailer. -/
def LocatedTree.trailers (stream : Stream) (unit : LocatedTree) : List TrailerSketch :=
  if unit.ownTokens = [] then []
  else [⟨unit.ownTokens.map stream.terminalOf,
    (trailerName? unit).toList.map (·.map stream.terminalOf)⟩]

/-- The view of a unit finds the name of its trailer: none where there is no trailer or no name in
it, and else the one token between END PROGRAM and the period. -/
inductive ProgramUnit.FindsName (unit : LocatedTree) : Prop where
  | noTrailer : unit.ownTokens = [] → trailerName? unit = none → FindsName unit
  | trailer {name : Option Leaf} : TrailerTokens unit.ownTokens name →
      trailerName? unit = name.map ([·]) → FindsName unit

/-! ### The name -/

theorem TrailerTokens.ne_nil {tokens : List Leaf} {name : Option Leaf}
    (h : TrailerTokens tokens name) : tokens ≠ [] := by
  cases h with
  | of => exact List.cons_ne_nil _ _

theorem ProgramUnit.trailerName?_of_nil {unit : LocatedTree} (none : unit.ownTokens = []) :
    trailerName? unit = .none := by
  simp [trailerName?, none]

theorem TrailerTokens.trailerName?_eq {unit : LocatedTree} {name : Option Leaf}
    (h : TrailerTokens unit.ownTokens name) : trailerName? unit = name.map ([·]) := by
  generalize own : unit.ownTokens = tokens at h
  cases h with
  | @of first second _ period isEnd isProgram names ends =>
      have opens : (!Text.sameWord first.text "END".toList) = false := by
        rw [Lexeme.sameWord_of_isWord isEnd]
        rfl
      have last : period.toList.takeWhile (·.kind != .dot) = [] := by
        cases period with
        | none => rfl
        | some period => simp [ends period rfl]
      have whole : (name.toList ++ period.toList).takeWhile (·.kind != .dot) = name.toList := by
        rw [List.takeWhile_append_of_pos, last, List.append_nil]
        intro leaf mem
        rcases names leaf (Option.mem_toList.mp mem) with word | literal
        · simp [word]
        · simp [literal]
      simp only [trailerName?, own, List.dropWhile_cons, opens, Bool.false_eq_true, if_false,
        List.drop_succ_cons, List.drop_zero, whole]
      cases name <;> rfl

namespace Conversion

variable (stream : Stream)

/-- What a name and a period behind END PROGRAM become. -/
theorem trailerParts_eq {name period : Option Leaf}
    (names : ∀ leaf ∈ name, leaf.kind = .word ∨ leaf.kind = .stringLiteral)
    (ends : ∀ leaf ∈ period, leaf.kind = .dot) :
    trailerParts stream [] (name.toList ++ period.toList) =
      (name.map fun leaf => stream.ruleOf .programName [leaf]).toList ++
        (period.map fun leaf => .leaf (stream.terminalOf leaf)).toList := by
  have behind (gathered : List Terminal) : trailerParts stream gathered period.toList =
      trailerName gathered ++ (period.map fun leaf => .leaf (stream.terminalOf leaf)).toList := by
    cases period with
    | none => exact (List.append_nil _).symm
    | some leaf =>
        rw [Option.toList_some, trailerParts, if_pos (ends leaf rfl)]
        rfl
  cases name with
  | none => exact behind []
  | some leaf =>
      have noPeriod : leaf.kind ≠ .dot := by
        rcases names leaf rfl with word | literal
        · simp [word]
        · simp [literal]
      rw [Option.toList_some, List.singleton_append, trailerParts, if_neg noPeriod, behind]
      rfl

/-- The tokens of a trailer become one rule, over all of them, with one name if they have one. -/
theorem trailer_of_trailerTokens {tokens : List Leaf} {name : Option Leaf}
    (h : TrailerTokens tokens name) : ∃ statement, trailer stream tokens = [statement] ∧
      RuleTree.kind? statement = some .endProgramStatement ∧
        statement.terminals = tokens.map stream.terminalOf ∧
          (statement.rulesOf .programName).map (·.terminals) =
            name.toList.map fun leaf => [stream.terminalOf leaf] := by
  have leaves := leavesOf_trailer stream tokens
  cases h with
  | @of first second _ period isEnd isProgram names ends =>
      rw [trailer_cons stream (Lexeme.sameWord_of_isWord isEnd)] at leaves ⊢
      refine ⟨_, rfl, rfl, ?_, ?_⟩
      · rw [Tree.leavesOf_cons, RuleTree.leaves_bounded] at leaves
        rw [RuleTree.terminals_bounded, ← leaves]
        exact (List.append_nil _).symm
      · have noName : RuleTree.ofKind .programName
            (period.map fun leaf => .leaf (stream.terminalOf leaf)).toList = [] := by
          cases period <;> rfl
        rw [RuleTree.rulesOf_bounded, List.drop_succ_cons, List.drop_succ_cons, List.drop_zero,
          trailerParts_eq stream names ends, RuleTree.ofKind_append, RuleTree.ofKind_leaves,
          List.nil_append, RuleTree.ofKind_append, noName, List.append_nil]
        cases name with
        | none => rfl
        | some leaf => exact congrArg ([·]) (terminals_ruleOf stream .programName [leaf])

/-- No part of a unit becomes a trailer. -/
theorem kind?_partRules {begun : Bool} {parts : List SourceTree} (h : UnitParts begun parts)
    (start : Nat) : ∀ rule ∈ partRules stream (locateAllAt start parts),
      RuleTree.kind? rule ≠ some .endProgramStatement := by
  intro rule mem same
  have among := List.mem_map_of_mem (f := RuleTree.sketch) mem
  rw [map_sketch_partRules stream h] at among
  obtain ⟨node, -, sketch⟩ := List.mem_map.mp among
  have kind : (LocatedTree.kind node).ruleKind? = some .endProgramStatement := by
    rw [← same]
    exact congrArg PartSketch.kind sketch
  cases other : LocatedTree.kind node <;> rw [other] at kind <;> cases kind

/-- The trailer of a unit is told by its rule as it is by its tokens and its view. -/
theorem trailers_unitRule : RuleTells stream RuleTree.trailers (LocatedTree.trailers stream) := by
  intro parts start inner _ _
  have noTrailer := RuleTree.ofKind_eq_nil (kind?_partRules stream inner start)
  have rules : (unitRule stream (locateAt start (.node .programUnit parts))
      (partRules stream (locateAllAt start parts))).rulesOf .endProgramStatement =
        RuleTree.ofKind .endProgramStatement
          (trailer stream (ownTokensOf (locateAllAt start parts))) := by
    rw [unitRule, RuleTree.rulesOf_node, RuleTree.ofKind_append, noTrailer, List.nil_append]
    rfl
  have own : (locateAt start (.node .programUnit parts)).ownTokens =
      ownTokensOf (locateAllAt start parts) := rfl
  rw [RuleTree.trailers, rules, LocatedTree.trailers, own]
  rcases trailerTokens_ownTokensOf inner start with none | ⟨name, tokens⟩
  · rw [none]
    rfl
  · obtain ⟨statement, only, kind, terminals, names⟩ := trailer_of_trailerTokens stream tokens
    have some : ownTokensOf (locateAllAt start parts) ≠ [] := tokens.ne_nil
    have found : trailerName? (locateAt start (.node .programUnit parts)) = name.map ([·]) :=
      TrailerTokens.trailerName?_eq tokens
    rw [if_neg some, only, RuleTree.ofKind_cons_self kind, found, List.map_cons, terminals, names]
    cases name <;> rfl

end Conversion

/-! ### Whole texts -/

/-- The view of a unit finds the name of its trailer. -/
theorem ProgramUnit.findsName (stream : Stream) : RuleTells stream (fun _ => True) FindsName := by
  intro parts start inner _ _
  refine (eq_true ?_).symm
  rcases trailerTokens_ownTokensOf inner start with none | ⟨name, tokens⟩
  · exact .noTrailer none (trailerName?_of_nil none)
  · exact .trailer tokens (TrailerTokens.trailerName?_eq tokens)

namespace Analysis

/-- The trailers of an analysed text are read alike: the units of the tree and of the rule tree, in
the same order and nesting, have the same trailers with the same names, and the view finds the name
of each. -/
structure ReadsTrailers (stream : Stream) (analysis : Analysis) : Prop where
  alike : ∃ contexts,
    analysis.adapted.tree.childNodes = [RuleTree.bounded .compilationUnit contexts] ∧
      RuleTree.unitForest RuleTree.trailers contexts =
        LocatedTree.unitForest (LocatedTree.trailers stream) [analysis.parsed.tree.locate]
  names : ∀ unit ∈ analysis.parsed.tree.locate.nodes, isUnit unit = true →
    ProgramUnit.FindsName unit

theorem readsTrailers_ofStream (settings : Settings) (stream : Stream) :
    ∃ analysis, ofStream settings stream = .ok analysis ∧ analysis.ReadsTrailers stream := by
  obtain ⟨analysis, contexts, converted, root, units⟩ := unitForest_contexts settings stream
  refine ⟨analysis, converted, ⟨contexts, root, units (trailers_unitRule stream)⟩, ?_⟩
  intro unit mem isUnit
  refine LocatedTree.forall_of_unitForest (units (ProgramUnit.findsName stream)) unit ?_ isUnit
  rw [Tree.nodesOf, Tree.nodesOf, List.append_nil]
  exact mem

/-- In every analysed text and in every expanded text, the trailers of all units are read alike. -/
theorem readsTrailers (settings : Settings) :
    (∀ text, ∃ analysis, ofText settings text = .ok analysis ∧
      analysis.ReadsTrailers (.ofText text)) ∧
    ∀ document, ∃ analysis, ofDocument settings document = .ok analysis ∧
      analysis.ReadsTrailers (.ofDocument document) :=
  ⟨fun text => readsTrailers_ofStream settings (.ofText text),
    fun document => readsTrailers_ofStream settings (.ofDocument document)⟩

-- a program whose trailer has no period, around one whose trailer has no name
example :
    let text : Text := ("ID DIVISION. PROGRAM-ID. A. ID DIVISION. PROGRAM-ID. B. END PROGRAM. " ++
      "end program *> last\n 'A'").toList
    ((Parsed.ofText .standard text).tree.locate.nodes.filter (isUnit ·)).map
        (fun unit => (trailerName? unit).map (·.map (·.text))) =
      [some ["'A'".toList], none] := by decide +kernel

end Analysis

end CobolTree
