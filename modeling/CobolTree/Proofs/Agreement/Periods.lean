import CobolTree.Proofs.Agreement.Sentences
import CobolTree.Proofs.Conversion.Rereading
import CobolTree.Proofs.Production.Divisions

/-!
The periods of ENVIRONMENT and DATA DIVISIONs. Where such a division is read again, its leaves lie
on its tokens (`exists_aligned`), if both split points, numbers and picture strings alike; so the
periods that the grammar reads are the DOT tokens of the division (`Analysis.periods_agree`). They do not
split alike everywhere: a number that begins with its point is a number to the grammar, but a DOT
and a number to the tokens (`Analysis.periods_differ`).
-/

namespace CobolTree

open SourceTree

/-! ### Terminals by rule -/

/-- No other rule is named like the rule. -/
def Rule.IsSingle (rule : Rule) : Prop := ∀ other ∈ all, other.name = rule.name → other = rule

instance (rule : Rule) : Decidable rule.IsSingle :=
  inferInstanceAs (Decidable (∀ other ∈ Rule.all, other.name = rule.name → other = rule))

/-- The bytes of the terminals of one grammar rule, in order. -/
def Terminal.rangesOf (rule : Rule) (terminals : List Terminal) : List Range :=
  (terminals.filter (·.type == .grammarRule rule.name)).map (·.range)

namespace Reparse

variable (stream : Stream)

theorem rangesOf_terminals {rule : Rule} (single : rule.IsSingle) (pieces : List Piece) :
    Terminal.rangesOf rule (pieces.map (terminal stream .inPlace)) = Piece.rangesOf rule pieces := by
  induction pieces with
  | nil => rfl
  | cons piece rest ih =>
      unfold Terminal.rangesOf Piece.rangesOf at ih ⊢
      have type : (terminal stream .inPlace piece).type = .grammarRule piece.rule.name := rfl
      by_cases same : piece.rule = rule
      · rw [List.map_cons, List.filter_cons_of_pos (by simp [type, same]),
          List.filter_cons_of_pos (by simp [same]), List.map_cons, List.map_cons, ih,
          range_terminal_inPlace]
      · have other : piece.rule.name ≠ rule.name := fun h =>
          same (single piece.rule (Rule.mem_all _) h)
        rw [List.map_cons, List.filter_cons_of_neg (by simp [type, other]),
          List.filter_cons_of_neg (by simp [same]), ih]

theorem map_range_terminals (pieces : List Piece) :
    (pieces.map (terminal stream .inPlace)).map (·.range) = pieces.map Piece.range := by
  rw [List.map_map]
  exact List.map_congr_left fun piece _ => range_terminal_inPlace stream piece

end Reparse

/-! ### Divisions of a parsed text -/

theorem InSentences.suffix {leading lexemes : List Lexeme} (h : InSentences (leading ++ lexemes)) :
    InSentences lexemes := by
  induction leading with
  | nil => exact h
  | cons lexeme rest ih =>
      cases h with
      | cons _ _ others => exact ih others

/-- Blanks and comments make no difference to the tokens of any other kind. -/
theorem rangesOf_filter {kind : Kind} (carries : kind.isTrivia = false) (tokens : List Leaf) :
    Leaf.rangesOf kind (tokens.filter (!·.isTrivia)) = Leaf.rangesOf kind tokens := by
  rw [Leaf.rangesOf, Leaf.rangesOf, List.filter_filter]
  congr 1
  refine List.filter_congr fun leaf _ => ?_
  by_cases same : leaf.kind = kind
  · simp [Lexeme.isTrivia, same, carries]
  · simp [same]

theorem isDigit_of_isFiller {c : Char} (filler : Input.isFiller c = true) : c.isDigit = false := by
  simp only [Input.isFiller, Bool.or_eq_true, beq_iff_eq] at filler
  rcases filler with (((((rfl | rfl) | rfl) | rfl) | rfl) | rfl) | rfl <;> rfl

theorem IsFiller.head?_isDigit {stops : Nat → Prop} {start : Nat} {text : Text}
    (h : IsFiller stops start text) : text.head?.any Char.isDigit = false := by
  cases h with
  | nil => rfl
  | blank filler _ => exact isDigit_of_isFiller filler
  | comment _ _ _ => rfl

/-- Blanks and comments split alike. -/
theorem SplitsAlike.of_tokens {start : Nat} {lexemes : List Lexeme} {ranges pictures : List Range}
    (legible : ∀ lexeme ∈ lexemes, lexeme.Legible)
    (h : SplitsAlike ((Leaf.row start lexemes).filter (!·.isTrivia)) ranges pictures) :
    SplitsAlike (Leaf.row start lexemes) ranges pictures where
  points point mem kind next behind place := by
    by_cases trivial : next.isTrivia = true
    · have filler : IsFiller (fun _ => True) 0 next.text :=
        (legible _ (Leaf.toLexeme_mem_of_mem_row behind)).isFiller trivial fun _ => True.intro
      exact filler.head?_isDigit
    · have carries : point.isTrivia = false := by simp [Lexeme.isTrivia, kind, Kind.isTrivia]
      exact h.points point (List.mem_filter.mpr ⟨mem, by simp [carries]⟩) kind next
        (List.mem_filter.mpr ⟨behind, by simp [trivial]⟩) place
  decimals number mem kind :=
    h.decimals number
      (List.mem_filter.mpr ⟨mem, by simp [Lexeme.isTrivia, kind, Kind.isTrivia]⟩) kind
  pictures := by
    rw [← rangesOf_filter rfl]
    exact h.pictures

/-- Every leaf of sentences consumes. -/
theorem GrammarName.consumes_leafRules (grammar : GrammarName) :
    ∀ e ∈ grammar.division.leafRules, e.consumes = true := by
  have all : (grammar.division.leafRules.all (·.consumes)) = true := by
    cases grammar <;> decide +kernel
  exact List.all_eq_true.mp all

namespace Conversion

variable {settings : Settings} {stream : Stream} {division : Division} {node : LocatedTree}
  {context : RuleTree}

/-- The leaves of a division that its grammar accepts lie on the tokens of the division, one behind
another, if both split alike. -/
theorem exists_aligned (sort : division = .environment ∨ division = .data)
    (mem : node ∈ (Parsed.ofText settings stream.text).tree.locate.nodes)
    (kind : LocatedTree.kind node = division.kind)
    (accepted : Conversion.division stream division node = .ok (context, []))
    (alike : SplitsAlike node.tokens (context.terminals.map (·.range))
      (Terminal.rangesOf .pictureString context.terminals)) :
    ∃ tokens pieces, Aligned tokens pieces ∧ tokens.filter (!·.isTrivia) = node.tokens ∧
      context.terminals = pieces.map (Reparse.terminal stream .inPlace) ∧
        pieces.Pairwise fun first second => first.start < second.start := by
  obtain ⟨place, tree, header, trees, rfl, leaves⟩ := Parsed.exists_division settings _ mem kind
  obtain ⟨grammar, named, other⟩ : ∃ grammar, GrammarName.ofDivision? division = some grammar ∧
      grammar ≠ .identification := by
    rcases sort with rfl | rfl
    · exact ⟨.environment, rfl, by decide⟩
    · exact ⟨.data, rfl, by decide⟩
  have reads := (Production.faithful_division settings division place).reads
  have sentences := reads.inSentences (Production.suits_division settings sort header)
  have legible := reads.legible
  obtain ⟨leading, lexemes, split, none, rule, parts, last, read, ends, rfl⟩ :=
    read?_of_division stream named accepted
  rw [← leaves, split] at sentences legible
  have significant : (Leaf.row (place.position.index + (Lexeme.textOf leading).byteLength)
      lexemes).filter (!·.isTrivia) = (locateAt place.position.index tree).tokens := by
    rw [tokens_locateAt, split, Leaf.row_append, List.filter_append]
    have blank : (Leaf.row place.position.index leading).filter (!·.isTrivia) = [] := by
      have row := significant_row place.position.index leading
      rw [none] at row
      exact List.map_eq_nil_iff.mp row
    rw [blank, List.nil_append]
  have terminals := Reparse.terminals_ruleTree stream grammar rule parts
  rw [← significant, terminals, Reparse.map_range_terminals,
    Reparse.rangesOf_terminals stream (by decide +kernel)] at alike
  have row := Reparse.row_of_read? read
  refine ⟨_, _, aligned_of_row (grammar.sentenceRule other) row ends sentences.suffix
    (.of_tokens (fun lexeme mem => legible lexeme (List.mem_append_right _ mem)) alike),
    significant, terminals, row.ascending grammar.consumes_leafRules⟩

end Conversion

namespace Analysis

/-- The periods of an ENVIRONMENT or a DATA DIVISION are the same for the grammar and for the tokens
if both split the division alike. -/
def PeriodsAgree (division : Division) (node : LocatedTree) (context : RuleTree) : Prop :=
  division = .environment ∨ division = .data →
    SplitsAlike node.tokens (context.terminals.map (·.range))
      (Terminal.rangesOf .pictureString context.terminals) →
        Terminal.rangesOf .dot context.terminals = Leaf.rangesOf .dot node.tokens

/-- In every text and in every expanded text, the periods in the context of an ENVIRONMENT or a DATA
DIVISION that is read again are the DOT tokens of the division, in order, if no point stands right
before a digit, every number with a point is a terminal, its sign apart, and picture strings are the
same. -/
theorem periods_agree (settings : Settings) :
    (∀ text, ∃ analysis, ofText settings text = .ok analysis ∧
      analysis.Rereads (.ofText text) PeriodsAgree) ∧
    ∀ document, ∃ analysis, ofDocument settings document = .ok analysis ∧
      analysis.Rereads (.ofDocument document) PeriodsAgree := by
  have each (stream : Stream) : ∃ analysis, ofStream settings stream = .ok analysis ∧
      analysis.Rereads stream PeriodsAgree := by
    refine exists_rereads stream fun division node mem kind context accepted sort alike => ?_
    obtain ⟨tokens, pieces, aligned, significant, terminals, -⟩ :=
      Conversion.exists_aligned sort mem kind accepted alike
    rw [terminals, Reparse.rangesOf_terminals stream (by decide +kernel), aligned.periods,
      ← significant, rangesOf_filter rfl]
  exact ⟨fun text => each (.ofText text), fun document => each (.ofDocument document)⟩

/-- A number with a sign and a point, and a picture string with a point. -/
theorem periods_agree_signed :
    let text : Text := ("ID DIVISION. PROGRAM-ID. A. DATA DIVISION. WORKING-STORAGE SECTION. " ++
      "01 X PIC S9.9 VALUE -1.5.").toList
    ∃ analysis, ofText .standard text = .ok analysis ∧
      ∃ node ∈ analysis.parsed.tree.locate.nodes, LocatedTree.kind node = Division.data.kind ∧
        ∃ context ∈ Conversion.accepted? (.ofText text) .data node,
          SplitsAlike (LocatedTree.tokens node) (context.terminals.map (·.range))
            (Terminal.rangesOf .pictureString context.terminals) ∧
              Terminal.rangesOf .dot context.terminals =
                Leaf.rangesOf .dot (LocatedTree.tokens node) := by
  intro text
  obtain ⟨node, mem, kind, context, accepted, alike⟩ :
      ∃ node ∈ (Parsed.ofText .standard text).tree.locate.nodes,
        LocatedTree.kind node = Division.data.kind ∧
          ∃ context ∈ Conversion.accepted? (.ofText text) .data node,
            SplitsAlike (LocatedTree.tokens node) (context.terminals.map (·.range))
              (Terminal.rangesOf .pictureString context.terminals) := by
    decide +kernel
  obtain ⟨analysis, analysed, rereads⟩ := (periods_agree .standard).1 text
  have parsed : analysis.parsed = Parsed.ofText .standard text := parsed_of_ofStream analysed
  rw [← parsed] at mem
  exact ⟨analysis, analysed, node, mem, kind, context, accepted, alike,
    rereads.tells_of_accepted? mem kind accepted (.inr rfl) alike⟩

/-- A number that begins with its point is one number to the grammar of the DATA DIVISION. The tokens
have a DOT there, and the sentence ends. -/
theorem periods_differ :
    let text : Text := ("ID DIVISION. PROGRAM-ID. A. DATA DIVISION. WORKING-STORAGE SECTION. " ++
      "01 X VALUE .5.").toList
    ∃ node ∈ (Parsed.ofText .standard text).tree.locate.nodes,
      LocatedTree.kind node = Division.data.kind ∧
        ∃ context ∈ Conversion.accepted? (.ofText text) .data node,
          Terminal.rangesOf .dot context.terminals = [⟨41, 42⟩, ⟨66, 67⟩, ⟨81, 82⟩] ∧
            Leaf.rangesOf .dot (LocatedTree.tokens node) = [⟨41, 42⟩, ⟨66, 67⟩, ⟨79, 80⟩, ⟨81, 82⟩] := by
  decide +kernel

end Analysis

end CobolTree
