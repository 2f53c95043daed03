import CobolTree.Proofs.Conversion.Contexts
import CobolTree.View.Procedure
import Mathlib.Data.List.Forall2

/-!
The rule of a PROCEDURE DIVISION by its sections. The conversion goes along the parts of a
division with the section that is open, and puts each part into it; that comes to the same as
taking, for each section, the parts behind it up to the next one (`exists_blocks`). So the
paragraphs right in the rule are those before the first section, and there is one rule for each
section, with its paragraphs in it (`tells_procedure`).
-/

namespace CobolTree

open Conversion LocatedTree Procedure
open List (Forall₂)

theorem LocatedTree.exists_split_of_mem_withRest {row : List LocatedTree}
    {entry : LocatedTree × List LocatedTree} (mem : entry ∈ withRest row) :
    ∃ before, row = before ++ entry.1 :: entry.2 := by
  induction row with
  | nil => cases mem
  | cons tree rest ih =>
      rcases List.mem_cons.mp mem with rfl | behind
      · exact ⟨[], rfl⟩
      · obtain ⟨before, split⟩ := ih behind
        exact ⟨tree :: before, congrArg (tree :: ·) split⟩

namespace Procedure

/-- The sections of a row, each with what stands behind it. -/
def sectionsIn (row : List LocatedTree) : List (LocatedTree × List LocatedTree) :=
  (withRest row).filter fun entry => isSection entry.1

theorem sectionsIn_cons_of_section {node : LocatedTree} (h : isSection node = true)
    (rest : List LocatedTree) : sectionsIn (node :: rest) = (node, rest) :: sectionsIn rest :=
  List.filter_cons_of_pos h

theorem sectionsIn_cons_of_not_section {node : LocatedTree} (h : isSection node = false)
    (rest : List LocatedTree) : sectionsIn (node :: rest) = sectionsIn rest :=
  List.filter_cons_of_neg (by simp [h])

/-- A section of a row is a tree of the row, and so is all that stands behind it. -/
theorem mem_sectionsIn {row : List LocatedTree} {entry : LocatedTree × List LocatedTree}
    (mem : entry ∈ sectionsIn row) :
    (entry.1 ∈ row ∧ entry.2 ⊆ row) ∧ isSection entry.1 = true := by
  obtain ⟨inside, kind⟩ := List.mem_filter.mp mem
  obtain ⟨before, rfl⟩ := exists_split_of_mem_withRest inside
  refine ⟨⟨by simp, ?_⟩, kind⟩
  exact List.subset_append_of_subset_right _ (List.subset_cons_self _ _)

end Procedure

namespace Conversion

variable {stream : Stream}

/-! ### Parts of a division -/

/-- What a node that is no section becomes as a part of a division. -/
def Becomes (stream : Stream) (node : LocatedTree) (rule : RuleTree) : Prop :=
  procedurePart stream node = .ok rule

/-- A section, given with what stands behind it, becomes a rule of its header and its sentences,
and of what the nodes behind it become, up to the next section. -/
def BecomesSection (stream : Stream) (entry : LocatedTree × List LocatedTree) (rule : RuleTree) :
    Prop :=
  ∃ parts owned, sectionParts stream entry.1 = .ok parts ∧
    Forall₂ (Becomes stream) (entry.2.takeWhile (!isSection ·)) owned ∧
      rule = .bounded .procedureSection (parts ++ owned)

/-- Where the parts before the next section go: into the section that is open, or beside each
other. -/
def placed (current : Option (List RuleTree)) (leading : List RuleTree) : List RuleTree :=
  match current with
  | some parts => [.bounded .procedureSection (parts ++ leading)]
  | none => leading

theorem placed_nil (current : Option (List RuleTree)) : placed current [] = closed current := by
  cases current with
  | none => rfl
  | some parts => rw [placed, List.append_nil]; rfl

/-- With the section that is open, the conversion makes one rule for each section, of all that
stands between it and the next one. -/
theorem exists_blocks {nodes : List LocatedTree} {current : Option (List RuleTree)}
    {rules : List RuleTree} (h : procedureParts stream current nodes = .ok rules) :
    ∃ leading blocks, Forall₂ (Becomes stream) (nodes.takeWhile (!isSection ·)) leading ∧
      Forall₂ (BecomesSection stream) (sectionsIn nodes) blocks ∧
        rules = placed current leading ++ blocks := by
  induction nodes generalizing current rules with
  | nil =>
      cases h
      exact ⟨[], [], .nil, .nil, by rw [placed_nil, List.append_nil]⟩
  | cons node rest ih =>
      rcases procedureParts_cons stream h with
        ⟨kind, parts, others, opened, converted, rfl⟩ | ⟨other, part, becomes, goesOn⟩
      · have begins : isSection node = true := beq_iff_eq.mpr kind
        obtain ⟨owned, blocks, inside, behind, rfl⟩ := ih converted
        refine ⟨[], .bounded .procedureSection (parts ++ owned) :: blocks, ?_, ?_, ?_⟩
        · rw [List.takeWhile_cons_of_neg (by simp [begins])]
          exact .nil
        · rw [sectionsIn_cons_of_section begins]
          exact .cons ⟨parts, owned, opened, inside, rfl⟩ behind
        · rw [placed_nil]
          rfl
      · have goes : isSection node = false := beq_eq_false_iff_ne.mpr other
        rw [List.takeWhile_cons_of_pos (by simp [goes]), sectionsIn_cons_of_not_section goes]
        rcases goesOn with ⟨parts, rfl, converted⟩ | ⟨rfl, others, converted, rfl⟩
        · obtain ⟨leading, blocks, inside, behind, rfl⟩ := ih converted
          refine ⟨part :: leading, blocks, .cons becomes inside, behind, ?_⟩
          rw [placed, placed, List.append_assoc]
          rfl
        · obtain ⟨leading, blocks, inside, behind, rfl⟩ := ih converted
          exact ⟨part :: leading, blocks, .cons becomes inside, behind, rfl⟩

/-! ### Rules of one kind -/

theorem kind?_sentence (stream : Stream) (node : LocatedTree) :
    RuleTree.kind? (sentence stream node) = some .sentence ∨
      RuleTree.kind? (sentence stream node) = some .unrecognized := by
  unfold sentence
  split
  · exact .inl rfl
  · exact .inr rfl

/-- Sentences are found among none of the rules that go by another name. -/
theorem ofKind_sentences {wanted : RuleKind} (noSentence : wanted ≠ .sentence)
    (noStray : wanted ≠ .unrecognized) (stream : Stream) (nodes : List LocatedTree) :
    RuleTree.ofKind wanted (nodes.map (sentence stream)) = [] := by
  refine RuleTree.ofKind_eq_nil fun rule mem => ?_
  obtain ⟨node, -, rfl⟩ := List.mem_map.mp mem
  rcases kind?_sentence stream node with kind | kind
  · simpa [kind] using noSentence.symm
  · simpa [kind] using noStray.symm

/-- A paragraph becomes a paragraph, and any other node a sentence or stray text. -/
theorem Becomes.kind?_cases {node : LocatedTree} {rule : RuleTree} (h : Becomes stream node rule) :
    isParagraph node = true ∧ RuleTree.kind? rule = some .paragraph ∨
      isParagraph node = false ∧ (RuleTree.kind? rule = some .sentence ∨
        RuleTree.kind? rule = some .unrecognized) := by
  unfold Becomes procedurePart at h
  split at h
  · rename_i kind
    unfold paragraph at h
    split at h
    · cases h
    · cases h
      exact .inl ⟨beq_iff_eq.mpr kind, rfl⟩
  · rename_i other
    cases h
    exact .inr ⟨beq_eq_false_iff_ne.mpr other, kind?_sentence stream node⟩

/-- Among what the parts of a division become, no rules go by another name than these. -/
theorem ofKind_becomes {wanted : RuleKind} (noParagraph : wanted ≠ .paragraph)
    (noSentence : wanted ≠ .sentence) (noStray : wanted ≠ .unrecognized)
    {nodes : List LocatedTree} {rules : List RuleTree} (h : Forall₂ (Becomes stream) nodes rules) :
    RuleTree.ofKind wanted rules = [] := by
  induction h with
  | nil => rfl
  | cons becomes _ ih =>
      rw [RuleTree.ofKind_cons_other ?other, ih]
      case other =>
        rcases becomes.kind?_cases with ⟨-, kind⟩ | ⟨-, kind | kind⟩
        · simpa [kind] using noParagraph.symm
        · simpa [kind] using noSentence.symm
        · simpa [kind] using noStray.symm

/-- The paragraphs in what the parts of a division become are what the paragraphs become. -/
theorem ofKind_paragraph_becomes {nodes : List LocatedTree} {rules : List RuleTree}
    (h : Forall₂ (Becomes stream) nodes rules) :
    Forall₂ (Becomes stream) (nodes.filter (isParagraph ·)) (RuleTree.ofKind .paragraph rules) := by
  refine List.rel_filter (fun node rule becomes => ?_) h
  rcases becomes.kind?_cases with ⟨kind, same⟩ | ⟨other, same | same⟩
  · simp [kind, same]
  · simp [other, same]
  · simp [other, same]

/-! ### What a rule tells -/

/-- The rule of a paragraph has one name, the name of the paragraph. -/
structure TellsParagraph (stream : Stream) (node : LocatedTree) (rule : RuleTree) : Prop where
  kind : RuleTree.kind? rule = some .paragraph
  name : ∃ token name, nameToken? node = some token ∧ rule.rulesOf .paragraphName = [name] ∧
    name.terminals = [stream.terminalOf token]

/-- The rule of a section has one header, that of the section, and rules for the paragraphs that
the section owns. -/
structure TellsSection (stream : Stream) (entry : LocatedTree × List LocatedTree)
    (rule : RuleTree) : Prop where
  kind : RuleTree.kind? rule = some .procedureSection
  header : ∃ token header, nameToken? entry.1 = some token ∧
    rule.rulesOf .procedureSectionHeader = [header] ∧
      header.terminals = entry.1.ownTokens.map stream.terminalOf ∧
        header.terminals.head? = some (stream.terminalOf token)
  paragraphs : Forall₂ (TellsParagraph stream) entry.2 (rule.rulesOf .paragraph)

/-- A node goes by a name. -/
def IsNamed (node : LocatedTree) : Prop := ∃ token, nameToken? node = some token

theorem head?_of_nameToken? {node : LocatedTree} {token : Leaf} (h : nameToken? node = some token) :
    node.ownTokens.head? = some token := (Option.filter_eq_some_iff.mp h).1

theorem Becomes.tells {node : LocatedTree} {rule : RuleTree} (h : Becomes stream node rule)
    (kind : isParagraph node = true) (named : IsNamed node) : TellsParagraph stream node rule := by
  obtain ⟨token, named⟩ := named
  have first := head?_of_nameToken? named
  unfold Becomes procedurePart paragraph at h
  rw [if_pos (eq_of_beq kind)] at h
  split at h
  · cases h
  · rename_i name header own
    cases h
    obtain rfl : name = token := by simpa [own] using first
    refine ⟨rfl, name, stream.ruleOf .paragraphName [name], named, ?_,
      terminals_ruleOf _ _ _⟩
    rw [RuleTree.rulesOf_bounded, List.cons_append, RuleTree.ofKind_cons_self rfl,
      RuleTree.ofKind_append, RuleTree.ofKind_leaves, ofKind_sentences (by decide) (by decide)]
    rfl

/-- What named paragraphs become tells of them. -/
theorem tells_paragraphs {nodes : List LocatedTree} {rules : List RuleTree}
    (h : Forall₂ (Becomes stream) nodes rules)
    (named : ∀ node ∈ nodes, isParagraph node = true → IsNamed node) :
    Forall₂ (TellsParagraph stream) (nodes.filter (isParagraph ·))
      (RuleTree.ofKind .paragraph rules) := by
  have each : ∀ node ∈ nodes.filter (isParagraph ·), isParagraph node = true ∧ IsNamed node := by
    intro node mem
    obtain ⟨inside, kind⟩ := List.mem_filter.mp mem
    exact ⟨kind, named node inside kind⟩
  refine ((List.forall₂_and_left _ _).mpr ⟨each, ofKind_paragraph_becomes h⟩).imp ?_
  rintro node rule ⟨⟨kind, name⟩, becomes⟩
  exact becomes.tells kind name

/-- What a named section becomes tells of the section with the paragraphs behind it, up to the
next section. -/
theorem BecomesSection.tells {entry : LocatedTree × List LocatedTree} {rule : RuleTree}
    (h : BecomesSection stream entry rule) (name : IsNamed entry.1)
    (named : ∀ node ∈ entry.2, isParagraph node = true → IsNamed node) :
    TellsSection stream (entry.1, (entry.2.takeWhile (!isSection ·)).filter (isParagraph ·))
      rule := by
  obtain ⟨parts, owned, opened, inside, rfl⟩ := h
  obtain ⟨token, name⟩ := name
  unfold sectionParts at opened
  split at opened
  · cases opened
  · cases opened
    refine ⟨rfl, ⟨token, stream.ruleOf .procedureSectionHeader entry.1.ownTokens, name, ?_,
      terminals_ruleOf _ _ _, ?_⟩, ?_⟩
    · rw [RuleTree.rulesOf_bounded, List.cons_append, RuleTree.ofKind_cons_self rfl,
        RuleTree.ofKind_append, ofKind_sentences (by decide) (by decide),
        ofKind_becomes (by decide) (by decide) (by decide) inside]
      rfl
    · rw [terminals_ruleOf, List.head?_map, head?_of_nameToken? name]
      rfl
    · have header : RuleTree.kind? (stream.ruleOf .procedureSectionHeader entry.1.ownTokens) ≠
          some .paragraph := by
        rw [kind?_ruleOf]
        decide
      rw [RuleTree.rulesOf_bounded, List.cons_append, RuleTree.ofKind_cons_other header,
        RuleTree.ofKind_append, ofKind_sentences (by decide) (by decide), List.nil_append]
      exact tells_paragraphs inside fun node mem =>
        named node ((List.takeWhile_sublist _).subset mem)

/-! ### Divisions -/

theorem kind?_of_becomesSection {entries : List (LocatedTree × List LocatedTree)}
    {rules : List RuleTree} (h : Forall₂ (BecomesSection stream) entries rules) :
    ∀ rule ∈ rules, RuleTree.kind? rule = some .procedureSection := by
  induction h with
  | nil => exact List.forall_mem_nil _
  | cons becomes _ ih =>
      obtain ⟨parts, owned, -, -, rfl⟩ := becomes
      exact List.forall_mem_cons.mpr ⟨rfl, ih⟩

/-- The rule of a division has the paragraphs before the first section right below, and a rule for
each section, with the paragraphs behind it up to the next one. -/
theorem tells_procedure {division : LocatedTree} {rule : RuleTree}
    (h : procedure stream division = .ok rule)
    (named : ∀ node ∈ division.childNodes, isSection node = true ∨ isParagraph node = true →
      IsNamed node) :
    Forall₂ (TellsParagraph stream) (standaloneParagraphs division) (rule.rulesOf .paragraph) ∧
      Forall₂ (fun entry => TellsSection stream
          (entry.1, (entry.2.takeWhile (!isSection ·)).filter (isParagraph ·)))
        (sectionsIn division.childNodes) (rule.rulesOf .procedureSection) := by
  unfold procedure at h
  split at h
  · cases h
  · simp only [bind, Except.bind] at h
    split at h
    · cases h
    · rename_i parts converted
      cases h
      obtain ⟨leading, blocks, alone, sections, rfl⟩ := exists_blocks converted
      have header (wanted : RuleKind) (other : wanted ≠ .procedureDivisionHeader) :
          RuleTree.kind? (stream.ruleOf .procedureDivisionHeader division.ownTokens) ≠
            some wanted := by
        rw [kind?_ruleOf]
        simpa using other.symm
      have kinds := kind?_of_becomesSection sections
      rw [RuleTree.rulesOf_bounded, RuleTree.rulesOf_bounded,
        RuleTree.ofKind_cons_other (header _ (by decide)),
        RuleTree.ofKind_cons_other (header _ (by decide)), RuleTree.ofKind_append,
        RuleTree.ofKind_append, RuleTree.ofKind_eq_self kinds]
      constructor
      · have none : RuleTree.ofKind .paragraph blocks = [] :=
          RuleTree.ofKind_eq_nil fun rule mem => by simp [kinds rule mem]
        rw [none, List.append_nil]
        exact tells_paragraphs alone fun node mem kind =>
          named node ((List.takeWhile_sublist _).subset mem) (.inr kind)
      · have none : RuleTree.ofKind .procedureSection (placed none leading) = [] :=
          ofKind_becomes (by decide) (by decide) (by decide) alone
        rw [none, List.nil_append]
        have each : ∀ entry ∈ sectionsIn division.childNodes, IsNamed entry.1 ∧
            ∀ node ∈ entry.2, isParagraph node = true → IsNamed node := by
          intro entry mem
          obtain ⟨inside, kind⟩ := mem_sectionsIn mem
          exact ⟨named _ inside.1 (.inl kind), fun node behind isParagraph =>
            named node (inside.2 behind) (.inr isParagraph)⟩
        refine ((List.forall₂_and_left _ _).mpr ⟨each, sections⟩).imp ?_
        rintro entry rule ⟨⟨name, named⟩, becomes⟩
        exact becomes.tells name named

end Conversion

end CobolTree
