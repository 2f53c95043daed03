import CobolTree.Proofs.Tree.Headed
import CobolTree.Proofs.Tree.Kinds
import CobolTree.View.Procedure
import Mathlib.Data.List.Forall2

/-!
The nodes of a PROCEDURE DIVISION when a word is made a statement verb. Sentences stay as they are,
sections and the paragraphs of other names keep their headers, and a paragraph that goes by the word
leaves a sentence in its place (`Fate`). Where each node of a division has its fate, the division
shows it: in its sections, in its paragraphs and in its sentences (`demotes_of_fates`).
-/

namespace CobolTree.Procedure

open SourceTree

variable {word : Text} {node other : LocatedTree}

def isSentence (node : LocatedTree) : Bool := node.kind == .sentence

/-- The node is a paragraph that goes by a word. -/
def isNamed (word : Text) (node : LocatedTree) : Bool :=
  isParagraph node && (name? node).any (Text.sameWord word)

theorem kind_of_isNamed (h : isNamed word node = true) :
    LocatedTree.kind node = .procedureParagraph := eq_of_beq (Bool.and_eq_true_iff.mp h).1

theorem name?_congr (same : other.ownTokens = node.ownTokens) : name? other = name? node := by
  rw [name?, name?, nameToken?, nameToken?, same]

/-- A paragraph that goes by a word leaves a sentence: its name and its period. -/
structure Leaves (word : Text) (paragraph sentence : LocatedTree) : Prop where
  named : isNamed word paragraph = true
  kind : LocatedTree.kind sentence = .sentence
  header : ∃ name period, paragraph.ownTokens = [name, period] ∧ period.kind = .dot ∧
    sentence.tokens = [name, period]

/-- What becomes of a node in a PROCEDURE DIVISION when a word is made a statement verb. -/
inductive Fate (word : Text) : LocatedTree → LocatedTree → Prop where
  | sentence {node : LocatedTree} : LocatedTree.kind node = .sentence → Fate word node node
  | «section» {node other : LocatedTree} : LocatedTree.kind node = .procedureSection →
      LocatedTree.kind other = .procedureSection → other.ownTokens = node.ownTokens →
        Fate word node other
  | paragraph {node other : LocatedTree} : LocatedTree.kind node = .procedureParagraph →
      isNamed word node = false → LocatedTree.kind other = .procedureParagraph →
        other.ownTokens = node.ownTokens → Fate word node other
  | demoted {node other : LocatedTree} : Leaves word node other → Fate word node other

/-- The sections, paragraphs and sentences of a PROCEDURE DIVISION before and after a word is made a
statement verb. -/
structure Demotes (word : Text) (old new : LocatedTree) : Prop where
  sections : (sections new).map name? = (sections old).map name?
  /-- The paragraphs that go by the word are gone. -/
  paragraphs : (paragraphs new).map name? =
    ((paragraphs old).map name?).filter fun name => !name.any (Text.sameWord word)
  /-- In the order of the text, the sentences are those that there were, and one in the place of
  each paragraph that is gone. -/
  sentences : List.Forall₂
    (fun before sentence => isSentence before = true ∧ sentence = before ∨
      Leaves word before sentence)
    (old.nodes.filter fun node => isSentence node || isNamed word node)
    (new.nodes.filter isSentence)

/-! ### One fate -/

theorem isNamed_of_kind (h : LocatedTree.kind node ≠ .procedureParagraph) :
    isNamed word node = false := by
  rw [isNamed, isParagraph, beq_eq_false_iff_ne.mpr h, Bool.false_and]

namespace Fate

variable (h : Fate word node other)

include h

theorem isSection_eq : isSection other = isSection node := by
  cases h with
  | sentence _ => rfl
  | «section» one another _ => simp [isSection, one, another]
  | paragraph one _ another _ => simp [isSection, one, another]
  | demoted leaves => simp [isSection, leaves.kind, kind_of_isNamed leaves.named]

theorem isParagraph_eq : isParagraph other = (isParagraph node && !isNamed word node) := by
  cases h with
  | sentence kind => simp [isParagraph, kind]
  | «section» one another _ => simp [isParagraph, one, another]
  | paragraph one kept another _ => simp [isParagraph, one, kept, another]
  | demoted leaves => simp [isParagraph, leaves.kind, leaves.named]

theorem isSentence_eq : isSentence other = (isSentence node || isNamed word node) := by
  cases h with
  | sentence kind => simp [isSentence, kind]
  | «section» one another _ =>
      have unnamed : isNamed word node = false := isNamed_of_kind (by simp [one])
      simp [isSentence, one, another, unnamed]
  | paragraph one kept another _ => simp [isSentence, one, kept, another]
  | demoted leaves => simp [isSentence, leaves.kind, leaves.named]

/-- A node that is no paragraph of the name keeps its own name. -/
theorem name?_eq (kept : isNamed word node = false) : name? other = name? node := by
  cases h with
  | sentence _ => rfl
  | «section» _ _ same => exact name?_congr same
  | paragraph _ _ _ same => exact name?_congr same
  | demoted leaves => cases kept.symm.trans leaves.named

/-- What was no sentence and is one now was a paragraph of the name. -/
theorem sentence_or_leaves (now : isSentence other = true) :
    isSentence node = true ∧ other = node ∨ Leaves word node other := by
  cases h with
  | sentence _ => exact Or.inl ⟨now, rfl⟩
  | «section» _ another _ => simp [isSentence, another] at now
  | paragraph _ _ another _ => simp [isSentence, another] at now
  | demoted leaves => exact Or.inr leaves

end Fate

/-! ### Fates of a row of nodes -/

section Fates

variable {nodes others : List LocatedTree} (h : List.Forall₂ (Fate word) nodes others)

include h

theorem map_name?_sections :
    (others.filter isSection).map name? = (nodes.filter isSection).map name? := by
  induction h with
  | nil => rfl
  | @cons node other nodes others first _ ih =>
      rw [List.filter_cons, List.filter_cons, first.isSection_eq]
      split
      · rename_i one
        have unnamed : isNamed word node = false := by
          have kind : LocatedTree.kind node = .procedureSection := eq_of_beq one
          exact isNamed_of_kind (by simp [kind])
        rw [List.map_cons, List.map_cons, ih, first.name?_eq unnamed]
      · exact ih

theorem map_name?_paragraphs :
    (others.filter isParagraph).map name? =
      ((nodes.filter isParagraph).map name?).filter fun name =>
        !name.any (Text.sameWord word) := by
  induction h with
  | nil => rfl
  | @cons node other nodes others first _ ih =>
      rw [List.filter_cons, List.filter_cons, first.isParagraph_eq]
      cases one : isParagraph node with
      | false => simpa using ih
      | true =>
          have named : isNamed word node = (name? node).any (Text.sameWord word) := by
            rw [isNamed, one, Bool.true_and]
          cases gone : isNamed word node with
          | true =>
              rw [gone] at named
              simpa [← named] using ih
          | false =>
              rw [gone] at named
              simpa [← named, first.name?_eq gone] using ih

theorem forall₂_sentences :
    List.Forall₂
      (fun before sentence => isSentence before = true ∧ sentence = before ∨
        Leaves word before sentence)
      (nodes.filter fun node => isSentence node || isNamed word node)
      (others.filter isSentence) := by
  induction h with
  | nil => exact .nil
  | @cons node other nodes others first _ ih =>
      have now := first.isSentence_eq
      rw [List.filter_cons, List.filter_cons, now]
      split
      · rename_i kept
        exact .cons (first.sentence_or_leaves (now.trans kept)) ih
      · exact ih

end Fates

/-! ### Divisions -/

/-- Below the nodes in the body of a division there are sentences only. -/
theorem exists_node_of_isEntry {tree : SourceTree} (h : IsEntry .procedure tree) :
    ∃ kind children, tree = .node kind children ∧ KindsIn [.sentence] children := by
  rcases h with plain | block
  · cases plain with
    | of _ => exact ⟨_, _, rfl, kindsIn_row _⟩
  · obtain ⟨kind, header, body, rfl, -, -, sentences⟩ := block.exists_header
    have inner : KindsIn [.sentence] body :=
      sentences.kindsIn fun _ plain => plain.kindsIn (by decide)
    exact ⟨kind, _, rfl, (kindsIn_row header).append inner⟩

/-- The sections and paragraphs in the body of a division stand right below the division. -/
theorem filter_nodesOf {body : List SourceTree} (h : Among (IsEntry .procedure) body) {kind : Kind}
    (other : kind ≠ .sentence) (start : Nat) :
    (Tree.nodesOf (locateAllAt start body)).filter (LocatedTree.kind · == kind) =
      ((locateAllAt start body).filter Tree.isNode).filter (LocatedTree.kind · == kind) := by
  induction body generalizing start with
  | nil => rfl
  | cons tree rest ih =>
      obtain ⟨here, behind⟩ := among_cons.mp h
      have later := ih behind (start + (text tree).byteLength)
      rw [locateAllAt, Tree.nodesOf, List.filter_append, later]
      rcases here with ⟨lexeme, rfl, -⟩ | entry
      · rfl
      · obtain ⟨sort, children, rfl, sentences⟩ := exists_node_of_isEntry entry
        have below : (Tree.nodesOf (locateAllAt start children)).filter
            (LocatedTree.kind · == kind) = [] := by
          apply List.filter_eq_nil_iff.mpr
          intro node mem
          have isSentence := List.mem_singleton.mp (sentences start node mem)
          simp [isSentence, other.symm]
        rw [locateAt, Tree.nodes, List.filter_cons, below, List.filter_cons_of_pos rfl,
          List.filter_cons]
        split <;> rfl

/-- A division shows the fates of the nodes in its body. -/
theorem demotes_of_fates {old new : List SourceTree} {header : List Lexeme} {extent : Extent}
    (one : Among (IsEntry .procedure) old) (another : Among (IsEntry .procedure) new) (start : Nat)
    (procedure : extent.kind = .procedureDivision)
    (h : ∀ start, List.Forall₂ (Fate word) (Tree.nodesOf (locateAllAt start old))
      (Tree.nodesOf (locateAllAt start new))) :
    Demotes word (.node extent (locateAllAt start (row header ++ old)))
      (.node extent (locateAllAt start (row header ++ new))) := by
  let behind := start + (Lexeme.textOf header).byteLength
  have fates := h behind
  have children (body : List SourceTree) (entries : Among (IsEntry .procedure) body) (kind : Kind)
      (other : kind ≠ .sentence) :
      LocatedTree.childrenOf kind (.node extent (locateAllAt start (row header ++ body))) =
        (Tree.nodesOf (locateAllAt behind body)).filter (LocatedTree.kind · == kind) := by
    rw [LocatedTree.childrenOf, childNodes_headed, filter_nodesOf entries other]
  constructor
  case sections =>
    rw [sections, sections, children new another _ (by decide), children old one _ (by decide)]
    exact map_name?_sections fates
  case paragraphs =>
    rw [paragraphs, paragraphs, children new another _ (by decide), children old one _ (by decide)]
    exact map_name?_paragraphs fates
  case sentences =>
    have division (body : List LocatedTree) :
        isSentence (.node extent body) = false ∧ isNamed word (.node extent body) = false := by
      have kind : LocatedTree.kind (.node extent body) = .procedureDivision := procedure
      exact ⟨by simp [isSentence, kind], isNamed_of_kind (by simp [kind])⟩
    rw [nodes_headed, nodes_headed, List.filter_cons_of_neg (by simp [division]),
      List.filter_cons_of_neg (by simp [division])]
    exact forall₂_sentences fates

end CobolTree.Procedure
