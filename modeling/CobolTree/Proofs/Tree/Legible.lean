import CobolTree.Proofs.Token.Filler
import CobolTree.Proofs.Tree.Located

/-!
Forests of lexemes as they are read. In a `Legible` forest no lexeme is empty, and blanks and
comments look like what they are; so a tree with a token takes room in the text
(`room_of_legible`), and a row without tokens is filler (`isFiller_textOf`).
-/

namespace CobolTree

theorem isFiller_textOf {stops : Nat → Prop} {start : Nat} {lexemes : List Lexeme}
    (legible : ∀ lexeme ∈ lexemes, lexeme.Legible)
    (ends : ∀ leaf ∈ Leaf.row start lexemes, leaf.kind = .comment → stops leaf.range.stop)
    (trivial : Lexeme.significant lexemes = []) : IsFiller stops start (Lexeme.textOf lexemes) := by
  induction lexemes generalizing start with
  | nil => exact .nil
  | cons lexeme rest ih =>
      obtain ⟨here, behind⟩ := List.forall_mem_cons.mp legible
      rw [Leaf.row, List.forall_mem_cons] at ends
      by_cases carries : lexeme.isTrivia = true
      · rw [Lexeme.significant_cons_of_trivia carries] at trivial
        exact (here.isFiller carries ends.1).append (ih behind ends.2 trivial)
      · rw [Lexeme.significant_cons_of_not_trivia (by simpa using carries)] at trivial
        cases trivial

namespace SourceTree

/-- All lexemes of a forest are as they are read. -/
def Legible (forest : List SourceTree) : Prop :=
  ∀ lexeme ∈ Tree.leavesOf forest, lexeme.Legible

theorem legible_cons {tree : SourceTree} {rest : List SourceTree} :
    Legible (tree :: rest) ↔ (∀ lexeme ∈ tree.leaves, lexeme.Legible) ∧ Legible rest := by
  simp [Legible, Tree.leavesOf, or_imp, forall_and]

theorem legible_append {s t : List SourceTree} :
    Legible (s ++ t) ↔ Legible s ∧ Legible t := by
  simp [Legible, or_imp, forall_and]

/-- A tree with a token takes room in the text. -/
theorem room_of_legible {tree : SourceTree} (legible : ∀ lexeme ∈ tree.leaves, lexeme.Legible)
    (carries : Lexeme.significant tree.leaves ≠ []) : 0 < (text tree).byteLength := by
  obtain ⟨lexeme, mem⟩ := List.exists_mem_of_ne_nil _ carries
  have inside := (List.mem_filter.mp mem).1
  have long := Text.length_le_byteLength (text tree)
  apply Nat.pos_of_ne_zero
  intro size
  have empty : text tree = [] := List.length_eq_zero_iff.mp (by omega)
  exact (legible lexeme inside).text_ne_nil (List.flatMap_eq_nil_iff.mp empty lexeme inside)

end SourceTree

end CobolTree
