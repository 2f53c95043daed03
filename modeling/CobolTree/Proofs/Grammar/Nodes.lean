import CobolTree.Proofs.Grammar.Atomic
import CobolTree.Proofs.Grammar.Reading

/-!
The nodes of what is read. An expression reads trees whose nodes apply the rules that occur in it,
rules without parts apart (`Expr.nodesIn_of_read?`), and a repetition reads one round of its body
after another (`rounds_of_star`).
-/

namespace CobolTree

open CobolTree.Expr

/-! ### Rules above the leaves -/

namespace Expr

/-- The rules with parts that an expression reads by. -/
def nodeRules : Expr → List Rule
  | seq first second => first.nodeRules ++ second.nodeRules
  | alt first second => first.nodeRules ++ second.nodeRules
  | star body => body.nodeRules
  | opt body => body.nodeRules
  | rule named isAtomic body => if isAtomic then [] else named :: body.nodeRules
  | _ => []

/-- Every node of a forest applies one of some rules. -/
def NodesIn (rules : List Rule) (forest : List GrammarTree) : Prop :=
  ∀ node ∈ Tree.nodesOf forest, ∃ rule ∈ rules, node.label? = some rule

variable {rules others : List Rule} {s t : List GrammarTree}

theorem nodesIn_nil : NodesIn rules [] := by
  intro node mem
  cases mem

theorem NodesIn.append (h : NodesIn rules s) (k : NodesIn rules t) : NodesIn rules (s ++ t) := by
  intro node mem
  rw [Tree.nodesOf_append] at mem
  rcases List.mem_append.mp mem with left | right
  · exact h node left
  · exact k node right

theorem NodesIn.mono (h : NodesIn rules s) (within : rules ⊆ others) : NodesIn others s := by
  intro node mem
  obtain ⟨rule, listed, label⟩ := h node mem
  exact ⟨rule, within listed, label⟩

theorem nodesIn_repeated {step : Input → Option Reading}
    (each : ∀ input reading, step input = some reading → NodesIn rules reading.trees)
    (bound : Text) (input : Input) : NodesIn rules (repeated step bound input).trees := by
  induction bound generalizing input with
  | nil => exact nodesIn_nil
  | cons c bound ih =>
      rw [repeated]
      cases read : step input with
      | none => exact nodesIn_nil
      | some first => exact (each input first read).append (ih first.next)

/-- What an expression reads has its rules above the leaves, and no others. -/
theorem nodesIn_of_read? {e : Expr} {input : Input} {reading : Reading}
    (read : e.read? false input = some reading) : NodesIn e.nodeRules reading.trees := by
  induction e generalizing input reading with
  | seq first second ihFirst ihSecond =>
      obtain ⟨one, two, readFirst, readSecond, rfl⟩ := read?_seq read
      exact ((ihFirst readFirst).mono (List.subset_append_left _ _)).append
        ((ihSecond readSecond).mono (List.subset_append_right _ _))
  | alt first second ihFirst ihSecond =>
      rcases read?_alt read with one | two
      · exact (ihFirst one).mono (List.subset_append_left _ _)
      · exact (ihSecond two).mono (List.subset_append_right _ _)
  | star body ih =>
      rw [read?] at read
      split at read
      · cases read
        exact nodesIn_nil
      · rename_i one readFirst
        cases read
        exact (ih readFirst).append (nodesIn_repeated (fun _ _ => ih) _ _)
  | opt body ih =>
      rcases read?_opt read with found | ⟨-, rfl⟩
      · exact ih found
      · exact nodesIn_nil
  | rule named isAtomic body ih =>
      cases isAtomic with
      | true =>
          rw [read?_atomicRule] at read
          obtain ⟨size, -, rfl⟩ := Option.map_eq_some_iff.mp read
          intro node mem
          cases mem
      | false =>
          obtain ⟨inner, readBody, rfl⟩ := read?_rule read
          by_cases parts : inner.trees = []
          · intro node mem
            simp [applied, parts, Tree.nodesOf, Tree.nodes] at mem
          · intro node mem
            simp only [Bool.false_eq_true, if_false, applied_of_trees parts, Tree.nodesOf,
              Tree.nodes, List.append_nil, List.mem_cons] at mem
            rcases mem with rfl | below
            · exact ⟨named, List.mem_cons_self, rfl⟩
            · obtain ⟨rule, listed, label⟩ := ih readBody node below
              exact ⟨rule, List.mem_cons_of_mem _ listed, label⟩
  | exact | anyCase | anyChar | digit | alphanumeric | ending | absent =>
      rw [read?] at read
      split at read <;> cases read
      exact nodesIn_nil
  | lineBreak =>
      rw [read?] at read
      split at read <;> cases read <;> exact nodesIn_nil

end Expr

/-! ### Repetitions -/

/-- Rounds of an expression, one after another, with filler between them. -/
inductive Rounds (body : Expr) : Input → List GrammarTree → Input → Prop
  | nil {input : Input} : Rounds body input [] input
  | cons {input last : Input} {first : Reading} {trees : List GrammarTree} :
      body.read? false (input.skip false) = some first → Rounds body first.next trees last →
        Rounds body input (first.trees ++ trees) last

theorem rounds_repeated (body : Expr) (bound : Text) (input : Input) :
    let step := fun input => body.read? false (Input.skip false input)
    Rounds body input (repeated step bound input).trees (repeated step bound input).next := by
  induction bound generalizing input with
  | nil => exact .nil
  | cons c bound ih =>
      simp only [repeated]
      cases read : body.read? false (input.skip false) with
      | none => exact .nil
      | some first => exact .cons read (ih first.next)

/-- At a settled input, a repetition is a row of rounds. -/
theorem rounds_of_star {body : Expr} {input : Input} {reading : Reading}
    (settled : input.skip false = input) (read : (star body).read? false input = some reading) :
    Rounds body input reading.trees reading.next := by
  rw [read?] at read
  split at read
  · cases read
    exact .nil
  · rename_i one readFirst
    cases read
    exact .cons (by rw [settled, readFirst]) (rounds_repeated body one.next.rest one.next)

end CobolTree
