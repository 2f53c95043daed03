import CobolTree.Source.Text
import CobolTree.Token.Kind

/-!
The four divisions of a program unit: the words of their headers, the nodes that hold
them, and their mandated order.
-/

namespace CobolTree

/-- A division of a program unit. -/
inductive Division where
  | identification | environment | data | procedure
deriving DecidableEq, Repr

namespace Division

/-- The divisions in mandated order. -/
def all : List Division := [identification, environment, data, procedure]

/-- The place of a division in the mandated order, from zero. -/
def rank : Division → Nat
  | identification => 0
  | environment => 1
  | data => 2
  | procedure => 3

theorem rank_injective {first second : Division} (h : first.rank = second.rank) :
    first = second := by
  cases first <;> cases second <;> first | rfl | cases h

/-- The words that open a division, each standing before the word DIVISION. -/
def headerWords : List (Text × Division) :=
  [("IDENTIFICATION".toList, identification), ("ID".toList, identification),
   ("ENVIRONMENT".toList, environment), ("DATA".toList, data),
   ("PROCEDURE".toList, procedure)]

/-- The division that a header word opens. -/
def ofHeaderWord? (word : Text) : Option Division :=
  (headerWords.find? fun entry => Text.sameWord word entry.1).map (·.2)

/-- The kind of the node that holds a division. -/
def kind : Division → Kind
  | identification => .identificationDivision
  | environment => .environmentDivision
  | data => .dataDivision
  | procedure => .procedureDivision

/-- The division that a kind of node holds. -/
def ofKind? : Kind → Option Division
  | .identificationDivision => some identification
  | .environmentDivision => some environment
  | .dataDivision => some data
  | .procedureDivision => some procedure
  | _ => none

theorem ofKind?_eq_some_iff {kind : Kind} {division : Division} :
    ofKind? kind = some division ↔ kind = division.kind := by
  constructor
  · intro h
    cases kind <;> cases division <;> simp_all [ofKind?, Division.kind]
  · rintro rfl
    cases division <;> rfl

def name : Division → String
  | identification => "IDENTIFICATION"
  | environment => "ENVIRONMENT"
  | data => "DATA"
  | procedure => "PROCEDURE"

/-- The words of the header. -/
def title (division : Division) : String := division.name ++ " DIVISION"

end Division

end CobolTree
