import CobolTree.Grammar.Match

/-!
Reading inside of an atomic rule. Nothing is skipped there and no tree is made, so all that an
expression does is to take characters off the front of the text; `Expr.length?` tells how many,
from the text alone, as the patterns of the scanner do. `read?_atomic` says that the two are one,
and `length?_star` that a repetition goes on from where a round has ended.
-/

namespace CobolTree

namespace Input

theorem drop_zero (input : Input) : input.drop 0 = input := rfl

theorem drop_drop (input : Input) (first second : Nat) :
    (input.drop first).drop second = input.drop (first + second) := by
  simp only [drop, List.drop_drop, List.take_add, Text.byteLength_append, Nat.add_assoc]

theorem rest_drop (input : Input) (size : Nat) : (input.drop size).rest = input.rest.drop size :=
  rfl

theorem skip_atomic (input : Input) : input.skip true = input := rfl

end Input

namespace Expr

/-- How many characters rounds of a pattern take, one round after another. As in `repeated`, a
text bounds the number of rounds. -/
def roundsLength (pattern : Text → Option Nat) : Text → Text → Nat
  | [], _ => 0
  | _ :: bound, text =>
      match pattern text with
      | none => 0
      | some size => size + roundsLength pattern bound (text.drop size)

/-- How many characters make up the line break that a text begins with. -/
def lineBreakLength? : Text → Option Nat
  | '\n' :: _ => some 1
  | '\r' :: '\n' :: _ => some 2
  | '\r' :: _ => some 1
  | _ => none

/-- How many characters an expression reads at the start of a text, inside of an atomic rule. -/
def length? : Expr → Text → Option Nat
  | exact expected, text => if expected.isPrefixOf text then some expected.length else none
  | anyCase expected, text =>
      if Text.sameWord (text.take expected.length) expected then some expected.length else none
  | anyChar, text => if text.isEmpty then none else some 1
  | digit, text => if (text.head?.map Char.isDigit).getD false then some 1 else none
  | alphanumeric, text => if (text.head?.map Char.isAlphanum).getD false then some 1 else none
  | lineBreak, text => lineBreakLength? text
  | ending, text => if text.isEmpty then some 0 else none
  | seq first second, text =>
      (first.length? text).bind fun size => (second.length? (text.drop size)).map (size + ·)
  | alt first second, text => (first.length? text).or (second.length? text)
  | star body, text => some (roundsLength body.length? text text)
  | opt body, text => (body.length? text).or (some 0)
  | absent body, text => if (body.length? text).isSome then none else some 0
  | rule _ _ body, text => body.length? text

/-! ### Rounds -/

/-- The pattern takes no more characters than there are. -/
def Fits (pattern : Text → Option Nat) : Prop :=
  ∀ text size, pattern text = some size → size ≤ text.length

section Rounds

variable {pattern : Text → Option Nat}

theorem roundsLength_of_none {text : Text} (h : pattern text = none) (bound : Text) :
    roundsLength pattern bound text = 0 := by
  cases bound with
  | nil => rfl
  | cons c bound => rw [roundsLength, h]

/-- A round that takes nothing is followed by others that take nothing. -/
theorem roundsLength_of_zero {text : Text} (h : pattern text = some 0) (bound : Text) :
    roundsLength pattern bound text = 0 := by
  induction bound with
  | nil => rfl
  | cons c bound ih =>
      rw [roundsLength, h]
      exact (Nat.zero_add _).trans ih

theorem roundsLength_le (fits : Fits pattern) (bound text : Text) :
    roundsLength pattern bound text ≤ text.length := by
  induction bound generalizing text with
  | nil => exact Nat.zero_le _
  | cons c bound ih =>
      rw [roundsLength]
      split
      · exact Nat.zero_le _
      · rename_i size found
        have here := fits text size found
        have behind := ih (text.drop size)
        rw [List.length_drop] at behind
        omega

/-- Any bound that is long enough will do. -/
theorem roundsLength_congr (fits : Fits pattern) {s t text : Text} (hs : text.length ≤ s.length)
    (ht : text.length ≤ t.length) :
    roundsLength pattern s text = roundsLength pattern t text := by
  induction s generalizing t text with
  | nil =>
      have none : text = [] := List.length_eq_zero_iff.mp (Nat.le_zero.mp hs)
      subst none
      exact (Nat.le_zero.mp (roundsLength_le fits t [])).symm
  | cons c s ih =>
      cases t with
      | nil =>
          have none : text = [] := List.length_eq_zero_iff.mp (Nat.le_zero.mp ht)
          subst none
          exact Nat.le_zero.mp (roundsLength_le fits _ [])
      | cons d t =>
          rw [roundsLength, roundsLength]
          cases found : pattern text with
          | none => rfl
          | some size =>
              by_cases zero : size = 0
              · subst zero
                simp only [List.drop_zero, roundsLength_of_zero found]
              · simp only [List.length_cons] at hs ht
                have left : (text.drop size).length ≤ text.length - 1 := by
                  rw [List.length_drop]
                  omega
                exact congrArg (size + ·) (ih (by omega) (by omega))

/-- Rounds go on from where a round has ended. -/
theorem roundsLength_of_some (fits : Fits pattern) {text : Text} {size : Nat}
    (h : pattern text = some size) :
    roundsLength pattern text text =
      size + roundsLength pattern (text.drop size) (text.drop size) := by
  cases text with
  | nil =>
      have zero : size = 0 := Nat.le_zero.mp (fits [] size h)
      subst zero
      rfl
  | cons c rest =>
      rw [roundsLength, h]
      by_cases zero : size = 0
      · subst zero
        simp only [List.drop_zero, roundsLength_of_zero h]
      · refine congrArg (size + ·) (roundsLength_congr fits ?_ (Nat.le_refl _))
        rw [List.length_drop, List.length_cons]
        omega

end Rounds

/-- No expression reads more than there is. -/
theorem fits_length? (e : Expr) : Fits e.length? := by
  intro text size h
  induction e generalizing text size with
  | exact expected =>
      rw [length?] at h
      split at h
      · rename_i found
        cases h
        exact (List.isPrefixOf_iff_prefix.mp found).length_le
      · cases h
  | anyCase expected =>
      rw [length?] at h
      split at h
      · rename_i found
        cases h
        have same := congrArg List.length (eq_of_beq found)
        simp only [Text.upper, List.length_map, List.length_take] at same
        omega
      · cases h
  | anyChar | digit | alphanumeric =>
      cases text with
      | nil => cases h
      | cons c rest =>
          rw [length?] at h
          split at h <;> cases h
          simp
  | lineBreak =>
      rw [length?] at h
      unfold lineBreakLength? at h
      split at h <;> cases h <;> simp
  | ending =>
      rw [length?] at h
      split at h <;> cases h
      exact Nat.zero_le _
  | seq first second ihFirst ihSecond =>
      rw [length?] at h
      obtain ⟨one, readFirst, h⟩ := Option.bind_eq_some_iff.mp h
      obtain ⟨two, readSecond, rfl⟩ := Option.map_eq_some_iff.mp h
      have left := ihFirst text one readFirst
      have right := ihSecond _ two readSecond
      rw [List.length_drop] at right
      omega
  | alt first second ihFirst ihSecond =>
      rw [length?] at h
      rcases Option.or_eq_some_iff.mp h with read | ⟨-, read⟩
      · exact ihFirst text size read
      · exact ihSecond text size read
  | star body ih =>
      rw [length?] at h
      cases h
      exact roundsLength_le ih text text
  | opt body ih =>
      rw [length?] at h
      rcases Option.or_eq_some_iff.mp h with read | ⟨-, read⟩
      · exact ih text size read
      · cases read
        exact Nat.zero_le _
  | absent body =>
      rw [length?] at h
      split at h <;> cases h
      exact Nat.zero_le _
  | rule named isAtomic body ih => exact ih text size h

/-- A repetition reads a round and goes on behind it, or reads nothing. -/
theorem length?_star (body : Expr) (text : Text) :
    (star body).length? text =
      match body.length? text with
      | none => some 0
      | some size => ((star body).length? (text.drop size)).map (size + ·) := by
  cases read : body.length? text with
  | none => rw [length?, roundsLength_of_none read]
  | some size => simp only [length?, roundsLength_of_some (fits_length? body) read, Option.map_some]

/-! ### Readings -/

/-- Atomic rounds read what the pattern of their step takes. -/
theorem repeated_atomic {step : Input → Option Reading} {pattern : Text → Option Nat}
    (each : ∀ input, step input = (pattern input.rest).map fun size => ⟨[], input.drop size⟩)
    (bound : Text) (input : Input) :
    repeated step bound input = ⟨[], input.drop (roundsLength pattern bound input.rest)⟩ := by
  induction bound generalizing input with
  | nil => rfl
  | cons c bound ih =>
      rw [repeated, each, roundsLength]
      cases pattern input.rest with
      | none => rfl
      | some size =>
          simp only [Option.map_some, ih, List.nil_append, Input.drop_drop, Input.rest_drop]

/-- An atomic reading takes characters off the front of the input, and makes no tree. -/
theorem read?_atomic (e : Expr) (input : Input) :
    e.read? true input = (e.length? input.rest).map fun size => ⟨[], input.drop size⟩ := by
  induction e generalizing input with
  | exact expected | anyCase expected | digit | alphanumeric =>
      rw [read?, length?]
      split <;> rfl
  | anyChar =>
      rw [read?, length?]
      split <;> rfl
  | lineBreak =>
      unfold read?
      rw [length?]
      split
      · rename_i rest
        rw [rest]
        rfl
      · rename_i rest
        rw [rest]
        rfl
      · rename_i other rest
        rw [rest, lineBreakLength?]
        · rfl
        · exact other
      · rename_i feed both single
        rw [lineBreakLength?]
        · rfl
        · exact feed
        · exact both
        · exact single
  | ending =>
      rw [read?, length?]
      split <;> rfl
  | seq first second ihFirst ihSecond =>
      rw [read?, length?, ihFirst]
      cases first.length? input.rest with
      | none => rfl
      | some one =>
          simp only [Option.map_some, Option.bind_some, Input.skip_atomic, ihSecond,
            Input.rest_drop]
          cases second.length? (input.rest.drop one) with
          | none => rfl
          | some two => simp only [Option.map_some, Input.drop_drop, List.nil_append]
  | alt first second ihFirst ihSecond =>
      rw [read?, length?, ihFirst, ihSecond]
      cases first.length? input.rest with
      | none => rfl
      | some one => rfl
  | star body ih =>
      rw [read?, length?, ih]
      cases found : body.length? input.rest with
      | none => rw [roundsLength_of_none found]; rfl
      | some one =>
          have each (input : Input) : body.read? true (input.skip true) =
              (body.length? input.rest).map fun size => ⟨[], input.drop size⟩ := ih input
          simp only [Option.map_some, repeated_atomic each, List.nil_append, Input.drop_drop,
            Input.rest_drop, roundsLength_of_some (fits_length? body) found]
  | opt body ih =>
      rw [read?, length?, ih]
      cases body.length? input.rest with
      | none => rfl
      | some one => rfl
  | absent body ih =>
      rw [read?, length?, ih]
      cases body.length? input.rest with
      | none => rfl
      | some one => rfl
  | rule named isAtomic body ih =>
      rw [read?, length?, Bool.true_or, ih]
      cases body.length? input.rest with
      | none => rfl
      | some size => rfl

/-- An atomic rule reads what its body does, and makes one leaf of it. -/
theorem read?_atomicRule (named : Rule) (body : Expr) (input : Input) :
    (rule named true body).read? false input = (body.length? input.rest).map fun size =>
      ⟨[.leaf ⟨named, input.rest.take size, input.offset⟩], input.drop size⟩ := by
  rw [read?, Bool.or_true, read?_atomic]
  cases found : body.length? input.rest with
  | none => rfl
  | some size =>
      have fits := fits_length? body input.rest size found
      have left : input.rest.length - (input.rest.length - size) = size := by omega
      simp [applied, Input.rest_drop, left]

end Expr

end CobolTree
