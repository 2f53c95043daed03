import CobolTree.Grammar.Match
import CobolTree.Token.Scan

/-!
Pieces that cover a text. Blanks and comments are filler, where every comment goes on to a place at
which comments may stop (`IsFiller`); pieces `Covers` a text when they lie in it one behind another,
none of them empty, with nothing but filler before, between and behind them. Covered texts are put
one behind another (`Covers.append`), and pieces can be moved and renamed (`Covers.map`).
-/

namespace CobolTree

/-- A text of blanks, separators that count as blanks, and comments, that begins at an offset. A
comment begins at its mark, stays within its line, and ends where a comment `stops`. -/
inductive IsFiller (stops : Nat → Prop) : Nat → Text → Prop where
  | nil {start : Nat} : IsFiller stops start []
  | blank {start : Nat} {c : Char} {rest : Text} : Input.isFiller c = true →
      IsFiller stops (start + c.utf8Size) rest → IsFiller stops start (c :: rest)
  | comment {start : Nat} {body rest : Text} : (∀ c ∈ body, Scan.isLineBreak c = false) →
      stops (start + Text.byteLength ('*' :: '>' :: body)) →
        IsFiller stops (start + Text.byteLength ('*' :: '>' :: body)) rest →
          IsFiller stops start ('*' :: '>' :: (body ++ rest))

variable {stops : Nat → Prop}

theorem IsFiller.append {start : Nat} {s t : Text} (h : IsFiller stops start s)
    (k : IsFiller stops (start + s.byteLength) t) : IsFiller stops start (s ++ t) := by
  induction h with
  | nil => exact k
  | @blank start c rest filler _ ih =>
      refine .blank filler (ih ?_)
      rwa [Text.byteLength, ← Nat.add_assoc] at k
  | @comment start body rest inLine ends _ ih =>
      rw [List.cons_append, List.cons_append, List.append_assoc]
      refine .comment inLine ends (ih ?_)
      rwa [← List.cons_append, ← List.cons_append, Text.byteLength_append, ← Nat.add_assoc] at k

/-- Filler that is moved is filler where comments stop. -/
theorem IsFiller.move {others : Nat → Prop} {low base offset : Nat} {text : Text}
    (moved : ∀ place, stops (low + place) → others (base + place))
    (h : IsFiller stops (low + offset) text) : IsFiller others (base + offset) text := by
  generalize place : low + offset = start at h
  induction h generalizing offset with
  | nil => exact .nil
  | blank filler _ ih =>
      refine .blank filler ?_
      rw [Nat.add_assoc]
      exact ih (by omega)
  | comment inLine ends _ ih =>
      subst place
      rw [Nat.add_assoc] at ends
      refine .comment inLine ?_ ?_
      · rw [Nat.add_assoc]
        exact moved _ ends
      · rw [Nat.add_assoc]
        exact ih (by omega)

theorem isFiller_of_forall {start : Nat} {text : Text} (h : ∀ c ∈ text, Input.isFiller c = true) :
    IsFiller stops start text := by
  induction text generalizing start with
  | nil => exact .nil
  | cons c rest ih =>
      obtain ⟨first, others⟩ := List.forall_mem_cons.mp h
      exact .blank first (ih others)

/-- Characters that begin no filler. -/
def Input.isSolid (c : Char) : Bool := !isFiller c && c != '*'

theorem IsFiller.not_isSolid {start : Nat} {c : Char} {rest : Text}
    (h : IsFiller stops start (c :: rest)) : Input.isSolid c = false := by
  cases h with
  | blank filler _ => simp [Input.isSolid, filler]
  | comment _ _ _ => rfl

/-- Values that stand in a text one behind another, with filler around them. The text begins at an
offset, comments around the values end where they `stops`, and `stands` tells which value stands for
a piece that begins at an offset. -/
inductive Covers {α : Type} (stops : Nat → Prop) (stands : α → Nat → Text → Prop) :
    Nat → Text → List α → Prop where
  | gap {start : Nat} {text : Text} : IsFiller stops start text → Covers stops stands start text []
  | piece {start : Nat} {gap text rest : Text} {value : α} {values : List α} :
      IsFiller stops start gap → text ≠ [] → stands value (start + gap.byteLength) text →
        Covers stops stands (start + gap.byteLength + text.byteLength) rest values →
          Covers stops stands start (gap ++ (text ++ rest)) (value :: values)

namespace Covers

variable {α β : Type} {stands : α → Nat → Text → Prop}

/-- One piece is covered by the value that stands for it. -/
theorem single {start : Nat} {text : Text} {value : α} (some : text ≠ [])
    (h : stands value start text) : Covers stops stands start text [value] := by
  have alone : Covers stops stands start ([] ++ (text ++ [])) [value] := .piece .nil some h (.gap .nil)
  simpa using alone

/-- What does not begin with filler is covered from its first character on. -/
theorem exists_first {start : Nat} {c : Char} {rest : Text} {values : List α}
    (h : Covers stops stands start (c :: rest) values) (solid : Input.isSolid c = true) :
    ∃ value text, values.head? = some value ∧ stands value start text := by
  generalize same : c :: rest = whole at h
  cases h with
  | gap blank =>
      subst same
      exact absurd solid (by simp [blank.not_isSolid])
  | @piece _ gap text behind value values blank some here others =>
      cases gap with
      | nil => exact ⟨value, text, rfl, here⟩
      | cons first between =>
          cases same
          exact absurd solid (by simp [blank.not_isSolid])

/-- Filler before a text makes no difference. -/
theorem behind {start : Nat} {filler text : Text} {values : List α}
    (blank : IsFiller stops start filler)
    (h : Covers stops stands (start + filler.byteLength) text values) :
    Covers stops stands start (filler ++ text) values := by
  cases h with
  | gap trailing => exact .gap (blank.append trailing)
  | @piece _ gap text rest value values between some here others =>
      rw [← List.append_assoc]
      rw [Nat.add_assoc start, ← Text.byteLength_append] at here others
      exact .piece (blank.append between) some here others

theorem append {start : Nat} {s t : Text} {values others : List α}
    (h : Covers stops stands start s values) (k : Covers stops stands (start + s.byteLength) t others) :
    Covers stops stands start (s ++ t) (values ++ others) := by
  induction h with
  | gap blank => exact k.behind blank
  | @piece start gap text rest value values between some here _ ih =>
      rw [List.append_assoc, List.append_assoc, List.cons_append]
      refine .piece between some here (ih ?_)
      simpa only [Text.byteLength_append, Nat.add_assoc] using k

/-- Filler behind a text makes no difference. -/
theorem before {start : Nat} {filler text : Text} {values : List α}
    (blank : IsFiller stops (start + text.byteLength) filler)
    (h : Covers stops stands start text values) :
    Covers stops stands start (text ++ filler) values := by
  have both := h.append (.gap blank)
  rwa [List.append_nil] at both

/-- Values that are moved and renamed cover the text where it has been moved to. -/
theorem map {others : Nat → Prop} {stands' : β → Nat → Text → Prop} {f : α → β} {low base : Nat}
    (ends : ∀ place, stops (low + place) → others (base + place))
    (moved : ∀ value offset text, stands value (low + offset) text →
      stands' (f value) (base + offset) text)
    {offset : Nat} {text : Text} {values : List α}
    (h : Covers stops stands (low + offset) text values) :
    Covers others stands' (base + offset) text (values.map f) := by
  generalize place : low + offset = start at h
  induction h generalizing offset with
  | gap blank =>
      subst place
      exact .gap (blank.move ends)
  | @piece _ gap text rest value values between some here _ ih =>
      subst place
      rw [Nat.add_assoc] at here
      refine .piece (between.move ends) some ?_ ?_
      · rw [Nat.add_assoc]
        exact moved value _ text here
      · rw [Nat.add_assoc, Nat.add_assoc]
        exact ih (by omega)

end Covers

end CobolTree
