import CobolTree.Proofs.Source.Covering
import CobolTree.Proofs.Token.Reading
import Mathlib.Data.List.TakeWhile

/-!
Blanks and comments are filler. In every mode, what carries no meaning is a run of blanks or a
comment (`scan_of_isTrivia`): blanks are found before anything else, and of the patterns of word
mode only that of comments yields one. So all lexemes that are read are `Legible`, and those that
carry no meaning are filler (`Lexeme.Legible.isFiller`). Behind a comment its line ends
(`Reads.isLineBreak_of_comment`).
-/

namespace CobolTree

namespace Scan

theorem take_length_takeWhile (p : Char → Bool) (text : Text) :
    text.take (text.takeWhile p).length = text.takeWhile p :=
  (List.prefix_iff_eq_take.mp (List.takeWhile_prefix p)).symm

theorem isFiller_of_isSpace {c : Char} (h : isSpace c = true) : Input.isFiller c = true := by
  simp only [isSpace, Bool.or_eq_true, beq_iff_eq] at h
  rcases h with (rfl | rfl) | rfl
  · rfl
  · rfl
  · rfl

theorem isFiller_of_isLineBreak {c : Char} (h : isLineBreak c = true) :
    Input.isFiller c = true := by
  simp only [isLineBreak, Bool.or_eq_true, beq_iff_eq] at h
  rcases h with rfl | rfl
  · rfl
  · rfl

theorem isFiller_of_mem_blanks {text : Text} {c : Char} (mem : c ∈ text.take (blankLength text)) :
    Input.isFiller c = true := by
  unfold blankLength at mem
  split at mem
  · simp only [List.take_succ_cons, List.take_zero, List.mem_cons, List.not_mem_nil, or_false] at mem
    rcases mem with rfl | rfl
    · rfl
    · rfl
  · split at mem
    · rename_i breaks
      rw [List.take_succ_cons, List.take_zero, List.mem_singleton] at mem
      rw [mem]
      exact isFiller_of_isLineBreak breaks
    · rw [take_length_takeWhile] at mem
      exact isFiller_of_isSpace (List.mem_takeWhile_imp mem)
  · cases mem

/-- A comment is its mark and what is left of the line, and behind it the line ends. -/
theorem exists_comment {text : Text} (some : commentLength text ≠ 0) : ∃ body behind,
    text.take (commentLength text) = '*' :: '>' :: body ∧
      text.drop (commentLength text) = behind ∧ (∀ c ∈ body, isLineBreak c = false) ∧
        ∀ c ∈ behind.head?, isLineBreak c = true := by
  unfold commentLength at some ⊢
  split
  · rename_i rest
    have whole : rest.takeWhile (!isLineBreak ·) ++ rest.dropWhile (!isLineBreak ·) = rest :=
      List.takeWhile_append_dropWhile
    refine ⟨rest.takeWhile (!isLineBreak ·), rest.dropWhile (!isLineBreak ·), ?_, ?_, ?_, ?_⟩
    · rw [List.take_succ_cons, List.take_succ_cons, lineLength, take_length_takeWhile]
    · have cut : (rest.takeWhile (!isLineBreak ·) ++ rest.dropWhile (!isLineBreak ·)).drop
          (lineLength rest) = rest.dropWhile (!isLineBreak ·) := List.drop_left
      rwa [whole] at cut
    · intro c mem
      simpa using List.mem_takeWhile_imp mem
    · intro c first
      have ends := List.head?_dropWhile_not (!isLineBreak ·) rest
      rw [Option.mem_def.mp first] at ends
      simpa using ends
  · rename_i other
    split at some
    · exact absurd rfl (other _)
    · exact absurd rfl some

/-- The longest match is one of the matches, or there is none. -/
theorem longest_mem (found : List (Kind × Nat)) :
    longest found = (.error, 0) ∨ longest found ∈ found := by
  unfold longest
  suffices all : ∀ best, found.foldl longer best = best ∨ found.foldl longer best ∈ found from
    all (.error, 0)
  intro best
  induction found generalizing best with
  | nil => exact .inl rfl
  | cons next rest ih =>
      rw [List.foldl_cons]
      rcases ih (longer best next) with same | mem
      · rw [same, longer]
        split
        · exact .inr List.mem_cons_self
        · exact .inl rfl
      · exact .inr (List.mem_cons_of_mem next mem)

/-- The kinds of what the patterns of word mode match. -/
def wordKinds : List Kind :=
  [.comment, .word, .stringLiteral, .error] ++ symbols.map (·.1)

theorem kind_scanWord_mem (text : Text) : (scanWord text).1 ∈ wordKinds := by
  unfold scanWord
  simp only
  split
  · decide
  · rcases longest_mem (candidates text) with none | mem
    · rw [none]
      decide
    · exact List.mem_map_of_mem (f := (·.1)) mem

/-- Of the patterns of word mode, only that of comments matches what carries no meaning. -/
theorem eq_of_mem_candidates {text : Text} {found : Kind × Nat} (mem : found ∈ candidates text)
    (trivial : found.1.isTrivia = true) : found = (.comment, commentLength text) := by
  rw [candidates, List.mem_append] at mem
  rcases mem with first | symbol
  · simp only [List.mem_cons, List.not_mem_nil, or_false] at first
    rcases first with rfl | rfl | rfl | rfl
    · rfl
    · cases trivial
    · cases trivial
    · cases trivial
  · obtain ⟨⟨kind, characters⟩, inside, rfl⟩ := List.mem_map.mp symbol
    have carries : symbols.all fun entry => !entry.1.isTrivia := by decide
    have := List.all_eq_true.mp carries _ inside
    simp_all

/-- Of the tokens that word mode finds behind blanks, comments alone carry no meaning. -/
theorem scanWord_of_isTrivia {text : Text} (trivial : (scanWord text).1.isTrivia = true) :
    scanWord text = (.comment, commentLength text) := by
  rw [scanWord] at trivial ⊢
  split
  · rename_i none
    rw [if_pos none] at trivial
    cases trivial
  · rename_i some
    rw [if_neg some] at trivial
    rcases longest_mem (candidates text) with none | mem
    · rw [none] at trivial
      cases trivial
    · exact eq_of_mem_candidates mem trivial

/-- What carries no meaning is a run of blanks or a comment, in every mode. -/
theorem scan_of_isTrivia {mode : Mode} {text : Text} (trivial : (scan mode text).1.isTrivia = true) :
    scan mode text = (.whitespace, blankLength text) ∨
      scan mode text = (.comment, commentLength text) := by
  unfold scan at trivial ⊢
  simp only at trivial ⊢
  split
  · exact .inl rfl
  · rename_i none
    rw [if_neg none] at trivial
    right
    cases mode with
    | word => exact scanWord_of_isTrivia trivial
    | sentence =>
        simp only [scanSentence] at trivial ⊢
        split at trivial
        · cases trivial
        · rename_i other
          rw [if_neg other]
          exact scanWord_of_isTrivia trivial
    | commentEntry => cases trivial
    | picture =>
        simp only [scanPicture] at trivial ⊢
        split at trivial
        · rename_i none
          rw [if_pos none]
          exact scanWord_of_isTrivia trivial
        · cases trivial

end Scan

/-- A lexeme as it is read: it is not empty, and where it carries no meaning it is a run of blanks,
or a comment that stays within its line. -/
structure Lexeme.Legible (lexeme : Lexeme) : Prop where
  text_ne_nil : lexeme.text ≠ []
  blank : lexeme.kind = .whitespace → ∀ c ∈ lexeme.text, Input.isFiller c = true
  comment : lexeme.kind = .comment →
    ∃ body, lexeme.text = '*' :: '>' :: body ∧ ∀ c ∈ body, Scan.isLineBreak c = false

theorem Lexeme.kind_of_isTrivia {lexeme : Lexeme} (trivial : lexeme.isTrivia = true) :
    lexeme.kind = .whitespace ∨ lexeme.kind = .comment := by
  rw [Lexeme.isTrivia] at trivial
  cases kind : lexeme.kind <;> simp [kind, Kind.isTrivia] at trivial ⊢

/-- A lexeme without meaning is filler, if a comment may stop behind it. -/
theorem Lexeme.Legible.isFiller {lexeme : Lexeme} (legible : lexeme.Legible)
    (trivial : lexeme.isTrivia = true) {stops : Nat → Prop} {start : Nat}
    (ends : lexeme.kind = .comment → stops (start + lexeme.text.byteLength)) :
    IsFiller stops start lexeme.text := by
  rcases lexeme.kind_of_isTrivia trivial with blank | comment
  · exact isFiller_of_forall (legible.blank blank)
  · obtain ⟨body, text, line⟩ := legible.comment comment
    have stop := ends comment
    rw [text] at stop ⊢
    rw [← List.append_nil body]
    exact .comment line stop .nil

namespace Cursor

/-- Behind a comment the line ends, or the text with it. -/
theorem isLineBreak_of_comment {context : Context} {cursor after : Cursor} {token : Token}
    (h : cursor.next? context = some (token, after)) (comment : token.kind = .comment) :
    ∃ body, token.text = '*' :: '>' :: body ∧ (∀ c ∈ body, Scan.isLineBreak c = false) ∧
      ∀ c ∈ after.rest.head?, Scan.isLineBreak c = true := by
  have some := text_ne_nil_of_next? h
  rw [next?_of_rest (rest_ne_nil_of_next? h)] at h
  simp only [Option.some.injEq, Prod.mk.injEq] at h
  obtain ⟨rfl, rfl⟩ := h
  have found : (Scan.scan context.mode cursor.rest).1 = .comment := comment
  rcases Scan.scan_of_isTrivia (by rw [found]; rfl) with blank | same
  · rw [blank] at found
    cases found
  · simp only [same] at some ⊢
    have long : Scan.commentLength cursor.rest ≠ 0 := by
      intro none
      rw [none] at some
      exact some rfl
    obtain ⟨body, behind, text, rest, line, ends⟩ := Scan.exists_comment long
    exact ⟨body, text, line, rest ▸ ends⟩

theorem legible_of_next? {context : Context} {cursor after : Cursor} {token : Token}
    (h : cursor.next? context = some (token, after)) : token.toLexeme.Legible where
  text_ne_nil := text_ne_nil_of_next? h
  blank blank := by
    have found := kind_of_next? h
    rw [show token.kind = .whitespace from blank] at found
    rw [next?_of_rest (rest_ne_nil_of_next? h)] at h
    simp only [Option.some.injEq, Prod.mk.injEq] at h
    obtain ⟨rfl, -⟩ := h
    rcases Scan.scan_of_isTrivia (by rw [← found]; rfl) with same | comment
    · simp only [same]
      exact fun c mem => Scan.isFiller_of_mem_blanks mem
    · rw [comment] at found
      cases found
  comment comment := by
    obtain ⟨body, text, line, -⟩ := isLineBreak_of_comment h comment
    exact ⟨body, text, line⟩

theorem Reads.legible {cursor last : Cursor} {tokens : List Token}
    (reads : cursor.Reads tokens last) : ∀ lexeme ∈ Token.lexemes tokens, lexeme.Legible := by
  induction reads with
  | nil =>
      intro lexeme mem
      cases mem
  | cons h _ ih =>
      intro lexeme mem
      rcases List.mem_cons.mp mem with rfl | behind
      · exact legible_of_next? h
      · exact ih lexeme behind

/-- Behind a comment of a row of tokens the line ends, or the text with it. -/
theorem Reads.isLineBreak_of_comment {cursor last : Cursor} {earlier later : List Token}
    {token : Token} (reads : cursor.Reads (earlier ++ token :: later) last)
    (comment : token.kind = .comment) :
    ∀ c ∈ (Lexeme.textOf (Token.lexemes later) ++ last.rest).head?, Scan.isLineBreak c = true := by
  generalize all : earlier ++ token :: later = tokens at reads
  induction reads generalizing earlier with
  | nil => simp at all
  | @cons _ cursor after last first others h behind ih =>
      cases earlier with
      | nil =>
          obtain ⟨rfl, rfl⟩ := List.cons.inj all
          rw [← behind.rest_eq]
          obtain ⟨-, -, -, ends⟩ := Cursor.isLineBreak_of_comment h comment
          exact ends
      | cons other earlier => exact ih (List.cons.inj all).2

end Cursor

end CobolTree
