import CobolTree.Grammar.Reparse
import CobolTree.Proofs.Agreement.Lexemes
import CobolTree.Proofs.Source.Slices

/-!
Keyword rules read whole words (`Grammar.keywordsWhole`). A keyword rule commits itself to the first
of its words that begins the text, and looks only then whether the word ends there. It misses none
of its words all the same, since none stands in front of one that it begins (`InOrder`): of two
words that begin one text, the later one in the list is the shorter one, and where that is the whole
word, the longer one cannot begin the text.
-/

namespace CobolTree

open CobolTree.Expr Scan

/-! ### Keyword rules -/

/-- The rules that read keywords: the rules of one word, and four rules that list several. -/
def Rule.isKeyword (named : Rule) : Bool :=
  "kw_".toList.isPrefixOf named.name.toList ||
    [commentParagraphKeyword, fileDescriptionIndicator, figurativeConstant, usageKind].contains
      named

namespace Expr

/-- The rules that an expression calls, those that they call among them. -/
def calls : Expr → List Expr
  | seq first second => first.calls ++ second.calls
  | alt first second => first.calls ++ second.calls
  | star body => body.calls
  | opt body => body.calls
  | absent body => body.calls
  | rule named isAtomic body => rule named isAtomic body :: body.calls
  | _ => []

/-- The expression calls the rule. -/
def isCallOf (named : Rule) : Expr → Bool
  | rule other _ _ => other == named
  | _ => false

/-- The words that an expression lists, in the order in which it tries them. -/
def listed : Expr → List Text
  | anyCase expected => [expected]
  | seq first second => first.listed ++ second.listed
  | alt first second => first.listed ++ second.listed
  | star body => body.listed
  | opt body => body.listed
  | rule _ _ body => body.listed
  | _ => []

/-- How many bytes an expression reads at a place of an input, within an atomic rule or outside of
one. -/
def bytesAt? (atomic : Bool) (e : Expr) (input : Input) : Option Nat :=
  (e.read? atomic input).map (·.next.offset - input.offset)

/-- The expression reads what is a whole word to the grammars and one of the given words in some
case, and nothing else. -/
def ReadsWholeWords (e : Expr) (words : List Text) : Prop :=
  ∀ atomic input size, e.bytesAt? atomic input = some size ↔
    Grammar.cobolWord.bytesAt? atomic input = some size ∧
      ∃ taken, input.rest.takeBytes? size = some taken ∧
        ∃ word ∈ words, Text.sameWord taken word = true

/-- An atomic rule takes the bytes of the characters that its body reads. -/
theorem bytesAt?_atomicRule {atomic : Bool} {named : Rule} {body : Expr} {input : Input}
    {size : Nat} : (rule named true body).bytesAt? atomic input = some size ↔
      ∃ length, body.length? input.rest = some length ∧
        Text.byteLength (input.rest.take length) = size := by
  have bytes : (rule named true body).bytesAt? atomic input =
      (body.length? input.rest).map fun length => Text.byteLength (input.rest.take length) := by
    have past (length : Nat) : (input.drop length).offset - input.offset =
        Text.byteLength (input.rest.take length) := Nat.add_sub_cancel_left _ _
    cases atomic with
    | false => simp only [bytesAt?, read?_atomicRule, Option.map_map, Function.comp_def, past]
    | true => simp only [bytesAt?, read?_atomic, length?, Option.map_map, Function.comp_def, past]
  rw [bytes, Option.map_eq_some_iff]

end Expr

/-! ### Words in order -/

/-- No word stands in front of one that it begins. -/
def InOrder (words : List Text) : Prop :=
  words.Pairwise fun earlier later => ¬earlier.upper <+: later.upper

instance (words : List Text) : Decidable (InOrder words) :=
  inferInstanceAs (Decidable (words.Pairwise _))

/-- The word begins the text, in some case. -/
def Begins (text word : Text) : Bool := Text.sameWord (text.take word.length) word

theorem begins_iff {text word : Text} : Begins text word = true ↔ word.upper <+: text.upper := by
  rw [Begins, Text.sameWord, beq_iff_eq, List.prefix_iff_eq_take, eq_comm, Text.upper, Text.upper,
    List.length_map, List.map_take]
  rfl

/-- A choice between words reads the first one that begins the text. -/
theorem Expr.length?_of_isWords {e : Expr} (words : e.isWords = true) (text : Text) :
    e.length? text = (e.listed.find? (Begins text)).map List.length := by
  induction e with
  | anyCase word =>
      rw [length?, listed, List.find?_singleton, Begins]
      split <;> rfl
  | alt first second ihFirst ihSecond =>
      obtain ⟨one, two⟩ := Bool.and_eq_true_iff.mp words
      rw [length?, listed, ihFirst one, ihSecond two, List.find?_append, Option.map_or]
  | exact | anyChar | digit | alphanumeric | lineBreak | ending | seq | star | opt | absent
  | rule => cases words

theorem Expr.isKeyword_of_mem {e : Expr} (words : e.isWords = true) {word : Text}
    (mem : word ∈ e.listed) : IsKeyword word := by
  induction e with
  | anyCase expected =>
      obtain rfl := List.mem_singleton.mp mem
      exact of_decide_eq_true words
  | alt first second ihFirst ihSecond =>
      obtain ⟨one, two⟩ := Bool.and_eq_true_iff.mp words
      rcases List.mem_append.mp mem with left | right
      · exact ihFirst one left
      · exact ihSecond two right
  | exact | anyChar | digit | alphanumeric | lineBreak | ending | seq | star | opt | absent
  | rule => cases words

/-- A keyword that begins a text begins the word there, which goes on up to the last letter behind
it. -/
theorem IsKeyword.wordLength_of_begins {text word : Text} (keyword : IsKeyword word)
    (begins : Begins text word = true) :
    wordLength text = word.length +
      (trimHyphens ((text.drop word.length).takeWhile isWordChar)).length := by
  have length : (text.take word.length).length = word.length := by
    have same := congrArg List.length (eq_of_beq begins)
    rwa [Text.upper, Text.upper, List.length_map, List.length_map] at same
  have front := (keyword.of_sameWord begins).wordLength_append (text.drop word.length)
  rwa [List.take_append_drop, length] at front

/-- If a listed word is the whole word of a text, the first one that begins the text is as long. -/
theorem find?_begins {words : List Text} (keywords : ∀ word ∈ words, IsKeyword word)
    (ordered : InOrder words) {text word : Text} (mem : word ∈ words)
    (begins : Begins text word = true) (whole : wordLength text = word.length) :
    ∃ found, words.find? (Begins text) = some found ∧ found.length = word.length := by
  obtain ⟨found, search⟩ : ∃ found, words.find? (Begins text) = some found :=
    Option.isSome_iff_exists.mp (List.find?_isSome.mpr ⟨word, mem, begins⟩)
  refine ⟨found, search, ?_⟩
  obtain ⟨finds, before, behind, rfl, earlier⟩ := List.find?_eq_some_iff_append.mp search
  have fits : found.length ≤ word.length := by
    have least := (keywords found (by simp)).wordLength_of_begins finds
    omega
  rcases List.mem_append.mp mem with early | late
  · have other := earlier word early
    rw [begins] at other
    cases other
  rcases List.mem_cons.mp late with rfl | later
  · rfl
  · have apart := (List.pairwise_cons.mp (List.pairwise_append.mp ordered).2.1).1 word later
    refine absurd (List.prefix_of_prefix_length_le (begins_iff.mp finds) (begins_iff.mp begins) ?_)
      apart
    rwa [Text.upper, Text.upper, List.length_map, List.length_map]

/-! ### Main statement -/

/-- What a keyword rule reads is the word of the text, if that is one of its words. -/
theorem Expr.length?_keyword_iff {words : Expr} (isWords : words.isWords = true)
    (ordered : InOrder words.listed) {text : Text} {size : Nat} :
    (words >> Grammar.wordEnd).length? text = some size ↔
      Grammar.cobolWord.length? text = some size ∧
        ∃ word ∈ words.listed, Text.sameWord (text.take size) word = true := by
  rw [length?_seq, length?_of_isWords isWords, Grammar.length?_cobolWord]
  constructor
  · intro read
    obtain ⟨length, search, read⟩ := Option.bind_eq_some_iff.mp read
    obtain ⟨word, found, rfl⟩ := Option.map_eq_some_iff.mp search
    obtain ⟨final, ends, rfl⟩ := Option.map_eq_some_iff.mp read
    obtain ⟨rfl, bare⟩ := Grammar.trimHyphens_of_wordEnd ends
    have mem := List.mem_of_find?_eq_some found
    have begins := List.find?_some found
    have keyword := isKeyword_of_mem isWords mem
    have whole := keyword.wordLength_of_begins begins
    rw [bare, List.length_nil] at whole
    have long := keyword.long
    rw [if_neg (by omega), whole]
    exact ⟨rfl, word, mem, begins⟩
  · rintro ⟨read, word, mem, same⟩
    split at read
    · cases read
    · cases read
      have keyword := isKeyword_of_mem isWords mem
      have length : wordLength text = word.length := by
        have sizes := congrArg List.length (eq_of_beq same)
        rw [Text.upper, Text.upper, List.length_map, List.length_map, List.length_take] at sizes
        have fits := wordLength_le text
        omega
      have begins : Begins text word = true := by rw [Begins, ← length, same]
      obtain ⟨found, search, equal⟩ := find?_begins (fun _ => isKeyword_of_mem isWords) ordered mem
        begins length
      have whole := keyword.wordLength_of_begins begins
      have bare : trimHyphens ((text.drop word.length).takeWhile isWordChar) = [] :=
        List.length_eq_zero_iff.mp (by omega)
      rw [search, Option.map_some, Option.bind_some, equal,
        Grammar.length?_wordEnd_of_trimHyphens bare, length]
      rfl

theorem Expr.readsWholeWords {named : Rule} {words : Expr} (isWords : words.isWords = true)
    (ordered : InOrder words.listed) :
    (rule named true (words >> Grammar.wordEnd)).ReadsWholeWords words.listed := by
  intro atomic input size
  rw [Grammar.cobolWord, bytesAt?_atomicRule, bytesAt?_atomicRule]
  constructor
  · rintro ⟨length, read, rfl⟩
    obtain ⟨word, listed⟩ := (length?_keyword_iff isWords ordered).mp read
    refine ⟨⟨length, word, rfl⟩, input.rest.take length, ?_, listed⟩
    exact Text.takeBytes?_eq_some_iff.mpr ⟨_, (List.take_append_drop length _).symm, rfl⟩
  · rintro ⟨⟨length, word, rfl⟩, taken, cut, listed⟩
    have split := List.take_append_drop length input.rest
    have same : input.rest.takeBytes? (Text.byteLength (input.rest.take length)) =
        some (input.rest.take length) :=
      Text.takeBytes?_eq_some_iff.mpr ⟨_, split.symm, rfl⟩
    rw [same] at cut
    cases cut
    exact ⟨length, (length?_keyword_iff isWords ordered).mpr ⟨word, listed⟩, rfl⟩

/-- Every keyword rule is called in a grammar, and wherever one is called it reads whole words. -/
structure KeywordsWhole : Prop where
  /-- No keyword rule is left out. -/
  called : ∀ named : Rule, named.isKeyword = true →
    ∃ grammar : GrammarName, ∃ e ∈ grammar.unit.calls, e.isCallOf named = true
  /-- The words are those that the rule lists. -/
  whole : ∀ (grammar : GrammarName) (named : Rule) (isAtomic : Bool) (body : Expr),
    rule named isAtomic body ∈ grammar.unit.calls → named.isKeyword = true →
      (rule named isAtomic body).ReadsWholeWords body.listed

namespace Grammar

/-- A call of a rule is no keyword's, or it is one of words in order, with an end of the word. -/
def isOrdered : Expr → Bool
  | rule named isAtomic body =>
      !named.isKeyword || (rule named isAtomic body).isKeywordRule && decide (InOrder body.listed)
  | _ => false

theorem isOrdered_of_mem_calls (grammar : GrammarName) :
    ∀ e ∈ grammar.unit.calls, isOrdered e = true := by
  rw [← List.all_eq_true]
  cases grammar <;> decide +kernel

theorem exists_call_of_isKeyword {named : Rule} (keyword : named.isKeyword = true) :
    ∃ grammar : GrammarName, ∃ e ∈ grammar.unit.calls, e.isCallOf named = true := by
  have all : (Rule.all.all fun named => !named.isKeyword ||
      [GrammarName.identification, .environment, .data].any fun grammar =>
        grammar.unit.calls.any (isCallOf named)) = true := by decide +kernel
  have found := List.all_eq_true.mp all named (Rule.mem_all named)
  rw [keyword, Bool.not_true, Bool.false_or, List.any_eq_true] at found
  obtain ⟨grammar, -, found⟩ := found
  exact ⟨grammar, List.any_eq_true.mp found⟩

theorem keywordsWhole : KeywordsWhole where
  called named keyword := exists_call_of_isKeyword keyword
  whole grammar named isAtomic body mem keyword := by
    have ordered := isOrdered_of_mem_calls grammar _ mem
    rw [isOrdered, keyword, Bool.not_true, Bool.false_or, Bool.and_eq_true,
      decide_eq_true_eq] at ordered
    obtain ⟨shape, ordered⟩ := ordered
    unfold isKeywordRule at shape
    split at shape
    · rename_i words stop same
      cases same
      rw [Bool.and_eq_true, beq_iff_eq] at shape
      obtain ⟨isWords, rfl⟩ := shape
      have bare : (seq words wordEnd).listed = words.listed := List.append_nil _
      rw [bare] at ordered ⊢
      exact readsWholeWords isWords ordered
    · cases shape

end Grammar

end CobolTree
