import CobolTree.Source.Text
import CobolTree.Text.Printable

/-!
Texts in quotation marks. Quotation marks and backslashes are written behind a
backslash, the commonest control characters as letters behind one, and every other
character without a printed form as its number in hexadecimal digits.
-/

namespace CobolTree.Text

/-- The character has a printed form; letters and digits are not looked up. -/
def isPlain (c : Char) : Bool := c.isAlphanum || !isUnprinted c

/-- The letter that stands for a character behind a backslash. -/
def escapeLetter? : Char → Option Char
  | '\x22' => some '\x22'
  | '\\' => some '\\'
  | '\n' => some 'n'
  | '\r' => some 'r'
  | '\t' => some 't'
  | '\x00' => some '0'
  | _ => none

/-- One character in quotation marks. -/
def quoteChar (c : Char) : Text :=
  match escapeLetter? c with
  | some letter => ['\\', letter]
  | none =>
      if isPlain c then [c]
      else ['\\', 'u', '\x7b'] ++ Nat.toDigits 16 c.toNat ++ ['\x7d']

/-- A text in quotation marks. -/
def quote (text : Text) : Text := ['\x22'] ++ text.flatMap quoteChar ++ ['\x22']

end CobolTree.Text
