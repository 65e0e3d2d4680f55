/-!
# Symbols and numerals

The operators, the punctuation characters and the characters of numerals.

An operator is as long as possible: three characters if these are in `tripleOperators`, else two if
these are in `doubleOperators`, else one if that character is an operator by itself. A lexeme such
as `::`, which is in no table, is therefore two operators.
-/

namespace OdinSyntax

/-- The operators of three characters. -/
def tripleOperators : List (List Char) :=
  [['-', '-', '-'], ['|', '|', '='], ['&', '&', '='], ['.', '.', '='], ['.', '.', '<'],
    ['>', '>', '='], ['<', '<', '='], ['&', '~', '='], ['%', '%', '=']]

/-- The operators of two characters. -/
def doubleOperators : List (List Char) :=
  [['%', '%'], ['&', '~'], ['<', '<'], ['>', '>'], ['&', '&'], ['|', '|'], ['+', '='], ['-', '='],
    ['*', '='], ['/', '='], ['%', '='], ['&', '='], ['|', '='], ['~', '='], ['-', '>'], ['=', '='],
    ['!', '='], ['<', '='], ['>', '='], ['.', '.'], ['+', '+'], ['-', '-']]

/-- Whether the code point of `c` lies between those of `low` and `high`, both included. -/
def inRange (low high c : Char) : Bool :=
  low.toNat ≤ c.toNat && c.toNat ≤ high.toNat

/-- Whether `c` is an operator by itself. -/
def isSingleOperator (c : Char) : Bool :=
  inRange ':' '?' c || c == '^' || c == '~' || inRange '*' '/' c || c == '!' || c == '%' || c == '&'

/-- Length of the longest operator that `c₀` starts, where `c₁` and `c₂` follow it. -/
def operatorLength? (c₀ c₁ c₂ : Char) : Option Nat :=
  if tripleOperators.contains [c₀, c₁, c₂] then some 3
  else if doubleOperators.contains [c₀, c₁] then some 2
  else if isSingleOperator c₀ then some 1
  else none

/-- Whether `c` is an ASCII symbol other than the underscore, which is a character of words. -/
def isPunctuation (c : Char) : Bool :=
  inRange '!' '/' c || inRange ':' '@' c || inRange '[' '^' c || c == '\x60' || inRange '\x7b' '~' c

/-- Whether `c` is an ASCII digit. -/
def isDigit (c : Char) : Bool :=
  inRange '0' '9' c

/-- Whether a numeral starts with `c` and then `next`: with a digit, or a point before a digit. -/
def isNumberStart (c next : Char) : Bool :=
  isDigit c || (c == '.' && isDigit next)

/-- Whether `c` continues a numeral. The letters are those of hexadecimal digits, of exponents and
of the bases `b`, `o` and `x`. -/
def isNumberPart (c : Char) : Bool :=
  isDigit c || inRange 'a' 'f' c || inRange 'A' 'F' c || c == 'x' || c == 'o' || c == '_' ||
    c == '.'

/-! ## Elementary facts -/

/-- An operator has at least one character. -/
theorem operatorLength?_pos {c₀ c₁ c₂ : Char} {n : Nat} (h : operatorLength? c₀ c₁ c₂ = some n) :
    0 < n := by
  revert h
  fun_cases operatorLength? c₀ c₁ c₂ <;> intro h <;> cases h <;> decide

/-- The operators are made of punctuation characters. -/
example : (tripleOperators ++ doubleOperators).all (·.all isPunctuation) = true := by decide

end OdinSyntax
