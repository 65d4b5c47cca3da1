import WatMacro.Text.Space
import WatMacro.Text.Numeral

/-!
# Atoms

What a text without structure of its own is. The first rule that fits decides: a leading `$` makes
a name, a leading double quote a string, then come integers, floats and trivia, and every other text
is a keyword. Trivia is what carries no meaning: white space and comments.
-/

namespace WatMacro

/-- The kinds of atoms. -/
inductive AtomKind where
  | trivia
  | name
  | keyword
  | integer
  | float
  | string
  deriving DecidableEq, Repr

namespace Atom

open Text

/-- Drops one sign at the front. -/
def dropSign : List Char → List Char
  | '+' :: cs => cs
  | '-' :: cs => cs
  | cs => cs

/-- One or more digits of `base`. -/
def isDigits (base : Nat) (cs : List Char) : Bool :=
  !cs.isEmpty && cs.all (isDigitOf base)

/-- An optional sign, then decimal digits or `0x` and hexadecimal digits. -/
def isInteger (cs : List Char) : Bool :=
  match dropSign cs with
  | '0' :: 'x' :: digits => isDigits 16 digits
  | digits => isDigits 10 digits

/-- An optional sign, a decimal digit, then decimal digits and points in any order. -/
def isFloat (cs : List Char) : Bool :=
  match dropSign cs with
  | [] => false
  | c :: cs => isDigitOf 10 c && cs.all fun d => isDigitOf 10 d || d == '.'

/-- White space throughout, or a line comment up to the end of its line, or anything that begins
like a block comment. -/
def isTriviaChars : List Char → Bool
  | ';' :: ';' :: cs => cs.all (· != '\n')
  | '(' :: ';' :: _ => true
  | cs => !cs.isEmpty && cs.all isSpace

/-- Judges a text as trivia. -/
def isTrivia (text : String) : Bool :=
  isTriviaChars text.toList

/-- The kind of an atom with the given characters. -/
def kindOfChars (cs : List Char) : AtomKind :=
  if cs.head? = some '$' then .name
  else if cs.head? = some '\x22' then .string
  else if isInteger cs then .integer
  else if isFloat cs then .float
  else if isTriviaChars cs then .trivia
  else .keyword

/-- The kind of an atom with the given text. -/
def kindOf (text : String) : AtomKind :=
  kindOfChars text.toList

end Atom

end WatMacro
