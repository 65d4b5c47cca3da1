import WatMacro.Text.Lines
import WatMacro.Atom
import WatMacro.Error
import WatMacro.Lexeme

/-!
# Tokens

A source text as a list of tokens: parentheses and atoms, layout and comments included. The texts of
the tokens are the lexemes of the source, so together they make up the source again.
-/

namespace WatMacro

/-- A parenthesis or an atom. -/
inductive Token where
  | opening
  | closing
  | atom (kind : AtomKind) (text : String)
  deriving DecidableEq, Repr

namespace Token

/-- The token with a given text. -/
def ofText (text : String) : Token :=
  if text = "(" then opening
  else if text = ")" then closing
  else atom (Atom.kindOf text) text

/-- The text of a token. -/
def text : Token → String
  | opening => "("
  | closing => ")"
  | atom _ text => text

@[simp] theorem text_ofText (text : String) : (ofText text).text = text := by
  unfold ofText
  split
  · rename_i h; exact h.symm
  · split
    · rename_i h; exact h.symm
    · rfl

/-- The number of line breaks inside a token. -/
def newlines (token : Token) : Nat :=
  Text.newlines token.text.toList

/-- The number of line breaks inside several tokens. -/
def newlinesAll : List Token → Nat
  | [] => 0
  | token :: tokens => token.newlines + newlinesAll tokens

end Token

/-- The texts of the tokens of a source. It fails at the first place where no token begins. -/
def tokenize (source : String) : Except Error (List String) :=
  match Lexeme.lexemes source.toList with
  | (found, []) => .ok (found.map String.ofList)
  | (found, stuck) =>
    .error (.stray (1 + Text.newlines found.flatten) (String.ofList (Lexeme.stray stuck)))

/-- The tokens of a source. -/
def tokens (source : String) : Except Error (List Token) :=
  (tokenize source).map (·.map Token.ofText)

end WatMacro
