import WatMacro.Builtin

/-!
# Errors

Why a source is refused, by cause, and each cause in words.
-/

namespace WatMacro

/-- Why an argument of a macro is refused. The texts are descriptions of the argument. -/
inductive ArgumentFault where
  | notALiteral (found : String)
  | notOneCharacter (found : String)
  | notALength (found : String)
  | tooLarge (length : UInt64)
  | notAName (found : String)
  deriving DecidableEq, Repr

/-- The causes of failure. Lines count from 1. -/
inductive Error where
  /-- No lexeme begins here. -/
  | stray (line : Nat) (text : String)
  /-- A form closes that was never opened. -/
  | unexpectedClose (line : Nat)
  /-- A source begins with something that is no form. -/
  | expectedOpen (line : Nat) (found : String)
  /-- A source ends inside a form. -/
  | unexpectedEnd (line : Nat)
  /-- A source goes on after its form. -/
  | trailing (line : Nat) (found : String)
  /-- A source holds nothing but trivia. -/
  | blank
  | arity (builtin : Builtin) (expected : Arity) (actual : Nat)
  | argument (builtin : Builtin) (fault : ArgumentFault)
  /-- The static data is larger than the memory; both in bytes. -/
  | dataOverflow (needed capacity : UInt64)
  /-- A declaration that is its head alone. -/
  | bareDeclaration (head : String)
  /-- A splice with no form around it that could take its items. -/
  | strandedSplice
  deriving DecidableEq, Repr

/-- The fault of an argument in words. -/
def ArgumentFault.message : ArgumentFault → String
  | notALiteral found => "expected a string literal, got " ++ found
  | notOneCharacter found => "must be a 1 character string, got " ++ found
  | notALength found => "expected a byte length, got " ++ found
  | tooLarge length => toString length.toNat ++ " bytes do not fit in 32-bit memory"
  | notAName found => "binding names must be $names, got " ++ found

namespace Error

/-- A failure in words. -/
def message : Error → String
  | stray line text => "unrecognized input \"" ++ text ++ "\" at line " ++ toString line
  | unexpectedClose line => "syntax error: unexpected ')' at line " ++ toString line
  | expectedOpen line found =>
    "syntax error: expected '(' at line " ++ toString line ++ ", got '" ++ found ++ "'"
  | unexpectedEnd line =>
    "syntax error: expected ')' at line " ++ toString line ++ ", got end of input"
  | trailing line found =>
    "syntax error: unexpected '" ++ found ++ "' at line " ++ toString line
      ++ " after the top-level form"
  | blank => "blank input"
  | arity builtin expected actual =>
    builtin.keyword ++ " takes " ++ expected.describe ++ ", got " ++ toString actual
  | argument builtin fault => "invalid " ++ builtin.keyword ++ " macro: " ++ fault.message
  | dataOverflow needed capacity =>
    "static data takes " ++ toString needed.toNat ++ " bytes but memory holds "
      ++ toString capacity.toNat
  | bareDeclaration head => "malformed " ++ head ++ " form: declaration has no arguments"
  | strandedSplice => "cannot emit a splice outside of an enclosing form"

/-- Only a source that ends inside a form can be completed by more input. -/
def isIncomplete : Error → Bool
  | unexpectedEnd _ => true
  | _ => false

end Error

end WatMacro
