/-!
# Built-in macros

The six heads that a program writes in capitals, and what they may demand of the number of their
arguments.
-/

namespace WatMacro

/-- The built-in macros. -/
inductive Builtin where
  /-- The conjunction of its arguments, as 1 or 0. -/
  | and
  /-- The disjunction of its arguments, as 1 or 0. -/
  | or
  /-- The code point of a one-character literal. -/
  | chr
  /-- The address of a text in the static data. -/
  | string
  /-- The address of a zeroed array in the static data. -/
  | staticArray
  /-- Declares locals and assigns them. -/
  | bindLocals
  deriving DecidableEq, Repr

/-- A demand on the number of arguments. -/
inductive Arity where
  | atLeastOne
  | one
  | atLeastTwo
  | even
  deriving DecidableEq, Repr

namespace Builtin

/-- The head that calls a macro. -/
def keyword : Builtin → String
  | and => "AND"
  | or => "OR"
  | chr => "CHR"
  | string => "STRING"
  | staticArray => "STATIC_ARRAY"
  | bindLocals => "LET"

/-- The macro that a head calls. -/
def ofKeyword? : String → Option Builtin
  | "AND" => some and
  | "OR" => some or
  | "CHR" => some chr
  | "STRING" => some string
  | "STATIC_ARRAY" => some staticArray
  | "LET" => some bindLocals
  | _ => none

theorem ofKeyword?_keyword (b : Builtin) : ofKeyword? b.keyword = some b := by
  cases b <;> rfl

theorem keyword_of_ofKeyword? {text : String} {builtin : Builtin}
    (h : ofKeyword? text = some builtin) : text = builtin.keyword := by
  unfold ofKeyword? at h
  split at h <;> cases h <;> rfl

end Builtin

namespace Arity

/-- A demand in words. -/
def describe : Arity → String
  | atLeastOne => "at least 1 argument"
  | one => "1 argument"
  | atLeastTwo => "at least 2 arguments"
  | even => "an even number of arguments"

end Arity

end WatMacro
