import WatMacro.Expand.Operand
import WatMacro.Node.Reader
import WatMacro.Text.Quoted

/-!
# Expanding the built-in macros

What each macro makes of its arguments, the words after its head.

* `AND` and `OR` become nested conditionals that run the arguments from the first on and stop as
  soon as the value is known. The arguments are expanded from the last one back.
* `CHR` becomes the code point of its character, with the literal in a comment.
* `STRING` and `STATIC_ARRAY` become the address of an entry in the static data.
* `LET` becomes a splice: a declaration of its names, then an assignment for each.
-/

namespace WatMacro.Builtin

open Expand Text

/-- A constant of 32 bits. -/
def constant (value : String) : Node :=
  .form [.keyword "i32.const", .integer value]

/-- A conditional with a 32-bit value. -/
def conditional (test positive negative : Node) : Node :=
  .form [.keyword "if", .keyword "i32", test, positive, negative]

/-- The source of the address of a literal: its offset, counted from the base of the memory. -/
def addressSource (symbol : String) : String :=
  "(i32.add (get_global $memoryBase) (get_global " ++ symbol ++ "))"

/-- The address of a literal, read from its source. -/
def address (symbol : String) : Expand Node :=
  ofExcept (Node.read (addressSource symbol))

/-- The conditionals of a conjunction. -/
def conjunction : List Operand → Expand Node
  | [] => pure (constant "1")
  | operand :: operands => do
    let rest ← conjunction operands
    let test ← operand.expanded
    return conditional test rest (constant "0")

/-- The conditionals of a disjunction. -/
def disjunction : List Operand → Expand Node
  | [] => pure (constant "0")
  | operand :: operands => do
    let rest ← disjunction operands
    let test ← operand.expanded
    return conditional test (constant "1") rest

/-- The text that an argument stands for, which must be a literal. -/
def literal (builtin : Builtin) (argument : Node) : Expand String :=
  match argument.text?.bind Quoted.decode? with
  | some value => pure value
  | none => fail (.argument builtin (.notALiteral argument.describe))

/-- The code point of a literal with one character. -/
def codePoint (argument : Node) : Expand Node := do
  let value ← literal .chr argument
  match value.toList with
  | [c] =>
    return .form [.keyword "i32.const", .trivia " ",
      .integer ("0x" ++ String.ofList (hexadecimal c.toNat)), .trivia " ",
      .trivia ("(; " ++ argument.text?.getD "" ++ " ;)")]
  | _ => fail (.argument .chr (.notOneCharacter argument.describe))

/-- The address of the text that a literal stands for. -/
def textAddress (argument : Node) : Expand Node := do
  let value ← literal .string argument
  let symbol ← updateGet (·.intern value)
  address symbol

/-- Reads the length of an array: an optional plus sign, then decimal digits or `0x` and hexadecimal
digits. -/
def lengthOfChars? (cs : List Char) : Option UInt64 :=
  match dropPlus cs with
  | '0' :: 'x' :: digits => word64? 16 digits
  | digits => word64? 10 digits

/-- The length that an argument gives, which must be an integer. -/
def length? : Node → Option UInt64
  | .atom .integer text _ _ => lengthOfChars? text.toList
  | _ => none

/-- The number of bytes that addresses of 32 bits can tell apart. -/
def addressSpace : UInt64 := 4294967296

/-- The address of a new zeroed array. Offsets are constants of 32 bits, so the data has to end
within the address space. -/
def arrayAddress (argument : Node) : Expand Node :=
  match length? argument with
  | none => fail (.argument .staticArray (.notALength argument.describe))
  | some length => do
    let used ← look (·.data.size)
    if addSaturating (addSaturating used length) 1 ≤ addressSpace then
      let symbol ← updateGet (·.allocate length)
      address symbol
    else
      fail (.argument .staticArray (.tooLarge length))

/-- The names that a `LET` binds, each with its expanded value. A value loses its attachments. -/
def bindings : List Operand → Expand (List (Node × Node))
  | name :: value :: operands =>
    if name.node.isName then do
      let node ← value.expanded
      let rest ← bindings operands
      return (name.node, node.surround [] []) :: rest
    else
      fail (.argument .bindLocals (.notAName name.node.describe))
  | _ => pure []

/-- The declaration of all names, then the assignments in order. -/
def assignments (bound : List (Node × Node)) : Node :=
  .splice
    (.form (.keyword "local" :: bound.flatMap fun (name, _) => [name, .keyword "i32"])
      :: bound.map fun (name, value) => .form [.keyword "set_local", name, value])
    [] []

/-- Expands a call of a macro with the given arguments. -/
def expand : Builtin → List Operand → Expand Node
  | and, [] => fail (.arity and .atLeastOne 0)
  | and, arguments => conjunction arguments
  | or, [] => fail (.arity or .atLeastOne 0)
  | or, arguments => disjunction arguments
  | chr, [argument] => codePoint argument.node
  | chr, arguments => fail (.arity chr .one arguments.length)
  | string, [argument] => textAddress argument.node
  | string, arguments => fail (.arity string .one arguments.length)
  | staticArray, [argument] => arrayAddress argument.node
  | staticArray, arguments => fail (.arity staticArray .one arguments.length)
  | bindLocals, arguments =>
    if arguments.length < 2 then fail (.arity bindLocals .atLeastTwo arguments.length)
    else if arguments.length % 2 ≠ 0 then fail (.arity bindLocals .even arguments.length)
    else do
      let bound ← bindings arguments
      return assignments bound

end WatMacro.Builtin
