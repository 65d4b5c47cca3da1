import WatMacro.Context
import WatMacro.Node.Printer

/-!
# Modules

The text of an assembled module: the imports of the memory and its base, the declarations that moved
to the top, a global with the offset of each entry of the static data and one with its size, the
data itself, and then the expanded forms.

The static data has to fit into the memory; this is checked before anything else.
-/

namespace WatMacro.Module

/-- The number of bytes in a page of memory. -/
def pageSize : UInt64 := 65536

/-- The number of characters to which a data string is filled up. -/
def dataColumn : Nat := 30

/-- The first line. A module that is made of several ones carries all their names. -/
def header (modules : List String) : String :=
  if modules.isEmpty then "(module\n\n"
  else "(module $" ++ String.intercalate "__" modules ++ "\n\n"

/-- The imports of a memory with the given number of pages, and of the base of the data. -/
def imports (pages : UInt32) : String :=
  "  (import \"env\" \"memory\" (memory " ++ toString pages.toNat ++ "))\n"
    ++ "  (import \"env\" \"memoryBase\" (global $memoryBase i32))\n\n"

/-- A line that declares a constant global. -/
def globalLine (symbol : String) (value : UInt64) : String :=
  "  (global " ++ symbol ++ "  i32 (i32.const " ++ toString value.toNat ++ "))\n"

/-- The data string of an entry. -/
def dataString (content : Content) : List Char :=
  '\x22' :: content.dataChars ++ ['\x22']

/-- A line with the data string of an entry and its offset in a comment. -/
def dataLine (entry : PlacedEntry) : String :=
  let written := dataString entry.content
  let fill := List.replicate (dataColumn - written.length) ' '
  "    " ++ String.ofList (written ++ fill) ++ " ;; " ++ toString entry.offset.toNat ++ "\n"

/-- The data segment; none if there is no entry. -/
def dataSegment (data : StaticData) : String :=
  if data.entries.isEmpty then ""
  else
    "  (data\n    (get_global $memoryBase)\n" ++ String.join (data.entries.map dataLine)
      ++ "  )\n\n"

/-- The globals of the static data and the data segment. -/
def staticData (data : StaticData) : String :=
  String.join (data.entries.map fun entry => globalLine entry.symbol entry.offset)
    ++ globalLine "$S_STRING_END" data.size ++ "\n"
    ++ dataSegment data

/-- The text of the module with the given expanded forms, context and size of memory. -/
def assemble (items : List Node) (context : Context) (pages : UInt32) : Except Error String := do
  let capacity := pages.toUInt64 * pageSize
  if capacity < context.data.size then
    throw (.dataOverflow context.data.size capacity)
  let body ← items.mapM Node.render
  let declarations ← context.hoisted.mapM Node.render
  return header context.modules ++ imports pages ++ String.join declarations ++ "\n"
    ++ staticData context.data ++ "\n" ++ String.join body ++ "\n)"

end WatMacro.Module
