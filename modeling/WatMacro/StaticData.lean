import WatMacro.Text.DataString

/-!
# Static data

The table of texts and zeroed arrays that a program keeps in memory. Literals lie one after the
other, each followed by a zero byte. A literal is known by its symbol, made from what it holds and
the size of the table when it is entered. A text is entered once: the symbols of the texts are kept
in a map beside the table.

Sizes are 64-bit words: the total stops at the largest word, while the running offsets are plain
sums, which only a table that fits into memory gets to see.
-/

namespace WatMacro

/-- What an entry of the static data holds. -/
inductive Content where
  | text (value : String)
  | zeroed (length : UInt64)
  deriving DecidableEq, Repr

namespace Content

/-- The number of bytes, without the zero byte that follows. A text counts in its UTF-8 form. -/
def size : Content → UInt64
  | text value => UInt64.ofNatClamp value.utf8ByteSize
  | zeroed length => length

/-- The symbol of an entry at a position. -/
def symbol (position : Nat) : Content → String
  | text _ => "$S_STRING_" ++ toString position
  | zeroed _ => "$S_STATIC_ARRAY_" ++ toString position

/-- The bytes of an entry and its zero byte, as they stand inside a data string. -/
def dataChars : Content → List Char
  | text value => Text.DataString.encode value.toList ++ Text.DataString.zeroByte
  | zeroed length => Text.DataString.zeros length.toNat ++ Text.DataString.zeroByte

end Content

/-- Adds words, but stops at the largest one. -/
def addSaturating (a b : UInt64) : UInt64 :=
  UInt64.ofNatClamp (a.toNat + b.toNat)

theorem toNat_addSaturating (a b : UInt64) :
    (addSaturating a b).toNat = min (a.toNat + b.toNat) (UInt64.size - 1) := by
  unfold addSaturating
  rcases Nat.lt_or_ge (a.toNat + b.toNat) UInt64.size with h | h
  · rw [UInt64.toNat_ofNatClamp_of_lt h, Nat.min_eq_left (Nat.le_sub_one_of_lt h)]
  · rw [UInt64.toNat_ofNatClamp_of_le h, Nat.min_eq_right (Nat.le_trans (Nat.sub_le _ _) h)]

/-- A literal of the static data under its symbol. -/
structure Literal where
  symbol : String
  content : Content
  deriving DecidableEq, Repr

/-- The table of static data in the order of entry, and the symbols of its texts, each under its
text. -/
structure StaticData where
  literals : List Literal
  interned : List (String × String)
  deriving DecidableEq, Repr

/-- A literal with its offset from the start of the data. -/
structure PlacedEntry extends Literal where
  offset : UInt64
  deriving DecidableEq, Repr

namespace StaticData

def empty : StaticData := ⟨[], []⟩

/-- Enters something at the end of the table, and gives its symbol. -/
def add (data : StaticData) (content : Content) : String × StaticData :=
  let symbol := content.symbol data.literals.length
  (symbol, { data with literals := data.literals ++ [⟨symbol, content⟩] })

/-- The symbol of a text that has been entered. -/
def symbolOf? (data : StaticData) (value : String) : Option String :=
  data.interned.lookup value

/-- The symbol of a text, which is entered if it is new. -/
def intern (data : StaticData) (value : String) : String × StaticData :=
  match data.symbolOf? value with
  | some symbol => (symbol, data)
  | none =>
    let (symbol, data) := data.add (.text value)
    (symbol, { data with interned := (value, symbol) :: data.interned })

/-- Enters a zeroed array, always as a new entry. -/
def allocate (data : StaticData) (length : UInt64) : String × StaticData :=
  data.add (.zeroed length)

/-- The number of bytes of all literals with their zero bytes, but no more than the largest word. -/
def size (data : StaticData) : UInt64 :=
  data.literals.foldl
    (fun total literal => addSaturating (addSaturating total literal.content.size) 1) 0

/-- Places literals one after the other, from an offset on. -/
def place (offset : UInt64) : List Literal → List PlacedEntry
  | [] => []
  | literal :: literals =>
    ⟨literal, offset⟩ :: place (offset + literal.content.size + 1) literals

/-- The literals of the table with their offsets. -/
def entries (data : StaticData) : List PlacedEntry :=
  place 0 data.literals

end StaticData

end WatMacro
