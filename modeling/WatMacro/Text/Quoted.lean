import WatMacro.Text.Numeral

/-!
# Quoted literals

A literal stands between two double quotes or two apostrophes. Inside, every character but the
backslash and that quote stands for itself, and a backslash opens one of four escapes:

* one of `\ " ' n t r a b f v`;
* `x` and exactly two hexadecimal digits, or `u` and exactly four, if they give a character;
* one to three octal digits, as many as follow.

Nothing else may follow a backslash, and nothing may follow the closing quote.
-/

namespace WatMacro.Text.Quoted

/-- The double quote. -/
def doubleQuote : Char := '\x22'

/-- The apostrophe, which quotes as well. -/
def apostrophe : Char := '\x27'

/-- What a one-letter escape stands for. -/
def simpleEscape? (c : Char) : Option Char :=
  if c = 'n' then some '\n'
  else if c = 't' then some '\t'
  else if c = 'r' then some '\r'
  else if c = 'a' then some '\x07'
  else if c = 'b' then some '\x08'
  else if c = 'f' then some '\x0c'
  else if c = 'v' then some '\x0b'
  else if c = '\\' ∨ c = doubleQuote ∨ c = apostrophe then some c
  else none

/-- The character with a given code point, if there is one. -/
def character? (code : Nat) : Option Char :=
  if code.isValidChar then some (Char.ofNat code) else none

/-- Reads exactly `count` hexadecimal digits as a character, and gives what follows them. -/
def hexEscape? (count : Nat) (cs : List Char) : Option (Char × List Char) :=
  let digits := cs.take count
  if digits.length = count ∧ digits.all (isDigitOf 16) then
    (character? (ofDigits 16 digits)).map fun c => (c, cs.drop count)
  else none

/-- Reads up to three octal digits, as many as there are, as a character. -/
def octalEscape? (cs : List Char) : Option (Char × List Char) :=
  let digits := (cs.take 3).takeWhile (isDigitOf 8)
  if digits = [] then none
  else (character? (ofDigits 8 digits)).map fun c => (c, cs.drop digits.length)

/-- Reads what follows a backslash. -/
def escape? : List Char → Option (Char × List Char)
  | [] => none
  | c :: cs =>
    match simpleEscape? c with
    | some d => some (d, cs)
    | none =>
      if c = 'x' then hexEscape? 2 cs
      else if c = 'u' then hexEscape? 4 cs
      else octalEscape? (c :: cs)

theorem hexEscape?_length {count : Nat} {cs rest : List Char} {c : Char}
    (h : hexEscape? count cs = some (c, rest)) : rest.length ≤ cs.length := by
  simp only [hexEscape?] at h
  split at h
  · obtain ⟨_, _, h⟩ := Option.map_eq_some_iff.1 h
    obtain ⟨_, rfl⟩ := Prod.mk.inj h
    simp
  · cases h

theorem octalEscape?_length {cs rest : List Char} {c : Char}
    (h : octalEscape? cs = some (c, rest)) : rest.length ≤ cs.length := by
  simp only [octalEscape?] at h
  split at h
  · cases h
  · obtain ⟨_, _, h⟩ := Option.map_eq_some_iff.1 h
    obtain ⟨_, rfl⟩ := Prod.mk.inj h
    simp

theorem escape?_length {cs rest : List Char} {c : Char}
    (h : escape? cs = some (c, rest)) : rest.length ≤ cs.length := by
  unfold escape? at h
  split at h
  · cases h
  · split at h
    · cases h; simp
    · split at h
      · exact Nat.le_succ_of_le (hexEscape?_length h)
      · split at h
        · exact Nat.le_succ_of_le (hexEscape?_length h)
        · exact octalEscape?_length h

/-- Reads the inside of a literal up to its closing `quote`, which must be the last character. -/
def content? (quote : Char) : List Char → Option (List Char)
  | [] => none
  | c :: cs =>
    if c = '\\' then
      match _h : escape? cs with
      | none => none
      | some (d, rest) => (content? quote rest).map (d :: ·)
    else if c = quote then
      if cs = [] then some [] else none
    else (content? quote cs).map (c :: ·)
termination_by cs => cs.length
decreasing_by
  · exact Nat.lt_succ_of_le (escape?_length ‹_›)
  · exact Nat.lt_succ_self _

/-- The characters that a literal stands for; `none` if the text is not a literal. -/
def decodeChars? : List Char → Option (List Char)
  | [] => none
  | c :: cs => if c = doubleQuote ∨ c = apostrophe then content? c cs else none

/-- The text that a literal stands for; `none` if the text is not a literal. -/
def decode? (literal : String) : Option String :=
  (decodeChars? literal.toList).map String.ofList

end WatMacro.Text.Quoted
