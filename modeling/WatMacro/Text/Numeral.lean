/-!
# Numerals

Unsigned numbers written as digits in a base up to sixteen. Letters count as the digits ten to
fifteen in either case; leading zeros are free. A numeral may start with one plus sign.

Result:

* `ofDigits_concat`: reading a numeral digit by digit.
-/

namespace WatMacro.Text

/-- The value of a hexadecimal digit, in either case. -/
def digitValue? (c : Char) : Option Nat :=
  if '0' ≤ c ∧ c ≤ '9' then some (c.toNat - 48)
  else if 'a' ≤ c ∧ c ≤ 'f' then some (c.toNat - 87)
  else if 'A' ≤ c ∧ c ≤ 'F' then some (c.toNat - 55)
  else none

/-- A character is a digit of `base` if its value is below `base`. -/
def isDigitOf (base : Nat) (c : Char) : Bool :=
  (digitValue? c).any (· < base)

/-- The number that digits denote, the highest digit first. Other characters count as zero. -/
def ofDigits (base : Nat) (digits : List Char) : Nat :=
  digits.foldl (fun total c => base * total + (digitValue? c).getD 0) 0

theorem ofDigits_concat (base : Nat) (digits : List Char) (c : Char) :
    ofDigits base (digits ++ [c]) = base * ofDigits base digits + (digitValue? c).getD 0 := by
  rw [ofDigits, List.foldl_append]
  rfl

/-- Reads one or more digits of `base`, and nothing else. -/
def natural? (base : Nat) (cs : List Char) : Option Nat :=
  if cs ≠ [] ∧ cs.all (isDigitOf base) then some (ofDigits base cs) else none

/-- Drops one plus sign at the front. -/
def dropPlus : List Char → List Char
  | '+' :: cs => cs
  | cs => cs

/-- Reads an unsigned 64-bit number: an optional plus sign and digits of `base`. -/
def word64? (base : Nat) (cs : List Char) : Option UInt64 :=
  (natural? base (dropPlus cs)).bind fun n =>
    if h : n < UInt64.size then some (UInt64.ofNatLT n h) else none

/-- Reads an unsigned 32-bit number: an optional sign and decimal digits. The minus sign is read,
but then only zero is in range. -/
def word32? (cs : List Char) : Option UInt32 :=
  let magnitude? :=
    match cs with
    | '-' :: digits => (natural? 10 digits).filter (· = 0)
    | cs => natural? 10 (dropPlus cs)
  magnitude?.bind fun n => if h : n < UInt32.size then some (UInt32.ofNatLT n h) else none

/-- Writes a number in lower-case hexadecimal digits, without leading zeros. -/
def hexadecimal (n : Nat) : List Char :=
  Nat.toDigits 16 n

/-- Writes a number below 256 in exactly two lower-case hexadecimal digits. -/
def hexByte (n : Nat) : List Char :=
  [Nat.digitChar (n / 16), Nat.digitChar (n % 16)]

end WatMacro.Text
