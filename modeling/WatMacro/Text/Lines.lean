/-!
# Lines

A line ends with a newline character. The last line of an input may lack its newline; an input that
ends with a newline has no empty line after it.
-/

namespace WatMacro.Text

/-- The number of newline characters. -/
def newlines (cs : List Char) : Nat :=
  cs.count '\n'

@[simp] theorem newlines_append (cs ds : List Char) :
    newlines (cs ++ ds) = newlines cs + newlines ds :=
  List.count_append

/-- Drops the newline at the end of a line, together with a carriage return before it. -/
def dropLineEnd (line : List Char) : List Char :=
  match line.reverse with
  | '\n' :: '\r' :: rest => rest.reverse
  | '\n' :: rest => rest.reverse
  | _ => line

/-- Splits characters after each newline. -/
def splitLines : List Char → List (List Char)
  | [] => []
  | '\n' :: cs => ['\n'] :: splitLines cs
  | c :: cs =>
    match splitLines cs with
    | [] => [[c]]
    | line :: lines => (c :: line) :: lines

/-- The lines of an input, without their ends. -/
def lines (input : String) : List String :=
  (splitLines input.toList).map fun line => String.ofList (dropLineEnd line)

end WatMacro.Text
