import WatMacro.Program
import WatMacro.Text.Space

/-!
# Sessions

Forms typed line by line. Lines are collected until together they no longer end inside a form; then
they are expanded on their own, and collecting starts anew. White space at the end of a line does
not count.
-/

namespace WatMacro

/-- The lines that wait for the rest of their form, and what was collected from earlier forms. -/
structure Session where
  pending : List String
  context : Context
  deriving Repr

/-- The answer to a line. -/
inductive Reply where
  /-- The form is not complete. -/
  | more
  /-- The expanded form; nothing if the lines hold nothing but trivia. -/
  | expanded (text : String)
  /-- The lines are refused. -/
  | refused (error : Error)
  deriving DecidableEq, Repr

namespace Session

def empty : Session := ⟨[], .empty⟩

/-- Takes one line as it stands. -/
def take (session : Session) (line : String) : Reply × Session :=
  let lines := session.pending ++ [line]
  match expandText (String.intercalate "\n" lines) session.context with
  | (.ok text, context) => (.expanded text, ⟨[], context⟩)
  | (.error .blank, context) => (.expanded "", ⟨[], context⟩)
  | (.error error, context) =>
    if error.isIncomplete then (.more, ⟨lines, context⟩)
    else (.refused error, ⟨[], context⟩)

/-- Takes one line without the white space at its end. -/
def feed (session : Session) (line : String) : Reply × Session :=
  session.take (Text.trimEnd line)

end Session

end WatMacro
