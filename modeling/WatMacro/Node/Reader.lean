import WatMacro.Node.Basic
import WatMacro.Token

/-!
# Reading a form

A source holds one form, with trivia around it. Tokens are taken one by one; what they leave open is
a stack of unfinished lists. Trivia right after a nested list is attached to that list, trivia
around the form is attached to the form, and all other trivia is a child where it stands.

Results:

* `run_append`: reading a list of tokens is reading its parts one after the other.
-/

namespace WatMacro

/-- How much of a form has been read. -/
inductive Reading where
  /-- Nothing but the trivia before the form. -/
  | start (before : List Node)
  /-- The form is open: the trivia before it, the children so far of the lists around the
  innermost open one, from the inside out, and the children so far of that one. Children stand
  newest first. -/
  | inside (before : List Node) (outer : List (List Node)) (children : List Node)
  /-- The form is complete. -/
  | complete (form : Node)
  deriving Repr

namespace Reading

/-- Puts trivia after the newest child: attached to a list, else as a child of its own. -/
def addTrivia (text : String) : List Node → List Node
  | .list children before after :: older =>
    .list children before (after ++ [.trivia text]) :: older
  | children => .trivia text :: children

/-- Takes one token. The line is the one on which the token begins. -/
def step (line : Nat) : Reading → Token → Except Error Reading
  | start before, .atom .trivia text => .ok (start (before ++ [.trivia text]))
  | start before, .opening => .ok (inside before [] [])
  | start _, .closing => .error (.unexpectedClose line)
  | start _, .atom _ text => .error (.expectedOpen (line + Text.newlines text.toList) text)
  | inside before outer children, .opening => .ok (inside before (children :: outer) [])
  | inside before [] children, .closing => .ok (complete (.list children.reverse before []))
  | inside before (parent :: outer) children, .closing =>
    .ok (inside before outer (.form children.reverse :: parent))
  | inside before outer children, .atom .trivia text =>
    .ok (inside before outer (addTrivia text children))
  | inside before outer children, .atom kind text =>
    .ok (inside before outer (.leaf kind text :: children))
  | complete form, .atom .trivia text =>
    .ok (complete (form.surround form.before (form.after ++ [.trivia text])))
  | complete _, token => .error (.trailing line token.text)

/-- Takes tokens in order, the first of which begins on the given line. -/
def run (line : Nat) (reading : Reading) : List Token → Except Error Reading
  | [] => .ok reading
  | token :: tokens =>
    match reading.step line token with
    | .error error => .error error
    | .ok next => run (line + token.newlines) next tokens

/-- The form that has been read when the source ends on the given line. -/
def finish (line : Nat) : Reading → Except Error Node
  | start _ => .error .blank
  | inside .. => .error (.unexpectedEnd line)
  | complete form => .ok form

theorem run_append (line : Nat) (reading : Reading) (front back : List Token) :
    reading.run line (front ++ back) =
      (reading.run line front).bind
        fun next => next.run (line + Token.newlinesAll front) back := by
  induction front generalizing line reading with
  | nil => rfl
  | cons token front ih =>
    rw [List.cons_append, run, run]
    cases reading.step line token with
    | error error => rfl
    | ok next => simp only [ih, Token.newlinesAll, Nat.add_assoc]

end Reading

namespace Node

/-- Reads the one form that tokens hold. -/
def ofTokens (tokens : List Token) : Except Error Node := do
  let reading ← (Reading.start []).run 1 tokens
  reading.finish (1 + Token.newlinesAll tokens)

/-- Reads the one form that a source holds. -/
def read (source : String) : Except Error Node := do
  ofTokens (← tokens source)

end Node

end WatMacro
