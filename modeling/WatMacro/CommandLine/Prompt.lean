import WatMacro.CommandLine.Outcome
import WatMacro.Session
import WatMacro.Text.Lines

/-!
# Runs at a prompt

A greeting, then the answer to each line of input that has one, and a farewell when the input ends.
The lines are kept in a history, which the next run finds.
-/

namespace WatMacro.CommandLine.Prompt

/-- The file that holds the lines of earlier sessions. -/
def historyFile : String := ".wamp_history"

/-- The lines before the first answer. -/
def greeting (hasHistory : Bool) : List String :=
  (programName ++ " v" ++ programVersion ++ " - macro expansion")
    :: if hasHistory then [] else ["No previous history."]

/-- The line after the last answer. -/
def farewell : String := "CTRL-D"

/-- What is printed for a reply. -/
def shown : Reply → List String
  | .more => []
  | .expanded text => if text = "" then [] else [text]
  | .refused error => ["Error: " ++ error.message]

/-- The answers to lines, in order. -/
def answers (session : Session) : List String → List String
  | [] => []
  | line :: lines =>
    let (reply, session) := session.feed line
    shown reply ++ answers session lines

/-- All that is printed for the given lines. -/
def transcript (hasHistory : Bool) (lines : List String) : String :=
  let printed := greeting hasHistory ++ answers .empty lines ++ [farewell]
  String.join (printed.map (· ++ "\n"))

/-- Adds a line to a history, unless it is empty or repeats the line before. -/
def remember (history : List String) (line : String) : List String :=
  if line = "" || history.getLast? = some line then history else history ++ [line]

/-- The history to save after the given lines; `none` if they add nothing to the earlier one. A
history that cannot be read counts as empty. -/
def historyToSave (earlier : Except FileFault String) (lines : List String) : Option String :=
  let known :=
    match earlier with
    | .ok text => Text.lines text
    | .error _ => []
  let history := lines.foldl remember known
  if history.length = known.length then none
  else some (String.join (history.map (· ++ "\n")))

/-- What is reported about saving the history. -/
def savingReport : Except FileFault Unit → String
  | .ok () => ""
  | .error fault => report ("could not save history: " ++ fault.message)

/-- The outcome of a run on an input, given the earlier history and how saving it went. -/
def outcome (earlier : Except FileFault String) (saved : Except FileFault Unit) (input : String) :
    Outcome :=
  ⟨0, transcript earlier.isOk (Text.lines input), savingReport saved⟩

end WatMacro.CommandLine.Prompt
