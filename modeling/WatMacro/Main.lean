import WatMacro.CommandLine.Batch
import WatMacro.CommandLine.Prompt

/-!
# The program

The thin outer layer: reads arguments, files and lines, and prints what the library decides.
-/

namespace WatMacro.CommandLine

/-- The number of an error of the operating system; some operations report it negated. -/
def errorNumber (code : UInt32) : Nat :=
  if code < 0x80000000 then code.toNat else (0 - code).toNat

/-- The fault that a failed file operation stands for. -/
def FileFault.ofError : IO.Error → FileFault
  | .noFileOrDirectory .. => .notFound
  | .inappropriateType _ code details | .permissionDenied _ code details
  | .alreadyExists _ code details | .resourceExhausted _ code details
  | .invalidArgument _ code details | .noSuchThing _ code details
  | .otherError code details | .resourceBusy code details | .hardwareFault code details
  | .illegalOperation code details | .unsupportedOperation code details =>
    .ofCode (errorNumber code) details
  | error => .system (toString error) 0

/-- Reads a file as text. -/
def readInput (path : String) : IO Batch.Input := do
  try
    let bytes ← IO.FS.readBinFile path
    match String.fromUTF8? bytes with
    | some text => return ⟨path, .ok text⟩
    | none => return ⟨path, .error .notText⟩
  catch error => return ⟨path, .error (.ofError error)⟩

/-- Saves a text in a file. -/
def saveText (path text : String) : IO (Except FileFault Unit) := do
  try
    IO.FS.writeFile path text
    return .ok ()
  catch error => return .error (.ofError error)

/-- Runs without a prompt. -/
def runBatch (options : Options) : IO Outcome := do
  let inputs ← options.files.mapM readInput
  let plan := Batch.plan options inputs
  let saved ←
    match plan.action with
    | .save path text => saveText path text
    | _ => pure (.ok ())
  return plan.outcome saved

/-- Answers lines until the input ends, and gives them back in order. -/
partial def answerLines (input : IO.FS.Stream) (session : Session) : IO (List String) := do
  let text ← input.getLine
  if text = "" then return []
  let line := String.ofList (Text.dropLineEnd text.toList)
  let (reply, session) := session.feed line
  (Prompt.shown reply).forM (IO.println ·)
  return line :: (← answerLines input session)

/-- Runs at a prompt. -/
def runPrompt : IO Unit := do
  let earlier := (← readInput Prompt.historyFile).source
  (Prompt.greeting earlier.isOk).forM (IO.println ·)
  let lines ← answerLines (← IO.getStdin) .empty
  IO.println Prompt.farewell
  if let some history := Prompt.historyToSave earlier lines then
    IO.eprint (Prompt.savingReport (← saveText Prompt.historyFile history))

/-- A reminder of the options. -/
def usage : String :=
  "Usage: " ++ programName ++ " [-o PATH] [-m PAGES] [-i] [-v] FILES..."

end WatMacro.CommandLine

open WatMacro.CommandLine in
def main (arguments : List String) : IO UInt32 := do
  match Options.ofArguments arguments with
  | .error .help =>
    IO.println usage
    return 0
  | .error .version =>
    IO.println (programName ++ " " ++ programVersion)
    return 0
  | .error _ =>
    IO.eprintln usage
    return 2
  | .ok options =>
    if options.interactive then
      runPrompt
      return 0
    else
      let outcome ← runBatch options
      IO.print outcome.stdout
      IO.eprint outcome.stderr
      return outcome.exitCode
