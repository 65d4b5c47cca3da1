/-!
# Outcomes

What a run of the command line leaves behind, and why a file could not be used.
-/

namespace WatMacro.CommandLine

/-- The name under which the program reports. -/
def programName : String := "wamp"

/-- The version of the program. -/
def programVersion : String := "0.1.0"

/-- What is printed by a run, and its exit code. -/
structure Outcome where
  exitCode : UInt32
  stdout : String
  stderr : String
  deriving DecidableEq, Repr

/-- Why a file could not be read or written. -/
inductive FileFault where
  | notFound
  | denied
  | notDirectory
  | isDirectory
  | nameTooLong
  | notText
  | system (details : String) (code : Nat)
  deriving DecidableEq, Repr

namespace FileFault

/-- The fault that the operating system reports under a number. -/
def ofCode (code : Nat) (details : String) : FileFault :=
  match code with
  | 2 => notFound
  | 13 => denied
  | 20 => notDirectory
  | 21 => isDirectory
  | 36 => nameTooLong
  | code => system details code

/-- The fault of a file in words. -/
def message : FileFault → String
  | notFound => "No such file or directory (os error 2)"
  | denied => "Permission denied (os error 13)"
  | notDirectory => "Not a directory (os error 20)"
  | isDirectory => "Is a directory (os error 21)"
  | nameTooLong => "File name too long (os error 36)"
  | notText => "stream did not contain valid UTF-8"
  | system details code => details ++ " (os error " ++ toString code ++ ")"

end FileFault

/-- A line that the program reports. -/
def report (message : String) : String :=
  programName ++ ": " ++ message ++ "\n"

end WatMacro.CommandLine
