import WatMacro.Program
import WatMacro.Text.Numeral

/-!
# Command-line options

The grammar of the command line. An argument that starts with a hyphen is an option, or a row of
one-letter options, unless it is the hyphen alone or stands after `--`; every other argument is the
value of the option before it, if that one wants a value, and otherwise a file.

Values that stand in an argument of their own are only taken up when the next option or another
kind of value comes, or at the end. So an unknown option is reported before an earlier value that is
not acceptable, while an attached value is judged at once.
-/

namespace WatMacro.CommandLine

/-- What the command line asks for. -/
structure Options where
  files : List String
  output : Option String
  pages : UInt32
  interactive : Bool
  verbose : Bool
  deriving DecidableEq, Repr

/-- Why no run follows from a command line. -/
inductive Stop where
  /-- Help is asked for. -/
  | help
  /-- The version is asked for. -/
  | version
  /-- An option that may be given once is given again. -/
  | repeated
  /-- An option or file lacks its value, or the value is empty. -/
  | missingValue
  /-- No file is given, and no prompt asked for. -/
  | missingFiles
  /-- A value is given to an option that takes none. -/
  | unwantedValue
  /-- There is no such option. -/
  | unknown
  /-- The number of pages is no number, or out of range. -/
  | badNumber
  deriving DecidableEq, Repr

/-- What takes values: the files and two options. -/
inductive Slot where
  | files
  | output
  | pages
  deriving DecidableEq, Repr

/-- The options without a value. -/
inductive Switch where
  | interactive
  | verbose
  | help
  | version
  deriving DecidableEq, Repr

/-- What the name of an option stands for. -/
inductive Named where
  | slot (slot : Slot)
  | switch (switch : Switch)
  deriving DecidableEq, Repr

/-- The option with a one-letter name. -/
def shortOption? : Char → Option Named
  | 'o' => some (.slot .output)
  | 'm' => some (.slot .pages)
  | 'i' => some (.switch .interactive)
  | 'v' => some (.switch .verbose)
  | 'h' => some (.switch .help)
  | 'V' => some (.switch .version)
  | _ => none

/-- The option with a long name. -/
def longOption? : String → Option Named
  | "output" => some (.slot .output)
  | "memory-size" => some (.slot .pages)
  | "interactive" => some (.switch .interactive)
  | "verbose" => some (.switch .verbose)
  | "help" => some (.switch .help)
  | "version" => some (.switch .version)
  | _ => none

/-- What has been read of a command line. -/
structure Scan where
  files : List String
  output : Option String
  pages : Option UInt32
  interactive : Bool
  verbose : Bool
  /-- The slot that was last named, with its values that are not taken up yet. -/
  pending : Option (Slot × List String)
  deriving Repr

namespace Scan

def empty : Scan := ⟨[], none, none, false, false, none⟩

/-- Takes up values. -/
def take (scan : Scan) (slot : Slot) (values : List String) : Except Stop Scan :=
  match slot, values with
  | _, [] => .error .missingValue
  | .files, values =>
    if values.any (· = "") then .error .missingValue
    else .ok { scan with files := scan.files ++ values }
  | .output, value :: _ =>
    if scan.output.isSome then .error .repeated
    else if value = "" then .error .missingValue
    else .ok { scan with output := some value }
  | .pages, value :: _ =>
    if scan.pages.isSome then .error .repeated
    else
      match Text.word32? value.toList with
      | none => .error .badNumber
      | some pages => .ok { scan with pages := some pages }

/-- Takes up the values that are pending. -/
def settle (scan : Scan) : Except Stop Scan :=
  match scan.pending with
  | none => .ok scan
  | some (slot, values) => { scan with pending := none }.take slot values

/-- Turns a switch on. -/
def turnOn (scan : Scan) (switch : Switch) : Except Stop Scan := do
  let scan ← scan.settle
  match switch with
  | .help => throw .help
  | .version => throw .version
  | .interactive =>
    if scan.interactive then throw .repeated else return { scan with interactive := true }
  | .verbose =>
    if scan.verbose then throw .repeated else return { scan with verbose := true }

/-- Names a slot, with its value if that is attached. -/
def name (scan : Scan) (slot : Slot) (attached : Option String) : Except Stop Scan := do
  let scan ← scan.settle
  match attached with
  | some value => scan.take slot [value]
  | none => return { scan with pending := some (slot, []) }

/-- Reads a row of one-letter options. All that follows an option with a value is its value; an
equals sign in front of it is dropped. -/
def readShort (scan : Scan) : List Char → Except Stop Scan
  | [] => .ok scan
  | c :: cs =>
    match shortOption? c with
    | none => .error .unknown
    | some (.switch switch) => do
      let scan ← scan.turnOn switch
      scan.readShort cs
    | some (.slot slot) =>
      match cs with
      | [] => scan.name slot none
      | '=' :: value => scan.name slot (some (String.ofList value))
      | value => scan.name slot (some (String.ofList value))

/-- Reads a long option without its hyphens. A value may follow an equals sign. -/
def readLong (scan : Scan) (cs : List Char) : Except Stop Scan :=
  let attached :=
    match cs.dropWhile (· != '=') with
    | [] => none
    | _ :: value => some (String.ofList value)
  match longOption? (String.ofList (cs.takeWhile (· != '='))), attached with
  | none, _ => .error .unknown
  | some (.slot slot), attached => scan.name slot attached
  | some (.switch switch), none => scan.turnOn switch
  | some (.switch _), some _ => .error .unwantedValue

/-- Reads a file. -/
def readFile (scan : Scan) (file : String) : Except Stop Scan :=
  match scan.pending with
  | some (.files, values) => .ok { scan with pending := some (.files, values ++ [file]) }
  | _ => do
    let scan ← scan.settle
    return { scan with pending := some (.files, [file]) }

/-- Reads an argument that is no option: the value that an option waits for, or a file. -/
def readPlain (scan : Scan) (text : String) : Except Stop Scan :=
  match scan.pending with
  | some (.output, []) => .ok { scan with pending := some (.output, [text]) }
  | some (.pages, []) => .ok { scan with pending := some (.pages, [text]) }
  | _ => scan.readFile text

/-- Reads all arguments. After `--` each of them is a file. -/
def readAll (scan : Scan) : List String → Except Stop Scan
  | [] => scan.settle
  | text :: texts =>
    match text.toList with
    | ['-', '-'] => do
      let scan ← texts.foldlM readFile scan
      scan.settle
    | '-' :: '-' :: cs => do
      let scan ← scan.readLong cs
      scan.readAll texts
    | '-' :: c :: cs => do
      let scan ← scan.readShort (c :: cs)
      scan.readAll texts
    | _ => do
      let scan ← scan.readPlain text
      scan.readAll texts

/-- The options of a command line that has been read to its end. Files may be left out only if a
prompt is asked for. -/
def finish (scan : Scan) : Except Stop Options :=
  if scan.files.isEmpty && !scan.interactive then .error .missingFiles
  else
    .ok {
      files := scan.files
      output := scan.output
      pages := scan.pages.getD defaultPages
      interactive := scan.interactive
      verbose := scan.verbose }

end Scan

/-- The options that the arguments of a command line give. -/
def Options.ofArguments (arguments : List String) : Except Stop Options := do
  let scan ← Scan.empty.readAll arguments
  scan.finish

end WatMacro.CommandLine
