import WatMacro.CommandLine.Options
import WatMacro.CommandLine.Outcome

/-!
# Runs without a prompt

Files are read and expanded in order into one module, which is printed or saved. The first file that
cannot be read or expanded ends the run.
-/

namespace WatMacro.CommandLine.Batch

/-- What a run does in the end. -/
inductive Action where
  | print (text : String)
  | save (path text : String)
  | stop (message : String)
  deriving DecidableEq, Repr

/-- The reports of a run, and what it does in the end. -/
structure Plan where
  reports : String
  action : Action
  deriving DecidableEq, Repr

/-- A file with its text, or why it could not be read. -/
structure Input where
  path : String
  source : Except FileFault String

/-- A message about a file. -/
def about (path message : String) : String :=
  path ++ ": " ++ message

/-- Adds the files to a program, up to the first fault. -/
def addInputs (program : Program) : List Input → Except String Program
  | [] => .ok program
  | input :: inputs =>
    match input.source with
    | .error fault => .error (about input.path fault.message)
    | .ok source =>
      match program.add source with
      | (.error error, _) => .error (about input.path error.message)
      | (.ok _, program) => addInputs program inputs

/-- The summary of a run. -/
def summary (files : Nat) (context : Context) : String :=
  toString files ++ " input(s), " ++ toString context.hoisted.length ++ " hoisted, "
    ++ toString context.data.literals.length ++ " literal(s), "
    ++ toString context.data.size.toNat ++ " data byte(s)"

/-- Plans a run on the given files. The summary comes before the module is assembled. -/
def plan (options : Options) (inputs : List Input) : Plan :=
  match addInputs .empty inputs with
  | .error message => ⟨"", .stop message⟩
  | .ok program =>
    let reports :=
      if options.verbose then report (summary inputs.length program.context) else ""
    match program.assemble options.pages, options.output with
    | .error error, _ => ⟨reports, .stop error.message⟩
    | .ok text, none => ⟨reports, .print (text ++ "\n")⟩
    | .ok text, some path => ⟨reports, .save path text⟩

/-- The outcome of a plan, given how saving went if the plan is to save. -/
def Plan.outcome (plan : Plan) (saved : Except FileFault Unit) : Outcome :=
  match plan.action, saved with
  | .print text, _ => ⟨0, text, plan.reports⟩
  | .stop message, _ => ⟨1, "", plan.reports ++ report message⟩
  | .save .., .ok () => ⟨0, "", plan.reports⟩
  | .save path _, .error fault => ⟨1, "", plan.reports ++ report (about path fault.message)⟩

end WatMacro.CommandLine.Batch
