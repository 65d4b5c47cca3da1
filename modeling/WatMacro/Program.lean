import WatMacro.Expand.Form
import WatMacro.Module
import WatMacro.Node.Reader

/-!
# Programs

A program is built from sources, each of which holds one form. All sources share one context, and
their expanded forms are kept in order until the module is assembled. A form that expands to a
splice contributes its items.

Adding a source to a program keeps what was collected, also if the source is refused. Expanding a
source on its own changes the context only if it succeeds.
-/

namespace WatMacro

/-- The default number of pages of memory. -/
def defaultPages : UInt32 := 256

/-- The expanded forms of the sources so far, and what was collected from them. -/
structure Program where
  context : Context
  items : List Node
  deriving Repr

/-- Reads and expands a source; the result is what it adds to a program. -/
def expandSource (source : String) : Expand (List Node) := do
  let form ← Expand.ofExcept (Node.read source)
  let node ← form.expand
  return node.spread

/-- Expands a source on its own and writes it. -/
def expandText (source : String) (context : Context) : Except Error String × Context :=
  match expandSource source context with
  | (.error error, _) => (.error error, context)
  | (.ok nodes, next) =>
    match nodes.mapM Node.render with
    | .error error => (.error error, context)
    | .ok texts => (.ok (String.join texts), next)

namespace Program

def empty : Program := ⟨.empty, []⟩

/-- Adds a source. The result is what it contributes. -/
def add (program : Program) (source : String) : Except Error (List Node) × Program :=
  match expandSource source program.context with
  | (.error error, context) => (.error error, { program with context })
  | (.ok nodes, context) => (.ok nodes, ⟨context, program.items ++ nodes⟩)

/-- Adds sources in order, and stops at the first one that is refused. -/
def addAll (program : Program) : List String → Except Error Program
  | [] => .ok program
  | source :: sources =>
    match program.add source with
    | (.error error, _) => .error error
    | (.ok _, program) => program.addAll sources

/-- The text of the module of a program. -/
def assemble (program : Program) (pages : UInt32) : Except Error String :=
  Module.assemble program.items program.context pages

end Program

/-- The module that sources make up. -/
def preprocess (sources : List String) (pages : UInt32) : Except Error String := do
  let program ← Program.empty.addAll sources
  program.assemble pages

end WatMacro
