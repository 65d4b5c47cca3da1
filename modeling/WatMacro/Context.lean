import WatMacro.Node.Basic
import WatMacro.StaticData

/-!
# Contexts

What expansion collects outside of the tree: the declarations that move to the top of the module,
the static data, and the names of the modules that were read.
-/

namespace WatMacro

/-- What has been collected so far, each part in the order of entry. -/
structure Context where
  hoisted : List Node
  data : StaticData
  modules : List String
  deriving Repr

namespace Context

def empty : Context := ⟨[], .empty, []⟩

/-- Adds a declaration for the top of the module. -/
def hoist (context : Context) (declaration : Node) : Context :=
  { context with hoisted := context.hoisted ++ [declaration] }

/-- Adds the name of a module. -/
def addModule (context : Context) (name : String) : Context :=
  { context with modules := context.modules ++ [name] }

/-- The symbol of a text in the static data, which is entered if it is new. -/
def intern (context : Context) (value : String) : String × Context :=
  let (symbol, data) := context.data.intern value
  (symbol, { context with data })

/-- Enters a zeroed array into the static data. -/
def allocate (context : Context) (length : UInt64) : String × Context :=
  let (symbol, data) := context.data.allocate length
  (symbol, { context with data })

end Context

end WatMacro
