import WatMacro.Node.Basic
import WatMacro.Error

/-!
# Writing a node

A node is written as a list of pieces: parentheses, the texts of atoms, and single spaces. Inside a
list a space goes before a child wherever the piece before it and the first piece of the child would
run together: neither is trivia, and the piece before is no opening parenthesis.

A list headed by `module` with at least one more word is written without parentheses, since the
assembled module is the one around it: a header line takes the place of its head and its name.

Results:

* `piecesEach_eq`: the children of a list are written independently of each other.
-/

namespace WatMacro.Node

/-- Whether a space has to stand between two pieces. -/
def needsSpace (left right : String) : Bool :=
  left ≠ "(" && !Atom.isTrivia left && !Atom.isTrivia right

/-- Puts the written children of a list in a row, after the piece `last`. -/
def spaced (last : String) : List (List String) → List String
  | [] => []
  | [] :: written => spaced last written
  | (first :: more) :: written =>
    let row := first :: more ++ spaced ((first :: more).getLast (List.cons_ne_nil _ _)) written
    if needsSpace last first then " " :: row else row

/-- A list is a module if `module` is its first word and not its only one. -/
def isModule (children : List Node) : Bool :=
  match children.filter isWord with
  | head :: _ :: _ => head.text? = some "module"
  | _ => false

/-- The line that opens the body of a module. -/
def moduleHeader (children : List Node) : String :=
  match children.filter isWord with
  | _ :: .atom .name text _ _ :: _ => ";; module " ++ text ++ "\n"
  | _ => ";; module\n"

/-- A keyword or name that the header of a module makes redundant. -/
def isModuleHead : Node → Bool
  | atom .name _ _ _ => true
  | atom .keyword text _ _ => text = "module"
  | _ => false

/-- The children that are written in the body of a module, each paired with its written form: all
but the redundant ones before the first list. -/
def moduleBody {α : Type} : List (Node × α) → List α
  | [] => []
  | (child, written) :: rest =>
    if child.isList then written :: rest.map (·.2)
    else if child.isModuleHead then moduleBody rest
    else written :: moduleBody rest

/-- Writes the children of a list, given what each of them is written as. -/
def listPieces (children : List Node) (written : List (Except Error (List String))) :
    Except Error (List String) :=
  if isModule children then do
    let body ← (moduleBody (children.zip written)).mapM id
    return moduleHeader children :: body.flatten
  else do
    let row ← written.mapM id
    return "(" :: spaced "(" row ++ [")"]

mutual

/-- The pieces of a node, its attachments included. A splice cannot be written. -/
def pieces : Node → Except Error (List String)
  | atom _ text before after => do
    let front ← (piecesEach before).mapM id
    let back ← (piecesEach after).mapM id
    return front.flatten ++ text :: back.flatten
  | list children before after => do
    let front ← (piecesEach before).mapM id
    let middle ← listPieces children (piecesEach children)
    let back ← (piecesEach after).mapM id
    return front.flatten ++ middle ++ back.flatten
  | splice .. => .error .strandedSplice

/-- The pieces of each of several nodes. -/
def piecesEach : List Node → List (Except Error (List String))
  | [] => []
  | node :: nodes => pieces node :: piecesEach nodes

end

theorem piecesEach_eq (nodes : List Node) : piecesEach nodes = nodes.map pieces := by
  induction nodes with
  | nil => rfl
  | cons node nodes ih => rw [piecesEach, ih, List.map_cons]

/-- The text of a node. -/
def render (node : Node) : Except Error String :=
  node.pieces.map String.join

end WatMacro.Node
