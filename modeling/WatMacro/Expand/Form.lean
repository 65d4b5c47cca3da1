import WatMacro.Expand.Macro
import WatMacro.Expand.Policy
import WatMacro.Node.Printer

/-!
# Expanding forms

The expansion of a node. Among expressions, an integer or a float stands for a constant, a name for
the value of a local, and a string for the address of its text. A form headed by a name is a call,
one headed by a macro is what the macro makes of it, and in any other form the policy of the head
says which operands are expressions.

Results:

* `operandsOf_eq`: the operands of a form are its children, each with its own expansion.
-/

namespace WatMacro

open Expand

namespace Form

/-- The name of a module without its sigil. -/
def moduleName (text : String) : String :=
  match text.toList with
  | '$' :: cs => String.ofList cs
  | _ => text

/-- What a declaration is called in the comment that takes its place: its second word. -/
def declarationLabel (head : String) (children : List Node) : Expand String :=
  match children.filter Node.isWord with
  | _ :: word :: _ =>
    match word.text? with
    | some text => pure text
    | none => ofExcept (word.surround [] []).render
  | _ => fail (.bareDeclaration head)

/-- Moves a declaration to the top of the module, on a line of its own; a comment takes its
place. -/
def hoist (head : String) (children : List Node) : Expand Node := do
  let label ← declarationLabel head children
  update (·.hoist (.list children [.trivia "  "] [.trivia "\n"]))
  return .trivia ("(; " ++ head ++ " " ++ label ++ " hoisted to top ;)")

/-- Gives the result of a macro the attachments of the call. A splice hands them to its items. -/
def attach (before after : List Node) : Node → Node
  | .splice items _ _ => .splice (items.map (·.surround before after)) [] []
  | node => node.surround before after

/-- Expands the operands after a head that a name follows or not. The name of a module is noted. -/
def expandAfterName (head : String) (operands : List Operand) : Expand (List Node) :=
  match (Operand.nodes operands).filter Node.isWord with
  | _ :: .atom .name text _ _ :: _ => do
    if head = "module" then
      update (·.addModule (moduleName text))
    Operand.expandAfter 2 operands
  | _ => Operand.expandAfter 1 operands

/-- Expands a form headed by a keyword that calls no macro, without its attachments. -/
def expandByPolicy (head : String) (operands : List Operand) : Expand Node :=
  match Policy.ofHead head with
  | .hoist true => do
    let children ← Operand.expandLast operands
    hoist head children
  | .hoist false => hoist head (Operand.nodes operands)
  | .verbatim => pure (.form (Operand.nodes operands))
  | .afterName => do
    let children ← expandAfterName head operands
    return .form children
  | .lastOnly => do
    let children ← Operand.expandLast operands
    return .form children
  | .all => do
    let children ← Operand.expandAll operands
    return .form children

/-- Expands a form with the given operands and attachments. -/
def expand (before after : List Node) (operands : List Operand) : Expand Node :=
  match operands.dropWhile fun operand => !operand.isWord with
  | [] => do
    let children ← Operand.expandAll operands
    return .list children before after
  | head :: arguments =>
    match head.node with
    | .atom .name .. => do
      let children ← Operand.expandAll arguments
      return .list (.keyword "call" :: head.node :: children) before after
    | .atom .keyword text _ _ =>
      match Builtin.ofKeyword? text with
      | some builtin => do
        let node ← builtin.expand (arguments.filter Operand.isWord)
        return attach before after node
      | none => do
        let node ← expandByPolicy text operands
        return node.surround before after
    | _ => do
      let children ← Operand.expandAll operands
      return .list children before after

end Form

namespace Node

/-- The expansion of an atom, without its attachments. -/
def expandAtom (kind : AtomKind) (text : String) : Expand Node :=
  match kind with
  | .integer => pure (.form [.keyword "i32.const", .integer text])
  | .float => pure (.form [.keyword "f32.const", .float text])
  | .name => pure (.form [.keyword "get_local", .name text])
  | .string => Builtin.textAddress (.leaf .string text)
  | kind => pure (.leaf kind text)

mutual

/-- The expansion of a node. -/
def expand : Node → Expand Node
  | atom kind text before after => do
    let node ← expandAtom kind text
    return node.surround before after
  | list children before after => Form.expand before after (operandsOf children)
  | splice items before after => pure (splice items before after)

/-- Children as operands. -/
def operandsOf : List Node → List Operand
  | [] => []
  | node :: nodes => ⟨node, expand node⟩ :: operandsOf nodes

end

theorem operandsOf_eq (nodes : List Node) :
    operandsOf nodes = nodes.map fun node => ⟨node, node.expand⟩ := by
  induction nodes with
  | nil => rfl
  | cons node nodes ih => rw [operandsOf, ih, List.map_cons]

theorem expand_list (children before after : List Node) :
    (list children before after).expand =
      Form.expand before after (children.map fun node => ⟨node, node.expand⟩) := by
  rw [expand, operandsOf_eq]

end Node

end WatMacro
