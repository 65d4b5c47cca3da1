import WatMacro.Expand.Basic

/-!
# Operands

A child of a form, together with its expansion, which the form may run or leave aside. The rules of
forms and macros are functions on lists of operands. Where an expanded operand is a splice, its
items take its place.
-/

namespace WatMacro

/-- A child of a form as it stands, and its expansion. -/
structure Operand where
  node : Node
  expanded : Expand Node

namespace Operand

def isWord (operand : Operand) : Bool :=
  operand.node.isWord

/-- The children as they stand. -/
def nodes (operands : List Operand) : List Node :=
  operands.map node

/-- Expands all operands in order. -/
def expandAll : List Operand → Expand (List Node)
  | [] => pure []
  | operand :: operands => do
    let node ← operand.expanded
    let nodes ← expandAll operands
    return node.spread ++ nodes

/-- Keeps the given number of words, with the trivia around them, and expands the rest. -/
def expandAfter : Nat → List Operand → Expand (List Node)
  | _, [] => pure []
  | count, operand :: operands =>
    if operand.isWord then
      match count with
      | 0 => expandAll (operand :: operands)
      | count + 1 => do
        let nodes ← expandAfter count operands
        return operand.node :: nodes
    else do
      let nodes ← expandAfter count operands
      return operand.node :: nodes

/-- Expands the last word, and keeps all else. -/
def expandLast : List Operand → Expand (List Node)
  | [] => pure []
  | operand :: operands =>
    if operands.any isWord then do
      let nodes ← expandLast operands
      return operand.node :: nodes
    else if operand.isWord then do
      let node ← operand.expanded
      return node.spread ++ nodes operands
    else
      pure (nodes (operand :: operands))

end Operand

end WatMacro
