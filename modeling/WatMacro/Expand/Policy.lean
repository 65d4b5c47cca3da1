/-!
# Policies

Which operands of a form are expressions and are expanded. The keyword at the head of the form
decides.
-/

namespace WatMacro

/-- How a form treats its operands. -/
inductive Policy where
  /-- The form is a declaration that moves to the top of the module; its last word may be an
  expression. -/
  | hoist (expandLast : Bool)
  /-- No operand is an expression. -/
  | verbatim
  /-- A name right after the head is kept, all operands from there on are expressions. -/
  | afterName
  /-- The last word is an expression. -/
  | lastOnly
  /-- All operands are expressions. -/
  | all
  deriving DecidableEq, Repr

/-- The policy of a form with the given head. -/
def Policy.ofHead : String → Policy
  | "global" => .hoist true
  | "table" => .hoist false
  | "memory" | "import" | "export" | "type" | "get_global" | "local" | "get_local" | "param" | "br"
  | "i32.const" | "i64.const" | "f32.const" | "f64.const" => .verbatim
  | "module" | "func" | "call" | "set_local" | "set_global" | "block" | "loop" | "br_if" =>
    .afterName
  | "br_table" => .lastOnly
  | _ => .all

end WatMacro
