import WatMacro.Expand.Form
import WatMacro.Proofs.Node.Outline

/-!
# Expanding outlines

The expansion of a tree without trivia and attachments. It follows the rules of forms and macros,
but does not say how the literals of the program are kept: what stands for a literal in its address
is a parameter, together with the state that it needs.

Trivia has no outline, so what an outline expands to is a list: the comment that takes the place of
a hoisted declaration is gone, and any other result is a single outline.
-/

namespace WatMacro

open Text

/-! ## Outlines as results -/

namespace Outline

def keyword (text : String) : Outline := word .keyword text

/-- The text of a word. -/
def text? : Outline → Option String
  | word _ text => some text
  | _ => none

def isName : Outline → Bool
  | word .name _ => true
  | _ => false

/-- An outline as a message names it. -/
def describe (outline : Outline) : String :=
  match outline.text? with
  | some text => "'" ++ text ++ "'"
  | none => "a list"

/-- What an outline puts into the form around it: a splice its items, any other outline itself. -/
def spread : Outline → List Outline
  | splice items => items
  | outline => [outline]

mutual

/-- Whether there is a splice anywhere in an outline. -/
def holdsSplice : Outline → Bool
  | word .. => false
  | entry _ => false
  | list children => holdsSpliceAny children
  | splice _ => true

/-- Whether there is a splice anywhere in several outlines. -/
def holdsSpliceAny : List Outline → Bool
  | [] => false
  | outline :: outlines => holdsSplice outline || holdsSpliceAny outlines

end

/-- A constant of 32 bits. -/
def constant (value : String) : Outline :=
  list [keyword "i32.const", word .integer value]

/-- A conditional with a 32-bit value. -/
def conditional (test : List Outline) (positive negative : Outline) : Outline :=
  list ([keyword "if", keyword "i32"] ++ test ++ [positive, negative])

/-- The address of a literal, given what stands for its symbol. -/
def address (literal : Outline) : Outline :=
  list [keyword "i32.add", list [keyword "get_global", word .name "$memoryBase"],
    list [keyword "get_global", literal]]

/-- The length that an argument gives. -/
def length? : Outline → Option UInt64
  | word .integer text => Builtin.lengthOfChars? text.toList
  | _ => none

/-- The declaration of all names, then the assignments in order. -/
def assignments (bound : List (Outline × List Outline)) : Outline :=
  splice
    (list (keyword "local" :: bound.flatMap fun (name, _) => [name, keyword "i32"])
      :: bound.map fun (name, value) => list ([keyword "set_local", name] ++ value))

end Outline

/-! ## Runs -/

/-- What an expansion of outlines collects. How it keeps the literals is left open. -/
structure Collected (σ : Type) where
  hoisted : List Outline
  literals : σ
  modules : List String

/-- A computation that may fail and that collects. -/
def Run (σ α : Type) : Type :=
  Collected σ → Except Error α × Collected σ

/-- How a literal is entered: what stands for its symbol, and the literals afterwards. -/
def Entering (σ : Type) : Type :=
  Content → σ → Except Error Outline × σ

namespace Run

variable {σ α β : Type}

instance : Monad (Run σ) where
  pure value := fun collected => (.ok value, collected)
  bind first next := fun collected =>
    match first collected with
    | (.ok value, collected) => next value collected
    | (.error error, collected) => (.error error, collected)

/-- Stops with an error. -/
def fail (error : Error) : Run σ α :=
  fun collected => (.error error, collected)

def hoist (declaration : Outline) : Run σ Unit :=
  fun collected => (.ok (), { collected with hoisted := collected.hoisted ++ [declaration] })

def addModule (name : String) : Run σ Unit :=
  fun collected => (.ok (), { collected with modules := collected.modules ++ [name] })

/-- Enters a literal. -/
def enter (entering : Entering σ) (content : Content) : Run σ Outline :=
  fun collected =>
    let (result, literals) := entering content collected.literals
    (result, { collected with literals })

theorem bind_apply (first : Run σ α) (next : α → Run σ β) (collected : Collected σ) :
    (first >>= next) collected =
      match first collected with
      | (.ok value, collected) => next value collected
      | (.error error, collected) => (.error error, collected) :=
  rfl

theorem bind_ok {x : Run σ α} {collected collected' : Collected σ} {value : α}
    (h : x collected = (.ok value, collected')) (next : α → Run σ β) :
    (x >>= next) collected = next value collected' := by
  rw [bind_apply, h]

theorem bind_error {x : Run σ α} {collected collected' : Collected σ} {error : Error}
    (h : x collected = (.error error, collected')) (next : α → Run σ β) :
    (x >>= next) collected = (.error error, collected') := by
  rw [bind_apply, h]

theorem enter_bind_ok {entering : Entering σ} {content : Content} {collected : Collected σ}
    {literals : σ} {outline : Outline}
    (h : entering content collected.literals = (.ok outline, literals)) (next : Outline → Run σ β) :
    (enter entering content >>= next) collected = next outline { collected with literals } :=
  bind_ok (by rw [enter, h]) next

theorem enter_bind_error {entering : Entering σ} {content : Content} {collected : Collected σ}
    {error : Error} (h : entering content collected.literals = (.error error, collected.literals))
    (next : Outline → Run σ β) :
    (enter entering content >>= next) collected = (.error error, collected) :=
  bind_error (by rw [enter, h]) next

theorem bind_pure (x : Run σ α) : (x >>= fun value => pure value) = x := by
  funext collected
  rw [bind_apply]
  cases h : x collected with
  | mk result after => cases result <;> rfl

end Run

/-! ## Branches -/

/-- A word of a form as it stands, and its expansion. -/
structure Branch (σ : Type) where
  outline : Outline
  expanded : Run σ (List Outline)

namespace Branch

variable {σ : Type}

/-- The words as they stand. -/
def outlines (branches : List (Branch σ)) : List Outline :=
  branches.map outline

/-- Expands all words in order. -/
def expandAll : List (Branch σ) → Run σ (List Outline)
  | [] => pure []
  | branch :: branches => do
    let front ← branch.expanded
    let back ← expandAll branches
    return front.flatMap Outline.spread ++ back

/-- Keeps the given number of words, and expands the rest. -/
def expandAfter : Nat → List (Branch σ) → Run σ (List Outline)
  | 0, branches => expandAll branches
  | _, [] => pure []
  | count + 1, branch :: branches => do
    let back ← expandAfter count branches
    return branch.outline :: back

/-- Expands the last word, and keeps all else. -/
def expandLast : List (Branch σ) → Run σ (List Outline)
  | [] => pure []
  | [branch] => do
    let result ← branch.expanded
    return result.flatMap Outline.spread
  | branch :: branches => do
    let back ← expandLast branches
    return branch.outline :: back

/-! ### Macros -/

/-- The conditionals of a conjunction. -/
def conjunction : List (Branch σ) → Run σ Outline
  | [] => pure (.constant "1")
  | branch :: branches => do
    let rest ← conjunction branches
    let test ← branch.expanded
    return .conditional test rest (.constant "0")

/-- The conditionals of a disjunction. -/
def disjunction : List (Branch σ) → Run σ Outline
  | [] => pure (.constant "0")
  | branch :: branches => do
    let rest ← disjunction branches
    let test ← branch.expanded
    return .conditional test (.constant "1") rest

/-- The text that an argument stands for, which must be a literal. -/
def literal (builtin : Builtin) (argument : Outline) : Run σ String :=
  match argument.text?.bind Quoted.decode? with
  | some value => pure value
  | none => .fail (.argument builtin (.notALiteral argument.describe))

/-- The code point of a literal with one character. -/
def codePoint (argument : Outline) : Run σ Outline := do
  let value ← literal .chr argument
  match value.toList with
  | [c] => return .constant ("0x" ++ String.ofList (hexadecimal c.toNat))
  | _ => .fail (.argument .chr (.notOneCharacter argument.describe))

/-- The address of the text that a literal stands for. -/
def textAddress (entering : Entering σ) (argument : Outline) : Run σ Outline := do
  let value ← literal .string argument
  let entered ← Run.enter entering (.text value)
  return .address entered

/-- The address of a new zeroed array. -/
def arrayAddress (entering : Entering σ) (argument : Outline) : Run σ Outline :=
  match argument.length? with
  | none => .fail (.argument .staticArray (.notALength argument.describe))
  | some length => do
    let entered ← Run.enter entering (.zeroed length)
    return .address entered

/-- The names that a `LET` binds, each with its expanded value. -/
def bindings : List (Branch σ) → Run σ (List (Outline × List Outline))
  | name :: value :: branches =>
    if name.outline.isName then do
      let result ← value.expanded
      let rest ← bindings branches
      return (name.outline, result) :: rest
    else
      .fail (.argument .bindLocals (.notAName name.outline.describe))
  | _ => pure []

/-- Expands a call of a macro with the given arguments. -/
def expandMacro (entering : Entering σ) : Builtin → List (Branch σ) → Run σ Outline
  | .and, [] => .fail (.arity .and .atLeastOne 0)
  | .and, arguments => conjunction arguments
  | .or, [] => .fail (.arity .or .atLeastOne 0)
  | .or, arguments => disjunction arguments
  | .chr, [argument] => codePoint argument.outline
  | .chr, arguments => .fail (.arity .chr .one arguments.length)
  | .string, [argument] => textAddress entering argument.outline
  | .string, arguments => .fail (.arity .string .one arguments.length)
  | .staticArray, [argument] => arrayAddress entering argument.outline
  | .staticArray, arguments => .fail (.arity .staticArray .one arguments.length)
  | .bindLocals, arguments =>
    if arguments.length < 2 then .fail (.arity .bindLocals .atLeastTwo arguments.length)
    else if arguments.length % 2 ≠ 0 then .fail (.arity .bindLocals .even arguments.length)
    else do
      let bound ← bindings arguments
      return .assignments bound

/-! ### Forms -/

/-- A declaration needs a second word to be called by, which must not hold a splice. -/
def checkLabel (head : String) : List Outline → Run σ Unit
  | _ :: label :: _ => if label.holdsSplice then .fail .strandedSplice else pure ()
  | _ => .fail (.bareDeclaration head)

/-- Moves a declaration to the top of the module. -/
def hoist (head : String) (children : List Outline) : Run σ (List Outline) := do
  checkLabel head children
  Run.hoist (.list children)
  return []

/-- Expands the words after a head that a name follows or not. The name of a module is noted. -/
def expandAfterName (head : String) (branches : List (Branch σ)) : Run σ (List Outline) :=
  match outlines branches with
  | _ :: .word .name text :: _ => do
    if head = "module" then
      Run.addModule (Form.moduleName text)
    expandAfter 2 branches
  | _ => expandAfter 1 branches

/-- Expands a form headed by a keyword that calls no macro. -/
def expandByPolicy (head : String) (branches : List (Branch σ)) : Run σ (List Outline) :=
  match Policy.ofHead head with
  | .hoist true => do
    let children ← expandLast branches
    hoist head children
  | .hoist false => hoist head (outlines branches)
  | .verbatim => pure [.list (outlines branches)]
  | .afterName => do
    let children ← expandAfterName head branches
    return [.list children]
  | .lastOnly => do
    let children ← expandLast branches
    return [.list children]
  | .all => do
    let children ← expandAll branches
    return [.list children]

/-- Expands a form with the given words. -/
def expandForm (entering : Entering σ) (branches : List (Branch σ)) : Run σ (List Outline) :=
  match branches with
  | [] => pure [.list []]
  | head :: arguments =>
    match head.outline with
    | .word .name _ => do
      let children ← expandAll arguments
      return [.list (.keyword "call" :: head.outline :: children)]
    | .word .keyword text =>
      match Builtin.ofKeyword? text with
      | some builtin => do
        let result ← expandMacro entering builtin arguments
        return [result]
      | none => expandByPolicy text branches
    | _ => do
      let children ← expandAll branches
      return [.list children]

end Branch

/-! ## Outlines -/

namespace Outline

variable {σ : Type}

/-- The expansion of a word. -/
def expandWord (entering : Entering σ) (kind : AtomKind) (text : String) : Run σ (List Outline) :=
  match kind with
  | .integer => pure [.list [.keyword "i32.const", .word .integer text]]
  | .float => pure [.list [.keyword "f32.const", .word .float text]]
  | .name => pure [.list [.keyword "get_local", .word .name text]]
  | .string => do
    let result ← Branch.textAddress entering (.word .string text)
    return [result]
  | kind => pure [.word kind text]

mutual

/-- The expansion of an outline. -/
def expand (entering : Entering σ) : Outline → Run σ (List Outline)
  | word kind text => expandWord entering kind text
  | entry content => pure [entry content]
  | list children => Branch.expandForm entering (branchesOf entering children)
  | splice items => pure [splice items]

/-- Outlines as branches. -/
def branchesOf (entering : Entering σ) : List Outline → List (Branch σ)
  | [] => []
  | outline :: outlines => ⟨outline, expand entering outline⟩ :: branchesOf entering outlines

end

theorem outlines_branchesOf (entering : Entering σ) (outlines : List Outline) :
    Branch.outlines (branchesOf entering outlines) = outlines := by
  induction outlines with
  | nil => rfl
  | cons outline outlines ih => exact congrArg (outline :: ·) ih

/-- Expands outlines in order, and puts the items of a splice in its place. -/
def expandAll (entering : Entering σ) (outlines : List Outline) : Run σ (List Outline) :=
  Branch.expandAll (branchesOf entering outlines)

end Outline

end WatMacro
