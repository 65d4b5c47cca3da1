import WatMacro.Atom

/-!
# Nodes

The tree of a source: atoms, lists in parentheses, and splices, which are lists of items that stand
in for a single node. Every node may carry further nodes around it, its attachments: the layout and
comments that belong to it and not to the form that holds it.

The words of a list are its children other than trivia.
-/

namespace WatMacro

/-- The nodes of a tree, each with the nodes attached before and after it. -/
inductive Node where
  | atom (kind : AtomKind) (text : String) (before after : List Node)
  | list (children before after : List Node)
  | splice (items before after : List Node)
  deriving Repr

namespace Node

/-- An atom without attachments. -/
def leaf (kind : AtomKind) (text : String) : Node :=
  atom kind text [] []

def trivia (text : String) : Node := leaf .trivia text

def name (text : String) : Node := leaf .name text

def keyword (text : String) : Node := leaf .keyword text

def integer (text : String) : Node := leaf .integer text

def float (text : String) : Node := leaf .float text

/-- A list without attachments. -/
def form (children : List Node) : Node :=
  list children [] []

/-- The nodes attached before a node. -/
def before : Node → List Node
  | atom _ _ before _ => before
  | list _ before _ => before
  | splice _ before _ => before

/-- The nodes attached after a node. -/
def after : Node → List Node
  | atom _ _ _ after => after
  | list _ _ after => after
  | splice _ _ after => after

/-- Replaces the attachments of a node. -/
def surround (node : Node) (before after : List Node) : Node :=
  match node with
  | atom kind text _ _ => atom kind text before after
  | list children _ _ => list children before after
  | splice items _ _ => splice items before after

@[simp] theorem surround_before_after (node : Node) :
    node.surround node.before node.after = node := by
  cases node <;> rfl

@[simp] theorem surround_surround (node : Node) (b a b' a' : List Node) :
    (node.surround b a).surround b' a' = node.surround b' a' := by
  cases node <;> rfl

/-- The text of an atom. -/
def text? : Node → Option String
  | atom _ text _ _ => some text
  | _ => none

def isTrivia : Node → Bool
  | atom .trivia _ _ _ => true
  | _ => false

/-- A word is a node other than trivia. -/
def isWord (node : Node) : Bool :=
  !node.isTrivia

def isName : Node → Bool
  | atom .name _ _ _ => true
  | _ => false

def isList : Node → Bool
  | list .. => true
  | _ => false

/-- The children of a list and the items of a splice. -/
def children : Node → List Node
  | atom .. => []
  | list children _ _ => children
  | splice items _ _ => items

/-- The words among the children. -/
def words (node : Node) : List Node :=
  node.children.filter isWord

/-- What a node puts into the form around it: a splice its items, any other node itself. -/
def spread : Node → List Node
  | splice items _ _ => items
  | node => [node]

/-- A node as a message names it: an atom by its text. -/
def describe (node : Node) : String :=
  match node.text? with
  | some text => "'" ++ text ++ "'"
  | none => "a list"

/-- An induction over nodes that reaches the children and the attachments of each. -/
theorem induction {P : Node → Prop}
    (atom : ∀ kind text before after, (∀ n ∈ before, P n) → (∀ n ∈ after, P n) →
      P (atom kind text before after))
    (list : ∀ children before after, (∀ n ∈ children, P n) → (∀ n ∈ before, P n) →
      (∀ n ∈ after, P n) → P (list children before after))
    (splice : ∀ items before after, (∀ n ∈ items, P n) → (∀ n ∈ before, P n) →
      (∀ n ∈ after, P n) → P (splice items before after))
    (node : Node) : P node :=
  Node.rec (motive_1 := P) (motive_2 := fun nodes => ∀ n ∈ nodes, P n)
    atom list splice (fun _ h => absurd h List.not_mem_nil)
    (fun _ _ head tail _ h => (List.mem_cons.1 h).elim (· ▸ head) (tail _)) node

end Node

end WatMacro
