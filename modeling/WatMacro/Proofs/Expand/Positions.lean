import Mathlib.Data.List.TakeWhile
import WatMacro.Proofs.Context.Entries

/-!
# Which words of a form are expressions

A form expands some of its words, and keeps all others and all trivia. Which words it expands
follows from the head and from their positions among the words. The head also decides what is done
beside that: a call, a macro, a declaration, the name of a module, or nothing at all.

Results:

* `Operand.expandAll_eq`, `Operand.expandAfter_eq`, `Operand.expandLast_eq`: the ways to expand
  operands, by position.
* `Node.expand_call`, `Node.expand_builtin`, `Node.expand_declaration`, `Node.expand_module`,
  `Node.expand_plain`: the expansion of a form of each style.
-/

namespace WatMacro

open Expand

/-- Sequences may be grouped in either way. -/
theorem Expand.bind_assoc {α β γ : Type} (x : Expand α) (f : α → Expand β) (g : β → Expand γ) :
    (x >>= f) >>= g = x >>= fun value => f value >>= g := by
  funext context
  rw [bind_apply, bind_apply, bind_apply]
  cases x context with
  | mk result next => cases result <;> rfl

theorem Expand.pure_bind {α β : Type} (value : α) (next : α → Expand β) :
    pure value >>= next = next value :=
  rfl

/-! ## Positions -/

theorem Node.isName_eq_true {node : Node} (h : node.isName = true) :
    ∃ text b a, node = .atom .name text b a := by
  cases node with
  | atom kind text b a =>
    cases kind with
    | name => exact ⟨text, b, a, rfl⟩
    | _ => cases h
  | _ => cases h

theorem Node.exists_name {nodes : List Node} (h : nodes.head?.any Node.isName = true) :
    ∃ text b a rest, nodes = .atom .name text b a :: rest := by
  cases nodes with
  | nil => cases h
  | cons node rest =>
    obtain ⟨text, b, a, rfl⟩ := Node.isName_eq_true h
    exact ⟨text, b, a, rest, rfl⟩

namespace Form

/-- Whether a word is an expression of the form with the given words. Positions count from zero, so
the head has position zero. -/
def isExpression (words : List Node) (position : Nat) : Bool :=
  match words with
  | .atom .name _ _ _ :: _ => 0 < position
  | .atom .keyword head _ _ :: arguments =>
    match Builtin.ofKeyword? head with
    | some .and | some .or => 0 < position
    | some .bindLocals => 0 < position ∧ position % 2 = 0
    | some _ => false
    | none =>
      match Policy.ofHead head with
      | .hoist true | .lastOnly => position + 1 = words.length
      | .hoist false | .verbatim => false
      | .afterName => if arguments.head?.any Node.isName then 2 ≤ position else 1 ≤ position
      | .all => true
  | _ => true

/-- Two heads declare something. -/
theorem ofHead_hoist {head : String} {last : Bool} (h : Policy.ofHead head = .hoist last) :
    head = "global" ∧ last = true ∨ head = "table" ∧ last = false := by
  unfold Policy.ofHead at h
  split at h
  · cases h
    exact .inl ⟨rfl, rfl⟩
  · cases h
    exact .inr ⟨rfl, rfl⟩
  all_goals cases h

/-- The words of a form that does nothing beside expanding words. -/
inductive Plain : List Node → Prop
  | keyword {text : String} {b a arguments : List Node} : Builtin.ofKeyword? text = none →
    (∀ last, Policy.ofHead text ≠ .hoist last) →
    (text = "module" → arguments.head?.any Node.isName = false) →
    Plain (.atom .keyword text b a :: arguments)
  | other {words : List Node} :
    (∀ kind text b a, words.head? = some (.atom kind text b a) → kind ≠ .name ∧ kind ≠ .keyword) →
    Plain words

/-- The words of a form, by what the form does beside expanding words: it calls a function, is a
macro, moves to the top of the module, is a module with a name, or does nothing. -/
inductive Styled : List Node → Prop
  | call (text : String) (b a arguments : List Node) : Styled (.atom .name text b a :: arguments)
  | builtin {text : String} {builtin : Builtin} (b a arguments : List Node) :
    Builtin.ofKeyword? text = some builtin → Styled (.atom .keyword text b a :: arguments)
  | declaration {text : String} {last : Bool} (b a arguments : List Node) :
    Builtin.ofKeyword? text = none → Policy.ofHead text = .hoist last →
    Styled (.atom .keyword text b a :: arguments)
  | module (b a : List Node) (text : String) (b' a' arguments : List Node) :
    Styled (.atom .keyword "module" b a :: .atom .name text b' a' :: arguments)
  | plain {words : List Node} : Plain words → Styled words

theorem styled (words : List Node) : Styled words := by
  cases words with
  | nil => exact .plain (.other fun _ _ _ _ h => by cases h)
  | cons head arguments =>
    cases head with
    | atom kind text b a =>
      by_cases hname : kind = .name
      · subst hname
        exact .call text b a arguments
      by_cases hkeyword : kind = .keyword
      · subst hkeyword
        cases hbuiltin : Builtin.ofKeyword? text with
        | some builtin => exact .builtin b a arguments hbuiltin
        | none =>
          by_cases hdeclaration : ∃ last, Policy.ofHead text = .hoist last
          · obtain ⟨last, hpolicy⟩ := hdeclaration
            exact .declaration b a arguments hbuiltin hpolicy
          by_cases hmodule : text = "module" ∧ arguments.head?.any Node.isName = true
          · obtain ⟨rfl, hany⟩ := hmodule
            obtain ⟨name, b', a', rest, rfl⟩ := Node.exists_name hany
            exact .module b a name b' a' rest
          · refine .plain (.keyword hbuiltin (fun last h => hdeclaration ⟨last, h⟩) fun h => ?_)
            simpa [h] using hmodule
      · refine .plain (.other fun kind' _ _ _ h => ?_)
        cases h
        exact ⟨hname, hkeyword⟩
    | _ => exact .plain (.other fun _ _ _ _ h => by cases h)

end Form

/-! ## Forms inside a form -/

namespace Node

/-- The text of the first word of a list. -/
def head? (node : Node) : Option String :=
  node.words.head?.bind text?

mutual

/-- A node and all nodes below it. -/
def descendants : Node → List Node
  | atom kind text before after => [atom kind text before after]
  | list children before after => list children before after :: descendantsAll children
  | splice items before after => splice items before after :: descendantsAll items

/-- Nodes and all nodes below them. -/
def descendantsAll : List Node → List Node
  | [] => []
  | node :: nodes => descendants node ++ descendantsAll nodes

end

theorem mem_descendants_self (node : Node) : node ∈ node.descendants := by
  cases node <;> simp [descendants]

theorem mem_descendantsAll {nodes : List Node} {child node : Node} (hchild : child ∈ nodes)
    (h : node ∈ child.descendants) : node ∈ descendantsAll nodes := by
  induction nodes with
  | nil => cases hchild
  | cons other nodes ih =>
    rw [descendantsAll, List.mem_append]
    rcases List.mem_cons.mp hchild with rfl | hchild
    · exact .inl h
    · exact .inr (ih hchild)

theorem exists_of_mem_descendantsAll {nodes : List Node} {node : Node}
    (h : node ∈ descendantsAll nodes) : ∃ child ∈ nodes, node ∈ child.descendants := by
  induction nodes with
  | nil => cases h
  | cons child nodes ih =>
    rw [descendantsAll, List.mem_append] at h
    rcases h with h | h
    · exact ⟨child, List.mem_cons_self, h⟩
    · obtain ⟨other, hother, hnode⟩ := ih h
      exact ⟨other, List.mem_cons_of_mem child hother, hnode⟩

theorem mem_descendants_list {children before after : List Node} {child node : Node}
    (hchild : child ∈ children) (h : node ∈ child.descendants) :
    node ∈ (list children before after).descendants := by
  rw [descendants]
  exact List.mem_cons_of_mem _ (mem_descendantsAll hchild h)

end Node

/-! ## Operands -/

namespace Operand

/-- Expands the words at some positions, and keeps all else. Positions count from the one that the
first word has. -/
def expandAt (expression : Nat → Bool) : Nat → List Operand → Expand (List Node)
  | _, [] => pure []
  | position, operand :: operands =>
    if operand.isWord then
      if expression position then do
        let node ← operand.expanded
        let nodes ← expandAt expression (position + 1) operands
        return node.spread ++ nodes
      else do
        let nodes ← expandAt expression (position + 1) operands
        return operand.node :: nodes
    else do
      let nodes ← expandAt expression position operands
      return operand.node :: nodes

/-- Trivia among the operands expands to itself. -/
def KeepTrivia (operands : List Operand) : Prop :=
  ∀ operand ∈ operands, operand.isWord = false → operand.expanded = pure operand.node

section

variable {expression : Nat → Bool} {operand : Operand} {operands : List Operand}

theorem KeepTrivia.head (h : KeepTrivia (operand :: operands)) (hword : operand.isWord = false) :
    operand.expanded = pure operand.node :=
  h operand List.mem_cons_self hword

theorem KeepTrivia.tail (h : KeepTrivia (operand :: operands)) : KeepTrivia operands :=
  fun other hother => h other (List.mem_cons_of_mem operand hother)

theorem spread_of_not_isWord (h : operand.isWord = false) :
    operand.node.spread = [operand.node] := by
  obtain ⟨node, expanded⟩ := operand
  cases node with
  | splice items before after => cases h
  | _ => rfl

theorem expandAt_trivia (h : operand.isWord = false) (position : Nat) :
    expandAt expression position (operand :: operands) =
      expandAt expression position operands >>= fun nodes => pure (operand.node :: nodes) := by
  rw [expandAt, h]
  rfl

theorem expandAt_word (h : operand.isWord = true) {position : Nat}
    (hexpression : expression position = true) :
    expandAt expression position (operand :: operands) = (do
      let node ← operand.expanded
      let nodes ← expandAt expression (position + 1) operands
      return node.spread ++ nodes) := by
  rw [expandAt, if_pos h, if_pos hexpression]

theorem expandAt_kept (h : operand.isWord = true) {position : Nat}
    (hexpression : expression position = false) :
    expandAt expression position (operand :: operands) =
      expandAt expression (position + 1) operands >>= fun nodes =>
        pure (operand.node :: nodes) := by
  rw [expandAt, if_pos h, hexpression]
  rfl

theorem expandAt_enters {position : Nat} (h : AllEnter operands) :
    Enters (expandAt expression position operands) := by
  induction operands generalizing position with
  | nil => exact enters_pure _
  | cons operand operands ih =>
    rw [expandAt]
    split
    · split
      · exact h.head.bind fun _ => (ih h.tail).bind fun _ => enters_pure _
      · exact (ih h.tail).bind fun _ => enters_pure _
    · exact (ih h.tail).bind fun _ => enters_pure _

theorem expandAfter_trivia (h : operand.isWord = false) (count : Nat) :
    expandAfter count (operand :: operands) =
      expandAfter count operands >>= fun nodes => pure (operand.node :: nodes) := by
  rw [expandAfter.eq_def]
  simp only [h]
  rfl

theorem expandAfter_zero (h : operand.isWord = true) :
    expandAfter 0 (operand :: operands) = expandAll (operand :: operands) := by
  rw [expandAfter.eq_def]
  exact if_pos h

theorem expandAfter_succ (h : operand.isWord = true) (count : Nat) :
    expandAfter (count + 1) (operand :: operands) =
      expandAfter count operands >>= fun nodes => pure (operand.node :: nodes) := by
  rw [expandAfter.eq_def]
  exact if_pos h

theorem length_filter_word (h : operand.isWord = true) :
    ((operand :: operands).filter isWord).length = (operands.filter isWord).length + 1 := by
  rw [List.filter_cons_of_pos h, List.length_cons]

theorem filter_trivia (h : operand.isWord = false) :
    (operand :: operands).filter isWord = operands.filter isWord :=
  List.filter_cons_of_neg (by simp [h])

end

/-- If no word is an expression, all operands stay as they are. -/
theorem expandAt_eq_nodes {expression : Nat → Bool} {operands : List Operand} (position : Nat)
    (h : ∀ i, position ≤ i → i < position + (operands.filter isWord).length →
      expression i = false) :
    expandAt expression position operands = pure (nodes operands) := by
  induction operands generalizing position with
  | nil => rfl
  | cons operand operands ih =>
    cases hword : operand.isWord with
    | false =>
      rw [filter_trivia hword] at h
      rw [expandAt_trivia hword, ih position h]
      rfl
    | true =>
      rw [length_filter_word hword] at h
      have hrest := ih (position + 1) fun i hi hlt => h i (by omega) (by omega)
      rw [expandAt_kept hword (h position (Nat.le_refl _) (by omega)), hrest]
      rfl

theorem expandAll_eq {expression : Nat → Bool} {operands : List Operand} (position : Nat)
    (hoperands : KeepTrivia operands) (h : ∀ i, position ≤ i → expression i = true) :
    expandAll operands = expandAt expression position operands := by
  induction operands generalizing position with
  | nil => rfl
  | cons operand operands ih =>
    rw [expandAll]
    cases hword : operand.isWord with
    | false =>
      rw [expandAt_trivia hword, hoperands.head hword, ih position hoperands.tail h]
      change (expandAt expression position operands >>= fun nodes =>
        pure (operand.node.spread ++ nodes)) = _
      rw [spread_of_not_isWord hword]
      rfl
    | true =>
      rw [expandAt_word hword (h position (Nat.le_refl _)),
        ih (position + 1) hoperands.tail fun i hi => h i (by omega)]

theorem expandAfter_eq {expression : Nat → Bool} {operands : List Operand} (position count : Nat)
    (hoperands : KeepTrivia operands)
    (h : ∀ i, position ≤ i → expression i = decide (position + count ≤ i)) :
    expandAfter count operands = expandAt expression position operands := by
  induction operands generalizing position count with
  | nil => cases count <;> rfl
  | cons operand operands ih =>
    cases hword : operand.isWord with
    | false =>
      rw [expandAt_trivia hword, ← ih position count hoperands.tail h, expandAfter_trivia hword]
    | true =>
      cases count with
      | zero =>
        have hall : ∀ i, position ≤ i → expression i = true := by
          intro i hi
          rw [h i hi]
          simpa using hi
        rw [← expandAll_eq position hoperands hall, expandAfter_zero hword]
      | succ count =>
        have hkept : expression position = false := by
          rw [h position (Nat.le_refl _)]
          simp
        have hrest := ih (position + 1) count hoperands.tail fun i hi => by
          rw [h i (by omega)]
          congr 1
          exact propext ⟨fun _ => by omega, fun _ => by omega⟩
        rw [expandAt_kept hword hkept, ← hrest, expandAfter_succ hword]

theorem expandLast_eq {expression : Nat → Bool} {operands : List Operand} (position : Nat)
    (h : ∀ i, position ≤ i →
      expression i = decide (i + 1 = position + (operands.filter isWord).length)) :
    expandLast operands = expandAt expression position operands := by
  induction operands generalizing position with
  | nil => rfl
  | cons operand operands ih =>
    have hany : operands.any isWord = true ↔ 0 < (operands.filter isWord).length := by
      rw [List.length_pos_iff, List.any_eq_true]
      simp [List.filter_eq_nil_iff]
    rw [expandLast]
    cases hword : operand.isWord with
    | false =>
      rw [filter_trivia hword] at h
      rw [expandAt_trivia hword]
      split
      · rw [ih position h]
      · rename_i hnone
        rw [if_neg (by simp),
          expandAt_eq_nodes position fun i hi hlt => absurd (hany.mpr (by omega)) hnone]
        rfl
    | true =>
      rw [length_filter_word hword] at h
      split
      · rename_i hsome
        have hpos := hany.mp hsome
        have hkept : expression position = false := by
          rw [h position (Nat.le_refl _)]
          simp only [decide_eq_false_iff_not]
          omega
        rw [expandAt_kept hword hkept, ih (position + 1) fun i hi => by
          rw [h i (by omega)]
          congr 1
          exact propext ⟨fun _ => by omega, fun _ => by omega⟩]
      · rename_i hnone
        have hzero : (operands.filter isWord).length = 0 := by
          have := mt hany.mpr hnone
          omega
        have hlast : expression position = true := by
          rw [h position (Nat.le_refl _)]
          simp only [decide_eq_true_eq]
          omega
        rw [if_pos rfl, expandAt_word hword hlast,
          expandAt_eq_nodes (position + 1) fun i hi hlt => by omega]
        rfl

end Operand

/-! ## Forms -/

namespace Node

/-- A child together with its expansion. -/
def operand (node : Node) : Operand := ⟨node, node.expand⟩

theorem isWord_operand (node : Node) : node.operand.isWord = node.isWord := rfl

theorem nodes_map_operand (nodes : List Node) : Operand.nodes (nodes.map operand) = nodes := by
  simp [Operand.nodes, operand, Function.comp_def]

theorem filter_map_operand (nodes : List Node) :
    (nodes.map operand).filter Operand.isWord = (nodes.filter isWord).map operand := by
  rw [List.filter_map]
  rfl

theorem length_filter_operand (nodes : List Node) :
    ((nodes.map operand).filter Operand.isWord).length = (nodes.filter isWord).length := by
  rw [filter_map_operand, List.length_map]

theorem expand_trivia (text : String) (before after : List Node) :
    (atom .trivia text before after).expand = pure (atom .trivia text before after) := by
  rw [expand]
  rfl

theorem keepTrivia_operands (nodes : List Node) : Operand.KeepTrivia (nodes.map operand) := by
  intro other hother hword
  obtain ⟨node, -, rfl⟩ := List.mem_map.mp hother
  cases node with
  | atom kind text before after =>
    cases kind with
    | trivia => exact expand_trivia text before after
    | _ => cases hword
  | _ => cases hword

/-- Children up to the first word. -/
theorem exists_head {children words : List Node} {head : Node}
    (h : children.filter isWord = head :: words) :
    ∃ front rest, children = front ++ head :: rest ∧ (∀ node ∈ front, node.isWord = false) ∧
      head.isWord = true ∧ rest.filter isWord = words := by
  obtain ⟨front, rest, rfl, hfront, hhead, hrest⟩ := List.filter_eq_cons_iff.mp h
  exact ⟨front, rest, rfl, fun node hnode => by simpa using hfront node hnode, hhead, hrest⟩

theorem dropWhile_operands {front rest : List Node} {head : Node}
    (hfront : ∀ node ∈ front, node.isWord = false) (hhead : head.isWord = true) :
    ((front ++ head :: rest).map operand).dropWhile (fun operand => !operand.isWord) =
      head.operand :: rest.map operand := by
  induction front with
  | nil => exact List.dropWhile_cons_of_neg (by simp [isWord_operand, hhead])
  | cons node front ih =>
    obtain ⟨hnode, hrest⟩ := List.forall_mem_cons.mp hfront
    rw [List.cons_append, List.map_cons,
      List.dropWhile_cons_of_pos (by simp [isWord_operand, hnode])]
    exact ih hrest

section

variable {children : List Node} (before after : List Node)

theorem expand_list_operands (children before after : List Node) :
    (list children before after).expand = Form.expand before after (children.map operand) :=
  expand_list children before after

/-- A form that is headed by a name. -/
theorem expand_call {front rest : List Node} (hfront : ∀ node ∈ front, node.isWord = false)
    (text : String) (b a : List Node) :
    (list (front ++ atom .name text b a :: rest) before after).expand = (do
      let new ← Operand.expandAt (fun position => 0 < position) 1 (rest.map operand)
      return .list (.keyword "call" :: atom .name text b a :: new) before after) := by
  have hall : ∀ i, 1 ≤ i → decide (0 < i) = true := fun i hi => by simp; omega
  rw [expand_list_operands, Form.expand, dropWhile_operands hfront rfl,
    ← Operand.expandAll_eq 1 (keepTrivia_operands rest) hall]
  rfl

/-- A form that is headed by a macro. -/
theorem expand_builtin {text : String} {b a arguments : List Node} {builtin : Builtin}
    (hwords : children.filter isWord = atom .keyword text b a :: arguments)
    (hbuiltin : Builtin.ofKeyword? text = some builtin) :
    (list children before after).expand = (do
      let node ← builtin.expand (arguments.map operand)
      return Form.attach before after node) := by
  obtain ⟨front, rest, rfl, hfront, hhead, rfl⟩ := exists_head hwords
  rw [expand_list_operands, Form.expand, dropWhile_operands hfront hhead, ← filter_map_operand]
  simp only [operand, hbuiltin]

/-- A form that is headed by a keyword that calls no macro. -/
theorem expand_policy {text : String} {b a arguments : List Node}
    (hwords : children.filter isWord = atom .keyword text b a :: arguments)
    (hbuiltin : Builtin.ofKeyword? text = none) :
    (list children before after).expand = (do
      let node ← Form.expandByPolicy text (children.map operand)
      return node.surround before after) := by
  obtain ⟨front, rest, rfl, hfront, hhead, -⟩ := exists_head hwords
  rw [expand_list_operands, Form.expand, dropWhile_operands hfront hhead]
  simp only [operand, hbuiltin]

/-- The words of a form that calls no macro, expanded by position. -/
def expandWords (children : List Node) : Expand (List Node) :=
  Operand.expandAt (Form.isExpression (children.filter isWord)) 0 (children.map operand)

theorem expandLast_eq_expandWords {text : String} {b a arguments : List Node}
    (hwords : children.filter isWord = atom .keyword text b a :: arguments)
    (hbuiltin : Builtin.ofKeyword? text = none)
    (hpolicy : Policy.ofHead text = .hoist true ∨ Policy.ofHead text = .lastOnly) :
    Operand.expandLast (children.map operand) = expandWords children := by
  apply Operand.expandLast_eq
  intro i _
  rw [length_filter_operand, hwords, Nat.zero_add]
  rcases hpolicy with hpolicy | hpolicy <;> simp [Form.isExpression, hbuiltin, hpolicy]

theorem nodes_eq_expandWords {text : String} {b a arguments : List Node}
    (hwords : children.filter isWord = atom .keyword text b a :: arguments)
    (hbuiltin : Builtin.ofKeyword? text = none)
    (hpolicy : Policy.ofHead text = .hoist false ∨ Policy.ofHead text = .verbatim) :
    pure (Operand.nodes (children.map operand)) = expandWords children := by
  refine (Operand.expandAt_eq_nodes 0 fun i _ _ => ?_).symm
  rw [hwords]
  rcases hpolicy with hpolicy | hpolicy <;> simp [Form.isExpression, hbuiltin, hpolicy]

theorem expandAll_eq_expandWords
    (hall : ∀ i, Form.isExpression (children.filter isWord) i = true) :
    Operand.expandAll (children.map operand) = expandWords children :=
  Operand.expandAll_eq 0 (keepTrivia_operands children) fun i _ => hall i

theorem expandAfter_eq_expandWords (count : Nat)
    (h : ∀ i, Form.isExpression (children.filter isWord) i = decide (count ≤ i)) :
    Operand.expandAfter count (children.map operand) = expandWords children :=
  Operand.expandAfter_eq 0 count (keepTrivia_operands children) fun i _ => by rw [h i, Nat.zero_add]

/-- A declaration. -/
theorem expand_declaration {text : String} {b a arguments : List Node} {last : Bool}
    (hwords : children.filter isWord = atom .keyword text b a :: arguments)
    (hbuiltin : Builtin.ofKeyword? text = none) (hpolicy : Policy.ofHead text = .hoist last) :
    (list children before after).expand = (do
      let new ← expandWords children
      let node ← Form.hoist text new
      return node.surround before after) := by
  rw [expand_policy before after hwords hbuiltin, Form.expandByPolicy, hpolicy]
  cases last with
  | true =>
    rw [← expandLast_eq_expandWords hwords hbuiltin (.inl hpolicy)]
    exact bind_assoc _ _ _
  | false =>
    rw [← nodes_eq_expandWords hwords hbuiltin (.inl hpolicy)]
    rfl

/-- A module with a name. -/
theorem expand_module {text : String} {b a b' a' arguments : List Node}
    (hwords : children.filter isWord =
      atom .keyword "module" b a :: atom .name text b' a' :: arguments) :
    (list children before after).expand = (do
      update (·.addModule (Form.moduleName text))
      let new ← expandWords children
      return .list new before after) := by
  have hnamed : Form.expandAfterName "module" (children.map operand) =
      update (·.addModule (Form.moduleName text)) >>= fun _ => expandWords children := by
    rw [Form.expandAfterName, nodes_map_operand, hwords,
      ← expandAfter_eq_expandWords 2 fun i => by rw [hwords]; simp [Form.isExpression]; rfl]
    rfl
  rw [expand_policy before after hwords rfl, Form.expandByPolicy]
  change ((Form.expandAfterName "module" (children.map operand) >>= fun new =>
    pure (form new)) >>= fun node => pure (node.surround before after)) = _
  rw [hnamed, bind_assoc, bind_assoc]
  rfl

/-- The operands of a form whose head is no module with a name. -/
theorem expandAfterName_eq_expandWords {text : String} {b a arguments : List Node}
    (hwords : children.filter isWord = atom .keyword text b a :: arguments)
    (hbuiltin : Builtin.ofKeyword? text = none) (hpolicy : Policy.ofHead text = .afterName)
    (hmodule : text = "module" → arguments.head?.any isName = false) :
    Form.expandAfterName text (children.map operand) = expandWords children := by
  have hafter : ∀ count, (∀ i, Form.isExpression (atom .keyword text b a :: arguments) i =
      decide (count ≤ i)) → Operand.expandAfter count (children.map operand) =
        expandWords children :=
    fun count h => expandAfter_eq_expandWords count fun i => by rw [hwords, h i]
  rw [Form.expandAfterName, nodes_map_operand, hwords]
  split
  · rename_i name b' a' rest heq
    cases heq
    have hother : text ≠ "module" := by
      intro htext
      have hnone := hmodule htext
      cases hnone
    rw [if_neg hother, ← hafter 2 fun i => by simp [Form.isExpression, hbuiltin, hpolicy, isName]]
  · rename_i hother
    apply hafter 1
    intro i
    have hnoName : arguments.head?.any isName = false := by
      rw [← Bool.not_eq_true]
      intro hany
      obtain ⟨name, b', a', rest, rfl⟩ := exists_name hany
      exact hother _ _ _ _ _ rfl
    simp [Form.isExpression, hbuiltin, hpolicy, hnoName]

theorem expand_other (hhead : ∀ kind text b a,
    (children.filter isWord).head? = some (.atom kind text b a) → kind ≠ .name ∧ kind ≠ .keyword) :
    Form.expand before after (children.map operand) = (do
      let new ← Operand.expandAll (children.map operand)
      return .list new before after) := by
  rw [Form.expand]
  cases hwords : children.filter isWord with
  | nil =>
    rw [List.dropWhile_eq_nil_iff.mpr]
    intro other hother
    obtain ⟨node, hnode, rfl⟩ := List.mem_map.mp hother
    have hword := List.filter_eq_nil_iff.mp hwords node hnode
    simpa [isWord_operand] using hword
  | cons head words =>
    rw [hwords] at hhead
    obtain ⟨front, rest, rfl, hfront, hword, -⟩ := exists_head hwords
    rw [dropWhile_operands hfront hword]
    cases head with
    | atom kind text b a =>
      obtain ⟨hname, hkeyword⟩ := hhead kind text b a rfl
      cases kind with
      | name => exact absurd rfl hname
      | keyword => exact absurd rfl hkeyword
      | _ => rfl
    | _ => rfl

/-- A form that does nothing beside expanding words. -/
theorem expand_plain (hplain : Form.Plain (children.filter isWord)) :
    (list children before after).expand = (do
      let new ← expandWords children
      return .list new before after) := by
  generalize hwords : children.filter isWord = words at hplain
  cases hplain with
  | @keyword text b a arguments hbuiltin hpolicy hmodule =>
    have hlist : ∀ x : Expand (List Node), ((x >>= fun new => pure (form new)) >>= fun node =>
        pure (node.surround before after)) = x >>= fun new => pure (list new before after) :=
      fun x => bind_assoc x _ _
    rw [expand_policy before after hwords hbuiltin, Form.expandByPolicy]
    cases hcase : Policy.ofHead text with
    | hoist last => exact absurd hcase (hpolicy last)
    | verbatim =>
      rw [← nodes_eq_expandWords hwords hbuiltin (.inr hcase)]
      rfl
    | lastOnly =>
      rw [← expandLast_eq_expandWords hwords hbuiltin (.inr hcase)]
      exact hlist _
    | all =>
      rw [← expandAll_eq_expandWords fun i => by
        rw [hwords]
        simp [Form.isExpression, hbuiltin, hcase]]
      exact hlist _
    | afterName =>
      rw [← expandAfterName_eq_expandWords hwords hbuiltin hcase hmodule]
      exact hlist _
  | other hhead =>
    have hall : ∀ i, Form.isExpression (children.filter isWord) i = true := by
      intro i
      rw [hwords]
      unfold Form.isExpression
      split
      · exact absurd rfl (hhead _ _ _ _ rfl).1
      · exact absurd rfl (hhead _ _ _ _ rfl).2
      · rfl
    rw [← expandAll_eq_expandWords hall, expand_list_operands]
    exact expand_other before after fun kind text b a h => hhead kind text b a (hwords ▸ h)

end

end Node

end WatMacro
