import WatMacro.Proofs.Expand.Steps
import WatMacro.Proofs.Outline.Splices

/-!
# Splices that stay in a tree

Almost every form puts the items of a splice in its place. The exceptions are `AND`, `OR` and `LET`,
which take the value of an expression as it is: a `LET` among their expressions leaves a splice in
the tree, and a tree with a splice cannot be written.

Results:

* `Node.render_of_holdsSplice`: a tree without splices can be written.
* `Node.expand_strands`: an expansion leaves splices below its result, or in a declaration, exactly
  if it visits a list that strands one.
* `read_expand_stranded_iff`: the same of sources. Without such a visit, all that was made can be
  written.
-/

namespace WatMacro

open Expand

namespace Node

/-! ## Splices in trees -/

mutual

/-- Whether a node is a splice, or holds one below it or in its attachments. -/
def holdsSplice : Node → Bool
  | atom _ _ before after => holdsSpliceAny before || holdsSpliceAny after
  | list children before after =>
    holdsSpliceAny children || (holdsSpliceAny before || holdsSpliceAny after)
  | splice .. => true

/-- Whether there is a splice in several nodes. -/
def holdsSpliceAny : List Node → Bool
  | [] => false
  | node :: nodes => holdsSplice node || holdsSpliceAny nodes

end

theorem holdsSpliceAny_eq (nodes : List Node) : holdsSpliceAny nodes = nodes.any holdsSplice := by
  induction nodes with
  | nil => rfl
  | cons node nodes ih => rw [holdsSpliceAny, ih, List.any_cons]

theorem any_holdsSplice_eq_false {nodes : List Node} :
    nodes.any holdsSplice = false ↔ ∀ node ∈ nodes, node.holdsSplice = false := by
  simp

theorem holdsSplice_atom (kind : AtomKind) (text : String) (before after : List Node) :
    (atom kind text before after).holdsSplice =
      (before.any holdsSplice || after.any holdsSplice) := by
  rw [holdsSplice, holdsSpliceAny_eq, holdsSpliceAny_eq]

theorem holdsSplice_list (children before after : List Node) :
    (list children before after).holdsSplice =
      (children.any holdsSplice || (before.any holdsSplice || after.any holdsSplice)) := by
  rw [holdsSplice, holdsSpliceAny_eq, holdsSpliceAny_eq, holdsSpliceAny_eq]

theorem holdsSplice_splice (items before after : List Node) :
    (splice items before after).holdsSplice = true := by
  rw [holdsSplice]

def isSplice : Node → Bool
  | splice .. => true
  | _ => false

/-- All that stands strictly below a node. -/
def parts (node : Node) : List Node :=
  node.before ++ node.children ++ node.after

/-- A node with no splice in its attachments. -/
structure Tidy (node : Node) : Prop where
  before : node.before.any holdsSplice = false
  after : node.after.any holdsSplice = false

theorem holdsSplice_surround {before after : List Node} (hbefore : before.any holdsSplice = false)
    (hafter : after.any holdsSplice = false) (node : Node) :
    (node.surround before after).holdsSplice =
      (node.isSplice || node.children.any holdsSplice) := by
  cases node with
  | atom =>
    rw [surround, holdsSplice_atom, hbefore, hafter]
    rfl
  | list =>
    rw [surround, holdsSplice_list, hbefore, hafter, Bool.or_false, Bool.or_false]
    rfl
  | splice => exact holdsSplice_splice _ _ _

namespace Tidy

variable {node : Node}

theorem holdsSplice_eq (h : node.Tidy) :
    node.holdsSplice = (node.isSplice || node.children.any holdsSplice) := by
  rw [← holdsSplice_surround h.before h.after, surround_before_after]

/-- What a form takes in for the node. -/
theorem any_spread (h : node.Tidy) :
    node.spread.any holdsSplice = node.children.any holdsSplice := by
  have hself : [node].any holdsSplice = (node.isSplice || node.children.any holdsSplice) := by
    rw [List.any_cons, List.any_nil, Bool.or_false, h.holdsSplice_eq]
  cases node with
  | splice => rfl
  | _ => exact hself

theorem any_parts (h : node.Tidy) : node.parts.any holdsSplice = node.children.any holdsSplice := by
  rw [parts, List.any_append, List.any_append, h.before, h.after, Bool.false_or, Bool.or_false]

theorem surround {before after : List Node} (hbefore : before.any holdsSplice = false)
    (hafter : after.any holdsSplice = false) (node : Node) : (node.surround before after).Tidy := by
  cases node <;> exact ⟨hbefore, hafter⟩

end Tidy

@[simp] theorem isSplice_surround (node : Node) (before after : List Node) :
    (node.surround before after).isSplice = node.isSplice := by
  cases node <;> rfl

@[simp] theorem children_surround (node : Node) (before after : List Node) :
    (node.surround before after).children = node.children := by
  cases node <;> rfl

theorem attach_of_isSplice {node : Node} (h : node.isSplice = false) (before after : List Node) :
    Form.attach before after node = node.surround before after := by
  cases node with
  | splice => cases h
  | _ => rfl

/-! ## Trees as read -/

theorem LayoutAsRead.any_holdsSplice {nodes : List Node} (h : LayoutAsRead nodes) :
    nodes.any holdsSplice = false := by
  rw [any_holdsSplice_eq_false]
  intro node hnode
  obtain ⟨text, rfl⟩ := h node hnode
  rfl

theorem AsRead.holdsSplice_eq {node : Node} (h : node.AsRead) : node.holdsSplice = false := by
  induction h with
  | atom kind text => rfl
  | list _ _ hafter ih =>
    rw [holdsSplice_list, any_holdsSplice_eq_false.mpr ih, LayoutAsRead.any_holdsSplice hafter]
    rfl

theorem FormAsRead.holdsSplice_eq {form : Node} (h : form.FormAsRead) :
    form.holdsSplice = false := by
  cases h with
  | list hchildren hbefore hafter =>
    rw [holdsSplice_list, hbefore.any_holdsSplice, hafter.any_holdsSplice,
      any_holdsSplice_eq_false.mpr fun child hchild =>
        (hchildren.asRead child hchild).holdsSplice_eq]
    rfl

theorem FormAsRead.children_holdsSplice {form : Node} (h : form.FormAsRead) :
    form.isSplice = false ∧ form.children.any holdsSplice = false := by
  have hnone := h.holdsSplice_eq
  cases h with
  | list =>
    rw [holdsSplice_list, Bool.or_eq_false_iff] at hnone
    exact ⟨rfl, hnone.1⟩

/-! ## Writing -/

/-- A tree without splices can be written. -/
theorem exists_pieces {node : Node} (h : node.holdsSplice = false) :
    ∃ written, node.pieces = .ok written := by
  have hall : ∀ {nodes : List Node}, nodes.any holdsSplice = false →
      (∀ node ∈ nodes, node.holdsSplice = false → ∃ written, node.pieces = .ok written) →
      ∀ node ∈ nodes, ∃ written, node.pieces = .ok written := by
    intro nodes hnone ih node hnode
    exact ih node hnode (any_holdsSplice_eq_false.mp hnone node hnode)
  have hrow : ∀ {nodes : List Node}, (∀ node ∈ nodes, ∃ written, node.pieces = .ok written) →
      ∃ written, (nodes.map pieces).mapM id = .ok written := by
    intro nodes hnodes
    exact exists_mapM_id fun result hresult => by
      obtain ⟨node, hnode, rfl⟩ := List.mem_map.mp hresult
      exact hnodes node hnode
  induction node using Node.induction with
  | atom kind text before after ihbefore ihafter =>
    rw [holdsSplice_atom, Bool.or_eq_false_iff] at h
    obtain ⟨front, hfront⟩ := hrow (hall h.1 ihbefore)
    obtain ⟨back, hback⟩ := hrow (hall h.2 ihafter)
    rw [pieces_atom, hfront, hback]
    exact ⟨_, rfl⟩
  | list children before after ih ihbefore ihafter =>
    rw [holdsSplice_list, Bool.or_eq_false_iff, Bool.or_eq_false_iff] at h
    obtain ⟨front, hfront⟩ := hrow (hall h.2.1 ihbefore)
    obtain ⟨middle, hmiddle⟩ := listPieces_eq_ok (hall h.1 ih)
    obtain ⟨back, hback⟩ := hrow (hall h.2.2 ihafter)
    rw [pieces_list, hfront, hmiddle, hback]
    exact ⟨_, rfl⟩
  | splice items before after =>
    rw [holdsSplice_splice] at h
    cases h

theorem render_of_holdsSplice {node : Node} (h : node.holdsSplice = false) :
    ∃ text, node.render = .ok text := by
  obtain ⟨written, hwritten⟩ := exists_pieces h
  exact ⟨String.join written, by rw [render, hwritten]; rfl⟩

/-- Whether a node is a list headed by `LET`. -/
def isLocals (node : Node) : Bool :=
  node.isList && Form.keyword? node.words = some "LET"

theorem isLocals_list (children before after : List Node) :
    (list children before after).isLocals =
      decide (Form.keyword? (children.filter isWord) = some "LET") := rfl

end Node

/-! ## Expressions -/

namespace Form

/-- Whether a form with the given words takes the values of its expressions as they are, and does
not put the items of a splice in its place. -/
def takesSplices (words : List Node) : Bool :=
  keyword? words ∈ [some "AND", some "OR", some "LET"]

/-- The expressions among some children. -/
def expressions (expression : Nat → Bool) (position : Nat) (nodes : List Node) : List Node :=
  (((nodes.filter Node.isWord).zipIdx position).filter fun item => expression item.2).map Prod.fst

section

variable {expression : Nat → Bool} {position : Nat} {node : Node}

theorem expressions_trivia (hword : node.isWord = false) (nodes : List Node) :
    expressions expression position (node :: nodes) = expressions expression position nodes := by
  rw [expressions, List.filter_cons_of_neg (by simp [hword])]
  rfl

theorem expressions_kept (hword : node.isWord = true) (hkept : expression position = false)
    (nodes : List Node) : expressions expression position (node :: nodes) =
      expressions expression (position + 1) nodes := by
  rw [expressions, List.filter_cons_of_pos hword, List.zipIdx_cons,
    List.filter_cons_of_neg (by simp [hkept])]
  rfl

theorem expressions_expanded (hword : node.isWord = true) (hexpression : expression position = true)
    (nodes : List Node) : expressions expression position (node :: nodes) =
      node :: expressions expression (position + 1) nodes := by
  rw [expressions, List.filter_cons_of_pos hword, List.zipIdx_cons,
    List.filter_cons_of_pos (by simpa using hexpression)]
  rfl

end

end Form

/-- Whether this is the start of a visit that leaves a splice where it is: that of an `AND`, an `OR`
or a `LET` with a `LET` among its expressions. -/
def Visit.strands (visit : Visit) : Bool :=
  visit.opens && Form.takesSplices visit.words &&
    (Form.expressions (Form.isExpression visit.words) 0 visit.children).any Node.isLocals

/-! ## What is left behind -/

/-- Declarations are collected between two contexts. There is a splice in what is made beside them,
or in one of them, exactly if one is stranded. -/
def Leaves (stranded made : Bool) (context next : Context) : Prop :=
  ∃ declarations, next.hoisted = context.hoisted ++ declarations ∧
    (made || declarations.any Node.holdsSplice) = stranded

namespace Leaves

variable {stranded stranded' made made' : Bool} {context middle next : Context}

theorem of_hoisted_eq (h : next.hoisted = context.hoisted) (made : Bool) :
    Leaves made made context next :=
  ⟨[], by rw [h, List.append_nil], Bool.or_false made⟩

theorem congr {context' next' : Context} (h : Leaves stranded made context next)
    (hcontext : context.hoisted = context'.hoisted) (hnext : next'.hoisted = next.hoisted) :
    Leaves stranded made context' next' := by
  obtain ⟨declarations, hhoisted, hany⟩ := h
  exact ⟨declarations, by rw [hnext, hhoisted, hcontext], hany⟩

theorem append (h : Leaves stranded made context middle) (h' : Leaves stranded' made' middle next) :
    Leaves (stranded || stranded') (made || made') context next := by
  obtain ⟨declarations, hhoisted, rfl⟩ := h
  obtain ⟨declarations', hhoisted', rfl⟩ := h'
  refine ⟨declarations ++ declarations', by rw [hhoisted', hhoisted, List.append_assoc], ?_⟩
  rw [List.any_append]
  ac_rfl

/-- One more splice. -/
theorem add (h : Leaves stranded made context next) (more : Bool) :
    Leaves (more || stranded) (more || made) context next :=
  (of_hoisted_eq rfl more).append h

/-- What was made moves to the top. -/
theorem hoist {declaration : Node} (h : Leaves stranded declaration.holdsSplice context next) :
    Leaves stranded false context (next.hoist declaration) := by
  obtain ⟨declarations, hhoisted, rfl⟩ := h
  refine ⟨declarations ++ [declaration], ?_, ?_⟩
  · rw [Context.hoist, hhoisted, List.append_assoc]
  · rw [List.any_append, Bool.false_or, List.any_cons, List.any_nil, Bool.or_false, Bool.or_comm]

end Leaves

namespace Node

/-- The value of a node is a splice exactly if the node is headed by `LET`. There are splices below
it, or in a declaration, exactly if a visit strands one. -/
structure Strands (node : Node) (context : Context) (value : Node) (next : Context) : Prop where
  leaves : Leaves ((node.visits context).any Visit.strands) (value.children.any holdsSplice)
    context next
  isSplice_eq : value.isSplice = node.isLocals
  tidy : value.Tidy

/-- The same of nodes that are expanded one after the other. -/
structure RowStrands (visits : List Visit) (nodes values : List Node) (context next : Context) :
    Prop where
  leaves : Leaves (visits.any Visit.strands)
    (values.any fun value => value.children.any holdsSplice) context next
  isSplice_eq : values.any isSplice = nodes.any isLocals
  tidy : ∀ value ∈ values, value.Tidy

namespace RowStrands

variable {visits : List Visit} {node value : Node} {nodes values : List Node}
  {context middle next : Context}

theorem nil (context : Context) : RowStrands [] [] [] context context where
  leaves := .of_hoisted_eq rfl false
  isSplice_eq := rfl
  tidy _ h := absurd h List.not_mem_nil

theorem cons (hnode : Strands node context value middle)
    (hrow : RowStrands visits nodes values middle next) :
    RowStrands (node.visits context ++ visits) (node :: nodes) (value :: values) context next where
  leaves := by
    rw [List.any_append, List.any_cons]
    exact hnode.leaves.append hrow.leaves
  isSplice_eq := by
    rw [List.any_cons, List.any_cons, hnode.isSplice_eq, hrow.isSplice_eq]
  tidy := List.forall_mem_cons.mpr ⟨hnode.tidy, hrow.tidy⟩

/-- The first one is expanded last. -/
theorem consBack (hrow : RowStrands visits nodes values context middle)
    (hnode : Strands node middle value next) :
    RowStrands (node.visits middle ++ visits) (node :: nodes) (value :: values) context next where
  leaves := by
    rw [List.any_append, List.any_cons, Bool.or_comm, Bool.or_comm (value.children.any _)]
    exact hrow.leaves.append hnode.leaves
  isSplice_eq := by
    rw [List.any_cons, List.any_cons, hnode.isSplice_eq, hrow.isSplice_eq]
  tidy := List.forall_mem_cons.mpr ⟨hnode.tidy, hrow.tidy⟩

/-- A form puts the items of splices in their place. -/
theorem any_spread (h : RowStrands visits nodes values context next) :
    (values.flatMap spread).any holdsSplice =
      values.any fun value => value.children.any holdsSplice := by
  rw [List.any_flatMap, Bool.eq_iff_iff, List.any_eq_true, List.any_eq_true]
  refine exists_congr fun value => and_congr_right fun hvalue => ?_
  rw [(h.tidy value hvalue).any_spread]

/-- A macro takes splices as they are. -/
theorem any_values (h : RowStrands visits nodes values context next) {holds : Node → Bool}
    (hholds : ∀ value ∈ values,
      holds value = (value.isSplice || value.children.any holdsSplice)) :
    values.any holds =
      (nodes.any isLocals || values.any fun value => value.children.any holdsSplice) := by
  rw [← h.isSplice_eq, Bool.eq_iff_iff, Bool.or_eq_true, List.any_eq_true, List.any_eq_true,
    List.any_eq_true]
  constructor
  · rintro ⟨value, hvalue, hvalueHolds⟩
    rw [hholds value hvalue, Bool.or_eq_true] at hvalueHolds
    exact hvalueHolds.imp (⟨value, hvalue, ·⟩) (⟨value, hvalue, ·⟩)
  · rintro (⟨value, hvalue, hsplice⟩ | ⟨value, hvalue, hbelow⟩)
    · exact ⟨value, hvalue, by rw [hholds value hvalue, hsplice, Bool.true_or]⟩
    · exact ⟨value, hvalue, by rw [hholds value hvalue, hbelow, Bool.or_true]⟩

end RowStrands

/-- The expressions among some children, expanded in order. -/
theorem Steps.strands {expression : Nat → Bool} {position : Nat} {nodes values : List Node}
    {context next : Context} (h : Steps expression position nodes context values next)
    (hnodes : ∀ node ∈ nodes, ∀ context next value, node.expand context = (.ok value, next) →
      Strands node context value next) :
    RowStrands (visitsRow false expression position nodes context)
      (Form.expressions expression position nodes) values context next := by
  induction h with
  | nil => exact .nil _
  | trivia hword _ ih =>
    rw [visitsRow_trivia hword, Form.expressions_trivia hword]
    exact ih (List.forall_mem_cons.mp hnodes).2
  | kept hword hkept _ ih =>
    rw [visitsRow_kept hword hkept, Form.expressions_kept hword hkept]
    exact ih (List.forall_mem_cons.mp hnodes).2
  | expanded hword hexpression hvalue _ ih =>
    obtain ⟨hnode, hrest⟩ := List.forall_mem_cons.mp hnodes
    rw [visitsRow_expanded hword hexpression, Form.expressions_expanded hword hexpression]
    simp only [Bool.false_eq_true, if_false, hvalue]
    exact (ih hrest).cons (hnode _ _ _ hvalue)

/-- Words that are all expressions, expanded from the last one back. -/
theorem expandBack_strands {expression : Nat → Bool} {position : Nat} {nodes values : List Node}
    {context next : Context} (hexpression : ∀ i, position ≤ i → expression i = true)
    (hnodes : ∀ node ∈ nodes, ∀ context next value, node.expand context = (.ok value, next) →
      Strands node context value next)
    (h : expandBack (nodes.filter isWord) context = (.ok values, next)) :
    RowStrands (visitsRow true expression position nodes context)
      (Form.expressions expression position nodes) values context next := by
  induction nodes generalizing position values next with
  | nil =>
    cases h
    exact .nil _
  | cons node nodes ih =>
    obtain ⟨hnode, hrest⟩ := List.forall_mem_cons.mp hnodes
    cases hword : node.isWord with
    | false =>
      rw [List.filter_cons_of_neg (by simp [hword])] at h
      rw [visitsRow_trivia hword, Form.expressions_trivia hword]
      exact ih hexpression hrest h
    | true =>
      rw [List.filter_cons_of_pos hword] at h
      obtain ⟨tail, middle, htail, hfirst⟩ := bind_eq_ok h
      obtain ⟨value, last, hvalue, hlast⟩ := bind_eq_ok hfirst
      cases hlast
      have hhead := hexpression position (Nat.le_refl _)
      rw [visitsRow_expanded hword hhead, Form.expressions_expanded hword hhead]
      simp only [if_true, htail]
      exact (ih (fun i hi => hexpression i (by omega)) hrest htail).consBack (hnode _ _ _ hvalue)

/-- The visits behind a head that is no expression. -/
theorem RowStrands.of_rest {back : Bool} {expression : Nat → Bool} {position : Nat}
    {front rest values : List Node} {head : Node} {context next : Context}
    (hfront : ∀ node ∈ front, node.isWord = false) (hhead : head.isWord = true)
    (hkept : expression position = false)
    (h : RowStrands (visitsRow back expression (position + 1) rest context)
      (Form.expressions expression (position + 1) rest) values context next) :
    RowStrands (visitsRow back expression position (front ++ head :: rest) context)
      (Form.expressions expression position (front ++ head :: rest)) values context next := by
  induction front with
  | nil =>
    rw [List.nil_append, visitsRow_kept hhead hkept, Form.expressions_kept hhead hkept]
    exact h
  | cons node front ih =>
    obtain ⟨hnode, hfront⟩ := List.forall_mem_cons.mp hfront
    rw [List.cons_append, visitsRow_trivia hnode, Form.expressions_trivia hnode]
    exact ih hfront

/-- The tests behind a head, expanded from the last one back. -/
theorem RowStrands.of_tests {expression : Nat → Bool} {children arguments tests : List Node}
    {head : Node} {context next : Context}
    (hchildren : ∀ child ∈ children, ∀ context next value,
      child.expand context = (.ok value, next) → Strands child context value next)
    (hwords : children.filter isWord = head :: arguments) (hkept : expression 0 = false)
    (hexpression : ∀ i, 1 ≤ i → expression i = true)
    (h : expandBack arguments context = (.ok tests, next)) :
    RowStrands (visitsRow true expression 0 children context)
      (Form.expressions expression 0 children) tests context next := by
  obtain ⟨front, rest, rfl, hfront, hhead, rfl⟩ := exists_head hwords
  refine .of_rest hfront hhead hkept (expandBack_strands hexpression ?_ h)
  exact fun node hnode => hchildren node (by simp [hnode])

/-! ## Lists -/

section

variable {children before after : List Node} {context middle next : Context} {result : Node}

/-- A visit strands a splice at its start, or among the expressions. -/
theorem any_strands_list (hback : Form.runsBack (children.filter isWord) = back) :
    ((list children before after).visits context).any Visit.strands =
      (Visit.strands ⟨true, children, context⟩ ||
        (visitsRow back (Form.isExpression (children.filter isWord)) 0 children
          (Form.enter (children.filter isWord) context)).any Visit.strands) := by
  rw [visits_list, hback, List.any_cons, List.any_append]
  have hclose : [(⟨false, children, context⟩ : Visit)].any Visit.strands = false := rfl
  rw [hclose, Bool.or_false]

theorem strands_of_takesSplices (h : Form.takesSplices (children.filter isWord) = true) :
    Visit.strands ⟨true, children, context⟩ =
      (Form.expressions (Form.isExpression (children.filter isWord)) 0 children).any isLocals := by
  rw [Visit.strands, Visit.words, h]
  rfl

theorem strands_eq_false (h : Form.takesSplices (children.filter isWord) = false) :
    Visit.strands ⟨true, children, context⟩ = false := by
  rw [Visit.strands, Visit.words, h]
  rfl

/-- A list that strands nothing itself, and does not expand to a splice. -/
theorem strands_of_head {value : Node}
    (hhead : Form.takesSplices (children.filter isWord) = false)
    (hback : Form.runsBack (children.filter isWord) = false) (hvalue : value.isSplice = false)
    (htidy : value.Tidy)
    (h : Leaves ((visitsRow false (Form.isExpression (children.filter isWord)) 0 children
      (Form.enter (children.filter isWord) context)).any Visit.strands)
      (value.children.any holdsSplice) context next) :
    Strands (list children before after) context value next where
  leaves := by
    rw [any_strands_list hback, strands_eq_false hhead, Bool.false_or]
    exact h
  isSplice_eq := by
    rw [hvalue, isLocals_list, eq_comm, decide_eq_false_iff_not]
    intro hlet
    rw [Form.takesSplices, hlet] at hhead
    cases hhead
  tidy := htidy

theorem exists_chain (goesOn : Bool) (tests : List Node) :
    ∃ children, Conditional.chain goesOn tests = form children ∧
      children.any holdsSplice = tests.any holdsSplice := by
  induction tests with
  | nil => cases goesOn <;> exact ⟨_, rfl, rfl⟩
  | cons test tests ih =>
    obtain ⟨children, hchain, hany⟩ := ih
    have hform : (form children).holdsSplice = tests.any holdsSplice := by
      rw [form, holdsSplice_list, hany]
      exact Bool.or_false _
    have hconstant : ∀ text, (Builtin.constant text).holdsSplice = false := fun _ => rfl
    have hkeyword : ∀ text, (keyword text).holdsSplice = false := fun _ => rfl
    cases goesOn with
    | true => exact ⟨_, rfl, by simp [hchain, hform, hconstant, hkeyword]⟩
    | false => exact ⟨_, rfl, by simp [hchain, hform, hconstant, hkeyword]⟩

/-- `AND` and `OR` take the values of their arguments as they are. -/
theorem strands_tests {text : String} {b a arguments tests : List Node} {goesOn : Bool}
    (hbefore : before.any holdsSplice = false) (hafter : after.any holdsSplice = false)
    (hchildren : ∀ child ∈ children, ∀ context next value,
      child.expand context = (.ok value, next) → Strands child context value next)
    (hwords : children.filter isWord = atom .keyword text b a :: arguments)
    (hhead : text = "AND" ∨ text = "OR")
    (htests : expandBack arguments context = (.ok tests, next)) :
    Strands (list children before after) context
      (Form.attach before after (Conditional.chain goesOn tests)) next := by
  have hkeyword := Form.keyword?_of_words hwords
  have htakes : Form.takesSplices (children.filter isWord) = true := by
    rw [Form.takesSplices, hkeyword]
    rcases hhead with rfl | rfl <;> rfl
  have hback : Form.runsBack (children.filter isWord) = true := by
    rw [hwords]
    rcases hhead with rfl | rfl <;> rfl
  have henter : Form.enter (children.filter isWord) context = context := by
    apply Form.enter_eq_self
    rw [hkeyword]
    rcases hhead with rfl | rfl <;> decide
  have hkept : Form.isExpression (children.filter isWord) 0 = false := by
    rw [hwords]
    rcases hhead with rfl | rfl <;> rfl
  have hexpression : ∀ i, 1 ≤ i → Form.isExpression (children.filter isWord) i = true := by
    intro i hi
    rw [hwords]
    rcases hhead with rfl | rfl <;> exact decide_eq_true hi
  have hrow := RowStrands.of_tests hchildren hwords hkept hexpression htests
  obtain ⟨new, hchain, hnew⟩ := exists_chain goesOn tests
  rw [hchain]
  refine ⟨?_, ?_, hbefore, hafter⟩
  · rw [any_strands_list hback, henter, strands_of_takesSplices htakes]
    change Leaves _ (new.any holdsSplice) context next
    rw [hnew, hrow.any_values fun test htest => (hrow.tidy test htest).holdsSplice_eq]
    exact hrow.leaves.add _
  · rw [isLocals_list, hkeyword]
    rcases hhead with rfl | rfl <;> rfl

/-- The splice of a `LET` holds what its values hold, without their attachments. -/
theorem any_assignments {bound : List (Node × Node)} (hbefore : before.any holdsSplice = false)
    (hafter : after.any holdsSplice = false) (hnames : ∀ pair ∈ bound, pair.1.holdsSplice = false) :
    (Form.attach before after (Builtin.assignments bound)).children.any holdsSplice =
      (bound.map Prod.snd).any holdsSplice := by
  have hform : ∀ items,
      ((form items).surround before after).holdsSplice = items.any holdsSplice := by
    intro items
    rw [holdsSplice_surround hbefore hafter]
    rfl
  have hkeyword : ∀ text, (keyword text).holdsSplice = false := fun _ => rfl
  have hattach : (Form.attach before after (Builtin.assignments bound)).children =
      ((form (keyword "local" :: bound.flatMap fun pair => [pair.1, keyword "i32"])) ::
        bound.map fun pair => form [keyword "set_local", pair.1, pair.2]).map
          (·.surround before after) :=
    rfl
  have hlocals : (bound.flatMap fun pair => [pair.1, keyword "i32"]).any holdsSplice = false := by
    rw [any_holdsSplice_eq_false]
    intro node hnode
    obtain ⟨pair, hpair, hmem⟩ := List.mem_flatMap.mp hnode
    rcases List.mem_pair.mp hmem with rfl | rfl
    · exact hnames pair hpair
    · exact hkeyword "i32"
  have hassign : ∀ pair ∈ bound,
      ((form [keyword "set_local", pair.1, pair.2]).surround before after).holdsSplice =
        pair.2.holdsSplice := by
    intro pair hpair
    rw [hform]
    simp [hkeyword, hnames pair hpair]
  rw [hattach, List.map_cons, List.any_cons, hform, List.any_cons, hkeyword, hlocals,
    Bool.false_or, Bool.false_or, List.map_map, List.any_map, List.any_map, Bool.eq_iff_iff,
    List.any_eq_true, List.any_eq_true]
  refine exists_congr fun pair => and_congr_right fun hpair => ?_
  rw [← Bool.eq_iff_iff]
  exact hassign pair hpair

/-- What a list makes of values that were expanded in order. -/
theorem strands_makes {values : List Node} (hsource : children.any holdsSplice = false)
    (hbefore : before.any holdsSplice = false) (hafter : after.any holdsSplice = false)
    (hback : Form.runsBack (children.filter isWord) = false)
    (hrow : RowStrands (visitsRow false (Form.isExpression (children.filter isWord)) 0 children
        (Form.enter (children.filter isWord) context))
      (Form.expressions (Form.isExpression (children.filter isWord)) 0 children) values
      (Form.enter (children.filter isWord) context) middle)
    (h : Makes children before after context values middle result next) :
    Strands (list children before after) context result next := by
  have hleaves := hrow.leaves.congr (Form.enter_hoisted _ context) rfl
  have hchildren := any_holdsSplice_eq_false.mp hsource
  have hkept : ∀ {new}, HoldsOnly children values new → new.any holdsSplice =
      values.any fun value => value.children.any holdsSplice :=
    fun hholds => (hholds holdsSplice hchildren fun _ => rfl).trans hrow.any_spread
  cases h with
  | @constant builtin node _ hkeyword hbuiltin hvalues hform hhoisted _ =>
    subst hvalues
    have hhead : Form.takesSplices (children.filter isWord) = false := by
      rw [Form.takesSplices, hkeyword]
      cases builtin <;> first | decide | simp at hbuiltin
    obtain ⟨hsplice, hnone⟩ := hform.children_holdsSplice
    rw [attach_of_isSplice hsplice]
    refine strands_of_head hhead hback (by rw [isSplice_surround, hsplice])
      (.surround hbefore hafter node) ?_
    rw [children_surround, hnone]
    exact hleaves.congr rfl hhoisted
  | locals hkeyword hnames hbound =>
    have hvalues : values.any (holdsSplice ∘ (·.surround [] [])) = _ :=
      hrow.any_values fun value _ => holdsSplice_surround List.any_nil List.any_nil value
    have htakes : Form.takesSplices (children.filter isWord) = true := by
      rw [Form.takesSplices, hkeyword]
      rfl
    refine ⟨?_, ?_, rfl, rfl⟩
    · rw [any_strands_list hback, strands_of_takesSplices htakes,
        any_assignments hbefore hafter fun pair hpair => hchildren _ (hnames pair hpair), hbound,
        List.any_map, hvalues]
      exact hleaves.add _
    · rw [isLocals_list, hkeyword]
      rfl
  | declaration hwords hpolicy hnew hholds =>
    have hhead : Form.takesSplices (children.filter isWord) = false := by
      rw [Form.takesSplices, Form.keyword?_of_words hwords]
      rcases Form.ofHead_hoist hpolicy with ⟨rfl, -⟩ | ⟨rfl, -⟩ <;> decide
    refine strands_of_head hhead hback rfl ⟨hbefore, hafter⟩ (Leaves.hoist ?_)
    rw [holdsSplice_list, hkept hholds]
    simpa [trivia, leaf, holdsSplice_atom] using hleaves
  | form hplain hholds =>
    have hhead : Form.takesSplices (children.filter isWord) = false := by
      simp only [Form.takesSplices, List.mem_cons, List.not_mem_nil, or_false,
        decide_eq_false_iff_not]
      rintro (hmem | hmem | hmem) <;> cases (hplain _ hmem).1
    refine strands_of_head hhead hback rfl ⟨hbefore, hafter⟩ ?_
    rw [← hkept hholds] at hleaves
    exact hleaves

end

/-- An expansion leaves splices below its result, or in a declaration, exactly if a visit strands
one. -/
theorem expand_strands {node result : Node} (hsource : node.holdsSplice = false)
    {context next : Context} (h : node.expand context = (.ok result, next)) :
    Strands node context result next := by
  induction node using Node.induction generalizing result context next with
  | atom kind text before after _ _ =>
    rw [holdsSplice_atom, Bool.or_eq_false_iff] at hsource
    obtain ⟨node, hnode, rfl, hhoisted, -⟩ := expand_atom_run h
    have hnone : node.isSplice = false ∧ node.children.any holdsSplice = false := by
      rcases hnode with hform | rfl
      · exact hform.children_holdsSplice
      · exact ⟨rfl, rfl⟩
    refine ⟨?_, ?_, .surround hsource.1 hsource.2 node⟩
    · rw [visits, traced, visits_unvisited, children_surround, hnone.2]
      exact .of_hoisted_eq hhoisted false
    · rw [isSplice_surround, hnone.1]
      rfl
  | list children before after ih _ _ =>
    rw [holdsSplice_list, Bool.or_eq_false_iff, Bool.or_eq_false_iff] at hsource
    obtain ⟨hchildren, hbefore, hafter⟩ := hsource
    have hstrands : ∀ child ∈ children, ∀ context next value,
        child.expand context = (.ok value, next) → Strands child context value next :=
      fun child hchild _ _ _ =>
        ih child hchild (any_holdsSplice_eq_false.mp hchildren child hchild)
    cases expand_list_run h with
    | tests _ hwords hhead htests => exact strands_tests hbefore hafter hstrands hwords hhead htests
    | inOrder hback hsteps hmakes =>
      exact strands_makes hchildren hbefore hafter hback (hsteps.strands hstrands) hmakes
  | splice items before after _ _ _ =>
    rw [holdsSplice_splice] at hsource
    cases hsource

end Node

/-! ## Sources -/

/-- The expansion of a source leaves a splice below its result, or in a new declaration, exactly if
it visits an `AND`, an `OR` or a `LET` that has a `LET` among its expressions. Otherwise all that
was made can be written. -/
theorem read_expand_stranded_iff {source : String} {form result : Node} {context next : Context}
    (hread : Node.read source = .ok form) (h : form.expand context = (.ok result, next)) :
    ∃ declarations, next.hoisted = context.hoisted ++ declarations ∧
      ((∃ node ∈ result.parts ++ declarations, node.holdsSplice = true) ↔
        ∃ visit ∈ form.visits context, visit.strands = true) ∧
      ((∀ visit ∈ form.visits context, visit.strands = false) →
        ∀ node ∈ result.spread ++ declarations, ∃ text, node.render = .ok text) := by
  have hstrands := Node.expand_strands (Node.read_asRead hread).holdsSplice_eq h
  obtain ⟨declarations, hhoisted, hany⟩ := hstrands.leaves
  refine ⟨declarations, hhoisted, ?_, fun hnone => ?_⟩
  · rw [← List.any_eq_true, ← List.any_eq_true, List.any_append, hstrands.tidy.any_parts, hany]
  · have hvisits : (form.visits context).any Visit.strands = false :=
      List.any_eq_false.mpr fun visit hvisit => by simp [hnone visit hvisit]
    rw [hvisits, ← hstrands.tidy.any_spread, ← List.any_append] at hany
    intro node hnode
    exact Node.render_of_holdsSplice (Node.any_holdsSplice_eq_false.mp hany node hnode)

/-- A `LET` in a function and one in a declaration give their items to the form around them. -/
theorem read_expand_stranded_iff_flattened :
    let form : Node := .form [.keyword "func", .trivia " ",
      .list [.keyword "LET", .trivia " ", .name "$a", .trivia " ", .integer "1"] [] [.trivia " "],
      .form [.keyword "global", .trivia " ", .name "$g", .trivia " ", .keyword "i32", .trivia " ",
        .form [.keyword "LET", .trivia " ", .name "$b", .trivia " ", .integer "2"]]]
    ∃ result next, Node.read "(func (LET $a 1) (global $g i32 (LET $b 2)))" = .ok form ∧
      form.expand .empty = (.ok result, next) ∧ next.hoisted.length = 1 ∧
      (∀ node ∈ result.parts ++ next.hoisted, node.holdsSplice = false) ∧
      ∀ node ∈ result.spread ++ next.hoisted, ∃ text, node.render = .ok text := by
  intro form
  have htexts : tokenize "(func (LET $a 1) (global $g i32 (LET $b 2)))" =
      .ok ["(", "func", " ", "(", "LET", " ", "$a", " ", "1", ")", " ", "(", "global", " ", "$g",
        " ", "i32", " ", "(", "LET", " ", "$b", " ", "2", ")", ")", ")"] := by
    decide +kernel
  have hread : Node.read "(func (LET $a 1) (global $g i32 (LET $b 2)))" = .ok form :=
    Node.read_eq_ok.mpr ⟨_, htexts, rfl⟩
  have hnone : ∀ visit ∈ form.visits .empty, visit.strands = false := by
    have hvisits : (form.visits .empty).any Visit.strands = false := rfl
    simpa using hvisits
  obtain ⟨result, next, hexpand, hlength⟩ : ∃ result next,
      form.expand .empty = (.ok result, next) ∧ next.hoisted.length = 1 := ⟨_, _, rfl, rfl⟩
  obtain ⟨declarations, hhoisted, hiff, hwritten⟩ := read_expand_stranded_iff hread hexpand
  obtain rfl : next.hoisted = declarations := hhoisted
  refine ⟨result, next, hread, hexpand, hlength, fun node hnode => ?_, hwritten hnone⟩
  by_contra hholds
  obtain ⟨visit, hvisit, hstrands⟩ := hiff.mp ⟨node, hnode, by simpa using hholds⟩
  rw [hnone visit hvisit] at hstrands
  cases hstrands

/-- A `LET` as a test leaves its splice behind, and what is made cannot be written. -/
theorem read_expand_stranded_test :
    let form : Node := .form [.keyword "func", .trivia " ",
      .form [.keyword "AND", .trivia " ",
        .form [.keyword "LET", .trivia " ", .name "$a", .trivia " ", .integer "1"]]]
    let stranded : Node := .splice [
      .form [.keyword "local", .name "$a", .keyword "i32"],
      .form [.keyword "set_local", .name "$a", Builtin.constant "1"]] [] []
    let result : Node := .form [.keyword "func", .trivia " ",
      Builtin.conditional stranded (Builtin.constant "1") (Builtin.constant "0")]
    Node.read "(func (AND (LET $a 1)))" = .ok form ∧ form.expand .empty = (.ok result, .empty) ∧
      (∃ node ∈ result.parts, node.holdsSplice = true) ∧
      result.render = .error .strandedSplice := by
  intro form stranded result
  have htexts : tokenize "(func (AND (LET $a 1)))" =
      .ok ["(", "func", " ", "(", "AND", " ", "(", "LET", " ", "$a", " ", "1", ")", ")", ")"] := by
    decide +kernel
  refine ⟨Node.read_eq_ok.mpr ⟨_, htexts, rfl⟩, rfl, ?_, rfl⟩
  exact ⟨_, List.mem_append_left _ (List.mem_of_getLast? rfl), rfl⟩

end WatMacro
