import Mathlib.Data.List.Induction
import WatMacro.Proofs.Expand.Address
import WatMacro.Proofs.Expand.Marker
import WatMacro.Proofs.Expand.Visits

/-!
# What a list does when it is expanded

Conjunctions and disjunctions aside, a list runs its expressions in order, each from the context
that the one before has left. What is made of their values then depends on the head.

Results:

* `Node.Steps.of_expandAt`, `Node.Steps.of_bindings`: the expressions of forms and of `LET` are run
  in order.
* `Node.expand_atom_run`, `Node.expand_list_run`: the ways in which an atom and a list may expand.
-/

namespace WatMacro

open Expand

namespace Node

/-! ## Rows that are expanded in order -/

/-- The expressions among some children are expanded in order, each from the context that the one
before has left, to the given values. -/
inductive Steps (expression : Nat → Bool) :
    Nat → List Node → Context → List Node → Context → Prop
  | nil (position : Nat) (context : Context) : Steps expression position [] context [] context
  | trivia {position : Nat} {node : Node} {nodes values : List Node} {context next : Context} :
    node.isWord = false → Steps expression position nodes context values next →
    Steps expression position (node :: nodes) context values next
  | kept {position : Nat} {node : Node} {nodes values : List Node} {context next : Context} :
    node.isWord = true → expression position = false →
    Steps expression (position + 1) nodes context values next →
    Steps expression position (node :: nodes) context values next
  | expanded {position : Nat} {node value : Node} {nodes values : List Node}
      {context middle next : Context} : node.isWord = true → expression position = true →
    node.expand context = (.ok value, middle) →
    Steps expression (position + 1) nodes middle values next →
    Steps expression position (node :: nodes) context (value :: values) next

section

variable {expression : Nat → Bool} {position : Nat} {nodes : List Node} {context next : Context}

/-- Trivia changes nothing. -/
theorem Steps.of_filter {values : List Node}
    (h : Steps expression position (nodes.filter isWord) context values next) :
    Steps expression position nodes context values next := by
  induction nodes generalizing position context values with
  | nil => exact h
  | cons node nodes ih =>
    cases hword : node.isWord with
    | false =>
      rw [List.filter_cons_of_neg (by simp [hword])] at h
      exact .trivia hword (ih h)
    | true =>
      rw [List.filter_cons_of_pos hword] at h
      cases h with
      | trivia hnone _ =>
        rw [hword] at hnone
        cases hnone
      | kept _ hkept hrest => exact .kept hword hkept (ih hrest)
      | expanded _ hexpression hnode hrest => exact .expanded hword hexpression hnode (ih hrest)

/-- If no word is an expression, nothing is expanded. -/
theorem Steps.of_none (h : ∀ i, position ≤ i → expression i = false) (context : Context) :
    Steps expression position nodes context [] context := by
  induction nodes generalizing position with
  | nil => exact .nil position context
  | cons node nodes ih =>
    cases hword : node.isWord with
    | false => exact .trivia hword (ih h)
    | true =>
      exact .kept hword (h position (Nat.le_refl _)) (ih fun i hi => h i (by omega))

/-- The new children of a form hold nothing beside what the old ones and the values hold. -/
theorem Steps.of_expandAt {new : List Node}
    (h : Operand.expandAt expression position (nodes.map operand) context = (.ok new, next)) :
    ∃ values, Steps expression position nodes context values next ∧
      ∀ holds : Node → Bool, (∀ node ∈ nodes, holds node = false) →
        new.any holds = (values.flatMap spread).any holds := by
  induction nodes generalizing position context new next with
  | nil =>
    cases h
    exact ⟨[], .nil _ _, fun _ _ => rfl⟩
  | cons node nodes ih =>
    have hkeep : ∀ {p : Nat} {rest : List Node} {last : Context},
        (Operand.expandAt expression p (nodes.map operand) >>= fun nodes => pure (node :: nodes))
          context = (.ok rest, last) →
        ∃ values, Steps expression p nodes context values last ∧
          ∀ holds : Node → Bool, (∀ other ∈ node :: nodes, holds other = false) →
            rest.any holds = (values.flatMap spread).any holds := by
      intro p rest last hrun
      obtain ⟨tail, middle, htail, hlast⟩ := bind_eq_ok hrun
      cases hlast
      obtain ⟨values, hsteps, hholds⟩ := ih htail
      refine ⟨values, hsteps, fun holds hnone => ?_⟩
      obtain ⟨hnode, hnodes⟩ := List.forall_mem_cons.mp hnone
      rw [List.any_cons, hnode, Bool.false_or, hholds holds hnodes]
    rw [List.map_cons] at h
    cases hword : node.isWord with
    | false =>
      rw [Operand.expandAt_trivia (show node.operand.isWord = false from hword)] at h
      obtain ⟨values, hsteps, hholds⟩ := hkeep h
      exact ⟨values, .trivia hword hsteps, hholds⟩
    | true =>
      have hoperand : node.operand.isWord = true := hword
      cases hexpression : expression position with
      | false =>
        rw [Operand.expandAt_kept hoperand hexpression] at h
        obtain ⟨values, hsteps, hholds⟩ := hkeep h
        exact ⟨values, .kept hword hexpression hsteps, hholds⟩
      | true =>
        rw [Operand.expandAt_word hoperand hexpression] at h
        obtain ⟨value, middle, hvalue, hrest⟩ := bind_eq_ok h
        obtain ⟨tail, last, htail, hlast⟩ := bind_eq_ok hrest
        cases hlast
        obtain ⟨values, hsteps, hholds⟩ := ih htail
        refine ⟨value :: values, .expanded hword hexpression hvalue hsteps, fun holds hnone => ?_⟩
        rw [List.any_append, hholds holds (List.forall_mem_cons.mp hnone).2, List.flatMap_cons,
          List.any_append]

/-- The values of a `LET` are expanded in order. -/
theorem Steps.of_bindings {bound : List (Node × Node)} (position : Nat)
    (hwords : ∀ node ∈ nodes, node.isWord = true)
    (hexpression : ∀ i, position ≤ i → expression i = decide (i % 2 ≠ position % 2))
    (h : Builtin.bindings (nodes.map operand) context = (.ok bound, next)) :
    ∃ values, Steps expression position nodes context values next ∧
      (∀ pair ∈ bound, pair.1 ∈ nodes) ∧ bound.map Prod.snd = values.map (·.surround [] []) := by
  have hname : ∀ i, position ≤ i → i % 2 = position % 2 → expression i = false := by
    intro i hi hparity
    simp [hexpression i hi, hparity]
  induction nodes using List.twoStepInduction generalizing position context bound with
  | nil =>
    cases h
    exact ⟨[], .nil _ _, fun _ hpair => absurd hpair List.not_mem_nil, rfl⟩
  | singleton name =>
    cases h
    exact ⟨[], .kept (hwords name (by simp)) (hname _ (Nat.le_refl _) rfl) (.nil _ _),
      fun _ hpair => absurd hpair List.not_mem_nil, rfl⟩
  | cons_cons name value rest ih _ =>
    rw [List.map_cons, List.map_cons, Builtin.bindings] at h
    split at h
    · obtain ⟨result, middle, hvalue, hrest⟩ := bind_eq_ok h
      obtain ⟨tail, last, htail, hlast⟩ := bind_eq_ok hrest
      cases hlast
      have hposition : ∀ i, position + 2 ≤ i →
          expression i = decide (i % 2 ≠ (position + 2) % 2) := by
        intro i hi
        rw [hexpression i (by omega), Nat.add_mod_right]
      obtain ⟨values, hsteps, hnames, hvalues⟩ := ih (position + 2)
        (fun node hnode => hwords node (by simp [hnode])) hposition htail
        fun i hi hparity => hname i (by omega) (by omega)
      have hexpanded : expression (position + 1) = true := by
        rw [hexpression _ (Nat.le_succ _)]
        simp only [decide_eq_true_eq]
        omega
      refine ⟨result :: values, .kept (hwords name (by simp)) (hname _ (Nat.le_refl _) rfl)
        (.expanded (hwords value (by simp)) hexpanded hvalue hsteps), fun pair hpair => ?_, ?_⟩
      · rcases List.mem_cons.mp hpair with rfl | hpair
        · exact List.mem_cons_self
        · exact List.mem_cons_of_mem _ (List.mem_cons_of_mem _ (hnames pair hpair))
      · rw [List.map_cons, List.map_cons, hvalues]
    · cases h

/-- The words behind a head that is no expression. -/
theorem Steps.of_rest {front rest values : List Node} {head : Node}
    (hfront : ∀ node ∈ front, node.isWord = false) (hhead : head.isWord = true)
    (hkept : expression position = false)
    (h : Steps expression (position + 1) rest context values next) :
    Steps expression position (front ++ head :: rest) context values next := by
  induction front with
  | nil => exact .kept hhead hkept h
  | cons node front ih =>
    obtain ⟨hnode, hfront⟩ := List.forall_mem_cons.mp hfront
    exact .trivia hnode (ih hfront)

end

/-! ## What a list expands to -/

/-- New children that hold nothing beside what the values hold that were put in, if the old ones
hold nothing. -/
def HoldsOnly (old values new : List Node) : Prop :=
  ∀ holds : Node → Bool, (∀ node ∈ old, holds node = false) →
    (∀ text, holds (keyword text) = false) → new.any holds = (values.flatMap spread).any holds

/-- What a list makes of the values of its expressions, and what it collects after them. -/
inductive Makes (children before after : List Node) (context : Context) (values : List Node)
    (middle : Context) : Node → Context → Prop
  /-- A macro whose arguments are no expressions. -/
  | constant {builtin : Builtin} {node : Node} {next : Context} :
    Form.keyword? (children.filter isWord) = some builtin.keyword →
    builtin ∈ [.chr, .string, .staticArray] → values = [] → node.FormAsRead →
    next.hoisted = middle.hoisted → next.modules = middle.modules →
    Makes children before after context values middle (Form.attach before after node) next
  /-- Declared locals. -/
  | locals {bound : List (Node × Node)} :
    Form.keyword? (children.filter isWord) = some "LET" → (∀ pair ∈ bound, pair.1 ∈ children) →
    bound.map Prod.snd = values.map (·.surround [] []) →
    Makes children before after context values middle
      (Form.attach before after (Builtin.assignments bound)) middle
  /-- A declaration, which leaves a comment behind. -/
  | declaration {text comment : String} {b a arguments new : List Node} {last : Bool} :
    children.filter isWord = atom .keyword text b a :: arguments →
    Policy.ofHead text = .hoist last → expandWords children context = (.ok new, middle) →
    HoldsOnly children values new →
    Makes children before after context values middle (atom .trivia comment before after)
      (middle.hoist (list new [trivia "  "] [trivia "\n"]))
  /-- Any other form. -/
  | form {new : List Node} :
    (∀ head ∈ Form.keyword? (children.filter isWord), Builtin.ofKeyword? head = none ∧
      ∀ last, Policy.ofHead head ≠ .hoist last) →
    HoldsOnly children values new →
    Makes children before after context values middle (list new before after) middle

/-- How a list is expanded from a context. -/
inductive ListRun (children before after : List Node) (context : Context) : Node → Context → Prop
  /-- A conjunction or a disjunction expands its arguments from the last one back. -/
  | tests {text : String} {b a arguments tests : List Node} {next : Context} (goesOn : Bool) :
    children.filter isWord = atom .keyword text b a :: arguments → text = "AND" ∨ text = "OR" →
    expandBack arguments context = (.ok tests, next) →
    ListRun children before after context
      (Form.attach before after (Conditional.chain goesOn tests)) next
  /-- Any other list expands its expressions in order. -/
  | inOrder {values : List Node} {middle next : Context} {result : Node} :
    Form.runsBack (children.filter isWord) = false →
    Steps (Form.isExpression (children.filter isWord)) 0 children
      (Form.enter (children.filter isWord) context) values middle →
    Makes children before after context values middle result next →
    ListRun children before after context result next

/-- The form of a character's code point. -/
theorem codePoint_eq_ok {argument node : Node} {context next : Context}
    (h : Builtin.codePoint argument context = (.ok node, next)) :
    node.FormAsRead ∧ next = context := by
  obtain ⟨value, middle, hliteral, hrest⟩ := bind_eq_ok h
  obtain ⟨-, rfl⟩ := Builtin.literal_eq_ok hliteral
  generalize value.toList = cs at hrest
  rcases cs with - | ⟨c, - | ⟨d, cs⟩⟩
  · cases hrest
  · cases hrest
    refine ⟨.list ⟨?_, ?_⟩ layoutAsRead_nil layoutAsRead_nil, rfl⟩
    · simp only [List.forall_mem_cons]
      exact ⟨.atom .., .atom .., .atom .., .atom .., .atom .., fun _ h => absurd h List.not_mem_nil⟩
    · simp [keyword, trivia, integer, leaf, isList]
  · cases hrest

theorem address_eq_ok {symbol : String} {node : Node} {context next : Context}
    (h : Builtin.address symbol context = (.ok node, next)) : node.FormAsRead ∧ next = context := by
  obtain ⟨hread, rfl⟩ := Prod.mk.inj h
  exact ⟨read_asRead hread, rfl⟩

theorem textAddress_collects {argument node : Node} {context next : Context}
    (h : Builtin.textAddress argument context = (.ok node, next)) :
    node.FormAsRead ∧ next.hoisted = context.hoisted ∧ next.modules = context.modules := by
  obtain ⟨value, middle, hliteral, hrest⟩ := bind_eq_ok h
  obtain ⟨-, rfl⟩ := Builtin.literal_eq_ok hliteral
  obtain ⟨hnode, rfl⟩ := address_eq_ok
    (show Builtin.address _ (middle.intern value).2 = _ from hrest)
  exact ⟨hnode, rfl, rfl⟩

theorem arrayAddress_collects {argument node : Node} {context next : Context}
    (h : Builtin.arrayAddress argument context = (.ok node, next)) :
    node.FormAsRead ∧ next.hoisted = context.hoisted ∧ next.modules = context.modules := by
  rw [Builtin.arrayAddress] at h
  cases hlength : Builtin.length? argument with
  | none =>
    rw [hlength] at h
    cases h
  | some length =>
    rw [hlength] at h
    obtain ⟨used, middle, hlook, hrest⟩ := bind_eq_ok h
    cases hlook
    split at hrest
    · obtain ⟨hnode, rfl⟩ := address_eq_ok
        (show Builtin.address _ (context.allocate length).2 = _ from hrest)
      exact ⟨hnode, rfl, rfl⟩
    · cases hrest

theorem formAsRead_pair (head : String) (kind : AtomKind) (text : String) :
    (form [keyword head, leaf kind text]).FormAsRead := by
  refine .list ⟨?_, ?_⟩ layoutAsRead_nil layoutAsRead_nil
  · simp only [List.forall_mem_cons]
    exact ⟨.atom .., .atom .., fun _ h => absurd h List.not_mem_nil⟩
  · simp [keyword, leaf, isList]

/-- An atom becomes a form or stays an atom, and collects at most static data. -/
theorem expand_atom_run {kind : AtomKind} {text : String} {before after : List Node}
    {result : Node} {context next : Context}
    (h : (atom kind text before after).expand context = (.ok result, next)) :
    ∃ node, (node.FormAsRead ∨ node = leaf kind text) ∧ result = node.surround before after ∧
      next.hoisted = context.hoisted ∧ next.modules = context.modules := by
  rw [expand] at h
  obtain ⟨node, last, hnode, hlast⟩ := bind_eq_ok h
  cases hlast
  refine ⟨node, ?_⟩
  cases kind with
  | string =>
    obtain ⟨hform, hhoisted, hmodules⟩ := textAddress_collects hnode
    exact ⟨.inl hform, rfl, hhoisted, hmodules⟩
  | keyword | trivia =>
    cases hnode
    exact ⟨.inr rfl, rfl, rfl, rfl⟩
  | _ =>
    cases hnode
    exact ⟨.inl (formAsRead_pair _ _ _), rfl, rfl, rfl⟩

/-- A macro whose arguments are no expressions makes a form of its own, and collects at most static
data. -/
theorem constant_eq_ok {builtin : Builtin} {operands : List Operand} {node : Node}
    {context next : Context} (hbuiltin : builtin ∈ [.chr, .string, .staticArray])
    (h : builtin.expand operands context = (.ok node, next)) :
    node.FormAsRead ∧ next.hoisted = context.hoisted ∧ next.modules = context.modules := by
  rcases operands with - | ⟨argument, - | ⟨other, operands⟩⟩
  · cases builtin <;> cases h
  · cases builtin with
    | chr =>
      obtain ⟨hnode, rfl⟩ := codePoint_eq_ok h
      exact ⟨hnode, rfl, rfl⟩
    | string => exact textAddress_collects h
    | staticArray => exact arrayAddress_collects h
    | _ => simp at hbuiltin
  · cases builtin <;> first | cases h | simp at hbuiltin

theorem bindLocals_eq_ok {operands : List Operand} {node : Node} {context next : Context}
    (h : Builtin.bindLocals.expand operands context = (.ok node, next)) :
    ∃ bound, Builtin.bindings operands context = (.ok bound, next) ∧
      node = Builtin.assignments bound := by
  rw [Builtin.expand] at h
  split at h
  · cases h
  · split at h
    · cases h
    · obtain ⟨bound, last, hbound, hlast⟩ := bind_eq_ok h
      cases hlast
      exact ⟨bound, hbound, rfl⟩

section

variable {children before after : List Node} {context next : Context} {result : Node}

theorem HoldsOnly.of_same {old values new : List Node}
    (h : ∀ holds : Node → Bool, (∀ node ∈ old, holds node = false) →
      new.any holds = (values.flatMap spread).any holds) : HoldsOnly old values new :=
  fun holds hold _ => h holds hold

/-- Only `AND` and `OR` run back. -/
theorem runsBack_of_plain {words : List Node}
    (h : ∀ head ∈ Form.keyword? words, Builtin.ofKeyword? head = none ∧
      ∀ last, Policy.ofHead head ≠ .hoist last) : Form.runsBack words = false :=
  Form.runsBack_eq_false fun head hhead => by simp [(h head hhead).1]

/-- A form whose words are expanded by position. -/
theorem listRun_expandWords {new : List Node}
    (hhead : ∀ head ∈ Form.keyword? (children.filter isWord), Builtin.ofKeyword? head = none ∧
      ∀ last, Policy.ofHead head ≠ .hoist last)
    (h : expandWords children (Form.enter (children.filter isWord) context) = (.ok new, next)) :
    ListRun children before after context (list new before after) next := by
  obtain ⟨values, hsteps, hholds⟩ := Steps.of_expandAt h
  exact .inOrder (runsBack_of_plain hhead) hsteps (.form hhead (.of_same hholds))

theorem listRun_call {front rest : List Node} {text : String} {b a : List Node}
    (hfront : ∀ node ∈ front, node.isWord = false)
    (hwords : (front ++ atom .name text b a :: rest).filter isWord =
      atom .name text b a :: rest.filter isWord)
    (h : (list (front ++ atom .name text b a :: rest) before after).expand context =
      (.ok result, next)) :
    ListRun (front ++ atom .name text b a :: rest) before after context result next := by
  rw [expand_call before after hfront] at h
  obtain ⟨new, last, hnew, hlast⟩ := bind_eq_ok h
  cases hlast
  obtain ⟨values, hsteps, hholds⟩ := Steps.of_expandAt hnew
  have hhead : ∀ head ∈ Form.keyword? (atom .name text b a :: rest.filter isWord),
      Builtin.ofKeyword? head = none ∧ ∀ last, Policy.ofHead head ≠ .hoist last :=
    fun head hhead => absurd hhead (Option.not_mem_none _)
  have hall : Steps (Form.isExpression (atom .name text b a :: rest.filter isWord)) 0
      (front ++ atom .name text b a :: rest)
      (Form.enter (atom .name text b a :: rest.filter isWord) context) values next :=
    hsteps.of_rest hfront rfl rfl
  rw [← hwords] at hhead hall
  refine .inOrder (runsBack_of_plain hhead) hall (.form hhead fun holds hold hkeyword => ?_)
  rw [List.any_cons, List.any_cons, hkeyword, hold _ (by simp),
    hholds holds fun node hnode => hold node (by simp [hnode])]
  rfl

/-- A macro other than `AND` and `OR` expands its expressions in order. -/
theorem listRun_builtin_inOrder {text : String} {builtin : Builtin}
    {b a arguments values : List Node} {middle : Context}
    (hwords : children.filter isWord = atom .keyword text b a :: arguments)
    (hbuiltin : Builtin.ofKeyword? text = some builtin) (hand : builtin ≠ .and)
    (hor : builtin ≠ .or)
    (hsteps : Steps (Form.isExpression (children.filter isWord)) 0 children context values middle)
    (hmakes : Makes children before after context values middle result next) :
    ListRun children before after context result next := by
  have hkeyword : Form.keyword? (children.filter isWord) = some text :=
    Form.keyword?_of_words hwords
  have henter : Form.enter (children.filter isWord) context = context := by
    apply Form.enter_eq_self
    rw [hkeyword]
    exact fun htext => (Form.ne_of_ofKeyword? hbuiltin).2.2 (Option.some.inj htext)
  rw [← henter] at hsteps
  refine .inOrder (Form.runsBack_eq_false fun head hhead => ?_) hsteps hmakes
  rw [hkeyword] at hhead
  cases hhead
  simp [hbuiltin, hand, hor]

theorem listRun_builtin {text : String} {builtin : Builtin} {b a arguments : List Node}
    (hwords : children.filter isWord = atom .keyword text b a :: arguments)
    (hbuiltin : Builtin.ofKeyword? text = some builtin)
    (h : (list children before after).expand context = (.ok result, next)) :
    ListRun children before after context result next := by
  have hkeyword : Form.keyword? (children.filter isWord) = some builtin.keyword := by
    rw [hwords, ← Builtin.keyword_of_ofKeyword? hbuiltin]
    rfl
  rw [expand_builtin before after hwords hbuiltin] at h
  obtain ⟨node, last, hnode, hlast⟩ := bind_eq_ok h
  cases hlast
  cases builtin with
  | and =>
    obtain ⟨tests, htests, -, rfl⟩ := Builtin.expand_chain (.inl ⟨rfl, rfl⟩) hnode
    exact .tests true hwords (.inl (Builtin.keyword_of_ofKeyword? hbuiltin)) htests
  | or =>
    obtain ⟨tests, htests, -, rfl⟩ := Builtin.expand_chain (.inr ⟨rfl, rfl⟩) hnode
    exact .tests false hwords (.inr (Builtin.keyword_of_ofKeyword? hbuiltin)) htests
  | bindLocals =>
    obtain ⟨bound, hbound, rfl⟩ := bindLocals_eq_ok hnode
    have harguments : ∀ node ∈ arguments, node ∈ children ∧ node.isWord = true := by
      intro node hnode
      exact List.mem_filter.mp (hwords ▸ List.mem_cons_of_mem _ hnode)
    have hexpression : ∀ i, 1 ≤ i →
        Form.isExpression (atom .keyword text b a :: arguments) i = decide (i % 2 ≠ 1 % 2) := by
      intro i hi
      simp only [Form.isExpression, hbuiltin, decide_eq_decide]
      omega
    obtain ⟨values, hsteps, hnames, hvalues⟩ :=
      Steps.of_bindings 1 (fun node hnode => (harguments node hnode).2) hexpression hbound
    refine listRun_builtin_inOrder hwords hbuiltin (by decide) (by decide) (.of_filter ?_)
      (.locals hkeyword (fun pair hpair => (harguments _ (hnames pair hpair)).1) hvalues)
    rw [hwords]
    exact .kept rfl (by simp [Form.isExpression, hbuiltin]) hsteps
  | _ =>
    obtain ⟨hform, hhoisted, hmodules⟩ := constant_eq_ok (by simp) hnode
    refine listRun_builtin_inOrder hwords hbuiltin (by decide) (by decide) (.of_none ?_ context)
      (.constant hkeyword (by simp) rfl hform hhoisted hmodules)
    intro i _
    rw [hwords]
    simp [Form.isExpression, hbuiltin]

theorem listRun_declaration {text : String} {last : Bool} {b a arguments : List Node}
    (hwords : children.filter isWord = atom .keyword text b a :: arguments)
    (hbuiltin : Builtin.ofKeyword? text = none) (hpolicy : Policy.ofHead text = .hoist last)
    (h : (list children before after).expand context = (.ok result, next)) :
    ListRun children before after context result next := by
  rw [expand_declaration before after hwords hbuiltin hpolicy] at h
  obtain ⟨new, middle, hnew, hrest⟩ := bind_eq_ok h
  obtain ⟨node, _, hnode, hlast⟩ := bind_eq_ok hrest
  obtain ⟨label, -, rfl, rfl⟩ := Form.hoist_eq_ok hnode
  cases hlast
  obtain ⟨values, hsteps, hholds⟩ := Steps.of_expandAt hnew
  have hkeyword : Form.keyword? (children.filter isWord) = some text :=
    Form.keyword?_of_words hwords
  have henter : Form.enter (children.filter isWord) context = context := by
    apply Form.enter_eq_self
    rw [hkeyword]
    rcases Form.ofHead_hoist hpolicy with ⟨rfl, -⟩ | ⟨rfl, -⟩ <;> decide
  refine .inOrder (Form.runsBack_eq_false fun head hhead => ?_) (henter.symm ▸ hsteps)
    (.declaration hwords hpolicy hnew (.of_same hholds))
  rw [hkeyword] at hhead
  cases hhead
  simp [hbuiltin]

/-- A list that expands does so in one of these ways. -/
theorem expand_list_run (h : (list children before after).expand context = (.ok result, next)) :
    ListRun children before after context result next := by
  have hstyled := Form.styled (children.filter isWord)
  generalize hwords : children.filter isWord = words at hstyled
  cases hstyled with
  | call text b a arguments =>
    obtain ⟨front, rest, rfl, hfront, -, rfl⟩ := exists_head hwords
    exact listRun_call hfront hwords h
  | builtin b a arguments hbuiltin => exact listRun_builtin hwords hbuiltin h
  | declaration b a arguments hbuiltin hpolicy =>
    exact listRun_declaration hwords hbuiltin hpolicy h
  | module b a text b' a' arguments =>
    rw [expand_module before after hwords] at h
    obtain ⟨_, middle, hmodule, hrest⟩ := bind_eq_ok h
    cases hmodule
    obtain ⟨new, last, hnew, hlast⟩ := bind_eq_ok hrest
    cases hlast
    apply listRun_expandWords
    · rw [hwords]
      rintro head ⟨⟩
      exact ⟨rfl, fun last => by cases last <;> decide⟩
    · rw [hwords]
      exact hnew
  | plain hplain =>
    subst hwords
    rw [expand_plain before after hplain] at h
    obtain ⟨new, last, hnew, hlast⟩ := bind_eq_ok h
    cases hlast
    apply listRun_expandWords hplain.keyword?_of_plain
    rw [Form.enter, hplain.moduleName?_eq_none]
    exact hnew

end

end Node

end WatMacro
