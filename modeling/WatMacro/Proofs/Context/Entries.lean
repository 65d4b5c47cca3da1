import Mathlib.Logic.Relation
import WatMacro.Program

/-!
# What expansion does to a context

Four entries change a context: a declaration is hoisted, the name of a module is noted, a text is
interned, an array is allocated. Everything else that works on a context is made of them, also where
it fails half-way. A relation between contexts that is reflexive, transitive and holds along each of
the four entries therefore holds along every run.

Results:

* `Node.expand_enters`: the expansion of a node, successful or not, is a sequence of entries.
* `expandSource_enters`, `expandText_reaches`: the same of sources.
-/

namespace WatMacro

namespace Context

/-- One entry into a context. -/
inductive Entry : Context → Context → Prop
  | hoist (context : Context) (declaration : Node) : Entry context (context.hoist declaration)
  | addModule (context : Context) (name : String) : Entry context (context.addModule name)
  | intern (context : Context) (value : String) : Entry context (context.intern value).2
  | allocate (context : Context) (length : UInt64) : Entry context (context.allocate length).2

/-- The second context comes from the first one by any number of entries. -/
abbrev Reaches : Context → Context → Prop :=
  Relation.ReflTransGen Entry

end Context

/-! ## Computations -/

namespace Expand

open Context

/-- A sequence of computations succeeds if both succeed, one after the other. -/
theorem bind_eq_ok {α β : Type} {x : Expand α} {next : α → Expand β} {context after : Context}
    {result : β} (h : (x >>= next) context = (.ok result, after)) :
    ∃ value middle, x context = (.ok value, middle) ∧ next value middle = (.ok result, after) := by
  rw [bind_apply] at h
  split at h
  · exact ⟨_, _, by assumption, h⟩
  · cases h

/-- Whatever a computation does to a context, it does by entries. -/
def Enters {α : Type} (x : Expand α) : Prop :=
  ∀ context, Reaches context (x context).2

theorem enters_pure {α : Type} (value : α) : Enters (pure value) :=
  fun _ => .refl

theorem enters_fail {α : Type} (error : Error) : Enters (fail error : Expand α) :=
  fun _ => .refl

theorem enters_look {α : Type} (view : Context → α) : Enters (look view) :=
  fun _ => .refl

theorem enters_ofExcept {α : Type} (result : Except Error α) : Enters (ofExcept result) :=
  fun _ => .refl

theorem enters_hoist (declaration : Node) : Enters (update (·.hoist declaration)) :=
  fun context => .single (.hoist context declaration)

theorem enters_addModule (name : String) : Enters (update (·.addModule name)) :=
  fun context => .single (.addModule context name)

theorem enters_intern (value : String) : Enters (updateGet (·.intern value)) :=
  fun context => .single (.intern context value)

theorem enters_allocate (length : UInt64) : Enters (updateGet (·.allocate length)) :=
  fun context => .single (.allocate context length)

theorem Enters.bind {α β : Type} {x : Expand α} {next : α → Expand β} (hx : Enters x)
    (hnext : ∀ value, Enters (next value)) : Enters (x >>= next) := by
  intro context
  have hfirst := hx context
  rw [bind_apply]
  cases hrun : x context with
  | mk result after =>
    rw [hrun] at hfirst
    cases result with
    | ok value => exact hfirst.trans (hnext value after)
    | error error => exact hfirst

end Expand

open Expand

/-! ## Operands -/

namespace Operand

/-- The expansions of all operands work by entries. -/
def AllEnter (operands : List Operand) : Prop :=
  ∀ operand ∈ operands, Enters operand.expanded

theorem AllEnter.head {operand : Operand} {operands : List Operand}
    (h : AllEnter (operand :: operands)) : Enters operand.expanded :=
  h operand List.mem_cons_self

theorem AllEnter.tail {operand : Operand} {operands : List Operand}
    (h : AllEnter (operand :: operands)) : AllEnter operands :=
  fun o ho => h o (List.mem_cons_of_mem operand ho)

theorem AllEnter.sublist {operands operands' : List Operand} (h : AllEnter operands)
    (hsub : operands'.Sublist operands) : AllEnter operands' :=
  fun o ho => h o (hsub.subset ho)

theorem filter_nodes (operands : List Operand) :
    (nodes operands).filter Node.isWord = nodes (operands.filter isWord) := by
  rw [nodes, List.filter_map]
  rfl

theorem expandAll_enters {operands : List Operand} (h : AllEnter operands) :
    Enters (expandAll operands) := by
  induction operands with
  | nil => exact enters_pure _
  | cons operand operands ih =>
    exact h.head.bind fun _ => (ih h.tail).bind fun _ => enters_pure _

theorem expandAfter_enters (count : Nat) {operands : List Operand} (h : AllEnter operands) :
    Enters (expandAfter count operands) := by
  induction operands generalizing count with
  | nil => exact enters_pure _
  | cons operand operands ih =>
    unfold expandAfter
    split
    · cases count with
      | zero => exact expandAll_enters h
      | succ count => exact (ih count h.tail).bind fun _ => enters_pure _
    · exact (ih count h.tail).bind fun _ => enters_pure _

theorem expandLast_enters {operands : List Operand} (h : AllEnter operands) :
    Enters (expandLast operands) := by
  induction operands with
  | nil => exact enters_pure _
  | cons operand operands ih =>
    unfold expandLast
    split
    · exact (ih h.tail).bind fun _ => enters_pure _
    · split
      · exact h.head.bind fun _ => enters_pure _
      · exact enters_pure _

end Operand

open Operand

/-! ## Macros -/

namespace Builtin

theorem conjunction_enters {operands : List Operand} (h : AllEnter operands) :
    Enters (conjunction operands) := by
  induction operands with
  | nil => exact enters_pure _
  | cons operand operands ih =>
    exact (ih h.tail).bind fun _ => h.head.bind fun _ => enters_pure _

theorem disjunction_enters {operands : List Operand} (h : AllEnter operands) :
    Enters (disjunction operands) := by
  induction operands with
  | nil => exact enters_pure _
  | cons operand operands ih =>
    exact (ih h.tail).bind fun _ => h.head.bind fun _ => enters_pure _

theorem literal_enters (builtin : Builtin) (argument : Node) :
    Enters (literal builtin argument) := by
  unfold literal
  split
  · exact enters_pure _
  · exact enters_fail _

theorem codePoint_enters (argument : Node) : Enters (codePoint argument) := by
  refine (literal_enters _ _).bind fun value => ?_
  split
  · exact enters_pure _
  · exact enters_fail _

theorem textAddress_enters (argument : Node) : Enters (textAddress argument) :=
  (literal_enters _ _).bind fun value => (enters_intern value).bind fun _ => enters_ofExcept _

theorem arrayAddress_enters (argument : Node) : Enters (arrayAddress argument) := by
  unfold arrayAddress
  split
  · exact enters_fail _
  · refine (enters_look _).bind fun _ => ?_
    split
    · exact (enters_allocate _).bind fun _ => enters_ofExcept _
    · exact enters_fail _

theorem bindings_enters {operands : List Operand} (h : AllEnter operands) :
    Enters (bindings operands) := by
  fun_induction bindings operands with
  | case1 name value operands _ ih =>
    exact h.tail.head.bind fun _ => (ih h.tail.tail).bind fun _ => enters_pure _
  | case2 => exact enters_fail _
  | case3 => exact enters_pure _

theorem expand_enters (builtin : Builtin) {operands : List Operand} (h : AllEnter operands) :
    Enters (builtin.expand operands) := by
  unfold Builtin.expand
  split
  · exact enters_fail _
  · exact conjunction_enters h
  · exact enters_fail _
  · exact disjunction_enters h
  · exact codePoint_enters _
  · exact enters_fail _
  · exact textAddress_enters _
  · exact enters_fail _
  · exact arrayAddress_enters _
  · exact enters_fail _
  · split
    · exact enters_fail _
    · split
      · exact enters_fail _
      · exact (bindings_enters h).bind fun _ => enters_pure _

end Builtin

/-! ## Forms -/

namespace Form

theorem declarationLabel_enters (head : String) (children : List Node) :
    Enters (declarationLabel head children) := by
  unfold declarationLabel
  split
  · split
    · exact enters_pure _
    · exact enters_ofExcept _
  · exact enters_fail _

theorem hoist_enters (head : String) (children : List Node) : Enters (hoist head children) :=
  (declarationLabel_enters _ _).bind fun _ => (enters_hoist _).bind fun _ => enters_pure _

theorem expandAfterName_enters (head : String) {operands : List Operand}
    (h : AllEnter operands) : Enters (expandAfterName head operands) := by
  unfold expandAfterName
  split
  · split
    · exact (enters_addModule _).bind fun _ => expandAfter_enters 2 h
    · exact expandAfter_enters 2 h
  · exact expandAfter_enters 1 h

theorem expandByPolicy_enters (head : String) {operands : List Operand}
    (h : AllEnter operands) : Enters (expandByPolicy head operands) := by
  unfold expandByPolicy
  split
  · exact (expandLast_enters h).bind fun _ => hoist_enters _ _
  · exact hoist_enters _ _
  · exact enters_pure _
  · exact (expandAfterName_enters head h).bind fun _ => enters_pure _
  · exact (expandLast_enters h).bind fun _ => enters_pure _
  · exact (expandAll_enters h).bind fun _ => enters_pure _

theorem expand_enters (before after : List Node) {operands : List Operand}
    (h : AllEnter operands) : Enters (Form.expand before after operands) := by
  unfold Form.expand
  split
  · exact (expandAll_enters h).bind fun _ => enters_pure _
  · rename_i head arguments heq
    have harguments : AllEnter arguments := by
      refine h.sublist ?_
      have hsub := List.dropWhile_sublist (l := operands) fun operand : Operand => !operand.isWord
      rw [heq] at hsub
      exact (List.sublist_cons_self head arguments).trans hsub
    split
    · exact (expandAll_enters harguments).bind fun _ => enters_pure _
    · split
      · refine (Builtin.expand_enters _ ?_).bind fun _ => enters_pure _
        exact harguments.sublist List.filter_sublist
      · exact (expandByPolicy_enters _ h).bind fun _ => enters_pure _
    · exact (expandAll_enters h).bind fun _ => enters_pure _

end Form

/-! ## Nodes and sources -/

namespace Node

theorem expandAtom_enters (kind : AtomKind) (text : String) : Enters (expandAtom kind text) := by
  unfold expandAtom
  split
  · exact enters_pure _
  · exact enters_pure _
  · exact enters_pure _
  · exact Builtin.textAddress_enters _
  · exact enters_pure _

/-- The expansion of a node, successful or not, is a sequence of entries. -/
theorem expand_enters (node : Node) : Enters node.expand := by
  induction node using Node.induction with
  | atom kind text before after _ _ =>
    exact (expandAtom_enters kind text).bind fun _ => enters_pure _
  | list children before after ih _ _ =>
    rw [expand_list]
    apply Form.expand_enters
    intro operand hoperand
    obtain ⟨child, hchild, rfl⟩ := List.mem_map.mp hoperand
    exact ih child hchild
  | splice items before after _ _ _ => exact enters_pure _

end Node

theorem expandSource_enters (source : String) : Enters (expandSource source) :=
  (enters_ofExcept _).bind fun form => form.expand_enters.bind fun _ => enters_pure _

theorem expandSource_eq_ok {source : String} {context next : Context} {nodes : List Node}
    (h : expandSource source context = (.ok nodes, next)) :
    ∃ form node, Node.read source = .ok form ∧ form.expand context = (.ok node, next) ∧
      nodes = node.spread := by
  obtain ⟨form, middle, hread, hrest⟩ := bind_eq_ok h
  obtain ⟨node, last, hexpand, hspread⟩ := bind_eq_ok hrest
  obtain ⟨hform, rfl⟩ := Prod.mk.inj hread
  cases hspread
  exact ⟨form, node, hform, hexpand, rfl⟩

theorem expandSource_of_read_error {source : String} {error : Error}
    (h : Node.read source = .error error) (context : Context) :
    expandSource source context = (.error error, context) := by
  rw [expandSource, h]
  rfl

theorem expandText_of_read_error {source : String} {error : Error}
    (h : Node.read source = .error error) (context : Context) :
    expandText source context = (.error error, context) := by
  rw [expandText, expandSource_of_read_error h]

/-- Expanding a source on its own takes the entries of its expansion or none. -/
theorem expandText_reaches (source : String) (context : Context) :
    Context.Reaches context (expandText source context).2 := by
  have hsource := expandSource_enters source context
  unfold expandText
  split
  · exact .refl
  · rename_i nodes next hrun
    rw [hrun] at hsource
    split
    · exact .refl
    · exact hsource

theorem Program.add_reaches (program : Program) (source : String) :
    Context.Reaches program.context (program.add source).2.context := by
  have hsource := expandSource_enters source program.context
  unfold Program.add
  split <;> rename_i hrun <;> rw [hrun] at hsource <;> exact hsource

theorem Program.add_eq_ok {program next : Program} {source : String} {nodes : List Node}
    (h : program.add source = (.ok nodes, next)) :
    expandSource source program.context = (.ok nodes, next.context) ∧
      next.items = program.items ++ nodes := by
  unfold Program.add at h
  split at h
  · cases h
  · rename_i hrun
    cases h
    exact ⟨hrun, rfl⟩

/-- Sources are added one after the other. -/
theorem Program.addAll_cons_eq_ok {program final : Program} {source : String}
    {sources : List String} (h : program.addAll (source :: sources) = .ok final) :
    ∃ nodes next, program.add source = (.ok nodes, next) ∧ next.addAll sources = .ok final := by
  rw [Program.addAll] at h
  split at h
  · cases h
  · rename_i nodes next hadd
    exact ⟨nodes, next, hadd, h⟩

theorem Program.addAll_reaches {program final : Program} {sources : List String}
    (h : program.addAll sources = .ok final) :
    Context.Reaches program.context final.context := by
  induction sources generalizing program with
  | nil =>
    cases h
    exact .refl
  | cons source sources ih =>
    obtain ⟨nodes, next, hadd, hrest⟩ := Program.addAll_cons_eq_ok h
    have hfirst := program.add_reaches source
    rw [hadd] at hfirst
    exact hfirst.trans (ih hrest)

end WatMacro
