import WatMacro.Proofs.Expand.Address
import WatMacro.Proofs.Outline.Splices

/-!
# How expansion fails

A form that has been read can be refused for few causes only: the number or the kind of the
arguments of a macro, a declaration that is its head alone, and a splice that cannot be written. The
address of a literal is read from its source, but reading it does not fail. So only the reader says
of a source that it is incomplete.

Results:

* `Node.pieces_failsOnSplice`: a node that cannot be written has a splice in it.
* `Node.expand_raises`: the causes for which an expansion fails.
* `expandSource_eq_error`: a source that does not expand either cannot be read, or is refused for
  one of these causes.
* `expandText_eq_error`: the same of a source that is expanded on its own; the context stays as it
  was.
-/

namespace WatMacro

open Expand Operand

/-- The causes for which a form that has been read is refused. -/
def Error.isExpansion : Error → Bool
  | arity .. | argument .. | bareDeclaration _ | strandedSplice => true
  | _ => false

theorem Error.not_isIncomplete_of_isExpansion {error : Error} (h : error.isExpansion = true) :
    error.isIncomplete = false := by
  cases error with
  | unexpectedEnd line => cases h
  | _ => rfl

/-! ## Writing -/

/-- If a result is an error, the cause is a splice. -/
def FailsOnSplice {α : Type} (result : Except Error α) : Prop :=
  ∀ error, result = .error error → error = .strandedSplice

section

variable {α β : Type}

theorem failsOnSplice_ok (value : α) : FailsOnSplice (.ok value : Except Error α) :=
  fun _ h => nomatch h

theorem failsOnSplice_splice : FailsOnSplice (.error .strandedSplice : Except Error α) := by
  rintro _ ⟨⟩
  rfl

theorem FailsOnSplice.bind {result : Except Error α} {next : α → Except Error β}
    (h : FailsOnSplice result) (hnext : ∀ value, FailsOnSplice (next value)) :
    FailsOnSplice (result >>= next) := by
  cases result with
  | error error =>
    rintro _ ⟨⟩
    exact h error rfl
  | ok value => exact hnext value

theorem failsOnSplice_mapM {f : α → Except Error β} {items : List α}
    (h : ∀ item ∈ items, FailsOnSplice (f item)) : FailsOnSplice (items.mapM f) := by
  induction items with
  | nil => exact failsOnSplice_ok []
  | cons item items ih =>
    rw [List.mapM_cons]
    exact (h item List.mem_cons_self).bind fun _ =>
      (ih fun other hother => h other (List.mem_cons_of_mem item hother)).bind fun _ =>
        failsOnSplice_ok _

end

namespace Node

theorem mapM_pieces_failsOnSplice {nodes : List Node}
    (h : ∀ node ∈ nodes, FailsOnSplice node.pieces) :
    FailsOnSplice ((nodes.map pieces).mapM id) :=
  failsOnSplice_mapM fun result hresult => by
    obtain ⟨node, hnode, rfl⟩ := List.mem_map.mp hresult
    exact h node hnode

theorem listPieces_failsOnSplice {children : List Node}
    (h : ∀ child ∈ children, FailsOnSplice child.pieces) :
    FailsOnSplice (listPieces children (children.map pieces)) := by
  unfold listPieces
  split
  · rw [zip_map_pieces]
    refine (failsOnSplice_mapM fun result hresult => ?_).bind fun _ => failsOnSplice_ok _
    obtain ⟨child, hchild⟩ := mem_of_mem_moduleBody hresult
    obtain ⟨node, hnode, heq⟩ := List.mem_map.mp hchild
    cases heq
    exact h child hnode
  · exact (mapM_pieces_failsOnSplice h).bind fun _ => failsOnSplice_ok _

/-- A node that cannot be written has a splice in it. -/
theorem pieces_failsOnSplice (node : Node) : FailsOnSplice node.pieces := by
  induction node using Node.induction with
  | atom kind text before after ihbefore ihafter =>
    rw [pieces_atom]
    exact (mapM_pieces_failsOnSplice ihbefore).bind fun _ =>
      (mapM_pieces_failsOnSplice ihafter).bind fun _ => failsOnSplice_ok _
  | list children before after ih ihbefore ihafter =>
    rw [pieces_list]
    exact (mapM_pieces_failsOnSplice ihbefore).bind fun _ =>
      (listPieces_failsOnSplice ih).bind fun _ =>
        (mapM_pieces_failsOnSplice ihafter).bind fun _ => failsOnSplice_ok _
  | splice items before after => exact failsOnSplice_splice

theorem render_failsOnSplice (node : Node) : FailsOnSplice node.render :=
  node.pieces_failsOnSplice.bind fun _ => failsOnSplice_ok _

end Node

/-! ## Computations -/

namespace Expand

/-- If a computation fails on consistent data, it is for a cause of expansion. -/
structure Raises {α : Type} (x : Expand α) : Prop where
  enters : Enters x
  isExpansion : ∀ {context after : Context} {error : Error}, context.data.Consistent →
    x context = (.error error, after) → error.isExpansion = true

section

variable {α β : Type}

theorem raises_pure (value : α) : Raises (pure value) where
  enters := enters_pure value
  isExpansion _ h := nomatch h

theorem raises_fail {error : Error} (h : error.isExpansion = true) :
    Raises (fail error : Expand α) where
  enters := enters_fail error
  isExpansion _ hrun := by
    cases hrun
    exact h

/-- A computation that succeeds on consistent data. -/
theorem raises_of_ok {x : Expand α} (henters : Enters x)
    (h : ∀ context, context.data.Consistent → ∃ value, (x context).1 = .ok value) : Raises x where
  enters := henters
  isExpansion hdata hrun := by
    obtain ⟨value, hvalue⟩ := h _ hdata
    rw [hrun] at hvalue
    cases hvalue

theorem Raises.bind {x : Expand α} {next : α → Expand β} (hx : Raises x)
    (hnext : ∀ value, Raises (next value)) : Raises (x >>= next) where
  enters := hx.enters.bind fun value => (hnext value).enters
  isExpansion {context after error} hdata hrun := by
    have hreach := hx.enters context
    rw [bind_apply] at hrun
    cases hfirst : x context with
    | mk result middle =>
      rw [hfirst] at hrun hreach
      cases result with
      | error first =>
        cases hrun
        exact hx.isExpansion hdata hfirst
      | ok value => exact (hnext value).isExpansion (hreach.consistent hdata) hrun

theorem raises_ofExcept {result : Except Error α}
    (h : ∀ error, result = .error error → error.isExpansion = true) :
    Raises (ofExcept result) where
  enters := enters_ofExcept result
  isExpansion _ hrun := h _ (Prod.mk.inj hrun).1

theorem raises_look (view : Context → α) : Raises (look view) :=
  raises_of_ok (enters_look view) fun _ _ => ⟨_, rfl⟩

end

end Expand

/-! ## Operands -/

namespace Operand

/-- The expansions of all operands fail for causes of expansion only. -/
def AllRaise (operands : List Operand) : Prop :=
  ∀ operand ∈ operands, Raises operand.expanded

theorem AllRaise.head {operand : Operand} {operands : List Operand}
    (h : AllRaise (operand :: operands)) : Raises operand.expanded :=
  h operand List.mem_cons_self

theorem AllRaise.tail {operand : Operand} {operands : List Operand}
    (h : AllRaise (operand :: operands)) : AllRaise operands :=
  fun o ho => h o (List.mem_cons_of_mem operand ho)

theorem AllRaise.sublist {operands operands' : List Operand} (h : AllRaise operands)
    (hsub : operands'.Sublist operands) : AllRaise operands' :=
  fun o ho => h o (hsub.subset ho)

theorem expandAll_raises {operands : List Operand} (h : AllRaise operands) :
    Raises (expandAll operands) := by
  induction operands with
  | nil => exact raises_pure _
  | cons operand operands ih =>
    exact h.head.bind fun _ => (ih h.tail).bind fun _ => raises_pure _

theorem expandAfter_raises (count : Nat) {operands : List Operand} (h : AllRaise operands) :
    Raises (expandAfter count operands) := by
  induction operands generalizing count with
  | nil => exact raises_pure _
  | cons operand operands ih =>
    unfold expandAfter
    split
    · cases count with
      | zero => exact expandAll_raises h
      | succ count => exact (ih count h.tail).bind fun _ => raises_pure _
    · exact (ih count h.tail).bind fun _ => raises_pure _

theorem expandLast_raises {operands : List Operand} (h : AllRaise operands) :
    Raises (expandLast operands) := by
  induction operands with
  | nil => exact raises_pure _
  | cons operand operands ih =>
    unfold expandLast
    split
    · exact (ih h.tail).bind fun _ => raises_pure _
    · split
      · exact h.head.bind fun _ => raises_pure _
      · exact raises_pure _

end Operand

/-! ## Macros -/

namespace Builtin

theorem conjunction_raises {operands : List Operand} (h : AllRaise operands) :
    Raises (conjunction operands) := by
  induction operands with
  | nil => exact raises_pure _
  | cons operand operands ih =>
    exact (ih h.tail).bind fun _ => h.head.bind fun _ => raises_pure _

theorem disjunction_raises {operands : List Operand} (h : AllRaise operands) :
    Raises (disjunction operands) := by
  induction operands with
  | nil => exact raises_pure _
  | cons operand operands ih =>
    exact (ih h.tail).bind fun _ => h.head.bind fun _ => raises_pure _

theorem literal_raises (builtin : Builtin) (argument : Node) :
    Raises (literal builtin argument) := by
  unfold literal
  split
  · exact raises_pure _
  · exact raises_fail rfl

theorem codePoint_raises (argument : Node) : Raises (codePoint argument) := by
  refine (literal_raises _ _).bind fun value => ?_
  split
  · exact raises_pure _
  · exact raises_fail rfl

/-- A text can always be interned, and its address be read. -/
theorem intern_address_raises (value : String) :
    Raises (updateGet (·.intern value) >>= address) :=
  raises_of_ok ((enters_intern value).bind fun _ => enters_ofExcept _) fun _ hdata =>
    ⟨_, congrArg Prod.fst (address_intern hdata value)⟩

/-- An array can always be allocated, and its address be read. -/
theorem allocate_address_raises (length : UInt64) :
    Raises (updateGet (·.allocate length) >>= address) :=
  raises_of_ok ((enters_allocate length).bind fun _ => enters_ofExcept _) fun _ hdata =>
    ⟨_, congrArg Prod.fst (address_allocate hdata length)⟩

theorem textAddress_raises (argument : Node) : Raises (textAddress argument) :=
  (literal_raises _ _).bind fun value => intern_address_raises value

theorem arrayAddress_raises (argument : Node) : Raises (arrayAddress argument) := by
  unfold arrayAddress
  split
  · exact raises_fail rfl
  · rename_i length _
    refine (raises_look _).bind fun _ => ?_
    split
    · exact allocate_address_raises length
    · exact raises_fail rfl

theorem bindings_raises {operands : List Operand} (h : AllRaise operands) :
    Raises (bindings operands) := by
  fun_induction bindings operands with
  | case1 name value operands _ ih =>
    exact h.tail.head.bind fun _ => (ih h.tail.tail).bind fun _ => raises_pure _
  | case2 => exact raises_fail rfl
  | case3 => exact raises_pure _

theorem expand_raises (builtin : Builtin) {operands : List Operand} (h : AllRaise operands) :
    Raises (builtin.expand operands) := by
  unfold Builtin.expand
  split
  · exact raises_fail rfl
  · exact conjunction_raises h
  · exact raises_fail rfl
  · exact disjunction_raises h
  · exact codePoint_raises _
  · exact raises_fail rfl
  · exact textAddress_raises _
  · exact raises_fail rfl
  · exact arrayAddress_raises _
  · exact raises_fail rfl
  · split
    · exact raises_fail rfl
    · split
      · exact raises_fail rfl
      · exact (bindings_raises h).bind fun _ => raises_pure _

end Builtin

/-! ## Forms -/

namespace Form

theorem declarationLabel_raises (head : String) (children : List Node) :
    Raises (declarationLabel head children) := by
  unfold declarationLabel
  split
  · split
    · exact raises_pure _
    · refine raises_ofExcept fun error herror => ?_
      obtain rfl := Node.render_failsOnSplice _ error herror
      rfl
  · exact raises_fail rfl

theorem hoist_raises (head : String) (children : List Node) : Raises (hoist head children) :=
  (declarationLabel_raises _ _).bind fun _ =>
    (raises_of_ok (enters_hoist _) fun _ _ => ⟨_, rfl⟩).bind fun _ => raises_pure _

theorem expandAfterName_raises (head : String) {operands : List Operand}
    (h : AllRaise operands) : Raises (expandAfterName head operands) := by
  unfold expandAfterName
  split
  · split
    · exact (raises_of_ok (enters_addModule _) fun _ _ => ⟨_, rfl⟩).bind fun _ =>
        expandAfter_raises 2 h
    · exact expandAfter_raises 2 h
  · exact expandAfter_raises 1 h

theorem expandByPolicy_raises (head : String) {operands : List Operand}
    (h : AllRaise operands) : Raises (expandByPolicy head operands) := by
  unfold expandByPolicy
  split
  · exact (expandLast_raises h).bind fun _ => hoist_raises _ _
  · exact hoist_raises _ _
  · exact raises_pure _
  · exact (expandAfterName_raises head h).bind fun _ => raises_pure _
  · exact (expandLast_raises h).bind fun _ => raises_pure _
  · exact (expandAll_raises h).bind fun _ => raises_pure _

theorem expand_raises (before after : List Node) {operands : List Operand}
    (h : AllRaise operands) : Raises (Form.expand before after operands) := by
  unfold Form.expand
  split
  · exact (expandAll_raises h).bind fun _ => raises_pure _
  · rename_i head arguments heq
    have harguments : AllRaise arguments := by
      refine h.sublist ?_
      have hsub := List.dropWhile_sublist (l := operands) fun operand : Operand => !operand.isWord
      rw [heq] at hsub
      exact (List.sublist_cons_self head arguments).trans hsub
    split
    · exact (expandAll_raises harguments).bind fun _ => raises_pure _
    · split
      · refine (Builtin.expand_raises _ ?_).bind fun _ => raises_pure _
        exact harguments.sublist List.filter_sublist
      · exact (expandByPolicy_raises _ h).bind fun _ => raises_pure _
    · exact (expandAll_raises h).bind fun _ => raises_pure _

end Form

/-! ## Nodes and sources -/

namespace Node

theorem expandAtom_raises (kind : AtomKind) (text : String) : Raises (expandAtom kind text) := by
  unfold expandAtom
  split
  · exact raises_pure _
  · exact raises_pure _
  · exact raises_pure _
  · exact Builtin.textAddress_raises _
  · exact raises_pure _

/-- If the expansion of a node fails, it is for a cause of expansion. -/
theorem expand_raises (node : Node) : Raises node.expand := by
  induction node using Node.induction with
  | atom kind text before after _ _ =>
    exact (expandAtom_raises kind text).bind fun _ => raises_pure _
  | list children before after ih _ _ =>
    rw [expand_list]
    apply Form.expand_raises
    intro operand hoperand
    obtain ⟨child, hchild, rfl⟩ := List.mem_map.mp hoperand
    exact ih child hchild
  | splice items before after _ _ _ => exact raises_pure _

end Node

/-- A source that does not expand cannot be read, or its expansion fails. -/
theorem expandSource_eq_error {source : String} {context after : Context} {error : Error}
    (hdata : context.data.Consistent) (h : expandSource source context = (.error error, after)) :
    Node.read source = .error error ∨
      (∃ form, Node.read source = .ok form) ∧ error.isExpansion = true := by
  cases hread : Node.read source with
  | error cause =>
    rw [expandSource_of_read_error hread] at h
    cases h
    exact .inl rfl
  | ok form =>
    have hsource : expandSource source = form.expand >>= fun node => pure node.spread := by
      rw [expandSource, hread]
      rfl
    have hraises : Raises (expandSource source) :=
      hsource ▸ form.expand_raises.bind fun _ => raises_pure _
    exact .inr ⟨⟨form, rfl⟩, hraises.isExpansion hdata h⟩

/-- A source that is refused cannot be read, or its expansion fails or cannot be written. In every
case the context is the one before. -/
theorem expandText_eq_error {source : String} {context after : Context} {error : Error}
    (hdata : context.data.Consistent) (h : expandText source context = (.error error, after)) :
    after = context ∧ (Node.read source = .error error ∨
      (∃ form, Node.read source = .ok form) ∧ error.isExpansion = true) := by
  unfold expandText at h
  split at h
  · rename_i cause next hrun
    cases h
    exact ⟨rfl, expandSource_eq_error hdata hrun⟩
  · rename_i nodes next hrun
    obtain ⟨form, -, hread, -⟩ := expandSource_eq_ok hrun
    split at h
    · rename_i cause hwrite
      cases h
      obtain rfl := failsOnSplice_mapM (fun node _ => node.render_failsOnSplice) error hwrite
      exact ⟨rfl, .inr ⟨⟨form, hread⟩, rfl⟩⟩
    · cases h

end WatMacro
