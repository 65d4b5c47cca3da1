import Mathlib.Data.List.Induction
import WatMacro.Proofs.Expand.Fixed

/-!
# What each sibling contributes

Nodes that stand side by side are expanded one after the other, each in the context that the one
before it left. A `LET` contributes a declaration of its names and an assignment for each of them,
with the attachments of the `LET`; any other node contributes one node. The bindings of a `LET` are
expanded one after the other in the same way. A run that fails stops at one item: the context is the
one that the items before it left, with what the item recorded before it failed.

Results:

* `Expand.Sequential.eq_ok_iff`, `Expand.Sequential.eq_error_iff`: the runs of a computation that
  takes items one after the other.
* `Node.bindings_sequential`: the bindings of a `LET` are such a run.
* `Node.expandAll_siblings`: what the siblings of a tree that has been read contribute, and where
  they stop.
-/

namespace WatMacro

/-! ## Runs of several items -/

namespace Expand

section

variable {α β γ : Type}

/-- Items that are run one after the other, each in the context that the one before it left. -/
inductive InOrder (Step : α → Context → β → Context → Prop) :
    List α → Context → List β → Context → Prop
  | nil (context : Context) : InOrder Step [] context [] context
  | cons {item : α} {items : List α} {value : β} {values : List β} {context middle next : Context} :
    Step item context value middle → InOrder Step items middle values next →
    InOrder Step (item :: items) context (value :: values) next

/-- A run that stops at one of the items: those before it are run, and it fails. -/
def StopsAt (Step : α → Context → β → Context → Prop) (Fail : α → Context → Error → Context → Prop)
    (items : List α) (context : Context) (error : Error) (next : Context) : Prop :=
  ∃ front item back values middle, items = front ++ item :: back ∧
    InOrder Step front context values middle ∧ Fail item middle error next

/-- A computation that takes items one after the other, and joins what they contribute. Items that
are not `Proper` are left out of account. -/
structure Sequential (Proper : α → Prop) (Step : α → Context → β → Context → Prop)
    (Fail : α → Context → Error → Context → Prop) (run : List α → Expand γ)
    (join : β → γ → γ) (empty : γ) : Prop where
  nil : run [] = pure empty
  step : ∀ {item items value context middle}, Proper item → Step item context value middle →
    run (item :: items) context = (run items >>= fun rest => pure (join value rest)) middle
  fail : ∀ {item items error context next}, Proper item → Fail item context error next →
    run (item :: items) context = (.error error, next)
  total : ∀ item context, Proper item →
    (∃ value middle, Step item context value middle) ∨ ∃ error next, Fail item context error next

variable {Proper : α → Prop} {Step : α → Context → β → Context → Prop}
  {Fail : α → Context → Error → Context → Prop} {run : List α → Expand γ} {join : β → γ → γ}
  {empty : γ} {items : List α} {context next : Context}

theorem InOrder.length_eq {values : List β} (h : InOrder Step items context values next) :
    values.length = items.length := by
  induction h with
  | nil => rfl
  | cons _ _ ih => rw [List.length_cons, List.length_cons, ih]

namespace Sequential

theorem eq_ok (hrun : Sequential Proper Step Fail run join empty)
    (hproper : ∀ item ∈ items, Proper item) {values : List β}
    (h : InOrder Step items context values next) :
    run items context = (.ok (values.foldr join empty), next) := by
  induction h with
  | nil =>
    rw [hrun.nil]
    rfl
  | cons hstep _ ih =>
    obtain ⟨hitem, hitems⟩ := List.forall_mem_cons.mp hproper
    rw [hrun.step hitem hstep, bind_ok (ih hitems), List.foldr_cons]
    rfl

theorem eq_error (hrun : Sequential Proper Step Fail run join empty)
    (hproper : ∀ item ∈ items, Proper item) {error : Error}
    (h : StopsAt Step Fail items context error next) :
    run items context = (.error error, next) := by
  obtain ⟨front, item, back, values, middle, rfl, hfront, hfail⟩ := h
  induction hfront with
  | nil => exact hrun.fail (hproper item (List.mem_append_right _ List.mem_cons_self)) hfail
  | cons hstep _ ih =>
    obtain ⟨hfirst, hitems⟩ := List.forall_mem_cons.mp hproper
    rw [List.cons_append, hrun.step hfirst hstep, bind_error (ih hitems hfail)]

/-- A run goes through all items, or stops at one of them. -/
theorem inOrder_or_stopsAt (hrun : Sequential Proper Step Fail run join empty)
    (hproper : ∀ item ∈ items, Proper item) (context : Context) :
    (∃ values next, InOrder Step items context values next) ∨
      ∃ error next, StopsAt Step Fail items context error next := by
  induction items generalizing context with
  | nil => exact .inl ⟨_, _, .nil context⟩
  | cons item items ih =>
    obtain ⟨hitem, hitems⟩ := List.forall_mem_cons.mp hproper
    rcases hrun.total item context hitem with ⟨value, middle, hstep⟩ | ⟨error, next, hfail⟩
    · rcases ih hitems middle with ⟨values, next, hvalues⟩ | ⟨error, next, hstops⟩
      · exact .inl ⟨_, _, .cons hstep hvalues⟩
      · obtain ⟨front, other, back, values, last, rfl, hfront, hfail⟩ := hstops
        exact .inr ⟨error, next, item :: front, other, back, value :: values, last, rfl,
          .cons hstep hfront, hfail⟩
    · exact .inr ⟨error, next, [], item, items, [], context, rfl, .nil context, hfail⟩

/-- What a run yields is joined from what the items contribute. -/
theorem eq_ok_iff (hrun : Sequential Proper Step Fail run join empty)
    (hproper : ∀ item ∈ items, Proper item) {result : γ} :
    run items context = (.ok result, next) ↔
      ∃ values, InOrder Step items context values next ∧ result = values.foldr join empty := by
  constructor
  · intro h
    rcases hrun.inOrder_or_stopsAt hproper context with ⟨values, last, hvalues⟩ | ⟨_, _, hstops⟩
    · cases (hrun.eq_ok hproper hvalues).symm.trans h
      exact ⟨values, hvalues, rfl⟩
    · cases (hrun.eq_error hproper hstops).symm.trans h
  · rintro ⟨values, hvalues, rfl⟩
    exact hrun.eq_ok hproper hvalues

/-- A run fails exactly if it stops at one of the items. -/
theorem eq_error_iff (hrun : Sequential Proper Step Fail run join empty)
    (hproper : ∀ item ∈ items, Proper item) {error : Error} :
    run items context = (.error error, next) ↔ StopsAt Step Fail items context error next := by
  refine ⟨fun h => ?_, hrun.eq_error hproper⟩
  rcases hrun.inOrder_or_stopsAt hproper context with ⟨values, last, hvalues⟩ | ⟨_, _, hstops⟩
  · cases (hrun.eq_ok hproper hvalues).symm.trans h
  · cases (hrun.eq_error hproper hstops).symm.trans h
    exact hstops

end Sequential

end

end Expand

open Expand

namespace Node

/-- Expanding a node yields a value or fails. -/
theorem expand_total (node : Node) (context : Context) :
    (∃ value next, node.expand context = (.ok value, next)) ∨
      ∃ error next, node.expand context = (.error error, next) := by
  cases h : node.expand context with
  | mk outcome next =>
    cases outcome with
    | ok value => exact .inl ⟨value, next, rfl⟩
    | error error => exact .inr ⟨error, next, rfl⟩

/-! ## Bindings -/

/-- A binding that succeeds: a name, with its expanded value stripped of its attachments. -/
inductive Binds : Node × Node → Context → Node × Node → Context → Prop
  | bind {name value result : Node} {context next : Context} :
    name.isName = true → value.expand context = (.ok result, next) →
    Binds (name, value) context (name, result.surround [] []) next

/-- A binding that fails: what stands in the place of the name is no name, or the value fails. -/
inductive BindFails : Node × Node → Context → Error → Context → Prop
  | notAName {name : Node} (value : Node) (context : Context) :
    name.isName = false →
    BindFails (name, value) context (.argument .bindLocals (.notAName name.describe)) context
  | value {name value : Node} {error : Error} {context next : Context} :
    name.isName = true → value.expand context = (.error error, next) →
    BindFails (name, value) context error next

/-- Names and values as they alternate among the arguments. -/
def alternate (pairs : List (Node × Node)) : List Node :=
  pairs.flatMap fun (name, value) => [name, value]

theorem alternate_cons (name value : Node) (pairs : List (Node × Node)) :
    alternate ((name, value) :: pairs) = name :: value :: alternate pairs :=
  rfl

theorem length_alternate (pairs : List (Node × Node)) :
    (alternate pairs).length = 2 * pairs.length := by
  induction pairs with
  | nil => rfl
  | cons pair pairs ih =>
    rw [alternate_cons, List.length_cons, List.length_cons, ih, List.length_cons]
    omega

theorem exists_alternate {arguments : List Node} (h : arguments.length % 2 = 0) :
    ∃ pairs, arguments = alternate pairs := by
  induction arguments using List.twoStepInduction with
  | nil => exact ⟨[], rfl⟩
  | singleton => cases h
  | cons_cons name value arguments ih _ =>
    rw [List.length_cons, List.length_cons] at h
    obtain ⟨pairs, rfl⟩ := ih (by omega)
    exact ⟨(name, value) :: pairs, rfl⟩

theorem bindings_cons (name value : Node) (arguments : List Node) :
    Builtin.bindings ((name :: value :: arguments).map operand) =
      if name.isName then do
        let result ← value.expand
        let rest ← Builtin.bindings (arguments.map operand)
        return (name, result.surround [] []) :: rest
      else fail (.argument .bindLocals (.notAName name.describe)) :=
  rfl

/-- The bindings of a `LET` are taken one after the other. -/
theorem bindings_sequential :
    Sequential (fun _ => True) Binds BindFails
      (fun pairs => Builtin.bindings ((alternate pairs).map operand)) List.cons [] where
  nil := rfl
  step := by
    rintro _ items _ context middle - ⟨hname, hvalue⟩
    rw [alternate_cons, bindings_cons, if_pos hname, bind_ok hvalue]
  fail := by
    rintro _ items error context next - (⟨value, _, hname⟩ | ⟨hname, hvalue⟩)
    · rw [alternate_cons, bindings_cons, if_neg (by simp [hname])]
      rfl
    · rw [alternate_cons, bindings_cons, if_pos hname, bind_error hvalue]
  total := by
    rintro ⟨name, value⟩ context -
    cases hname : name.isName with
    | false => exact .inr ⟨_, _, .notAName value context hname⟩
    | true =>
      rcases value.expand_total context with ⟨result, next, hvalue⟩ | ⟨error, next, herror⟩
      · exact .inl ⟨_, _, .bind hname hvalue⟩
      · exact .inr ⟨_, _, .value hname herror⟩

/-! ## Siblings -/

/-- What a `LET` contributes, given its attachments and its bindings: the declaration of all names,
then the assignments in order. -/
def localsBlock (before after : List Node) (bound : List (Node × Node)) : List Node :=
  list (keyword "local" :: bound.flatMap fun (name, _) => [name, keyword "i32"]) before after
    :: bound.map fun (name, value) => list [keyword "set_local", name, value] before after

/-- What a node contributes to the form around it. -/
inductive Gives : Node → Context → List Node → Context → Prop
  | locals {children before after b a : List Node} {pairs bound : List (Node × Node)}
      {context next : Context} :
    children.filter isWord = atom .keyword "LET" b a :: alternate pairs → pairs ≠ [] →
    InOrder Binds pairs context bound next →
    Gives (list children before after) context (localsBlock before after bound) next
  | other {node value : Node} {context next : Context} :
    node.isLocals = false → node.expand context = (.ok value, next) →
    Gives node context [value] next

/-- How a node fails. A `LET` without the arguments that it needs fails at once, and any other `LET`
at one of its bindings. -/
inductive Fails : Node → Context → Error → Context → Prop
  | tooFew {children before after b a arguments : List Node} (context : Context) :
    children.filter isWord = atom .keyword "LET" b a :: arguments → arguments.length < 2 →
    Fails (list children before after) context
      (.arity .bindLocals .atLeastTwo arguments.length) context
  | odd {children before after b a arguments : List Node} (context : Context) :
    children.filter isWord = atom .keyword "LET" b a :: arguments → 2 ≤ arguments.length →
    arguments.length % 2 = 1 →
    Fails (list children before after) context
      (.arity .bindLocals .even arguments.length) context
  | binding {children before after b a : List Node} {pairs : List (Node × Node)} {error : Error}
      {context next : Context} :
    children.filter isWord = atom .keyword "LET" b a :: alternate pairs →
    StopsAt Binds BindFails pairs context error next →
    Fails (list children before after) context error next
  | other {node : Node} {error : Error} {context next : Context} :
    node.isLocals = false → node.expand context = (.error error, next) →
    Fails node context error next

theorem isLocals_of_words {children b a arguments : List Node} (before after : List Node)
    (hwords : children.filter isWord = atom .keyword "LET" b a :: arguments) :
    (list children before after).isLocals = true := by
  rw [isLocals_list, Form.keyword?_of_words hwords]
  rfl

/-- A `LET` gives a node more than it has bindings, and any other node gives one. -/
theorem Gives.length_eq {node : Node} {block : List Node} {context next : Context}
    (h : Gives node context block next) :
    block.length = if node.isLocals then node.words.length / 2 + 1 else 1 := by
  cases h with
  | @locals nodes before after _ _ _ _ _ _ hwords _ hbound =>
    have hlength : (list nodes before after).words.length = _ := congrArg List.length hwords
    rw [if_pos (isLocals_of_words before after hwords), hlength, localsBlock, List.length_cons,
      List.length_map, hbound.length_eq, List.length_cons, length_alternate]
    omega
  | other hother _ =>
    rw [hother]
    rfl

section

variable {children b a arguments : List Node} {context next : Context}

/-- A `LET` without enough arguments, or with an odd number of them. -/
theorem expand_locals_of_shape (before after : List Node)
    (hwords : children.filter isWord = atom .keyword "LET" b a :: arguments) :
    (arguments.length < 2 → (list children before after).expand context =
      (.error (.arity .bindLocals .atLeastTwo arguments.length), context)) ∧
    (2 ≤ arguments.length → arguments.length % 2 = 1 → (list children before after).expand context =
      (.error (.arity .bindLocals .even arguments.length), context)) := by
  rw [expand_builtin before after hwords rfl, Builtin.expand, List.length_map]
  refine ⟨fun hfew => ?_, fun hmany hodd => ?_⟩
  · rw [if_pos hfew]
    rfl
  · rw [if_neg (by omega), if_pos (by omega)]
    rfl

/-- A `LET` with the arguments that it needs. -/
theorem expand_locals (before after : List Node) {pairs : List (Node × Node)}
    (hwords : children.filter isWord = atom .keyword "LET" b a :: alternate pairs)
    (hpairs : pairs ≠ []) :
    (list children before after).expand =
      ((Builtin.bindings ((alternate pairs).map operand) >>= fun bound =>
        pure (Builtin.assignments bound)) >>= fun node =>
          pure (Form.attach before after node)) := by
  have hlength := length_alternate pairs
  have hsome := List.length_pos_iff.mpr hpairs
  rw [expand_builtin before after hwords rfl, Builtin.expand, List.length_map,
    if_neg (by omega), if_neg (by omega)]

/-- The form around a node takes in what the node gives. -/
theorem expand_of_gives {node : Node} {block : List Node} (hsource : node.holdsSplice = false)
    (h : Gives node context block next) :
    ∃ value, node.expand context = (.ok value, next) ∧ value.spread = block := by
  cases h with
  | @locals children before after b a pairs bound _ _ hwords hpairs hbound =>
    have hbindings := bindings_sequential.eq_ok (fun _ _ => trivial) hbound
    rw [List.foldr_cons_nil] at hbindings
    refine ⟨Form.attach before after (Builtin.assignments bound), ?_, ?_⟩
    · rw [expand_locals before after hwords hpairs]
      exact bind_ok (bind_ok hbindings _) _
    · -- a splice hands the attachments of the form to its items
      rw [Builtin.assignments, Form.attach, spread, List.map_cons, List.map_map]
      rfl
  | @other _ value _ _ hother hvalue =>
    -- in a tree as read, only a `LET` expands to a splice
    have hsplice := (expand_strands hsource hvalue).isSplice_eq
    exact ⟨value, hvalue, spread_of_not_isSplice (hsplice.trans hother)⟩

theorem expand_of_fails {node : Node} {error : Error} (h : Fails node context error next) :
    node.expand context = (.error error, next) := by
  cases h with
  | @tooFew _ before after _ _ _ _ hwords hfew =>
    exact (expand_locals_of_shape before after hwords).1 hfew
  | @odd _ before after _ _ _ _ hwords hmany hodd =>
    exact (expand_locals_of_shape before after hwords).2 hmany hodd
  | @binding _ before after _ _ pairs _ _ _ hwords hstops =>
    have hpairs : pairs ≠ [] := by
      obtain ⟨front, item, back, -, -, rfl, -, -⟩ := hstops
      exact List.append_ne_nil_of_right_ne_nil _ (List.cons_ne_nil _ _)
    have hbindings := bindings_sequential.eq_error (fun _ _ => trivial) hstops
    rw [expand_locals before after hwords hpairs]
    exact bind_error (bind_error hbindings _) _
  | other _ hvalue => exact hvalue

end

theorem exists_words_of_isLocals {node : Node} (h : node.isLocals = true) :
    ∃ children before after b a arguments, node = list children before after ∧
      children.filter isWord = atom .keyword "LET" b a :: arguments := by
  cases node with
  | list children before after =>
    rw [isLocals_list, decide_eq_true_iff] at h
    unfold Form.keyword? at h
    split at h
    · rename_i text b a arguments hwords
      cases h
      exact ⟨children, before, after, b, a, arguments, rfl, hwords⟩
    · cases h
  | _ => cases h

/-- A node gives something or fails. -/
theorem gives_or_fails (node : Node) (context : Context) :
    (∃ block next, Gives node context block next) ∨
      ∃ error next, Fails node context error next := by
  cases hlocals : node.isLocals with
  | false =>
    rcases expand_total node context with ⟨value, next, hvalue⟩ | ⟨error, next, herror⟩
    · exact .inl ⟨_, _, .other hlocals hvalue⟩
    · exact .inr ⟨_, _, .other hlocals herror⟩
  | true =>
    obtain ⟨children, before, after, b, a, arguments, rfl, hwords⟩ :=
      exists_words_of_isLocals hlocals
    by_cases hfew : arguments.length < 2
    · exact .inr ⟨_, _, .tooFew context hwords hfew⟩
    by_cases hodd : arguments.length % 2 = 1
    · exact .inr ⟨_, _, .odd context hwords (by omega) hodd⟩
    obtain ⟨pairs, rfl⟩ : ∃ pairs, arguments = alternate pairs := exists_alternate (by omega)
    have hpairs : pairs ≠ [] := by
      rintro rfl
      exact hfew (by decide)
    have hproper : ∀ pair ∈ pairs, True := fun _ _ => trivial
    rcases bindings_sequential.inOrder_or_stopsAt hproper context with
      ⟨bound, next, hbound⟩ | ⟨error, next, hstops⟩
    · exact .inl ⟨_, _, .locals hwords hpairs hbound⟩
    · exact .inr ⟨_, _, .binding hwords hstops⟩

/-- Nodes without splices in them are taken one after the other, and what they give is put one
behind the other. -/
theorem expandAll_sequential :
    Sequential (fun node : Node => node.holdsSplice = false) Gives Fails
      (fun nodes => Operand.expandAll (nodes.map operand)) (· ++ ·) [] where
  nil := rfl
  step := by
    intro node nodes block context middle hsource hgives
    obtain ⟨value, hvalue, rfl⟩ := expand_of_gives hsource hgives
    exact bind_ok hvalue _
  fail := by
    intro node nodes error context next _ hfails
    exact bind_error (expand_of_fails hfails) _
  total node context _ := gives_or_fails node context

/-! ## Trees -/

theorem holdsSplice_of_mem_descendants {node below : Node} (hsource : node.holdsSplice = false)
    (h : below ∈ node.descendants) : below.holdsSplice = false := by
  induction node using Node.induction with
  | atom kind text before after _ _ =>
    rw [descendants, List.mem_singleton] at h
    exact h ▸ hsource
  | list children before after ih _ _ =>
    rw [descendants] at h
    rcases List.mem_cons.mp h with rfl | h
    · exact hsource
    · obtain ⟨child, hchild, hbelow⟩ := exists_of_mem_descendantsAll h
      rw [holdsSplice_list, Bool.or_eq_false_iff] at hsource
      exact ih child hchild (any_holdsSplice_eq_false.mp hsource.1 child hchild) hbelow
  | splice items before after _ _ _ =>
    rw [holdsSplice_splice] at hsource
    cases hsource

/-- Siblings in the tree of a source that has been read, expanded in any context. If they succeed,
each gives a block in the context that the ones before it left, and the blocks are put one behind
the other: a `LET` gives the declaration of its names and their assignments, each with the
attachments of the `LET`, and any other node gives the one node that it expands to. So a block has a
node more than the `LET` has bindings, or one node. They fail exactly if one of them fails in the
context that the ones before it left: a `LET` without the arguments that it needs leaves that
context as it is, and any other one leaves what its bindings record up to the one that fails. -/
theorem expandAll_siblings {source : String} {form : Node} (hread : Node.read source = .ok form)
    {siblings : List Node} (hsiblings : ∀ node ∈ siblings, node ∈ form.descendants)
    (context : Context) :
    (∀ out next, Operand.expandAll (operandsOf siblings) context = (.ok out, next) ↔
      ∃ blocks, InOrder Gives siblings context blocks next ∧ out = blocks.flatten) ∧
    (∀ error next, Operand.expandAll (operandsOf siblings) context = (.error error, next) ↔
      StopsAt Gives Fails siblings context error next) ∧
    ∀ node context block next, Gives node context block next →
      block.length = if node.isLocals then node.words.length / 2 + 1 else 1 := by
  have hproper : ∀ node ∈ siblings, node.holdsSplice = false := fun node hnode =>
    holdsSplice_of_mem_descendants (read_asRead hread).holdsSplice_eq (hsiblings node hnode)
  have hflatten : ∀ blocks : List (List Node), blocks.foldr (· ++ ·) [] = blocks.flatten := by
    intro blocks
    induction blocks with
    | nil => rfl
    | cons block blocks ih => rw [List.foldr_cons, ih, List.flatten_cons]
  rw [operandsOf_eq]
  refine ⟨fun out next => ?_, fun error next => expandAll_sequential.eq_error_iff hproper,
    fun node context block next h => h.length_eq⟩
  refine (expandAll_sequential.eq_ok_iff hproper).trans ?_
  simp only [hflatten]

/-- A `LET` with two bindings, a declaration, and a `LET` that has too few arguments. -/
theorem expandAll_siblings_locals :
    let form : Node := .form [.keyword "func", .trivia " ",
      .list [.keyword "LET", .trivia " ", .name "$a", .trivia " ", .integer "1", .trivia " ",
        .name "$b", .trivia " ", .integer "2"] [] [.trivia " "],
      .list [.keyword "global", .trivia " ", .name "$g", .trivia " ", .keyword "i32", .trivia " ",
        .integer "0"] [] [.trivia " "],
      .form [.keyword "LET", .trivia " ", .name "$c"]]
    Node.read "(func (LET $a 1 $b 2) (global $g i32 0) (LET $c))" = .ok form ∧
    (∃ blocks next, InOrder Gives (form.children.take 4) .empty blocks next ∧
      blocks.flatten.length = 6 ∧ next.hoisted.length = 1) ∧
    ∃ next, StopsAt Gives Fails form.children .empty (.arity .bindLocals .atLeastTwo 1) next ∧
      next.hoisted.length = 1 := by
  intro form
  have htexts : tokenize "(func (LET $a 1 $b 2) (global $g i32 0) (LET $c))" =
      .ok ["(", "func", " ", "(", "LET", " ", "$a", " ", "1", " ", "$b", " ", "2", ")", " ",
        "(", "global", " ", "$g", " ", "i32", " ", "0", ")", " ", "(", "LET", " ", "$c", ")",
        ")"] := by
    decide +kernel
  have hread : Node.read "(func (LET $a 1 $b 2) (global $g i32 0) (LET $c))" = .ok form :=
    Node.read_eq_ok.mpr ⟨_, htexts, rfl⟩
  have hmem : ∀ node ∈ form.children, node ∈ form.descendants :=
    fun node hnode => mem_descendants_list hnode (mem_descendants_self node)
  refine ⟨hread, ?_, ?_⟩
  · obtain ⟨out, next, hrun, hlength, hhoisted⟩ : ∃ out next,
        Operand.expandAll (operandsOf (form.children.take 4)) .empty = (.ok out, next) ∧
          out.length = 6 ∧ next.hoisted.length = 1 := ⟨_, _, rfl, rfl, rfl⟩
    obtain ⟨hok, -, -⟩ := expandAll_siblings hread
      (fun node hnode => hmem node (List.mem_of_mem_take hnode)) .empty
    obtain ⟨blocks, hblocks, rfl⟩ := (hok out next).mp hrun
    exact ⟨blocks, next, hblocks, hlength, hhoisted⟩
  · obtain ⟨next, hrun, hhoisted⟩ : ∃ next,
        Operand.expandAll (operandsOf form.children) .empty =
          (.error (.arity .bindLocals .atLeastTwo 1), next) ∧
          next.hoisted.length = 1 := ⟨_, rfl, rfl⟩
    obtain ⟨-, herror, -⟩ := expandAll_siblings hread hmem .empty
    exact ⟨next, (herror _ _).mp hrun, hhoisted⟩

end Node

end WatMacro
