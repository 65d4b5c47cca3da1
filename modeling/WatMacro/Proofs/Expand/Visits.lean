import WatMacro.Proofs.Expand.ShortCircuit
import WatMacro.Proofs.Node.Listing

/-!
# Which lists are expanded

The expansion of a form visits the form itself and the lists among its expressions, and not the ones
that it keeps as they are. A visit starts at the opening and ends at the closing parenthesis of the
list, so the visits of a source are events along its tokens. Each of them knows the context that the
visit started from.

Results:

* `Node.traced_tokens`: the events are put on the tokens of the source.
* `Node.mem_traced`: they are put on parentheses, and come from lists of the tree.
-/

namespace WatMacro

open Expand

namespace Form

/-- The keyword at the head of some words. -/
def keyword? : List Node → Option String
  | .atom .keyword text _ _ :: _ => some text
  | _ => none

/-- The name of a module with the given words, if it has one. -/
def moduleName? : List Node → Option String
  | .atom .keyword text _ _ :: .atom .name name _ _ :: _ =>
    if text = "module" then some (moduleName name) else none
  | _ => none

/-- Whether a form with the given words expands its words from the last one back. -/
def runsBack (words : List Node) : Bool :=
  match (keyword? words).bind Builtin.ofKeyword? with
  | some .and | some .or => true
  | _ => false

/-- The context in which a form with the given words begins to expand them. -/
def enter (words : List Node) (context : Context) : Context :=
  match moduleName? words with
  | some name => context.addModule name
  | none => context

theorem keyword?_of_words {words b a arguments : List Node} {text : String}
    (h : words = .atom .keyword text b a :: arguments) : keyword? words = some text := by
  rw [h]
  rfl

theorem keyword?_of_moduleName? {words : List Node} {name : String}
    (h : moduleName? words = some name) : keyword? words = some "module" := by
  unfold moduleName? at h
  split at h
  · split at h
    · rename_i htext
      rw [← htext]
      rfl
    · cases h
  · cases h

/-- Only a module may have a name. -/
theorem enter_eq_self {words : List Node} (h : keyword? words ≠ some "module")
    (context : Context) : enter words context = context := by
  unfold enter
  split
  · rename_i hname
    exact absurd (keyword?_of_moduleName? hname) h
  · rfl

theorem enter_hoisted (words : List Node) (context : Context) :
    (enter words context).hoisted = context.hoisted := by
  unfold enter
  split <;> rfl

/-- A head that calls a macro. -/
theorem ne_of_ofKeyword? {head : String} {builtin : Builtin}
    (h : Builtin.ofKeyword? head = some builtin) :
    head ≠ "global" ∧ head ≠ "table" ∧ head ≠ "module" := by
  refine ⟨?_, ?_, ?_⟩ <;> rintro rfl <;> cases h

theorem runsBack_eq_false {words : List Node}
    (h : ∀ head ∈ keyword? words, Builtin.ofKeyword? head ≠ some .and ∧
      Builtin.ofKeyword? head ≠ some .or) : runsBack words = false := by
  unfold runsBack
  cases hhead : keyword? words with
  | none => rfl
  | some head =>
    obtain ⟨hand, hor⟩ := h head hhead
    rw [Option.bind_some]
    split
    · rename_i heq
      exact absurd heq hand
    · rename_i heq
      exact absurd heq hor
    · rfl

theorem Plain.moduleName?_eq_none {words : List Node} (h : Plain words) :
    moduleName? words = none := by
  unfold moduleName?
  split
  · cases h with
    | keyword _ _ hmodule =>
      rw [if_neg fun htext => absurd (hmodule htext) (by simp [Node.isName])]
    | other hhead => exact absurd rfl (hhead _ _ _ _ rfl).2
  · rfl

theorem Plain.keyword?_of_plain {words : List Node} (h : Plain words) :
    ∀ head ∈ keyword? words, Builtin.ofKeyword? head = none ∧
      ∀ last, Policy.ofHead head ≠ .hoist last := by
  intro head hhead
  cases h with
  | keyword hbuiltin hpolicy _ =>
    cases hhead
    exact ⟨hbuiltin, hpolicy⟩
  | other hother =>
    unfold keyword? at hhead
    split at hhead
    · exact absurd rfl (hother _ _ _ _ rfl).2
    · cases hhead

end Form

/-- The start or the end of the visit of a list, and the context that the visit started from. -/
structure Visit where
  opens : Bool
  children : List Node
  context : Context

namespace Visit

/-- The words of the list. -/
def words (visit : Visit) : List Node :=
  visit.children.filter Node.isWord

/-- Whether this is the end of the visit of a declaration. -/
def declares (visit : Visit) : Bool :=
  !visit.opens && (Form.keyword? visit.words).any fun head => head = "global" || head = "table"

/-- The name of a module at the start of its visit. -/
def moduleName? (visit : Visit) : Option String :=
  if visit.opens then Form.moduleName? visit.words else none

end Visit

namespace Node

/-- The tokens of nodes that are not visited. -/
def unvisited (nodes : List Node) : List (Token × Option Visit) :=
  (listingAll nodes).map (·, none)

mutual

/-- The tokens of a node that is expanded from a context, with the visits. -/
def traced : Node → Context → List (Token × Option Visit)
  | list children before after, context =>
    unvisited before ++ (.opening, some ⟨true, children, context⟩) ::
      (tracedRow (Form.runsBack (children.filter isWord))
          (Form.isExpression (children.filter isWord)) 0 children
          (Form.enter (children.filter isWord) context) ++
        (.closing, some ⟨false, children, context⟩) :: unvisited after)
  | atom kind text before after, _ => unvisited [atom kind text before after]
  | splice items before after, _ => unvisited [splice items before after]

/-- The tokens of the children of a form, of which some are expressions. They are expanded in order,
or the last one first. -/
def tracedRow (back : Bool) (expression : Nat → Bool) :
    Nat → List Node → Context → List (Token × Option Visit)
  | _, [], _ => []
  | position, node :: nodes, context =>
    if node.isWord then
      if expression position then
        traced node (if back then (expandBack (nodes.filter isWord) context).2 else context) ++
          tracedRow back expression (position + 1) nodes
            (if back then context else (node.expand context).2)
      else unvisited [node] ++ tracedRow back expression (position + 1) nodes context
    else unvisited [node] ++ tracedRow back expression position nodes context

end

/-- The visits of lists when a node is expanded from a context, in the order of the tokens. -/
def visits (node : Node) (context : Context) : List Visit :=
  (node.traced context).filterMap Prod.snd

theorem unvisited_tokens (nodes : List Node) :
    (unvisited nodes).map Prod.fst = listingAll nodes := by
  simp [unvisited, Function.comp_def]

theorem tracedRow_tokens {back : Bool} {expression : Nat → Bool} {nodes : List Node}
    (position : Nat) (context : Context)
    (h : ∀ node ∈ nodes, ∀ context, (node.traced context).map Prod.fst = node.listing) :
    (tracedRow back expression position nodes context).map Prod.fst = listingAll nodes := by
  induction nodes generalizing position context with
  | nil => rfl
  | cons node nodes ih =>
    obtain ⟨hnode, hnodes⟩ := List.forall_mem_cons.mp h
    rw [tracedRow, listingAll_cons]
    split
    · split
      · rw [List.map_append, hnode, ih _ _ hnodes]
      · rw [List.map_append, unvisited_tokens, ih _ _ hnodes, listingAll_cons, listingAll_nil,
          List.append_nil]
    · rw [List.map_append, unvisited_tokens, ih _ _ hnodes, listingAll_cons, listingAll_nil,
        List.append_nil]

/-- The events are put on the tokens of the node. -/
theorem traced_tokens (node : Node) (context : Context) :
    (node.traced context).map Prod.fst = node.listing := by
  induction node using Node.induction generalizing context with
  | atom kind text before after _ _ =>
    rw [traced, unvisited_tokens, listingAll_cons, listingAll_nil, List.append_nil]
  | list children before after ih _ _ =>
    simp [traced, listing, unvisited_tokens, tracedRow_tokens 0 _ ih]
  | splice items before after _ _ _ =>
    rw [traced, unvisited_tokens, listingAll_cons, listingAll_nil, List.append_nil]

/-- The visits among the tokens of the children of a form. -/
def visitsRow (back : Bool) (expression : Nat → Bool) (position : Nat) (nodes : List Node)
    (context : Context) : List Visit :=
  (tracedRow back expression position nodes context).filterMap Prod.snd

theorem visits_unvisited (nodes : List Node) : (unvisited nodes).filterMap Prod.snd = [] := by
  simp [unvisited]

section

variable {back : Bool} {expression : Nat → Bool} {position : Nat} {node : Node}

theorem visitsRow_trivia (hword : node.isWord = false) (nodes : List Node) (context : Context) :
    visitsRow back expression position (node :: nodes) context =
      visitsRow back expression position nodes context := by
  rw [visitsRow, tracedRow, if_neg (by simp [hword]), List.filterMap_append, visits_unvisited]
  rfl

theorem visitsRow_kept (hword : node.isWord = true) (hkept : expression position = false)
    (nodes : List Node) (context : Context) :
    visitsRow back expression position (node :: nodes) context =
      visitsRow back expression (position + 1) nodes context := by
  rw [visitsRow, tracedRow, if_pos hword, if_neg (by simp [hkept]), List.filterMap_append,
    visits_unvisited]
  rfl

theorem visitsRow_expanded (hword : node.isWord = true) (hexpression : expression position = true)
    (nodes : List Node) (context : Context) :
    visitsRow back expression position (node :: nodes) context =
      node.visits (if back then (expandBack (nodes.filter isWord) context).2 else context) ++
        visitsRow back expression (position + 1) nodes
          (if back then context else (node.expand context).2) := by
  rw [visitsRow, tracedRow, if_pos hword, if_pos hexpression, List.filterMap_append]
  rfl

end

theorem visits_list (children before after : List Node) (context : Context) :
    (list children before after).visits context =
      ⟨true, children, context⟩ ::
        (visitsRow (Form.runsBack (children.filter isWord))
          (Form.isExpression (children.filter isWord)) 0 children
          (Form.enter (children.filter isWord) context) ++ [⟨false, children, context⟩]) := by
  rw [visits, traced]
  simp [visits_unvisited, visitsRow]

theorem not_mem_unvisited {nodes : List Node} {token : Token} {visit : Visit} :
    (token, some visit) ∉ unvisited nodes := by
  simp [unvisited]

theorem mem_tracedRow {back : Bool} {expression : Nat → Bool} {position : Nat}
    {nodes : List Node} {context : Context} {token : Token} {visit : Visit}
    (h : (token, some visit) ∈ tracedRow back expression position nodes context) :
    ∃ node ∈ nodes, ∃ context, (token, some visit) ∈ node.traced context := by
  induction nodes generalizing position context with
  | nil => cases h
  | cons node nodes ih =>
    have hrest : ∀ {p : Nat} {c : Context},
        (token, some visit) ∈ tracedRow back expression p nodes c →
        ∃ other ∈ node :: nodes, ∃ context, (token, some visit) ∈ other.traced context := by
      intro p c hvisit
      obtain ⟨other, hother, hmem⟩ := ih hvisit
      exact ⟨other, List.mem_cons_of_mem _ hother, hmem⟩
    rw [tracedRow] at h
    split at h
    · split at h
      · rcases List.mem_append.mp h with h | h
        · exact ⟨node, List.mem_cons_self, _, h⟩
        · exact hrest h
      · exact hrest ((List.mem_append.mp h).resolve_left not_mem_unvisited)
    · exact hrest ((List.mem_append.mp h).resolve_left not_mem_unvisited)

/-- A visit starts at an opening and ends at a closing parenthesis, and it is that of a list of the
tree. -/
theorem mem_traced {node : Node} {context : Context} {token : Token} {visit : Visit}
    (h : (token, some visit) ∈ node.traced context) :
    token = (if visit.opens then .opening else .closing) ∧
      ∃ before after, list visit.children before after ∈ node.descendants := by
  induction node using Node.induction generalizing context with
  | atom kind text before after _ _ => exact absurd h not_mem_unvisited
  | splice items before after _ _ _ => exact absurd h not_mem_unvisited
  | list children before after ih _ _ =>
    rw [traced] at h
    rcases List.mem_cons.mp ((List.mem_append.mp h).resolve_left not_mem_unvisited) with h | h
    · cases h
      exact ⟨rfl, before, after, mem_descendants_self _⟩
    rcases List.mem_append.mp h with h | h
    · obtain ⟨child, hchild, _, hvisit⟩ := mem_tracedRow h
      obtain ⟨htoken, b, a, hmem⟩ := ih child hchild hvisit
      exact ⟨htoken, b, a, mem_descendants_list hchild hmem⟩
    rcases List.mem_cons.mp h with h | h
    · cases h
      exact ⟨rfl, before, after, mem_descendants_self _⟩
    · exact absurd h not_mem_unvisited

/-- Every visit is that of a list of the tree. -/
theorem visits_mem {node : Node} {context : Context} {visit : Visit}
    (h : visit ∈ node.visits context) :
    ∃ before after, list visit.children before after ∈ node.descendants := by
  obtain ⟨⟨token, _⟩, hmem, rfl⟩ := List.mem_filterMap.mp h
  exact (mem_traced hmem).2

end Node

end WatMacro
