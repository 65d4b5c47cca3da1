import WatMacro.Proofs.Expand.Steps

/-!
# What an expansion collects

A declaration moves to the top of the module at the end of its visit, and a module gives its name at
the start of its visit. So the declarations are collected in the order of their closing parentheses
and the names in the order of the opening ones. Tests are expanded from the last one back, and for
that reason must not hold declarations or modules.

Results:

* `Node.expand_recorded`: an expansion collects what its visits declare and name.
* `read_expand_collects`: the same of sources.
-/

namespace WatMacro

open Expand

/-- What the end of the visit of a declaration collects. The last word of a `global` is expanded and
its expansion put in place, all else and a `table` as a whole is kept. -/
inductive Declares (visit : Visit) : Node → Prop
  | global {front back : List Node} {last value : Node} {next : Context} :
    Form.keyword? visit.words = some "global" → visit.children = front ++ last :: back →
    last.isWord = true → (∀ node ∈ back, node.isWord = false) →
    last.expand visit.context = (.ok value, next) →
    Declares visit (.list (front ++ value.spread ++ back) [.trivia "  "] [.trivia "\n"])
  | table : Form.keyword? visit.words = some "table" →
    Declares visit (.list visit.children [.trivia "  "] [.trivia "\n"])

/-- Between two contexts, visits have collected their declarations and names in order, each once. -/
structure Recorded (visits : List Visit) (context next : Context) : Prop where
  hoisted : ∃ declarations, next.hoisted = context.hoisted ++ declarations ∧
    List.Forall₂ Declares (visits.filter Visit.declares) declarations
  modules : next.modules = context.modules ++ visits.filterMap Visit.moduleName?

namespace Recorded

variable {front back : List Visit} {context middle next : Context}

theorem refl (context : Context) : Recorded [] context context where
  hoisted := ⟨[], (List.append_nil _).symm, .nil⟩
  modules := (List.append_nil _).symm

theorem append (hfront : Recorded front context middle) (hback : Recorded back middle next) :
    Recorded (front ++ back) context next where
  hoisted := by
    obtain ⟨declarations, hdeclarations, hdeclares⟩ := hfront.hoisted
    obtain ⟨declarations', hdeclarations', hdeclares'⟩ := hback.hoisted
    refine ⟨declarations ++ declarations', ?_, ?_⟩
    · rw [hdeclarations', hdeclarations, List.append_assoc]
    · rw [List.filter_append]
      exact List.rel_append hdeclares hdeclares'
  modules := by
    rw [hback.modules, hfront.modules, List.filterMap_append, List.append_assoc]

/-- Visits that neither declare nor name anything. -/
theorem of_quiet {visits : List Visit} (hdeclares : visits.filter Visit.declares = [])
    (hnames : visits.filterMap Visit.moduleName? = []) (hhoisted : next.hoisted = context.hoisted)
    (hmodules : next.modules = context.modules) : Recorded visits context next where
  hoisted := ⟨[], by rw [hhoisted, List.append_nil], by rw [hdeclares]; exact .nil⟩
  modules := by rw [hmodules, hnames, List.append_nil]

theorem quiet {visits : List Visit} (h : Recorded visits context next)
    (hdeclares : visits.filter Visit.declares = [])
    (hnames : visits.filterMap Visit.moduleName? = []) :
    next.hoisted = context.hoisted ∧ next.modules = context.modules := by
  obtain ⟨declarations, hhoisted, hdeclarations⟩ := h.hoisted
  rw [hdeclares] at hdeclarations
  cases hdeclarations
  exact ⟨by rw [hhoisted, List.append_nil], by rw [h.modules, hnames, List.append_nil]⟩

end Recorded

namespace Node

/-- The expressions among some children, expanded in order. -/
theorem Steps.recorded {expression : Nat → Bool} {position : Nat} {nodes values : List Node}
    {context next : Context} (h : Steps expression position nodes context values next)
    (hnodes : ∀ node ∈ nodes, ∀ context next value, node.expand context = (.ok value, next) →
      Recorded (node.visits context) context next) :
    Recorded (visitsRow false expression position nodes context) context next := by
  induction h with
  | nil => exact .refl _
  | trivia hword _ ih =>
    rw [visitsRow_trivia hword]
    exact ih (List.forall_mem_cons.mp hnodes).2
  | kept hword hkept _ ih =>
    rw [visitsRow_kept hword hkept]
    exact ih (List.forall_mem_cons.mp hnodes).2
  | expanded hword hexpression hvalue _ ih =>
    obtain ⟨hnode, hrest⟩ := List.forall_mem_cons.mp hnodes
    rw [visitsRow_expanded hword hexpression]
    simp only [Bool.false_eq_true, if_false, hvalue]
    exact (hnode _ _ _ hvalue).append (ih hrest)

/-! ## Tests -/

/-- A tree without declarations and modules. -/
def CollectsNothing (node : Node) : Prop :=
  ∀ below ∈ node.descendants, below.head? ∉ [some "global", some "table", some "module"]

instance CollectsNothing.decidable (node : Node) : Decidable node.CollectsNothing :=
  inferInstanceAs (Decidable (∀ below ∈ node.descendants, _ ∉ _))

theorem head?_of_keyword? {children before after : List Node} {text : String}
    (h : Form.keyword? (children.filter isWord) = some text) :
    (list children before after).head? = some text := by
  rw [head?, words, Node.children]
  unfold Form.keyword? at h
  split at h
  · rename_i heq
    rw [heq]
    exact h
  · cases h

theorem CollectsNothing.visits_quiet {node : Node} (h : node.CollectsNothing) (context : Context) :
    (node.visits context).filter Visit.declares = [] ∧
      (node.visits context).filterMap Visit.moduleName? = [] := by
  rw [List.filter_eq_nil_iff, List.filterMap_eq_nil_iff]
  constructor
  · intro visit hvisit hdeclares
    obtain ⟨before, after, hbelow⟩ := visits_mem hvisit
    rw [Visit.declares, Bool.and_eq_true, Option.any_eq_true] at hdeclares
    obtain ⟨-, head, hhead, htext⟩ := hdeclares
    have hbelow' := h _ hbelow
    rw [head?_of_keyword? hhead] at hbelow'
    simp at htext hbelow'
    tauto
  · intro visit hvisit
    obtain ⟨before, after, hbelow⟩ := visits_mem hvisit
    rw [Visit.moduleName?]
    split
    · cases hname : Form.moduleName? visit.words with
      | none => rfl
      | some name =>
        have hbelow' := h _ hbelow
        rw [head?_of_keyword? (Form.keyword?_of_moduleName? hname)] at hbelow'
        simp at hbelow'
    · rfl

theorem CollectsNothing.child {children before after : List Node} {child : Node}
    (h : (list children before after).CollectsNothing) (hchild : child ∈ children) :
    child.CollectsNothing :=
  fun below hbelow => h below (mem_descendants_list hchild hbelow)

/-- Tests that collect nothing. -/
theorem expandBack_collects {nodes values : List Node} {context next : Context}
    (hnodes : ∀ node ∈ nodes, ∀ context next value, node.expand context = (.ok value, next) →
      next.hoisted = context.hoisted ∧ next.modules = context.modules)
    (h : expandBack nodes context = (.ok values, next)) :
    next.hoisted = context.hoisted ∧ next.modules = context.modules := by
  induction nodes generalizing values next with
  | nil =>
    cases h
    exact ⟨rfl, rfl⟩
  | cons node nodes ih =>
    obtain ⟨hnode, hnodes⟩ := List.forall_mem_cons.mp hnodes
    obtain ⟨rest, middle, hrest, hfirst⟩ := bind_eq_ok h
    obtain ⟨value, last, hvalue, hlast⟩ := bind_eq_ok hfirst
    cases hlast
    obtain ⟨hhoisted, hmodules⟩ := ih hnodes hrest
    obtain ⟨hhoisted', hmodules'⟩ := hnode _ _ _ hvalue
    exact ⟨hhoisted'.trans hhoisted, hmodules'.trans hmodules⟩

/-! ## Lists -/

section

variable {children before after : List Node} {context middle next : Context}

/-- The start of a visit. -/
theorem recorded_open (children : List Node) (context : Context) :
    Recorded [⟨true, children, context⟩] context
      (Form.enter (children.filter isWord) context) := by
  have hdeclares : [(⟨true, children, context⟩ : Visit)].filter Visit.declares = [] := rfl
  refine ⟨⟨[], ?_, by rw [hdeclares]; exact .nil⟩, ?_⟩
  · rw [Form.enter_hoisted, List.append_nil]
  · rw [List.filterMap_cons, Visit.moduleName?, if_pos rfl, Visit.words, Form.enter]
    cases Form.moduleName? (children.filter isWord) with
    | some name => rfl
    | none => exact (List.append_nil _).symm

/-- The end of the visit of a list that is no declaration. -/
theorem recorded_close (hhead : ∀ head ∈ Form.keyword? (children.filter isWord),
      head ≠ "global" ∧ head ≠ "table")
    (hhoisted : next.hoisted = middle.hoisted) (hmodules : next.modules = middle.modules) :
    Recorded [⟨false, children, context⟩] middle next := by
  refine .of_quiet ?_ rfl hhoisted hmodules
  rw [List.filter_eq_nil_iff]
  intro visit hvisit hdeclares
  obtain rfl := List.mem_singleton.mp hvisit
  rw [Visit.declares, Bool.and_eq_true, Option.any_eq_true] at hdeclares
  obtain ⟨-, head, hmem, htext⟩ := hdeclares
  have hne := hhead head hmem
  simp at htext
  tauto

/-- The visit of a list whose expressions are expanded in order. -/
theorem recorded_list (hback : Form.runsBack (children.filter isWord) = false)
    (hrow : Recorded (visitsRow false (Form.isExpression (children.filter isWord)) 0 children
      (Form.enter (children.filter isWord) context)) (Form.enter (children.filter isWord) context)
      middle)
    (hclose : Recorded [⟨false, children, context⟩] middle next) :
    Recorded ((list children before after).visits context) context next := by
  rw [visits_list, hback, ← List.singleton_append]
  exact (recorded_open children context).append (hrow.append hclose)

end

/-! ## Declarations -/

/-- Expanding the last word of a row that has a word. -/
theorem expandLast_eq_ok {nodes new : List Node} {context next : Context}
    (hword : nodes.any isWord = true)
    (h : Operand.expandLast (nodes.map operand) context = (.ok new, next)) :
    ∃ front last back value, nodes = front ++ last :: back ∧ last.isWord = true ∧
      (∀ node ∈ back, node.isWord = false) ∧ last.expand context = (.ok value, next) ∧
      new = front ++ value.spread ++ back := by
  induction nodes generalizing new with
  | nil => cases hword
  | cons node nodes ih =>
    have hany : (nodes.map operand).any Operand.isWord = nodes.any isWord := by
      rw [List.any_map]
      rfl
    rw [List.map_cons, Operand.expandLast, hany] at h
    cases hrest : nodes.any isWord with
    | true =>
      rw [if_pos hrest] at h
      obtain ⟨tail, middle, htail, hlast⟩ := bind_eq_ok h
      cases hlast
      obtain ⟨front, last, back, value, rfl, hlast, hback, hvalue, rfl⟩ := ih hrest htail
      exact ⟨node :: front, last, back, value, rfl, hlast, hback, hvalue, rfl⟩
    | false =>
      rw [List.any_cons, hrest, Bool.or_false] at hword
      rw [if_neg (by simp [hrest]), if_pos (show node.operand.isWord = true from hword)] at h
      obtain ⟨value, middle, hvalue, hlast⟩ := bind_eq_ok h
      cases hlast
      refine ⟨[], node, nodes, value, rfl, hword, fun other hother => ?_, hvalue, ?_⟩
      · simpa using List.any_eq_false.mp hrest other hother
      · rw [nodes_map_operand]
        rfl

/-- The end of the visit of a declaration. -/
theorem declares_of_expandWords {children b a arguments new : List Node} {text : String}
    {last : Bool} {context next : Context}
    (hwords : children.filter isWord = atom .keyword text b a :: arguments)
    (hpolicy : Policy.ofHead text = .hoist last)
    (h : expandWords children context = (.ok new, next)) :
    Declares ⟨false, children, context⟩ (list new [trivia "  "] [trivia "\n"]) := by
  have hkeyword : Form.keyword? (children.filter isWord) = some text :=
    Form.keyword?_of_words hwords
  rcases Form.ofHead_hoist hpolicy with ⟨rfl, rfl⟩ | ⟨rfl, rfl⟩
  · rw [← expandLast_eq_expandWords hwords rfl (.inl rfl)] at h
    have hword : children.any isWord = true := by
      have hmem : atom .keyword "global" b a ∈ children.filter isWord := by simp [hwords]
      exact List.any_eq_true.mpr ⟨_, (List.mem_filter.mp hmem).1, rfl⟩
    obtain ⟨front, last, back, value, hchildren, hlast, hback, hvalue, rfl⟩ :=
      expandLast_eq_ok hword h
    exact .global hkeyword hchildren hlast hback hvalue
  · rw [← nodes_eq_expandWords hwords rfl (.inl rfl), nodes_map_operand] at h
    cases h
    exact .table hkeyword

theorem recorded_declaration {children b a arguments new : List Node} {text : String} {last : Bool}
    {context next : Context} (hwords : children.filter isWord = atom .keyword text b a :: arguments)
    (hpolicy : Policy.ofHead text = .hoist last)
    (h : expandWords children context = (.ok new, next)) :
    Recorded [⟨false, children, context⟩] next
      (next.hoist (list new [trivia "  "] [trivia "\n"])) := by
  have hdeclares : Visit.declares ⟨false, children, context⟩ = true := by
    rw [Visit.declares, Visit.words, hwords]
    rcases Form.ofHead_hoist hpolicy with ⟨rfl, -⟩ | ⟨rfl, -⟩ <;> rfl
  refine ⟨⟨[_], rfl, ?_⟩, (List.append_nil _).symm⟩
  rw [List.filter_cons_of_pos hdeclares]
  exact .cons (declares_of_expandWords hwords hpolicy h) .nil

/-! ## Trees -/

/-- A tree in which no test holds a declaration or a module. -/
def QuietTests (node : Node) : Prop :=
  ∀ below ∈ node.descendants, below.head? ∈ [some "AND", some "OR"] → below.CollectsNothing

instance QuietTests.decidable (node : Node) : Decidable node.QuietTests :=
  inferInstanceAs (Decidable (∀ below ∈ node.descendants, _ ∈ _ → _))

theorem QuietTests.child {children before after : List Node} {child : Node}
    (h : (list children before after).QuietTests) (hchild : child ∈ children) : child.QuietTests :=
  fun below hbelow => h below (mem_descendants_list hchild hbelow)

/-- An expansion collects what its visits declare and name. -/
theorem expand_recorded {node result : Node} (hquiet : node.QuietTests) {context next : Context}
    (h : node.expand context = (.ok result, next)) :
    Recorded (node.visits context) context next := by
  induction node using Node.induction generalizing result context next with
  | atom kind text before after _ _ =>
    obtain ⟨_, -, -, hhoisted, hmodules⟩ := expand_atom_run h
    rw [visits, traced, visits_unvisited]
    exact .of_quiet rfl rfl hhoisted hmodules
  | splice items before after _ _ _ =>
    cases h
    rw [visits, traced, visits_unvisited]
    exact .refl _
  | list children before after ih _ _ =>
    have hchildren : ∀ child ∈ children, ∀ context next value,
        child.expand context = (.ok value, next) → Recorded (child.visits context) context next :=
      fun child hchild _ _ _ => ih child hchild (hquiet.child hchild)
    cases expand_list_run h with
    | @tests text _ _ arguments _ _ _ hwords hhead htests =>
      have hnothing : (list children before after).CollectsNothing := by
        refine hquiet _ (mem_descendants_self _) ?_
        rw [head?_of_keyword? (Form.keyword?_of_words hwords)]
        rcases hhead with rfl | rfl <;> simp
      have harguments : ∀ argument ∈ arguments, ∀ context next value,
          argument.expand context = (.ok value, next) →
          next.hoisted = context.hoisted ∧ next.modules = context.modules := by
        intro argument hargument context next value hvalue
        have hchild : argument ∈ children :=
          (List.mem_filter.mp (hwords ▸ List.mem_cons_of_mem _ hargument)).1
        obtain ⟨hdeclares, hnames⟩ := (hnothing.child hchild).visits_quiet context
        exact (hchildren argument hchild _ _ _ hvalue).quiet hdeclares hnames
      obtain ⟨hdeclares, hnames⟩ := hnothing.visits_quiet context
      obtain ⟨hhoisted, hmodules⟩ := expandBack_collects harguments htests
      exact .of_quiet hdeclares hnames hhoisted hmodules
    | inOrder hback hsteps hmakes =>
      apply recorded_list hback (hsteps.recorded hchildren)
      cases hmakes with
      | constant hkeyword hbuiltin _ _ hhoisted hmodules =>
        refine recorded_close (fun head hhead => ?_) hhoisted hmodules
        rw [hkeyword] at hhead
        cases hhead
        obtain ⟨hglobal, htable, -⟩ := Form.ne_of_ofKeyword? (Builtin.ofKeyword?_keyword _)
        exact ⟨hglobal, htable⟩
      | locals hkeyword _ _ =>
        refine recorded_close (fun head hhead => ?_) rfl rfl
        rw [hkeyword] at hhead
        cases hhead
        exact ⟨by decide, by decide⟩
      | declaration hwords hpolicy hnew _ => exact recorded_declaration hwords hpolicy hnew
      | form hhead _ =>
        refine recorded_close (fun head hmem => ⟨?_, ?_⟩) rfl rfl
        · rintro rfl
          exact (hhead _ hmem).2 true rfl
        · rintro rfl
          exact (hhead _ hmem).2 false rfl

end Node

/-! ## Sources -/

/-- What the expansion of a source collects. Its visits start and end along the tokens of the
source. The new declarations are the ones whose visits end, each once and in the order in which
their visits end, and the new names are the ones of the modules whose visits start. No test of the
source holds a declaration or a module. -/
theorem read_expand_collects {source : String} {form result : Node} {context next : Context}
    (hread : Node.read source = .ok form) (hquiet : form.QuietTests)
    (h : form.expand context = (.ok result, next)) :
    ∃ texts declarations, tokenize source = .ok texts ∧
      (form.traced context).map Prod.fst = texts.map Token.ofText ∧
      (∀ token visit, (token, some visit) ∈ form.traced context →
        token = if visit.opens then .opening else .closing) ∧
      next.hoisted = context.hoisted ++ declarations ∧
      List.Forall₂ Declares ((form.visits context).filter Visit.declares) declarations ∧
      next.modules = context.modules ++ (form.visits context).filterMap Visit.moduleName? := by
  obtain ⟨texts, htexts, hlisting⟩ := Node.read_listing hread
  have hrecorded := Node.expand_recorded hquiet h
  obtain ⟨declarations, hhoisted, hdeclares⟩ := hrecorded.hoisted
  exact ⟨texts, declarations, htexts, (form.traced_tokens context).trans hlisting,
    fun token visit hmem => (Node.mem_traced hmem).1, hhoisted, hdeclares, hrecorded.modules⟩

/-- Declarations inside of a declaration, of a form that is kept, and of a `LET`. -/
theorem read_expand_collects_nested :
    let source := "(module $m(global $a i32(block(global $b i32 1)2))(memory(global $c i32 1))" ++
      "(LET $x(table 0 anyfunc)))"
    ∃ form declarations, Node.read source = .ok form ∧
      (form.expand .empty).2.hoisted = declarations ∧
      List.Forall₂ Declares ((form.visits .empty).filter Visit.declares) declarations ∧
      declarations.length = 3 ∧ (form.expand .empty).2.modules = ["m"] := by
  intro source
  have htexts : tokenize source = .ok ["(", "module", " ", "$m", "(", "global", " ", "$a", " ",
      "i32", "(", "block", "(", "global", " ", "$b", " ", "i32", " ", "1", ")", "2", ")", ")", "(",
      "memory", "(", "global", " ", "$c", " ", "i32", " ", "1", ")", ")", "(", "LET", " ", "$x",
      "(", "table", " ", "0", " ", "anyfunc", ")", ")", ")"] := by
    decide +kernel
  obtain ⟨form, result, next, hread, hquiet, hexpand, hlength, hmodules⟩ :
      ∃ form result next, Node.read source = .ok form ∧ form.QuietTests ∧
        form.expand .empty = (.ok result, next) ∧ next.hoisted.length = 3 ∧
        next.modules = ["m"] :=
    ⟨_, _, _, Node.read_eq_ok.mpr ⟨_, htexts, rfl⟩, by decide +kernel, rfl, rfl, rfl⟩
  obtain ⟨texts, declarations, -, -, -, hhoisted, hdeclares, -⟩ :=
    read_expand_collects hread hquiet hexpand
  obtain rfl : next.hoisted = declarations := hhoisted
  refine ⟨form, next.hoisted, hread, ?_, hdeclares, hlength, ?_⟩
  · rw [hexpand]
  · rw [hexpand]
    exact hmodules

end WatMacro
