import WatMacro.Proofs.Expand.Collected

/-!
# The comments in the places of declarations

Every list that an expansion visits is expanded with success on the way, from the context of its
visit. For a declaration that leaves a comment, which names what was declared.

**Deviation.** The comment is meant to be one token, so that nothing of the label can get out of it.
It is one exactly if the label holds no `;)`. A label that is a literal may hold it, and a label
that is a list holds it with each of its block comments. Then the comment ends inside of the label,
and the rest of the label stands among the code (`Node.expand_marks_escape`).

Results:

* `Node.visits_run`: a visit is a run of its list.
* `Node.expand_marks`: what each declaration leaves behind, and when that is one token.
-/

namespace WatMacro

open Expand Lexeme

/-- Only a `global` and a `table` declare something, at the end of their visits. -/
theorem Visit.declares_iff {visit : Visit} : visit.declares = true ↔ visit.opens = false ∧
    (Form.keyword? visit.words = some "global" ∨ Form.keyword? visit.words = some "table") := by
  rw [Visit.declares]
  cases visit.opens <;> cases Form.keyword? visit.words <;> simp

namespace Node

/-! ## Visits are runs -/

/-- A visit in the course of a run of one of some nodes. -/
def VisitsOne (nodes : List Node) (visit : Visit) : Prop :=
  ∃ node ∈ nodes, ∃ context value next,
    node.expand context = (.ok value, next) ∧ visit ∈ node.visits context

theorem VisitsOne.cons {nodes : List Node} {visit : Visit} (h : VisitsOne nodes visit)
    (node : Node) : VisitsOne (node :: nodes) visit := by
  obtain ⟨other, hother, hrun⟩ := h
  exact ⟨other, List.mem_cons_of_mem node hother, hrun⟩

/-- The visits in a row that is expanded in order. -/
theorem Steps.visits {expression : Nat → Bool} {position : Nat} {nodes values : List Node}
    {context next : Context} (h : Steps expression position nodes context values next) :
    ∀ visit ∈ visitsRow false expression position nodes context, VisitsOne nodes visit := by
  intro visit hvisit
  induction h with
  | nil => cases hvisit
  | @trivia _ node _ _ _ _ hword _ ih =>
    rw [visitsRow_trivia hword] at hvisit
    exact (ih hvisit).cons node
  | @kept _ node _ _ _ _ hword hkept _ ih =>
    rw [visitsRow_kept hword hkept] at hvisit
    exact (ih hvisit).cons node
  | @expanded _ node _ _ _ _ _ _ hword hexpression hvalue _ ih =>
    rw [visitsRow_expanded hword hexpression] at hvisit
    simp only [Bool.false_eq_true, if_false, hvalue] at hvisit
    rcases List.mem_append.mp hvisit with hvisit | hvisit
    · exact ⟨node, List.mem_cons_self, _, _, _, hvalue, hvisit⟩
    · exact (ih hvisit).cons node

/-- The visits in a row that is expanded from the last word back. -/
theorem expandBack_visits {expression : Nat → Bool} {position : Nat} {nodes values : List Node}
    {context next : Context} (h : expandBack (nodes.filter isWord) context = (.ok values, next)) :
    ∀ visit ∈ visitsRow true expression position nodes context, VisitsOne nodes visit := by
  intro visit hvisit
  induction nodes generalizing position values next with
  | nil => cases hvisit
  | cons node nodes ih =>
    cases hword : node.isWord with
    | false =>
      rw [List.filter_cons_of_neg (by simp [hword])] at h
      rw [visitsRow_trivia hword] at hvisit
      exact (ih h hvisit).cons node
    | true =>
      rw [List.filter_cons_of_pos hword] at h
      obtain ⟨rest, middle, hrest, hfirst⟩ := bind_eq_ok h
      obtain ⟨value, last, hvalue, -⟩ := bind_eq_ok hfirst
      cases hexpression : expression position with
      | false =>
        rw [visitsRow_kept hword hexpression] at hvisit
        exact (ih hrest hvisit).cons node
      | true =>
        rw [visitsRow_expanded hword hexpression] at hvisit
        simp only [if_true, hrest] at hvisit
        rcases List.mem_append.mp hvisit with hvisit | hvisit
        · exact ⟨node, List.mem_cons_self, _, _, _, hvalue, hvisit⟩
        · exact (ih hrest hvisit).cons node

/-- The words before the first expression of a row are not visited. -/
theorem visitsRow_head {back : Bool} {expression : Nat → Bool} {front rest : List Node}
    {head : Node} (hfront : ∀ node ∈ front, node.isWord = false) (hhead : head.isWord = true)
    (hkept : expression 0 = false) (context : Context) :
    visitsRow back expression 0 (front ++ head :: rest) context =
      visitsRow back expression 1 rest context := by
  induction front with
  | nil => exact visitsRow_kept hhead hkept rest context
  | cons node front ih =>
    obtain ⟨hnode, hfront⟩ := List.forall_mem_cons.mp hfront
    rw [List.cons_append, visitsRow_trivia hnode, ih hfront]

/-- The visits of the children of a list. -/
theorem visitsRow_run {children before after : List Node} {result : Node} {context next : Context}
    (h : (list children before after).expand context = (.ok result, next)) :
    ∀ visit ∈ visitsRow (Form.runsBack (children.filter isWord))
      (Form.isExpression (children.filter isWord)) 0 children
      (Form.enter (children.filter isWord) context), VisitsOne children visit := by
  cases expand_list_run h with
  | inOrder hback hsteps _ =>
    rw [hback]
    exact hsteps.visits
  | @tests text _ _ _ _ _ _ hwords hhead htests =>
    have hkeyword := Form.keyword?_of_words hwords
    have henter : Form.enter (children.filter isWord) context = context := by
      apply Form.enter_eq_self
      rw [hkeyword]
      rcases hhead with rfl | rfl <;> decide
    have hback : Form.runsBack (children.filter isWord) = true := by
      rw [Form.runsBack, hkeyword]
      rcases hhead with rfl | rfl <;> rfl
    have hkept : Form.isExpression (children.filter isWord) 0 = false := by
      rw [hwords]
      rcases hhead with rfl | rfl <;> rfl
    obtain ⟨front, rest, rfl, hfront, hword, rfl⟩ := exists_head hwords
    rw [henter, hback, visitsRow_head hfront hword hkept]
    intro visit hvisit
    obtain ⟨node, hnode, hrun⟩ := expandBack_visits htests visit hvisit
    exact ⟨node, List.mem_append_right _ (List.mem_cons_of_mem _ hnode), hrun⟩

/-- A visit is a run of its list, from the context of the visit. -/
theorem visits_run {node result : Node} {context next : Context}
    (h : node.expand context = (.ok result, next)) :
    ∀ visit ∈ node.visits context, ∃ before after value final,
      list visit.children before after ∈ node.descendants ∧
        (list visit.children before after).expand visit.context = (.ok value, final) := by
  induction node using Node.induction generalizing result context next with
  | atom kind text before after _ _ =>
    intro visit hvisit
    rw [visits, traced, visits_unvisited] at hvisit
    cases hvisit
  | splice items before after _ _ _ =>
    intro visit hvisit
    rw [visits, traced, visits_unvisited] at hvisit
    cases hvisit
  | list children before after ih _ _ =>
    intro visit hvisit
    have hself : ∀ opens, visit = ⟨opens, children, context⟩ → ∃ b a value final,
        list visit.children b a ∈ (list children before after).descendants ∧
          (list visit.children b a).expand visit.context = (.ok value, final) := by
      rintro opens rfl
      exact ⟨before, after, _, _, mem_descendants_self _, h⟩
    rw [visits_list] at hvisit
    rcases List.mem_cons.mp hvisit with hopen | hvisit
    · exact hself true hopen
    rcases List.mem_append.mp hvisit with hvisit | hclose
    · obtain ⟨child, hchild, _, _, _, hrun, hbelow⟩ := visitsRow_run h visit hvisit
      obtain ⟨b, a, value, final, hmem, hexpand⟩ := ih child hchild hrun visit hbelow
      exact ⟨b, a, value, final, mem_descendants_list hchild hmem, hexpand⟩
    · exact hself false (List.mem_singleton.mp hclose)

/-! ## The comment of a declaration -/

/-- The expansion of a declaration. -/
theorem expand_declaration_eq_ok {children before after : List Node} {head : String}
    {result : Node} {context next : Context} (hhead : head = "global" ∨ head = "table")
    (hkeyword : Form.keyword? (children.filter isWord) = some head)
    (h : (list children before after).expand context = (.ok result, next)) :
    ∃ (new : List Node) (label : String) (middle : Context), Form.Labelled new label ∧
      result = atom .trivia (Form.marker head label) before after ∧
      next = middle.hoist (list new [trivia "  "] [trivia "\n"]) ∧
      Declares ⟨false, children, context⟩ (list new [trivia "  "] [trivia "\n"]) := by
  obtain ⟨b, a, arguments, hwords⟩ :
      ∃ b a arguments, children.filter isWord = atom .keyword head b a :: arguments := by
    unfold Form.keyword? at hkeyword
    split at hkeyword
    · rename_i hwords
      cases hkeyword
      exact ⟨_, _, _, hwords⟩
    · cases hkeyword
  obtain ⟨hbuiltin, last, hpolicy⟩ :
      Builtin.ofKeyword? head = none ∧ ∃ last, Policy.ofHead head = .hoist last := by
    rcases hhead with rfl | rfl
    · exact ⟨rfl, true, rfl⟩
    · exact ⟨rfl, false, rfl⟩
  rw [expand_declaration before after hwords hbuiltin hpolicy] at h
  obtain ⟨new, middle, hnew, hrest⟩ := bind_eq_ok h
  obtain ⟨node, _, hnode, hlast⟩ := bind_eq_ok hrest
  obtain ⟨label, hlabel, rfl, rfl⟩ := Form.hoist_eq_ok hnode
  cases hlast
  exact ⟨new, label, middle, hlabel, rfl, rfl, declares_of_expandWords hwords hpolicy hnew⟩

/-- What is left in the place of each declaration of a tree that is expanded: a comment that names
the label of the declaration. It is one token exactly if the label holds no `;)`. Otherwise the
comment ends with the first `;)` of the label, and the rest of the label stands after it. -/
theorem expand_marks {node result : Node} {context next : Context}
    (h : node.expand context = (.ok result, next)) :
    ∀ visit ∈ node.visits context, visit.declares = true →
      ∃ (before after : List Node) (head : String) (children : List Node) (label : String)
        (middle : Context),
        list visit.children before after ∈ node.descendants ∧
        Form.keyword? visit.words = some head ∧
        (list visit.children before after).expand visit.context =
          (.ok (atom .trivia (Form.marker head label) before after),
            middle.hoist (list children [trivia "  "] [trivia "\n"])) ∧
        Declares visit (list children [trivia "  "] [trivia "\n"]) ∧
        Form.Labelled children label ∧
        (tokenize (Form.marker head label) = .ok [Form.marker head label] ↔
          ¬[';', ')'] <:+: label.toList) ∧
        ∀ inside rest, throughCommentEnd? label.toList = some (inside, rest) →
          lexeme? (Form.marker head label).toList =
            some (("(; " ++ head ++ " ").toList ++ inside,
              rest ++ " hoisted to top ;)".toList) := by
  intro visit hvisit hdeclares
  obtain ⟨before, after, value, final, hmem, hrun⟩ := visits_run h visit hvisit
  obtain ⟨hopens, hkeyword⟩ := Visit.declares_iff.mp hdeclares
  obtain ⟨head, hhead, hkeyword⟩ : ∃ head, (head = "global" ∨ head = "table") ∧
      Form.keyword? visit.words = some head := by
    rcases hkeyword with hkeyword | hkeyword
    · exact ⟨"global", .inl rfl, hkeyword⟩
    · exact ⟨"table", .inr rfl, hkeyword⟩
  obtain ⟨children, label, middle, hlabel, rfl, rfl, hdeclared⟩ :=
    expand_declaration_eq_ok hhead hkeyword hrun
  refine ⟨before, after, head, children, label, middle, hmem, hkeyword, hrun, ?_, hlabel,
    Form.tokenize_marker_iff hhead label, fun inside rest hends => Form.lexeme?_marker hhead hends⟩
  obtain ⟨opens, visited, start⟩ := visit
  obtain rfl : opens = false := hopens
  exact hdeclared

/-- A declaration inside of another one, in a tree that is expanded. -/
theorem expand_marks_nested :
    let source := "(func (global $a i32 (block (table (; x ;) 0) 1)))"
    ∃ form result next visit, Node.read source = .ok form ∧
      form.expand .empty = (.ok result, next) ∧ visit ∈ form.visits .empty ∧
      visit.declares = true ∧ Form.keyword? visit.words = some "table" ∧
      ∃ before after head label final,
        (list visit.children before after).expand visit.context =
          (.ok (atom .trivia (Form.marker head label) before after), final) ∧
        (tokenize (Form.marker head label) = .ok [Form.marker head label] ↔
          ¬[';', ')'] <:+: label.toList) := by
  intro source
  have htexts : tokenize source = .ok ["(", "func", " ", "(", "global", " ", "$a", " ", "i32", " ",
      "(", "block", " ", "(", "table", " ", "(; x ;)", " ", "0", ")", " ", "1", ")", ")", ")"] := by
    decide +kernel
  obtain ⟨form, result, next, visit, hread, hexpand, hvisit, hdeclares, htable⟩ :
      ∃ form result next visit, Node.read source = .ok form ∧
        form.expand .empty = (.ok result, next) ∧ (form.visits .empty)[4]? = some visit ∧
        visit.declares = true ∧ Form.keyword? visit.words = some "table" :=
    ⟨_, _, _, _, Node.read_eq_ok.mpr ⟨_, htexts, rfl⟩, rfl, rfl, rfl, rfl⟩
  have hmem := List.mem_of_getElem? hvisit
  obtain ⟨before, after, head, _, label, _, -, -, hrun, -, -, htoken, -⟩ :=
    expand_marks hexpand visit hmem hdeclares
  exact ⟨form, result, next, visit, hread, hexpand, hmem, hdeclares, htable, before, after, head,
    label, _, hrun, htoken⟩

/-- **Deviation.** The label of a declaration gets out of the comment in its place: the comment ends
with the one in the label, and no lexeme begins at the last semicolon of what is left. -/
theorem expand_marks_escape :
    let source := "(func (table (export \"t\" (; main ;)) 1 anyfunc))"
    let comment := "(; table (export \"t\" (; main ;)) hoisted to top ;)"
    ∃ form next, Node.read source = .ok form ∧
      form.expand .empty =
        (.ok (.form [.keyword "func", .trivia " ", .trivia comment]), next) ∧
      next.hoisted.length = 1 ∧ tokenize comment = .error (.stray 1 ";") := by
  intro source comment
  have htexts : tokenize source = .ok ["(", "func", " ", "(", "table", " ", "(", "export", " ",
      "\"t\"", " ", "(; main ;)", ")", " ", "1", " ", "anyfunc", ")", ")"] := by
    decide +kernel
  have hcomment : tokenize comment = .error (.stray 1 ";") := by decide +kernel
  exact ⟨_, _, Node.read_eq_ok.mpr ⟨_, htexts, rfl⟩, rfl, rfl, hcomment⟩

end Node

end WatMacro
