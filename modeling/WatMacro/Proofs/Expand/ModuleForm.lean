import WatMacro.Proofs.Expand.Hoisted
import WatMacro.Proofs.Node.WriteBack
import WatMacro.Proofs.Node.Written

/-!
# What a module becomes

A module that is expanded keeps its head, and its name if it has one; everything else is replaced by
what it expands to. It is written without parentheses of its own, since it stands in the module that
is assembled: a header takes the place of its head and its name, and all other children follow in
order. No child is lost, because nothing that a word expands to is a name or the keyword again.

**Deviation.** Whether the parentheses are left out is decided by the words of the expanded module,
not of the one in the source. A declaration leaves only a comment behind. So a module without a name
in which everything is declared has no word left but its head, and keeps its parentheses: it is
written as a module inside of the one around it.

Results:

* `Node.itemsOf_expandAll`: what the words of a module expand to.
* `Node.expand_module_eq_ok`, `Node.read_expand_module`: the children of a module that is expanded.
* `Node.render_module`: what it is written as, and when it keeps its parentheses.
-/

namespace WatMacro

open Expand

namespace Node

/-! ## Texts of several nodes -/

/-- The texts of several nodes, one right after the other. -/
def renderAll (nodes : List Node) : Except Error String :=
  (nodes.mapM render).map String.join

theorem mapM_render_of_pieces {nodes : List Node} {row : List (List String)}
    (h : (nodes.map pieces).mapM id = .ok row) :
    nodes.mapM render = .ok (row.map String.join) := by
  have hpieces := mapM_id_eq_ok h
  clear h
  induction nodes generalizing row with
  | nil =>
    cases row with
    | nil => rfl
    | cons written row => cases hpieces
  | cons node nodes ih =>
    cases row with
    | nil => cases hpieces
    | cons written row =>
      obtain ⟨hwritten, hrest⟩ := List.cons.inj hpieces
      rw [List.mapM_cons, render, hwritten, ih hrest]
      rfl

theorem join_map_join (row : List (List String)) :
    String.join (row.map String.join) = String.join row.flatten := by
  rw [← String.toList_inj]
  simp [String.toList_join, List.flatMap_def, Function.comp_def, List.flatten_flatten]

theorem renderAll_of_pieces {nodes : List Node} {row : List (List String)}
    (h : (nodes.map pieces).mapM id = .ok row) :
    renderAll nodes = .ok (String.join row.flatten) := by
  rw [renderAll, mapM_render_of_pieces h, ← join_map_join]
  rfl

/-! ## What the words of a module expand to -/

/-- Whether a node is a declaration, which leaves a comment in its place. -/
def isDeclaration (node : Node) : Bool :=
  node.isList && (Form.keyword? node.words).any fun head => head = "global" || head = "table"

theorem isDeclaration_list_iff {children before after : List Node} :
    (list children before after).isDeclaration = true ↔ ∃ head, (head = "global" ∨ head = "table") ∧
      Form.keyword? (children.filter isWord) = some head := by
  rw [isDeclaration, isList, words, Node.children]
  cases Form.keyword? (children.filter isWord) <;> simp

/-- A comment, with trivia attached to its end. -/
def IsComment (node : Node) : Prop :=
  ∃ text after, node = atom .trivia text [] after ∧ Atom.isTrivia text = true ∧ TriviaOnly after

theorem isComment_trivia {text : String} (h : Atom.isTrivia text = true) :
    (trivia text).IsComment :=
  ⟨text, [], rfl, h, fun _ hnode => absurd hnode List.not_mem_nil⟩

theorem IsComment.not_isWord {node : Node} (h : node.IsComment) : node.isWord = false := by
  obtain ⟨text, after, rfl, -⟩ := h
  rfl

theorem IsComment.isTrivia_of_mem {node : Node} (h : node.IsComment) {written : List String}
    (hwritten : node.pieces = .ok written) : ∀ text ∈ written, Atom.isTrivia text = true := by
  obtain ⟨text, after, rfl, htext, hafter⟩ := h
  obtain ⟨front, back, hfront, hback, rfl⟩ := pieces_atom_eq_ok hwritten
  obtain rfl : [] = front := Except.ok.inj hfront
  obtain ⟨back', hback', hflatten, htrivia⟩ := pieces_triviaOnly hafter
  cases hback.symm.trans hback'
  rw [hflatten]
  exact List.forall_mem_cons.mpr ⟨htext, htrivia⟩

/-- What some children of a module put into the expanded one: neither a name nor the keyword
`module`; a word only if there is one among them that is no declaration; and otherwise comments. -/
structure ItemsOf (nodes items : List Node) : Prop where
  noHead : ∀ item ∈ items, item.isModuleHead = false
  word_iff : (∃ item ∈ items, item.isWord = true) ↔
    ∃ node ∈ nodes, node.isWord = true ∧ node.isDeclaration = false
  comments : (∀ node ∈ nodes, node.isWord = true → node.isDeclaration = true) →
    ∀ item ∈ items, item.IsComment

theorem itemsOf_nil : ItemsOf [] [] where
  noHead _ h := absurd h List.not_mem_nil
  word_iff := by simp
  comments _ _ h := absurd h List.not_mem_nil

theorem ItemsOf.cons {node : Node} {nodes front items : List Node} (h : ItemsOf [node] front)
    (hrest : ItemsOf nodes items) : ItemsOf (node :: nodes) (front ++ items) where
  noHead item hitem := (List.mem_append.mp hitem).elim (h.noHead item) (hrest.noHead item)
  word_iff := by
    have hfirst := h.word_iff
    simp only [List.mem_append, List.mem_cons, or_and_right, exists_or, exists_eq_left,
      List.not_mem_nil, or_false] at hfirst ⊢
    rw [hfirst, hrest.word_iff]
  comments hnodes item hitem := by
    obtain ⟨hnode, hothers⟩ := List.forall_mem_cons.mp hnodes
    rcases List.mem_append.mp hitem with hitem | hitem
    · exact h.comments (by simpa using hnode) item hitem
    · exact hrest.comments hothers item hitem

/-- A comment, for trivia or for a declaration. -/
theorem itemsOf_comment {node item : Node} (hitem : item.IsComment)
    (hnode : node.isWord = true → node.isDeclaration = true) : ItemsOf [node] [item] where
  noHead := by
    obtain ⟨text, after, rfl, -⟩ := hitem
    simp [isModuleHead]
  word_iff := by
    simp only [List.mem_singleton, exists_eq_left, hitem.not_isWord, Bool.false_eq_true, false_iff]
    rintro ⟨hword, hother⟩
    rw [hnode hword] at hother
    cases hother
  comments _ := by simpa using hitem

/-- Words other than names, for a word that is no declaration. -/
theorem itemsOf_words {node : Node} {items : List Node} (hword : node.isWord = true)
    (hnode : node.isDeclaration = false) (hne : items ≠ [])
    (hitems : ∀ item ∈ items, item.isWord = true ∧ item.isModuleHead = false) :
    ItemsOf [node] items where
  noHead item hitem := (hitems item hitem).2
  word_iff := by
    obtain ⟨item, rest, rfl⟩ := List.exists_cons_of_ne_nil hne
    exact iff_of_true ⟨item, List.mem_cons_self, (hitems item List.mem_cons_self).1⟩
      ⟨node, List.mem_cons_self, hword, hnode⟩
  comments hall := by
    rw [hall node List.mem_cons_self hword] at hnode
    cases hnode

theorem itemsOf_lists {node : Node} {items : List Node} (hword : node.isWord = true)
    (hnode : node.isDeclaration = false) (hne : items ≠ [])
    (hitems : ∀ item ∈ items, item.isList = true) : ItemsOf [node] items := by
  refine itemsOf_words hword hnode hne fun item hitem => ?_
  have hlist := hitems item hitem
  cases item with
  | list children before after => exact ⟨rfl, rfl⟩
  | _ => cases hlist

theorem itemsOf_list {node : Node} (hword : node.isWord = true) (hnode : node.isDeclaration = false)
    (children before after : List Node) : ItemsOf [node] [list children before after] :=
  itemsOf_lists hword hnode (List.cons_ne_nil _ _) (by simp [isList])

theorem itemsOf_atom {kind : AtomKind} {text : String} (hlexical : (Token.atom kind text).Lexical)
    (hmodule : leaf kind text ≠ keyword "module") {value : Node} {context next : Context}
    (h : (leaf kind text).expand context = (.ok value, next)) :
    ItemsOf [leaf kind text] value.spread := by
  rw [leaf, expand] at h
  obtain ⟨node, last, hnode, hlast⟩ := bind_eq_ok h
  cases hlast
  cases kind with
  | trivia =>
    cases hnode
    have htrivia : Atom.isTrivia text = true := hlexical.isTrivia_iff.mp rfl
    exact itemsOf_comment (isComment_trivia htrivia) fun hword => absurd hword Bool.false_ne_true
  | keyword =>
    cases hnode
    refine itemsOf_words rfl rfl (List.cons_ne_nil _ _) fun item hitem => ?_
    obtain rfl : item = leaf .keyword text := List.mem_singleton.mp hitem
    exact ⟨rfl, decide_eq_false fun htext => hmodule (htext ▸ rfl)⟩
  | string =>
    obtain ⟨hform, -⟩ := textAddress_collects hnode
    cases hform
    exact itemsOf_list rfl rfl _ _ _
  | _ =>
    cases hnode
    exact itemsOf_list rfl rfl _ _ _

/-- What a list other than a declaration expands to is a list, or lists. -/
theorem itemsOf_expand_list {children before after : List Node} {value : Node}
    {context next : Context}
    (hdeclaration : (list children before after).isDeclaration = false)
    (h : (list children before after).expand context = (.ok value, next)) :
    ItemsOf [list children before after] value.spread := by
  cases expand_list_run h with
  | @tests _ _ _ _ tests _ goesOn =>
    cases tests with
    | nil => exact itemsOf_list rfl hdeclaration _ _ _
    | cons test tests => cases goesOn <;> exact itemsOf_list rfl hdeclaration _ _ _
  | inOrder _ _ hmakes =>
    cases hmakes with
    | constant _ _ _ hnode =>
      cases hnode
      exact itemsOf_list rfl hdeclaration _ _ _
    | @locals bound =>
      refine itemsOf_lists rfl hdeclaration (List.cons_ne_nil _ _) fun item hitem => ?_
      obtain ⟨other, hother, rfl⟩ := List.mem_map.mp hitem
      rcases List.mem_cons.mp hother with rfl | hother
      · rfl
      · obtain ⟨pair, -, rfl⟩ := List.mem_map.mp hother
        rfl
    | declaration hwords hpolicy =>
      have hhead : (list children before after).isDeclaration = true :=
        isDeclaration_list_iff.mpr ⟨_, (Form.ofHead_hoist hpolicy).imp And.left And.left,
          Form.keyword?_of_words hwords⟩
      rw [hdeclaration] at hhead
      cases hhead
    | form => exact itemsOf_list rfl hdeclaration _ _ _

/-- What a child of a module puts into the expanded one. -/
theorem itemsOf_expand {node : Node} (hnode : node.AsRead)
    (hlexical : ∀ token ∈ node.listing, token.Lexical) (hmodule : node ≠ keyword "module")
    {value : Node} {context next : Context} (h : node.expand context = (.ok value, next)) :
    ItemsOf [node] value.spread := by
  cases hnode with
  | atom kind text => exact itemsOf_atom (hlexical _ (by simp)) hmodule h
  | @list children after _ _ hafter =>
    cases hdeclaration : (list children [] after).isDeclaration with
    | false => exact itemsOf_expand_list hdeclaration h
    | true =>
      obtain ⟨head, hhead, hkeyword⟩ := isDeclaration_list_iff.mp hdeclaration
      obtain ⟨new, label, middle, -, rfl, -, -⟩ := expand_declaration_eq_ok hhead hkeyword h
      have htriviaOnly := LayoutAsRead.triviaOnly hafter fun token htoken =>
        hlexical token (listingAll_after_subset _ htoken)
      have hmarker : Atom.isTrivia (Form.marker head label) = true := by
        rw [Atom.isTrivia, Form.marker]
        simp [Atom.isTriviaChars]
      exact itemsOf_comment ⟨_, after, rfl, hmarker, htriviaOnly⟩ fun _ => hdeclaration

/-- What the children of a module put into the expanded one. -/
theorem itemsOf_expandAll {nodes items : List Node} (hnodes : ∀ node ∈ nodes, node.AsRead)
    (hlexical : ∀ node ∈ nodes, ∀ token ∈ node.listing, token.Lexical)
    (hmodule : keyword "module" ∉ nodes) {context next : Context}
    (h : Operand.expandAll (nodes.map operand) context = (.ok items, next)) :
    ItemsOf nodes items := by
  induction nodes generalizing items context with
  | nil =>
    cases h
    exact itemsOf_nil
  | cons node nodes ih =>
    obtain ⟨value, middle, hvalue, hrest⟩ := bind_eq_ok h
    obtain ⟨rest, last, hrest, hlast⟩ := bind_eq_ok hrest
    cases hlast
    obtain ⟨hfirst, hothers⟩ := List.forall_mem_cons.mp hnodes
    obtain ⟨hfirstLexical, hothersLexical⟩ := List.forall_mem_cons.mp hlexical
    obtain ⟨hne, hnone⟩ := not_or.mp (mt List.mem_cons.mpr hmodule)
    exact (itemsOf_expand hfirst hfirstLexical (Ne.symm hne) hvalue).cons
      (ih hothers hothersLexical hnone hrest)

/-! ## Modules that are expanded -/

theorem expandAfter_zero_eq (nodes : List Node) :
    Operand.expandAfter 0 (nodes.map operand) = Operand.expandAll (nodes.map operand) := by
  have hkeep := keepTrivia_operands nodes
  have hall : ∀ i, 0 ≤ i → (fun _ : Nat => true) i = decide (0 + 0 ≤ i) := by simp
  rw [Operand.expandAfter_eq 0 0 hkeep hall, ← Operand.expandAll_eq 0 hkeep fun _ _ => rfl]

/-- The first word is kept, and the trivia before it. -/
theorem expandAfter_front {front rest : List Node} {head : Node}
    (hfront : ∀ node ∈ front, node.isWord = false) (hhead : head.isWord = true) (count : Nat) :
    Operand.expandAfter (count + 1) ((front ++ head :: rest).map operand) =
      Operand.expandAfter count (rest.map operand) >>= fun nodes =>
        pure (front ++ head :: nodes) := by
  induction front with
  | nil =>
    have hoperand : head.operand.isWord = true := hhead
    exact Operand.expandAfter_succ hoperand count
  | cons node front ih =>
    obtain ⟨hnode, hfront⟩ := List.forall_mem_cons.mp hfront
    have hoperand : node.operand.isWord = false := hnode
    rw [List.cons_append, List.map_cons, Operand.expandAfter_trivia hoperand, ih hfront,
      bind_assoc]
    rfl

/-- The name of a module, if its second word is one. -/
def moduleNames (second : Node) : List Node :=
  if second.isName then [second] else []

/-- A module that is expanded keeps its head, and its name if it has one. -/
theorem expand_module_eq_ok {children before after others : List Node} {second result : Node}
    {context next : Context}
    (hwords : children.filter isWord = keyword "module" :: second :: others)
    (h : (list children before after).expand context = (.ok result, next)) :
    ∃ front gap tail items middle,
      children = front ++ keyword "module" :: (gap ++ moduleNames second ++ tail) ∧
      (∀ node ∈ front ++ gap, node.isWord = false) ∧
      Operand.expandAll (tail.map operand) middle = (.ok items, next) ∧
      result = list (front ++ keyword "module" :: (gap ++ moduleNames second ++ items))
        before after := by
  have hpolicy : Policy.ofHead "module" = .afterName := rfl
  obtain ⟨front, rest, rfl, hfront, hhead, hrest⟩ := exists_head hwords
  rw [expand_policy before after hwords rfl, Form.expandByPolicy, hpolicy] at h
  obtain ⟨node, last, hnode, hlast⟩ := bind_eq_ok h
  cases hlast
  obtain ⟨new, last, hnew, hform⟩ := bind_eq_ok hnode
  cases hform
  rw [Form.expandAfterName, nodes_map_operand, hwords] at hnew
  cases hname : second.isName with
  | true =>
    obtain ⟨text, b, a, rfl⟩ := isName_eq_true hname
    obtain ⟨gap, tail, rfl, hgap, hsecond, -⟩ := exists_head hrest
    obtain ⟨_, middle, hmodule, hkept⟩ := bind_eq_ok hnew
    rw [expandAfter_front hfront hhead, expandAfter_front hgap hsecond, expandAfter_zero_eq,
      bind_assoc] at hkept
    obtain ⟨items, final, hitems, hlast⟩ := bind_eq_ok hkept
    cases hlast
    refine ⟨front, gap, tail, items, middle, ?_, ?_, hitems, ?_⟩
    · simp [moduleNames, hname]
    · exact List.forall_mem_append.mpr ⟨hfront, hgap⟩
    · simp [moduleNames, hname, form, surround]
  | false =>
    have hkept : Operand.expandAfter 1 ((front ++ keyword "module" :: rest).map operand) context =
        (.ok new, next) := by
      cases second with
      | atom kind text b a =>
        cases kind with
        | name => cases hname
        | _ => exact hnew
      | _ => exact hnew
    rw [expandAfter_front hfront hhead, expandAfter_zero_eq] at hkept
    obtain ⟨items, final, hitems, hlast⟩ := bind_eq_ok hkept
    cases hlast
    refine ⟨front, [], rest, items, context, ?_, ?_, hitems, ?_⟩
    · simp [moduleNames, hname]
    · simpa using hfront
    · simp [moduleNames, hname, form, surround]

/-! ## What a module is written as -/

/-- The line in the place of the head of a module, given its second word. -/
def headerLine : Node → String
  | atom .name text _ _ => ";; module " ++ text ++ "\n"
  | _ => ";; module\n"

/-- Children without a name and the keyword `module` are all written. -/
theorem moduleBody_eq_map {nodes : List Node} (h : ∀ node ∈ nodes, node.isModuleHead = false) :
    moduleBody (nodes.map fun node => (node, node.pieces)) = nodes.map pieces := by
  induction nodes with
  | nil => rfl
  | cons node nodes ih =>
    obtain ⟨hnode, hothers⟩ := List.forall_mem_cons.mp h
    rw [List.map_cons, moduleBody, hnode, ih hothers]
    split
    · simp [Function.comp_def]
    · rfl

theorem moduleBody_trivia {front : List Node} (h : ∀ node ∈ front, node.isWord = false)
    (rest : List Node) :
    moduleBody ((front ++ rest).map fun node => (node, node.pieces)) =
      front.map pieces ++ moduleBody (rest.map fun node => (node, node.pieces)) := by
  induction front with
  | nil => rfl
  | cons node front ih =>
    obtain ⟨hnode, hfront⟩ := List.forall_mem_cons.mp h
    have hother : node.isList = false ∧ node.isModuleHead = false := by
      cases node with
      | atom kind text b a =>
        cases kind with
        | trivia => exact ⟨rfl, rfl⟩
        | _ => cases hnode
      | _ => cases hnode
    rw [List.cons_append, List.map_cons, moduleBody, hother.1, hother.2, ih hfront]
    rfl

/-- The head and the name are left out, and nothing else. -/
theorem moduleBody_expanded {front gap items : List Node} {second : Node}
    (hfront : ∀ node ∈ front ++ gap, node.isWord = false)
    (hitems : ∀ item ∈ items, item.isModuleHead = false) :
    moduleBody ((front ++ keyword "module" :: (gap ++ moduleNames second ++ items)).map
      fun node => (node, node.pieces)) = (front ++ gap ++ items).map pieces := by
  obtain ⟨hbefore, hbetween⟩ := List.forall_mem_append.mp hfront
  have hname : moduleBody ((moduleNames second ++ items).map fun node => (node, node.pieces)) =
      items.map pieces := by
    rw [moduleNames]
    split
    · rename_i hname
      obtain ⟨text, b, a, rfl⟩ := isName_eq_true hname
      exact moduleBody_eq_map hitems
    · exact moduleBody_eq_map hitems
  rw [moduleBody_trivia hbefore, List.map_cons, List.append_assoc]
  change front.map pieces ++ moduleBody ((gap ++ (moduleNames second ++ items)).map _) = _
  rw [moduleBody_trivia hbetween, hname, List.map_append, List.map_append, List.append_assoc]

theorem filter_expanded {front gap items : List Node} {second : Node}
    (hfront : ∀ node ∈ front ++ gap, node.isWord = false) :
    (front ++ keyword "module" :: (gap ++ moduleNames second ++ items)).filter isWord =
      keyword "module" :: (moduleNames second ++ items.filter isWord) := by
  have hnone : ∀ {nodes : List Node}, (∀ node ∈ nodes, node.isWord = false) →
      nodes.filter isWord = [] := fun hnodes =>
    List.filter_eq_nil_iff.mpr fun node hnode => by simp [hnodes node hnode]
  obtain ⟨hbefore, hbetween⟩ := List.forall_mem_append.mp hfront
  have hnames : (moduleNames second).filter isWord = moduleNames second := by
    rw [moduleNames]
    split
    · rename_i hname
      obtain ⟨text, b, a, rfl⟩ := isName_eq_true hname
      rfl
    · rfl
  rw [List.filter_append, hnone hbefore, List.filter_cons_of_pos rfl, List.filter_append,
    List.filter_append, hnone hbetween, hnames]
  rfl

/-- The header names the module as in the source. -/
theorem moduleHeader_expanded {front gap items : List Node} {second : Node}
    (hfront : ∀ node ∈ front ++ gap, node.isWord = false)
    (hitems : ∀ item ∈ items, item.isModuleHead = false) :
    moduleHeader (front ++ keyword "module" :: (gap ++ moduleNames second ++ items)) =
      headerLine second := by
  rw [moduleHeader, filter_expanded hfront, moduleNames]
  cases hname : second.isName with
  | true =>
    obtain ⟨text, b, a, rfl⟩ := isName_eq_true hname
    rfl
  | false =>
    have hline : headerLine second = ";; module\n" := by
      cases second with
      | atom kind text b a =>
        cases kind with
        | name => cases hname
        | _ => rfl
      | _ => rfl
    rw [hline]
    split
    · rename_i head text b a words heq
      have hwords : items.filter isWord = atom .name text b a :: words := (List.cons.inj heq).2
      have hmem : atom .name text b a ∈ items.filter isWord := hwords ▸ List.mem_cons_self
      cases hitems _ (List.mem_of_mem_filter hmem)
    · rfl

/-- What is written of comments needs no spaces. -/
theorem spaced_eq_flatten {row : List (List String)}
    (h : ∀ written ∈ row, ∀ text ∈ written, Atom.isTrivia text = true) (last : String) :
    spaced last row = row.flatten := by
  induction row generalizing last with
  | nil => rfl
  | cons written row ih =>
    obtain ⟨hwritten, hrow⟩ := List.forall_mem_cons.mp h
    cases written with
    | nil => exact ih hrow last
    | cons text more =>
      have hno : needsSpace last text = false := by
        simp [needsSpace, hwritten text List.mem_cons_self]
      rw [spaced, hno, ih hrow]
      rfl

/-- One word among comments needs no spaces either. -/
theorem spaced_word {front back : List (List String)} (word : String)
    (hfront : ∀ written ∈ front, ∀ text ∈ written, Atom.isTrivia text = true)
    (hback : ∀ written ∈ back, ∀ text ∈ written, Atom.isTrivia text = true) {last : String}
    (hlast : last = "(" ∨ Atom.isTrivia last = true) :
    spaced last (front ++ [word] :: back) = (front ++ [word] :: back).flatten := by
  induction front generalizing last with
  | nil =>
    have hno : needsSpace last word = false := by
      rcases hlast with rfl | hlast
      · simp [needsSpace]
      · simp [needsSpace, hlast]
    rw [List.nil_append, spaced, hno, spaced_eq_flatten hback]
    rfl
  | cons written front ih =>
    obtain ⟨hwritten, hrow⟩ := List.forall_mem_cons.mp hfront
    cases written with
    | nil => exact ih hrow hlast
    | cons text more =>
      have hno : needsSpace last text = false := by
        simp [needsSpace, hwritten text List.mem_cons_self]
      have htrivia := hwritten _ (List.getLast_mem (List.cons_ne_nil text more))
      rw [List.cons_append, spaced, hno, ih hrow (.inr htrivia)]
      rfl

theorem spaced_expanded {front back : List Node} (hfront : ∀ node ∈ front, node.IsComment)
    (hback : ∀ node ∈ back, node.IsComment) {row : List (List String)}
    (h : ((front ++ keyword "module" :: back).map pieces).mapM id = .ok row) :
    spaced "(" row = row.flatten := by
  have hcomments : ∀ {nodes : List Node} {written : List (List String)},
      (∀ node ∈ nodes, node.IsComment) → written.map Except.ok = nodes.map pieces →
      ∀ texts ∈ written, ∀ text ∈ texts, Atom.isTrivia text = true := by
    intro nodes written hnodes hwritten texts htexts
    have hmem : Except.ok texts ∈ nodes.map pieces := hwritten ▸ List.mem_map_of_mem htexts
    obtain ⟨node, hnode, hpieces⟩ := List.mem_map.mp hmem
    exact (hnodes node hnode).isTrivia_of_mem hpieces
  have hpieces := mapM_id_eq_ok h
  rw [List.map_append, List.map_cons] at hpieces
  obtain ⟨before, rest, rfl, hbefore, hrest⟩ := List.map_eq_append_iff.mp hpieces.symm
  obtain ⟨word, after, rfl, hword, hafter⟩ := List.map_eq_cons_iff.mp hrest
  obtain rfl : word = ["module"] := Except.ok.inj hword
  exact spaced_word "module" (hcomments hfront hbefore) (hcomments hback hafter) (.inl rfl)

/-- Trivia in a source is written as a comment. -/
theorem AsRead.isComment {node : Node} (h : node.AsRead) (hword : node.isWord = false)
    (hlexical : ∀ token ∈ node.listing, token.Lexical) : node.IsComment := by
  cases h with
  | atom kind text =>
    cases kind with
    | trivia =>
      have htoken := hlexical (.atom .trivia text) (by simp)
      exact isComment_trivia (htoken.isTrivia_iff.mp rfl)
    | _ => cases hword
  | list => cases hword

/-- An expanded module is a module exactly if it has a name or a word that is no declaration. -/
theorem isModule_expanded_iff {front gap tail items others : List Node} {second : Node}
    (hfront : ∀ node ∈ front ++ gap, node.isWord = false)
    (hsplit : moduleNames second ++ tail.filter isWord = second :: others)
    (hitems : ItemsOf tail items) :
    isModule (front ++ keyword "module" :: (gap ++ moduleNames second ++ items)) = true ↔
      ∃ word ∈ second :: others, word.isDeclaration = false := by
  have hwords : isModule (front ++ keyword "module" :: (gap ++ moduleNames second ++ items)) =
      true ↔ moduleNames second ++ items.filter isWord ≠ [] := by
    rw [isModule, filter_expanded hfront]
    cases moduleNames second ++ items.filter isWord with
    | nil => simp
    | cons word words => exact iff_of_true rfl (List.cons_ne_nil _ _)
  rw [hwords, ← hsplit]
  cases hname : second.isName with
  | true =>
    obtain ⟨text, b, a, rfl⟩ := isName_eq_true hname
    exact iff_of_true (List.cons_ne_nil _ _) ⟨_, List.mem_cons_self, rfl⟩
  | false =>
    have hnames : moduleNames second = [] := by rw [moduleNames, hname]; rfl
    rw [hnames, List.nil_append, List.nil_append, ne_eq, List.filter_eq_nil_iff]
    have hitem := hitems.word_iff
    simp only [List.mem_filter, and_assoc]
    rw [← hitem]
    push Not
    rfl

/-- With another word, an expanded module is written as a header and its other children. -/
theorem listPieces_expanded {front gap items : List Node} {second : Node} {written : List String}
    (hfront : ∀ node ∈ front ++ gap, node.isWord = false)
    (hitems : ∀ item ∈ items, item.isModuleHead = false)
    (hmodule : isModule (front ++ keyword "module" :: (gap ++ moduleNames second ++ items)) = true)
    (h : listPieces (front ++ keyword "module" :: (gap ++ moduleNames second ++ items))
      ((front ++ keyword "module" :: (gap ++ moduleNames second ++ items)).map pieces) =
        .ok written) :
    ∃ body, renderAll (front ++ gap ++ items) = .ok body ∧
      String.join written = headerLine second ++ body := by
  rw [listPieces, if_pos hmodule] at h
  obtain ⟨row, hrow, heq⟩ := exists_of_except_bind h
  cases heq
  rw [zip_map_pieces, moduleBody_expanded hfront hitems] at hrow
  refine ⟨_, renderAll_of_pieces hrow, ?_⟩
  rw [moduleHeader_expanded hfront hitems, String.join_cons]

/-- With comments only around its head, a module keeps its parentheses, and nothing else is put
between its children. -/
theorem listPieces_declared {front back : List Node} {written : List String}
    (hfront : ∀ node ∈ front, node.IsComment) (hback : ∀ node ∈ back, node.IsComment)
    (hmodule : ¬isModule (front ++ keyword "module" :: back) = true)
    (h : listPieces (front ++ keyword "module" :: back)
      ((front ++ keyword "module" :: back).map pieces) = .ok written) :
    ∃ body, renderAll (front ++ keyword "module" :: back) = .ok body ∧
      String.join written = "(" ++ body ++ ")" := by
  rw [listPieces, if_neg hmodule] at h
  obtain ⟨row, hrow, heq⟩ := exists_of_except_bind h
  cases heq
  refine ⟨_, renderAll_of_pieces hrow, ?_⟩
  rw [spaced_expanded hfront hback hrow, String.join_append, String.join_cons, String.join_cons,
    String.join_nil, String.append_empty]

/-- A module of a source that is expanded: there are comments before its head and between its head
and its name, and what comes after is replaced by what it expands to. -/
theorem read_expand_module {source : String} {children before after others : List Node}
    {second : Node} (hread : Node.read source = .ok (list children before after))
    (hwords : children.filter isWord = keyword "module" :: second :: others)
    (honce : keyword "module" ∉ second :: others) {context next : Context} {result : Node}
    (hexpand : (list children before after).expand context = (.ok result, next)) :
    ∃ front gap tail items,
      result = list (front ++ keyword "module" :: (gap ++ moduleNames second ++ items))
        before after ∧
      (∀ node ∈ front ++ gap, node.IsComment) ∧
      moduleNames second ++ tail.filter isWord = second :: others ∧ ItemsOf tail items := by
  obtain ⟨front, gap, tail, items, middle, hchildren, hfront, hrun, rfl⟩ :=
    expand_module_eq_ok hwords hexpand
  have hform := read_asRead hread
  obtain ⟨texts, htexts, hlisting⟩ := read_listing hread
  have hlexical := tokenize_lexical htexts (hform.getLast?_texts hlisting)
  rw [← hlisting] at hlexical
  cases hform with
  | list hrow _ _ =>
    have hchild : ∀ child ∈ children, child.AsRead ∧ ∀ token ∈ child.listing, token.Lexical :=
      fun child hmem => ⟨hrow.asRead child hmem, fun token htoken =>
        hlexical token (@mem_listing (list children before after) child hmem token htoken)⟩
    have htail : ∀ node ∈ tail, node ∈ children := fun node hnode => by simp [hchildren, hnode]
    have hsplit : moduleNames second ++ tail.filter isWord = second :: others := by
      rw [hchildren, filter_expanded hfront] at hwords
      exact (List.cons.inj hwords).2
    have hnone : keyword "module" ∉ tail := fun hmem =>
      honce (hsplit ▸ List.mem_append_right _ (List.mem_filter.mpr ⟨hmem, rfl⟩))
    refine ⟨front, gap, tail, items, rfl, fun node hnode => ?_, hsplit, itemsOf_expandAll
      (fun node hnode => (hchild node (htail node hnode)).1)
      (fun node hnode => (hchild node (htail node hnode)).2) hnone hrun⟩
    have hmem : node ∈ children := by
      rw [hchildren]
      simp only [List.mem_append, List.mem_cons] at hnode ⊢
      tauto
    exact (hchild node hmem).1.isComment (hfront node hnode) (hchild node hmem).2

/-- A module with another word in its source, which is expanded and written. The children of the
expanded module are those of the source, its head and its name included, but for what its other
words expand to. It is written as a header, and all of these children without the head and the name,
between what is attached to it. Only if all its words are declarations, so that it has no name
either, it is written in parentheses, with its head. -/
theorem render_module {source : String} {children before after others : List Node} {second : Node}
    (hread : Node.read source = .ok (list children before after))
    (hwords : children.filter isWord = keyword "module" :: second :: others)
    (honce : keyword "module" ∉ second :: others)
    {context next : Context} {result : Node} {text : String}
    (hexpand : (list children before after).expand context = (.ok result, next))
    (hrender : result.render = .ok text) :
    ∃ front gap items start finish,
      result = list (front ++ keyword "module" :: (gap ++ moduleNames second ++ items))
        before after ∧
      (∀ node ∈ front ++ gap, node.isWord = false) ∧
      renderAll before = .ok start ∧ renderAll after = .ok finish ∧
      ((∃ word ∈ second :: others, word.isDeclaration = false) → ∃ body,
        renderAll (front ++ gap ++ items) = .ok body ∧
          text = start ++ headerLine second ++ body ++ finish) ∧
      ((∀ word ∈ second :: others, word.isDeclaration = true) → ∃ body,
        renderAll result.children = .ok body ∧ text = start ++ "(" ++ body ++ ")" ++ finish) := by
  obtain ⟨front, gap, tail, items, rfl, hgaps, hsplit, hitems⟩ :=
    read_expand_module hread hwords honce hexpand
  have hfront : ∀ node ∈ front ++ gap, node.isWord = false := fun node hnode =>
    (hgaps node hnode).not_isWord
  have hmodule := isModule_expanded_iff hfront hsplit hitems
  obtain ⟨written, hwritten, rfl⟩ := render_eq_ok hrender
  obtain ⟨start, middle, finish, hstart, hmiddle, hfinish, rfl⟩ := pieces_list_eq_ok hwritten
  refine ⟨front, gap, items, _, _, rfl, hfront, renderAll_of_pieces hstart,
    renderAll_of_pieces hfinish, fun hother => ?_, fun hall => ?_⟩
  · obtain ⟨body, hbody, hjoin⟩ :=
      listPieces_expanded hfront hitems.noHead (hmodule.mpr hother) hmiddle
    refine ⟨body, hbody, ?_⟩
    rw [String.join_append, String.join_append, hjoin, ← String.append_assoc]
  · have hno : ¬∃ word ∈ second :: others, word.isDeclaration = false := by
      rintro ⟨word, hword, hother⟩
      rw [hall word hword] at hother
      cases hother
    -- a declaration is a list, so there is no name
    have hnames : moduleNames second = [] := by
      have hlist := hall second List.mem_cons_self
      cases second with
      | list => rfl
      | _ => cases hlist
    have hcomments : ∀ node ∈ items, node.IsComment := hitems.comments fun node hnode hword =>
      hall node (hsplit ▸ List.mem_append_right _ (List.mem_filter.mpr ⟨hnode, hword⟩))
    obtain ⟨hbefore, hbetween⟩ := List.forall_mem_append.mp hgaps
    have hback : ∀ node ∈ gap ++ moduleNames second ++ items, node.IsComment := by
      rw [hnames, List.append_nil]
      exact List.forall_mem_append.mpr ⟨hbetween, hcomments⟩
    obtain ⟨body, hbody, hjoin⟩ :=
      listPieces_declared hbefore hback (mt hmodule.mp hno) hmiddle
    refine ⟨body, hbody, ?_⟩
    rw [String.join_append, String.join_append, hjoin]
    simp only [String.append_assoc]

/-- The locals of a `LET` take its place in a module with a name, and a comment that of what is
declared. -/
theorem render_module_named :
    let source := "(module $m (table 1 anyfunc) (LET $a 1))\n"
    let root := list [keyword "module", trivia " ", name "$m", trivia " ",
      list [keyword "table", trivia " ", integer "1", trivia " ", keyword "anyfunc"] []
        [trivia " "],
      form [keyword "LET", trivia " ", name "$a", trivia " ", integer "1"]] [] [trivia "\n"]
    let text := ";; module $m\n  (; table 1 hoisted to top ;) (local $a i32)" ++
      "(set_local $a (i32.const 1))\n"
    Node.read source = .ok root ∧ ∃ result next, root.expand .empty = (.ok result, next) ∧
      result.render = .ok text ∧
      ∃ start body finish, text = start ++ ";; module $m\n" ++ body ++ finish := by
  intro source root text
  have htexts : tokenize source = .ok ["(", "module", " ", "$m", " ", "(", "table", " ", "1", " ",
      "anyfunc", ")", " ", "(", "LET", " ", "$a", " ", "1", ")", ")", "\n"] := by
    decide +kernel
  have hread : Node.read source = .ok root := read_eq_ok.mpr ⟨_, htexts, rfl⟩
  obtain ⟨result, next, hexpand, hrender⟩ : ∃ result next,
      root.expand .empty = (.ok result, next) ∧ result.render = .ok text :=
    ⟨_, _, rfl, rfl⟩
  obtain ⟨_, _, _, start, finish, -, -, -, -, hmodule, -⟩ :=
    render_module hread rfl (by simp [keyword, name, form, trivia, leaf]) hexpand hrender
  obtain ⟨body, -, htext⟩ := hmodule ⟨name "$m", List.mem_cons_self, rfl⟩
  exact ⟨hread, result, next, hexpand, hrender, start, body, finish, htext⟩

/-- **Deviation.** A module in which everything is declared keeps its parentheses, and has no
header. -/
theorem render_module_declared :
    let source := "(module (table 1 anyfunc))"
    let text := "(module (; table 1 hoisted to top ;))"
    ¬";; module\n".toList <+: text.toList ∧
      ∃ children second result next, Node.read source = .ok (form children) ∧
        children.filter isWord = [keyword "module", second] ∧
        (form children).expand .empty = (.ok result, next) ∧ result.render = .ok text := by
  intro source text
  have htexts : tokenize source = .ok ["(", "module", " ", "(", "table", " ", "1", " ", "anyfunc",
      ")", ")"] := by
    decide +kernel
  exact ⟨by decide +kernel, _, _, _, _, read_eq_ok.mpr ⟨_, htexts, rfl⟩, rfl, rfl, rfl⟩

end Node

end WatMacro
