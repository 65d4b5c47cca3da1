import WatMacro.Proofs.Outline.Interchange
import WatMacro.Proofs.Program.Trivia

/-!
# Short and long spellings

Among expressions an atom is short for a form that says what it stands for, and a form headed by a
name is short for a call. Expressions may be spelled out anywhere in a source, in any combination,
and it is expanded in the same way.

Results:

* `Node.spellOut_standsFor`: a node expands in the same way after expressions in it have been
  spelled out.
* `read_expand_spellOut`: a source and what comes of it when expressions are spelled out expand
  alike, in every context that actions have made.
-/

namespace WatMacro

open Node Outline Branch

namespace Node

/-! ## Spelling out -/

/-- An atom that is an expression, spelled out. -/
def spellAtom (kind : AtomKind) (text : String) (before after : List Node) : Node :=
  match kind.longHead? with
  | some head => list [keyword head, trivia " ", leaf kind text] before after
  | none => atom kind text before after

mutual

/-- Spells out the expressions that are chosen. Each is known by the positions on the way to it:
those of the forms around it, from the outside in, and its own, each among the words of its form. -/
def spellOut (chosen : List Nat → Bool) : Node → Node
  | atom kind text before after =>
    if chosen [] then spellAtom kind text before after else atom kind text before after
  | list children before after =>
    let words := children.filter isWord
    let spelled := spellOutAt chosen (Form.isExpression words) 0 children
    if chosen [] && words.head?.any isName then
      list (keyword "call" :: trivia " " :: spelled) before after
    else
      list spelled before after
  | splice items before after => splice items before after

/-- Spells out the expressions that are chosen among children, and below them. Positions count from
the one that the first word has. -/
def spellOutAt (chosen : List Nat → Bool) (expression : Nat → Bool) : Nat → List Node → List Node
  | _, [] => []
  | position, node :: nodes =>
    if node.isWord then
      let word :=
        if expression position then node.spellOut fun path => chosen (position :: path) else node
      word :: spellOutAt chosen expression (position + 1) nodes
    else
      node :: spellOutAt chosen expression position nodes

end

theorem mem_spellOutAt {chosen : List Nat → Bool} {expression : Nat → Bool} {position : Nat}
    {nodes : List Node} {child : Node} (h : child ∈ spellOutAt chosen expression position nodes) :
    ∃ node ∈ nodes, child = node ∨ ∃ chosen, child = node.spellOut chosen := by
  induction nodes generalizing position with
  | nil => cases h
  | cons node nodes ih =>
    have hrest : ∀ position, child ∈ spellOutAt chosen expression position nodes →
        ∃ other ∈ node :: nodes, child = other ∨ ∃ chosen, child = other.spellOut chosen := by
      intro position hmem
      obtain ⟨other, hother, hchild⟩ := ih hmem
      exact ⟨other, List.mem_cons_of_mem _ hother, hchild⟩
    rw [spellOutAt] at h
    split at h
    · rcases List.mem_cons.mp h with rfl | hmem
      · refine ⟨node, List.mem_cons_self, ?_⟩
        split
        · exact .inr ⟨_, rfl⟩
        · exact .inl rfl
      · exact hrest _ hmem
    · rcases List.mem_cons.mp h with rfl | hmem
      · exact ⟨child, List.mem_cons_self, .inl rfl⟩
      · exact hrest _ hmem

theorem Trimmed.spellOut {node : Node} (h : node.Trimmed) (chosen : List Nat → Bool) :
    (node.spellOut chosen).Trimmed := by
  induction h generalizing chosen with
  | @atom kind text before after hbefore hafter =>
    rw [Node.spellOut, spellAtom]
    split
    · split
      · refine .list ?_ hbefore hafter
        simp only [List.mem_cons, List.not_mem_nil, or_false]
        rintro child (rfl | rfl | rfl) <;> exact trimmed_leaf _ _
      · exact .atom hbefore hafter
    · exact .atom hbefore hafter
  | @list children before after hchildren hbefore hafter ih =>
    have hspelled : ∀ child ∈ spellOutAt chosen (Form.isExpression (children.filter isWord)) 0
        children, child.Trimmed := by
      intro child hchild
      obtain ⟨node, hnode, rfl | ⟨chosen', rfl⟩⟩ := mem_spellOutAt hchild
      · exact hchildren child hnode
      · exact ih node hnode chosen'
    rw [Node.spellOut]
    split
    · refine .list ?_ hbefore hafter
      simp only [List.mem_cons]
      rintro child (rfl | rfl | hchild)
      · exact trimmed_leaf _ _
      · exact trimmed_leaf _ _
      · exact hspelled child hchild
    · exact .list hspelled hbefore hafter
  | splice hitems hbefore hafter => exact .splice hitems hbefore hafter

end Node

/-! ## Expanding what has been spelled out -/

variable {σ : Type}

/-- What may stand for an outline: the outline itself, or, unless it is a keyword, a list that
expands in the same way. -/
inductive Outline.StandsFor (entering : Entering σ) : Outline → Outline → Prop
  | self (outline : Outline) : StandsFor entering outline outline
  | list {outline : Outline} (words : List Outline) : (∀ text, outline ≠ .keyword text) →
    (Outline.list words).expand entering = outline.expand entering →
    StandsFor entering (.list words) outline

theorem Outline.StandsFor.expand_eq {entering : Entering σ} {outline outline' : Outline}
    (h : StandsFor entering outline' outline) :
    outline'.expand entering = outline.expand entering := by
  cases h with
  | self => rfl
  | list _ _ hexpand => exact hexpand

namespace Node

/-- Words have one outline each. -/
theorem outlined_words (nodes : List Node) :
    List.Forall₂ Outlined (nodes.filter isWord) (outlinesAll nodes) := by
  induction nodes with
  | nil => exact .nil
  | cons node nodes ih =>
    cases hword : node.isWord with
    | true =>
      obtain ⟨outline, houtline⟩ := exists_outline hword
      rw [List.filter_cons_of_pos hword, outlinesAll_cons, houtline]
      exact .cons (outlined_of_eq houtline) ih
    | false =>
      rw [List.filter_cons_of_neg (by simp [hword]), outlinesAll_cons,
        outlines_of_isTrivia (by simpa [isWord] using hword)]
      exact ih

/-- If every node may be spelled out, then so may expressions among several. -/
theorem spellOutAt_interchange {entering : Entering σ} {nodes : List Node}
    (h : ∀ node ∈ nodes, ∀ chosen outline, node.outlines = [outline] →
      ∃ outline', (node.spellOut chosen).outlines = [outline'] ∧
        StandsFor entering outline' outline)
    (chosen : List Nat → Bool) (expression : Nat → Bool) (position : Nat) :
    Interchange expression position (branchesOf entering (outlinesAll nodes))
      (branchesOf entering (outlinesAll (spellOutAt chosen expression position nodes))) := by
  induction nodes generalizing position with
  | nil => exact .nil position
  | cons node nodes ih =>
    obtain ⟨hnode, hnodes⟩ := List.forall_mem_cons.mp h
    rw [spellOutAt, outlinesAll_cons]
    cases hword : node.isWord with
    | true =>
      obtain ⟨outline, houtline⟩ := exists_outline hword
      rw [if_pos rfl, outlinesAll_cons, houtline]
      split
      · rename_i hexpression
        obtain ⟨outline', houtline', hstands⟩ :=
          hnode (fun path => chosen (position :: path)) outline houtline
        rw [houtline']
        cases hstands with
        | self => exact .keep _ (ih hnodes _)
        | list words hkeyword hexpand =>
          simp only [List.singleton_append, branchesOf]
          rw [hexpand]
          exact .swap words _ hexpression hkeyword (ih hnodes _)
      · rw [houtline]
        exact .keep _ (ih hnodes _)
    | false =>
      rw [if_neg (by simp), outlinesAll_cons,
        outlines_of_isTrivia (by simpa [isWord] using hword)]
      exact ih hnodes position

theorem spellAtom_standsFor (entering : Entering σ) {kind : AtomKind} (hkind : kind ≠ .trivia)
    (text : String) (before after : List Node) :
    ∃ outline, (spellAtom kind text before after).outlines = [outline] ∧
      StandsFor entering outline (.word kind text) := by
  rw [spellAtom]
  split
  · rename_i head hhead
    refine ⟨.list [.keyword head, .word kind text], ?_, ?_⟩
    · rw [outlines_list, outlinesAll_cons, outlinesAll_cons, outlinesAll_cons, outlines_leaf hkind]
      rfl
    · refine .list _ (fun text' => ?_) (expand_long entering hhead text)
      rintro ⟨⟩
      cases hhead
  · exact ⟨.word kind text, by rw [outlines, if_neg hkind], .self _⟩

/-- A node expands in the same way after expressions in it have been spelled out. -/
theorem spellOut_standsFor (entering : Entering σ) (node : Node) (chosen : List Nat → Bool)
    {outline : Outline} (houtline : node.outlines = [outline]) :
    ∃ outline', (node.spellOut chosen).outlines = [outline'] ∧
      StandsFor entering outline' outline := by
  induction node using Node.induction generalizing chosen outline with
  | atom kind text before after _ _ =>
    cases outlined_of_eq houtline with
    | atom _ _ _ hkind =>
      rw [spellOut]
      split
      · exact spellAtom_standsFor entering hkind text before after
      · exact ⟨_, houtline, .self _⟩
  | list children before after ih _ _ =>
    cases outlined_of_eq houtline with
    | list =>
      have hwords := outlined_words children
      have hinterchange : Interchange (Form.isExpression (children.filter isWord)) 0
          (branchesOf entering (outlinesAll children)) _ :=
        spellOutAt_interchange ih chosen (Form.isExpression (children.filter isWord)) 0
      rw [← outlines_branchesOf entering (outlinesAll children)] at hwords
      rw [spellOut]
      generalize children.filter isWord = words at hwords hinterchange ⊢
      split
      · rename_i hcall
        obtain ⟨text, b, a, rest, rfl⟩ := exists_name (Bool.and_eq_true _ _ ▸ hcall).2
        refine ⟨_, outlines_list _ _ _, .list _ (by simp [Outline.keyword]) ?_⟩
        exact hinterchange.expandForm_call_eq entering
          ⟨.keyword "call", Outline.expand entering (.keyword "call")⟩ rfl hwords
      · exact ⟨_, outlines_list _ _ _, .list _ (by simp [Outline.keyword])
          (hinterchange.expandForm_eq entering hwords)⟩
  | splice items before after _ _ _ => exact ⟨outline, houtline, .self outline⟩

end Node

/-- A source and the tree that comes of it when expressions are spelled out expand alike, in every
context that actions have made, and so do the two sources, if the tree is written as another one, in
whatever layout. -/
theorem read_expand_spellOut (actions : List Context.Action) {source : String} {form : Node}
    (hread : Node.read source = .ok form) (chosen : List Nat → Bool) :
    Alike (form.expand (Context.after actions))
        ((form.spellOut chosen).expand (Context.after actions)) ∧
      ∀ source' form', Node.read source' = .ok form' →
        form'.outlines = (form.spellOut chosen).outlines →
        Alike (form.expand (Context.after actions)) (form'.expand (Context.after actions)) := by
  obtain ⟨htrimmed, outline, houtline⟩ := (read_asRead hread).exists_outline
  obtain ⟨outline', houtline', hstands⟩ := form.spellOut_standsFor Entering.tabled chosen houtline
  have halike : ∀ form' : Node, form'.Trimmed → form'.outlines = (form.spellOut chosen).outlines →
      Alike (form.expand (Context.after actions)) (form'.expand (Context.after actions)) :=
    fun form' htrimmed' houtlines => htrimmed.expand_alike_of_eq htrimmed' houtline
      (houtlines.trans houtline') hstands.expand_eq (Context.after_data_consistent actions)
  refine ⟨halike _ (htrimmed.spellOut chosen) rfl, fun source' form' hread' houtlines => ?_⟩
  exact halike form' (read_asRead hread').exists_outline.1 houtlines

/-- All expressions but the last are spelled out: in a declaration, under a macro, and a call with
what it is called with. -/
theorem read_expand_spellOut_but_last :
    let source := "(func $f (global $g i32 \"a\") (AND $x ($h 1.5 7)))"
    let source' := "(func $f (global $g i32 (STRING \"a\"))\n" ++
      "  (AND (get_local $x) (call $h (f32.const 1.5) 7)))"
    let form : Node := .form [.keyword "func", .trivia " ", .name "$f", .trivia " ",
      .list [.keyword "global", .trivia " ", .name "$g", .trivia " ", .keyword "i32", .trivia " ",
        .leaf .string "\"a\""] [] [.trivia " "],
      .form [.keyword "AND", .trivia " ", .name "$x", .trivia " ",
        .form [.name "$h", .trivia " ", .float "1.5", .trivia " ", .integer "7"]]]
    let form' : Node := .form [.keyword "func", .trivia " ", .name "$f", .trivia " ",
      .list [.keyword "global", .trivia " ", .name "$g", .trivia " ", .keyword "i32", .trivia " ",
        .form [.keyword "STRING", .trivia " ", .leaf .string "\"a\""]] [] [.trivia "\n  "],
      .form [.keyword "AND", .trivia " ",
        .list [.keyword "get_local", .trivia " ", .name "$x"] [] [.trivia " "],
        .form [.keyword "call", .trivia " ", .name "$h", .trivia " ",
          .list [.keyword "f32.const", .trivia " ", .float "1.5"] [] [.trivia " "],
          .integer "7"]]]
    let chosen := fun path => path != [3, 2, 2]
    let context := Context.after [.intern "b"]
    Node.read source = .ok form ∧ Node.read source' = .ok form' ∧
      form'.outlines = (form.spellOut chosen).outlines ∧
      Alike (form.expand context) ((form.spellOut chosen).expand context) ∧
      Alike (form.expand context) (form'.expand context) := by
  intro source source' form form' chosen context
  have htexts : tokenize source = .ok ["(", "func", " ", "$f", " ", "(", "global", " ", "$g", " ",
      "i32", " ", "\"a\"", ")", " ", "(", "AND", " ", "$x", " ", "(", "$h", " ", "1.5", " ", "7",
      ")", ")", ")"] := by
    decide +kernel
  have htexts' : tokenize source' = .ok ["(", "func", " ", "$f", " ", "(", "global", " ", "$g",
      " ", "i32", " ", "(", "STRING", " ", "\"a\"", ")", ")", "\n  ", "(", "AND", " ", "(",
      "get_local", " ", "$x", ")", " ", "(", "call", " ", "$h", " ", "(", "f32.const", " ", "1.5",
      ")", " ", "7", ")", ")", ")"] := by
    decide +kernel
  have hread : Node.read source = .ok form := Node.read_eq_ok.mpr ⟨_, htexts, rfl⟩
  have hread' : Node.read source' = .ok form' := Node.read_eq_ok.mpr ⟨_, htexts', rfl⟩
  have houtlines : form'.outlines = (form.spellOut chosen).outlines := rfl
  obtain ⟨hspelled, hwritten⟩ := read_expand_spellOut [.intern "b"] hread chosen
  exact ⟨hread, hread', houtlines, hspelled, hwritten source' form' hread' houtlines⟩

end WatMacro
