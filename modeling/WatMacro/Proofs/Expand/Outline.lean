import WatMacro.Proofs.Expand.Address
import WatMacro.Proofs.Outline.Simulation

/-!
# Expansion on outlines

What a tree expands to depends on its outline: under any link the run on the outline follows the
expansion of the tree, function by function.

Results:

* `Node.Trimmed.expand_simulates`: the run on the outline of a tree follows its expansion.
-/

namespace WatMacro

open Expand Outline

variable {σ : Type} {link : Link σ}

/-! ## Words and their outlines -/

theorem text?_of_outlines {node : Node} {outline : Outline} (h : node.outlines = [outline]) :
    node.text? = outline.text? := by
  cases outlined_of_eq h <;> rfl

theorem describe_of_outlines {node : Node} {outline : Outline} (h : node.outlines = [outline]) :
    node.describe = outline.describe := by
  cases outlined_of_eq h <;> rfl

theorem length?_of_outlines {node : Node} {outline : Outline} (h : node.outlines = [outline]) :
    Builtin.length? node = outline.length? := by
  cases outlined_of_eq h with
  | @atom kind => cases kind <;> rfl
  | _ => rfl

theorem isName_of_outlines {node : Node} {outline : Outline} (h : node.outlines = [outline]) :
    node.isName = outline.isName := by
  cases outlined_of_eq h with
  | @atom kind => cases kind <;> rfl
  | _ => rfl

/-! ## Operands and branches -/

/-- An operand and a branch for the same word. -/
structure Match (link : Link σ) (operand : Operand) (branch : Branch σ) : Prop where
  outlines_eq : operand.node.outlines = [branch.outline]
  verbatim : Mirrors link.find [operand.node] [branch.outline]
  enters : Enters operand.expanded
  simulates : Simulates link operand.expanded branch.expanded fun node => Mirrors link.find [node]

/-- Operands and the branches for their words. Trivia expands to itself, and has no branch. -/
inductive Matching (link : Link σ) : List Operand → List (Branch σ) → Prop
  | nil : Matching link [] []
  | trivia {operand : Operand} {operands : List Operand} {branches : List (Branch σ)} :
    operand.isWord = false → Mirrors link.find [operand.node] [] →
    operand.expanded = pure operand.node → Matching link operands branches →
    Matching link (operand :: operands) branches
  | word {operand : Operand} {branch : Branch σ} {operands : List Operand}
    {branches : List (Branch σ)} : operand.isWord = true → Match link operand branch →
    Matching link operands branches → Matching link (operand :: operands) (branch :: branches)

theorem Matching.nodes {operands : List Operand} {branches : List (Branch σ)}
    (h : Matching link operands branches) :
    Mirrors link.find (Operand.nodes operands) (Branch.outlines branches) := by
  induction h with
  | nil => exact mirrors_nil
  | trivia _ hverbatim _ _ ih => exact hverbatim.cons ih
  | word _ hmatch _ ih => exact hmatch.verbatim.cons ih

theorem Matching.enters {operands : List Operand} {branches : List (Branch σ)}
    (h : Matching link operands branches) : Operand.AllEnter operands := by
  induction h with
  | nil => exact fun _ h => absurd h List.not_mem_nil
  | trivia _ _ hexpanded _ ih =>
    refine List.forall_mem_cons.mpr ⟨?_, ih⟩
    rw [hexpanded]
    exact enters_pure _
  | word _ hmatch _ ih => exact List.forall_mem_cons.mpr ⟨hmatch.enters, ih⟩

theorem Matching.any_isWord {operands : List Operand} {branches : List (Branch σ)}
    (h : Matching link operands branches) : operands.any Operand.isWord = !branches.isEmpty := by
  induction h with
  | nil => rfl
  | trivia hword _ _ _ ih => rw [List.any_cons, hword, ih, Bool.false_or]
  | word hword _ _ _ => rw [List.any_cons, hword]; rfl

/-- The words among operands go one by one with branches. -/
theorem Matching.words {operands : List Operand} {branches : List (Branch σ)}
    (h : Matching link operands branches) :
    List.Forall₂ (Match link) (operands.filter Operand.isWord) branches := by
  induction h with
  | nil => exact .nil
  | trivia hword _ _ _ ih => rwa [List.filter_cons_of_neg (by simp [hword])]
  | word hword hmatch _ ih =>
    rw [List.filter_cons_of_pos hword]
    exact .cons hmatch ih

/-- The operands from the head on. -/
theorem Matching.dropWhile {operands : List Operand} {branches : List (Branch σ)}
    (h : Matching link operands branches) :
    ((operands.dropWhile fun operand => !operand.isWord) = [] ∧ branches = []) ∨
    ∃ head arguments branch rest,
      (operands.dropWhile fun operand => !operand.isWord) = head :: arguments ∧
      branches = branch :: rest ∧ head.isWord = true ∧ Match link head branch ∧
      Matching link arguments rest := by
  induction h with
  | nil => exact .inl ⟨rfl, rfl⟩
  | trivia hword _ _ _ ih => rwa [List.dropWhile_cons_of_pos (by simp [hword])]
  | @word operand branch operands branches hword hmatch hrest _ =>
    rw [List.dropWhile_cons_of_neg (by simp [hword])]
    exact .inr ⟨operand, operands, branch, branches, rfl, rfl, hword, hmatch, hrest⟩

theorem expandAll_simulates {operands : List Operand} {branches : List (Branch σ)}
    (h : Matching link operands branches) :
    Simulates link (Operand.expandAll operands) (Branch.expandAll branches)
      (Mirrors link.find) := by
  induction h with
  | nil => exact simulates_pure mirrors_nil
  | @trivia operand operands branches _ hverbatim hexpanded _ ih =>
    have hrest : Simulates link
        (Operand.expandAll operands >>= fun nodes => pure (operand.node.spread ++ nodes))
        (Branch.expandAll branches) (Mirrors link.find) :=
      ih.mapLeft fun nodes outlines hnodes => hverbatim.spread.append hnodes
    rw [Operand.expandAll, hexpanded]
    exact hrest
  | word _ hmatch hrest ih =>
    refine hmatch.simulates.bind (fun node => ?_) fun node front hnode => ?_
    · exact (Operand.expandAll_enters hrest.enters).bind fun _ => enters_pure _
    · exact ih.map fun nodes outlines hnodes => hnode.spread.append hnodes

theorem expandAfter_simulates (count : Nat) {operands : List Operand}
    {branches : List (Branch σ)} (h : Matching link operands branches) :
    Simulates link (Operand.expandAfter count operands) (Branch.expandAfter count branches)
      (Mirrors link.find) := by
  induction h generalizing count with
  | nil => cases count <;> exact simulates_pure mirrors_nil
  | @trivia operand operands branches hword hverbatim _ _ ih =>
    unfold Operand.expandAfter
    rw [if_neg (by simp [hword])]
    exact (ih count).mapLeft fun nodes outlines hnodes => hverbatim.cons hnodes
  | @word operand branch operands branches hword hmatch hrest ih =>
    unfold Operand.expandAfter
    rw [if_pos hword]
    cases count with
    | zero => exact expandAll_simulates (.word hword hmatch hrest)
    | succ count => exact (ih count).map fun nodes outlines hnodes => hmatch.verbatim.cons hnodes

theorem expandLast_simulates {operands : List Operand} {branches : List (Branch σ)}
    (h : Matching link operands branches) :
    Simulates link (Operand.expandLast operands) (Branch.expandLast branches)
      (Mirrors link.find) := by
  induction h with
  | nil => exact simulates_pure mirrors_nil
  | @trivia operand operands branches hword hverbatim hexpanded hrest ih =>
    rw [Operand.expandLast, hrest.any_isWord]
    cases branches with
    | nil =>
      rw [if_neg (by simp), if_neg (by simp [hword])]
      exact simulates_pure (Matching.trivia hword hverbatim hexpanded hrest).nodes
    | cons branch branches =>
      rw [if_pos (by simp)]
      exact ih.mapLeft fun nodes outlines hnodes => hverbatim.cons hnodes
  | @word operand branch operands branches hword hmatch hrest ih =>
    rw [Operand.expandLast, hrest.any_isWord]
    cases branches with
    | nil =>
      rw [if_neg (by simp), if_pos hword]
      refine hmatch.simulates.map fun node outlines hnode => ?_
      have hnodes := hnode.spread.append hrest.nodes
      rwa [Branch.outlines, List.map_nil, List.append_nil] at hnodes
    | cons other branches =>
      rw [if_pos (by simp)]
      exact ih.map fun nodes outlines hnodes => hmatch.verbatim.cons hnodes

/-! ## Macros -/

/-- The words that are handed to a macro, and the branches for them. -/
abbrev Arguments (link : Link σ) : List Operand → List (Branch σ) → Prop :=
  List.Forall₂ (Match link)

theorem Arguments.enter {operands : List Operand} {branches : List (Branch σ)}
    (h : Arguments link operands branches) : Operand.AllEnter operands := by
  induction h with
  | nil => exact fun _ h => absurd h List.not_mem_nil
  | cons hmatch _ ih => exact List.forall_mem_cons.mpr ⟨hmatch.enters, ih⟩

theorem mirrors_constant (value : String) :
    Mirrors link.find [Builtin.constant value] [.constant value] :=
  ((mirrors_keyword "i32.const").cons (mirrors_leaf (by decide) (by decide) value)).form

theorem Mirrors.conditional {find : String → Option Content} {test positive negative : Node}
    {tests : List Outline} {positive' negative' : Outline} (htest : Mirrors find [test] tests)
    (hpositive : Mirrors find [positive] [positive'])
    (hnegative : Mirrors find [negative] [negative']) :
    Mirrors find [Builtin.conditional test positive negative]
      [.conditional tests positive' negative'] := by
  have hchildren := (mirrors_keyword "if").cons ((mirrors_keyword "i32").cons
    (htest.cons (hpositive.cons hnegative)))
  exact hchildren.form

theorem conjunction_simulates {operands : List Operand} {branches : List (Branch σ)}
    (h : Arguments link operands branches) :
    Simulates link (Builtin.conjunction operands) (Branch.conjunction branches)
      fun node outline => Mirrors link.find [node] [outline] := by
  induction h with
  | nil => exact simulates_pure (mirrors_constant "1")
  | cons hmatch _ ih =>
    refine ih.bind (fun _ => hmatch.enters.bind fun _ => enters_pure _) fun rest rest' hrest => ?_
    exact hmatch.simulates.map
      fun test tests htest => htest.conditional hrest (mirrors_constant "0")

theorem disjunction_simulates {operands : List Operand} {branches : List (Branch σ)}
    (h : Arguments link operands branches) :
    Simulates link (Builtin.disjunction operands) (Branch.disjunction branches)
      fun node outline => Mirrors link.find [node] [outline] := by
  induction h with
  | nil => exact simulates_pure (mirrors_constant "0")
  | cons hmatch _ ih =>
    refine ih.bind (fun _ => hmatch.enters.bind fun _ => enters_pure _) fun rest rest' hrest => ?_
    exact hmatch.simulates.map
      fun test tests htest => htest.conditional (mirrors_constant "1") hrest

theorem literal_simulates (builtin : Builtin) {argument : Node} {outline : Outline}
    (h : argument.outlines = [outline]) :
    Simulates link (Builtin.literal builtin argument) (Branch.literal builtin outline) Eq := by
  rw [Builtin.literal, Branch.literal, text?_of_outlines h, describe_of_outlines h]
  cases outline.text?.bind Text.Quoted.decode? with
  | none => exact simulates_fail _
  | some value => exact simulates_pure rfl

/-- The constant of a code point, which has the literal beside it in a comment. -/
theorem mirrors_codePoint (numeral comment : String) :
    Mirrors link.find
      [.form [.keyword "i32.const", .trivia " ", .integer numeral, .trivia " ", .trivia comment]]
      [.constant numeral] := by
  have hspace : Mirrors link.find [.trivia " "] [] := mirrors_trivia " "
  have hnumeral : Mirrors link.find [.integer numeral] [.word .integer numeral] :=
    mirrors_leaf (by decide) (by decide) numeral
  have hcomment : Mirrors link.find [.trivia comment] [] := mirrors_trivia comment
  have hchildren := hspace.cons (hnumeral.cons (hspace.cons hcomment))
  exact ((mirrors_keyword "i32.const").cons hchildren).form

theorem codePoint_simulates {argument : Node} {outline : Outline}
    (h : argument.outlines = [outline]) :
    Simulates link (Builtin.codePoint argument) (Branch.codePoint outline)
      fun node result => Mirrors link.find [node] [result] := by
  refine (literal_simulates .chr h).bind (fun value => ?_) fun value value' hvalue => ?_
  · split
    · exact enters_pure _
    · exact enters_fail _
  · subst hvalue
    rw [describe_of_outlines h]
    cases value.toList with
    | nil => exact simulates_fail _
    | cons c cs =>
      cases cs with
      | nil => exact simulates_pure (mirrors_codePoint _ _)
      | cons => exact simulates_fail _

/-- The address of a symbol, with what stands for the symbol in its place. -/
theorem mirrors_addressForm (link : Link σ) (symbol : String) :
    Mirrors link.find [Builtin.addressForm symbol]
      [.address (resolve link.find (.word .name symbol))] := by
  have hget : Mirrors link.find [.keyword "get_global"] [.keyword "get_global"] :=
    mirrors_keyword "get_global"
  have hspace : Mirrors link.find [.trivia " "] [] := mirrors_trivia " "
  have hname : Mirrors link.find [.name symbol] [resolve link.find (.word .name symbol)] :=
    mirrors_singleton rfl (Node.trimmed_leaf _ _)
  have hbase : Mirrors link.find [.name "$memoryBase"] [.word .name "$memoryBase"] :=
    mirrors_singleton (congrArg (List.cons · []) (resolve_name_of_none link.find_base))
      (Node.trimmed_leaf _ _)
  have hafter : Node.LayoutAsRead [.trivia " "] :=
    fun node hnode => ⟨" ", List.mem_singleton.mp hnode⟩
  have hfirst := (hget.cons (hspace.cons hbase)).list Node.layoutAsRead_nil hafter
  have hsecond := (hget.cons (hspace.cons hname)).form
  exact ((mirrors_keyword "i32.add").cons (hspace.cons (hfirst.cons hsecond))).form

theorem textAddress_simulates {argument : Node} {outline : Outline}
    (h : argument.outlines = [outline]) :
    Simulates link (Builtin.textAddress argument) (Branch.textAddress link.entering outline)
      fun node result => Mirrors link.find [node] [result] := by
  refine (literal_simulates .string h).bind (fun value => ?_) fun value value' hvalue => ?_
  · exact (enters_intern value).bind fun _ => enters_ofExcept _
  · subst hvalue
    intro context after collected result hagrees hrun hbelow _
    have haddress : Builtin.address (context.intern value).1 (context.intern value).2 =
        (result, after) := hrun
    rw [Builtin.address_intern hagrees.consistent] at haddress
    cases haddress
    obtain ⟨state, hentering, hliterals⟩ :=
      link.text value hagrees.consistent hagrees.literals hbelow
    exact ⟨_, _, Run.enter_bind_ok hentering _, .ok (mirrors_addressForm link _),
      hagrees.consistent.intern value, hliterals, hagrees.hoisted, hagrees.modules⟩

theorem arrayAddress_simulates {argument : Node} {outline : Outline}
    (h : argument.outlines = [outline]) :
    Simulates link (Builtin.arrayAddress argument) (Branch.arrayAddress link.entering outline)
      fun node result => Mirrors link.find [node] [result] := by
  rw [Builtin.arrayAddress, Branch.arrayAddress, length?_of_outlines h, describe_of_outlines h]
  cases outline.length? with
  | none => exact simulates_fail _
  | some length =>
    intro context after collected result hagrees hrun hbelow hfaithful
    simp only [Expand.bind_apply, look] at hrun
    split at hrun
    · rename_i hfits
      have haddress : Builtin.address (context.allocate length).1 (context.allocate length).2 =
          (result, after) := hrun
      rw [Builtin.address_allocate hagrees.consistent] at haddress
      cases haddress
      obtain ⟨state, hentering, hliterals⟩ :=
        link.array hagrees.consistent hfits hagrees.literals hbelow
      exact ⟨_, _, Run.enter_bind_ok hentering _, .ok (mirrors_addressForm link _),
        hagrees.consistent.allocate length, hliterals, hagrees.hoisted, hagrees.modules⟩
    · rename_i hfits
      cases hrun
      have hentering := link.tooLarge (hfaithful _ rfl) hfits hagrees.literals
      exact ⟨_, _, Run.enter_bind_error hentering _, .error _, hagrees⟩

/-- The names that a `LET` binds, with the values that go to them. -/
abbrev Bound (link : Link σ) : List (Node × Node) → List (Outline × List Outline) → Prop :=
  List.Forall₂ fun pair pair' =>
    Mirrors link.find [pair.1] [pair'.1] ∧ Mirrors link.find [pair.2] pair'.2

theorem bindings_simulates {operands : List Operand} {branches : List (Branch σ)}
    (h : Arguments link operands branches) :
    Simulates link (Builtin.bindings operands) (Branch.bindings branches) (Bound link) := by
  fun_induction Builtin.bindings operands generalizing branches with
  | case1 name value operands hname ih =>
    obtain _ | ⟨hmatch, _ | ⟨hvalue, hrest⟩⟩ := h
    rw [Branch.bindings, ← isName_of_outlines hmatch.outlines_eq, if_pos hname]
    refine hvalue.simulates.bind (fun _ => ?_) fun node outlines hnode => ?_
    · exact (Builtin.bindings_enters (Arguments.enter hrest)).bind fun _ => enters_pure _
    · refine (ih hrest).map fun bound bound' hbound => .cons ⟨hmatch.verbatim, ?_⟩ hbound
      exact hnode.surround Node.layoutAsRead_nil Node.layoutAsRead_nil
  | case2 name value operands hname =>
    obtain _ | ⟨hmatch, _ | ⟨hvalue, hrest⟩⟩ := h
    rw [Branch.bindings, ← isName_of_outlines hmatch.outlines_eq, if_neg hname,
      describe_of_outlines hmatch.outlines_eq]
    exact simulates_fail _
  | case3 operands hshort =>
    obtain _ | ⟨_, _ | ⟨_, _⟩⟩ := h
    · exact simulates_pure .nil
    · exact simulates_pure .nil
    · exact absurd rfl (hshort _ _ _)

theorem Bound.mirrors_names {bound : List (Node × Node)}
    {bound' : List (Outline × List Outline)} (h : Bound link bound bound') :
    Mirrors link.find (bound.flatMap fun (name, _) => [name, .keyword "i32"])
      (bound'.flatMap fun (name, _) => [name, .keyword "i32"]) := by
  induction h with
  | nil => exact mirrors_nil
  | cons hpair _ ih => exact (hpair.1.cons (mirrors_keyword "i32")).append ih

theorem Bound.mirrors_values {bound : List (Node × Node)}
    {bound' : List (Outline × List Outline)} (h : Bound link bound bound') :
    Mirrors link.find (bound.map fun (name, value) => .form [.keyword "set_local", name, value])
      (bound'.map fun (name, value) => .list ([.keyword "set_local", name] ++ value)) := by
  induction h with
  | nil => exact mirrors_nil
  | cons hpair _ ih =>
    exact ((mirrors_keyword "set_local").cons (hpair.1.cons hpair.2)).form.cons ih

theorem Bound.mirrors {bound : List (Node × Node)} {bound' : List (Outline × List Outline)}
    (h : Bound link bound bound') :
    Mirrors link.find [Builtin.assignments bound] [.assignments bound'] :=
  (((mirrors_keyword "local").cons h.mirrors_names).form.cons h.mirrors_values).splice

theorem expandMacro_simulates (builtin : Builtin) {operands : List Operand}
    {branches : List (Branch σ)} (h : Arguments link operands branches) :
    Simulates link (builtin.expand operands) (Branch.expandMacro link.entering builtin branches)
      fun node outline => Mirrors link.find [node] [outline] := by
  have harity : ∀ builtin arity, Simulates link
      (Expand.fail (.arity builtin arity operands.length))
      (Run.fail (.arity builtin arity branches.length))
      fun node outline => Mirrors link.find [node] [outline] := by
    intro builtin arity
    rw [h.length_eq]
    exact simulates_fail _
  cases builtin with
  | and =>
    cases h with
    | nil => exact simulates_fail _
    | cons hmatch hrest => exact conjunction_simulates (.cons hmatch hrest)
  | or =>
    cases h with
    | nil => exact simulates_fail _
    | cons hmatch hrest => exact disjunction_simulates (.cons hmatch hrest)
  | chr =>
    obtain _ | ⟨hmatch, _ | ⟨_, _⟩⟩ := h
    · exact harity .chr .one
    · exact codePoint_simulates hmatch.outlines_eq
    · exact harity .chr .one
  | string =>
    obtain _ | ⟨hmatch, _ | ⟨_, _⟩⟩ := h
    · exact harity .string .one
    · exact textAddress_simulates hmatch.outlines_eq
    · exact harity .string .one
  | staticArray =>
    obtain _ | ⟨hmatch, _ | ⟨_, _⟩⟩ := h
    · exact harity .staticArray .one
    · exact arrayAddress_simulates hmatch.outlines_eq
    · exact harity .staticArray .one
  | bindLocals =>
    rw [Builtin.expand, Branch.expandMacro, ← h.length_eq]
    split
    · exact simulates_fail _
    · split
      · exact simulates_fail _
      · exact (bindings_simulates h).map fun _ _ hbound => hbound.mirrors

/-! ## Forms -/

theorem attach_mirrors {node : Node} {before after : List Node} {outlines : List Outline}
    (h : Mirrors link.find [node] outlines) (hbefore : Node.LayoutAsRead before)
    (hafter : Node.LayoutAsRead after) :
    Mirrors link.find [Form.attach before after node] outlines := by
  cases node with
  | splice items front back =>
    have hitems : Node.outlinesAll (items.map (·.surround before after)) =
        Node.outlinesAll items := by
      simp [Node.outlinesAll_eq, List.flatMap_map]
    refine mirrors_singleton ?_ (.splice ?_ Node.layoutAsRead_nil Node.layoutAsRead_nil)
    · rw [← h.outlines_eq, Form.attach, Node.outlines_splice, Node.outlines_splice, hitems]
    · intro item hitem
      obtain ⟨other, hother, rfl⟩ := List.mem_map.mp hitem
      exact (h.head.spread other hother).surround hbefore hafter
  | _ => exact h.surround hbefore hafter

/-- A declaration that is called by a list needs the text of the list. -/
theorem render_simulates {node : Node} {label : Outline} (h : node.Trimmed)
    (hlabel : node.outlines = [label]) :
    Simulates link (ofExcept (node.surround [] []).render)
      (if label.holdsSplice then Run.fail .strandedSplice else pure ()) fun _ _ => True := by
  have htrimmed := h.surround Node.layoutAsRead_nil Node.layoutAsRead_nil
  have hsplice : holdsSpliceAny (node.surround [] []).outlines = label.holdsSplice := by
    rw [Node.outlines_surround, hlabel, holdsSpliceAny_cons, holdsSpliceAny_nil, Bool.or_false]
  split
  · rename_i hholds
    rw [htrimmed.render_eq_error (hsplice.trans hholds)]
    exact simulates_fail _
  · rename_i hholds
    obtain ⟨text, htext⟩ := htrimmed.render_eq_ok (hsplice.trans (Bool.not_eq_true _ ▸ hholds))
    rw [htext]
    exact simulates_pure trivial

theorem declarationLabel_simulates (head : String) {children : List Node}
    {outlines : List Outline} (h : Mirrors link.find children outlines) :
    Simulates link (Form.declarationLabel head children) (Branch.checkLabel head outlines)
      fun _ _ => True := by
  have heq := h.eq
  rw [← Node.outlinesAll_filter_isWord] at heq
  unfold Form.declarationLabel
  cases hwords : children.filter Node.isWord with
  | nil =>
    rw [hwords] at heq
    subst heq
    exact simulates_fail _
  | cons first words =>
    have hword : ∀ node ∈ first :: words, node ∈ children ∧ node.isWord = true := by
      rw [← hwords]
      exact fun node hnode => List.mem_filter.mp hnode
    obtain ⟨hfirst, hrest⟩ := List.forall_mem_cons.mp hword
    obtain ⟨outline, houtline⟩ := exists_outline hfirst.2
    rw [hwords, Node.outlinesAll_cons, houtline, List.singleton_append, resolveAll_cons] at heq
    cases words with
    | nil =>
      subst heq
      exact simulates_fail _
    | cons second words =>
      obtain ⟨hsecond, -⟩ := List.forall_mem_cons.mp hrest
      obtain ⟨label, hlabel⟩ := exists_outline hsecond.2
      rw [Node.outlinesAll_cons, hlabel, List.singleton_append, resolveAll_cons] at heq
      subst heq
      rw [Branch.checkLabel, holdsSplice_resolve]
      have htrimmed : second.Trimmed := h.trimmed second hsecond.1
      cases outlined_of_eq hlabel with
      | atom text before after => exact simulates_pure trivial
      | list => exact render_simulates htrimmed hlabel
      | splice => exact render_simulates htrimmed hlabel

/-- A declaration is collected on both sides. -/
theorem collect_simulates {declaration : Node} {outline : Outline}
    (h : Mirrors link.find [declaration] [outline]) :
    Simulates link (update (·.hoist declaration)) (Run.hoist outline) fun _ _ => True := by
  intro context after collected result hagrees hrun _ _
  cases hrun
  refine ⟨_, _, rfl, .ok trivial, hagrees.consistent, hagrees.literals, ?_, hagrees.modules⟩
  show resolveAll link.find (Node.outlinesAll (context.hoisted ++ [declaration])) = _
  rw [Node.outlinesAll_append, resolveAll_append, hagrees.hoisted, h.eq]

theorem hoist_simulates (head : String) {children : List Node} {outlines : List Outline}
    (h : Mirrors link.find children outlines) :
    Simulates link (Form.hoist head children) (Branch.hoist head outlines)
      fun node outlines => Mirrors link.find [node] outlines := by
  refine (declarationLabel_simulates head h).bind (fun _ => ?_) fun label _ _ => ?_
  · exact (enters_hoist _).bind fun _ => enters_pure _
  · have htrivia : ∀ text, Node.LayoutAsRead [.trivia text] :=
      fun text node hnode => ⟨text, List.mem_singleton.mp hnode⟩
    have hcollect := collect_simulates (h.list (htrivia "  ") (htrivia "\n"))
    exact hcollect.bind (fun _ => enters_pure _) fun _ _ _ => simulates_pure (mirrors_trivia _)

theorem addModule_simulates (name : String) :
    Simulates link (update (·.addModule name)) (Run.addModule name) fun _ _ => True := by
  intro context after collected result hagrees hrun _ _
  cases hrun
  exact ⟨_, _, rfl, .ok trivial, hagrees.consistent, hagrees.literals, hagrees.hoisted,
    congrArg (· ++ [name]) hagrees.modules⟩

theorem expandAfterName_simulates (head : String) {operands : List Operand}
    {branches : List (Branch σ)} (h : Matching link operands branches) :
    Simulates link (Form.expandAfterName head operands) (Branch.expandAfterName head branches)
      (Mirrors link.find) := by
  have hplain := expandAfter_simulates 1 h
  have hnamed : ∀ text, Simulates link
      (do
        if head = "module" then
          update (·.addModule (Form.moduleName text))
        Operand.expandAfter 2 operands)
      (do
        if head = "module" then
          Run.addModule (Form.moduleName text)
        Branch.expandAfter 2 branches)
      (Mirrors link.find) := by
    intro text
    split
    · exact (addModule_simulates _).bind (fun _ => Operand.expandAfter_enters 2 h.enters)
        fun _ _ _ => expandAfter_simulates 2 h
    · exact expandAfter_simulates 2 h
  unfold Form.expandAfterName Branch.expandAfterName
  rw [Operand.filter_nodes]
  have hwords := h.words
  generalize operands.filter Operand.isWord = words at hwords
  -- both sides look at the second word alone
  obtain _ | ⟨_, _ | ⟨hsecond, _⟩⟩ := hwords
  · exact hplain
  · exact hplain
  · rename_i second second' _ _ _
    obtain ⟨node, expanded⟩ := second
    obtain ⟨outline, expanded'⟩ := second'
    cases outlined_of_eq hsecond.outlines_eq with
    | @atom kind text before after hkind =>
      cases kind with
      | name => exact hnamed text
      | _ => exact hplain
    | _ => exact hplain

theorem expandByPolicy_simulates (head : String) {operands : List Operand}
    {branches : List (Branch σ)} (h : Matching link operands branches) :
    Simulates link (Form.expandByPolicy head operands) (Branch.expandByPolicy head branches)
      fun node outlines => Mirrors link.find [node] outlines := by
  unfold Form.expandByPolicy Branch.expandByPolicy
  cases Policy.ofHead head with
  | hoist expandLast =>
    cases expandLast with
    | false => exact hoist_simulates head h.nodes
    | true =>
      exact (expandLast_simulates h).bind (fun _ => Form.hoist_enters _ _)
        fun _ _ hchildren => hoist_simulates head hchildren
  | verbatim => exact simulates_pure h.nodes.form
  | afterName => exact (expandAfterName_simulates head h).map fun _ _ hchildren => hchildren.form
  | lastOnly => exact (expandLast_simulates h).map fun _ _ hchildren => hchildren.form
  | all => exact (expandAll_simulates h).map fun _ _ hchildren => hchildren.form

theorem form_simulates {before after : List Node} (hbefore : Node.LayoutAsRead before)
    (hafter : Node.LayoutAsRead after) {operands : List Operand} {branches : List (Branch σ)}
    (h : Matching link operands branches) :
    Simulates link (Form.expand before after operands) (Branch.expandForm link.entering branches)
      fun node outlines => Mirrors link.find [node] outlines := by
  have hplain : Simulates link
      (Operand.expandAll operands >>= fun children => pure (Node.list children before after))
      (Branch.expandAll branches >>= fun children => pure [.list children])
      fun node outlines => Mirrors link.find [node] outlines :=
    (expandAll_simulates h).map fun _ _ hchildren => hchildren.list hbefore hafter
  unfold Form.expand
  rcases h.dropWhile with
    ⟨hnone, rfl⟩ | ⟨head, arguments, branch, rest, hdrop, rfl, _, hmatch, hrest⟩
  · rw [hnone]
    exact hplain
  · rw [hdrop]
    obtain ⟨node, expanded⟩ := head
    obtain ⟨outline, expanded'⟩ := branch
    cases outlined_of_eq hmatch.outlines_eq with
    | @atom kind text _ _ hkind =>
      cases kind with
      | trivia => exact absurd rfl hkind
      | name =>
        refine (expandAll_simulates hrest).map fun _ _ hchildren => ?_
        exact ((mirrors_keyword "call").cons (hmatch.verbatim.cons hchildren)).list hbefore hafter
      | keyword =>
        rw [Branch.expandForm]
        dsimp only
        cases Builtin.ofKeyword? text with
        | none =>
          exact (expandByPolicy_simulates text h).mapLeft
            fun _ _ hresult => hresult.surround hbefore hafter
        | some builtin =>
          exact (expandMacro_simulates builtin hrest.words).map
            fun _ _ hresult => attach_mirrors hresult hbefore hafter
      | _ => exact hplain
    | _ => exact hplain

/-! ## Trees -/

namespace Node

theorem expand_atom_simulates {kind : AtomKind} (text : String) {before after : List Node}
    (hbefore : LayoutAsRead before) (hafter : LayoutAsRead after) (hkind : kind ≠ .trivia)
    (hfixed : resolve link.find (.word kind text) = .word kind text) :
    Simulates link (atom kind text before after).expand (expandWord link.entering kind text)
      fun node outlines => Mirrors link.find [node] outlines := by
  have hleaf : Mirrors link.find [.leaf kind text] [.word kind text] := by
    refine mirrors_singleton ?_ (trimmed_leaf kind text)
    rw [outlines_leaf hkind, resolveAll_cons, hfixed, resolveAll_nil]
  have hform : ∀ head, Mirrors link.find
      [Node.surround (.form [.keyword head, .leaf kind text]) before after]
      [.list [.keyword head, .word kind text]] :=
    fun head => ((mirrors_keyword head).cons hleaf).form.surround hbefore hafter
  cases kind with
  | integer => exact simulates_pure (hform "i32.const")
  | float => exact simulates_pure (hform "f32.const")
  | name => exact simulates_pure (hform "get_local")
  | string =>
    have hargument : (leaf .string text).outlines = [.word .string text] := rfl
    exact (textAddress_simulates hargument).map
      fun _ _ hresult => hresult.surround hbefore hafter
  | keyword => exact simulates_pure (hleaf.surround hbefore hafter)
  | trivia => exact absurd rfl hkind

/-- Children as operands, and their outlines as branches. -/
theorem matching_map {children : List Node} (h : ∀ child ∈ children, child.Trimmed ∧
      resolveAll link.find child.outlines = child.outlines ∧
      ∀ outline, child.outlines = [outline] →
        Simulates link child.expand (outline.expand link.entering)
          fun node outlines => Mirrors link.find [node] outlines) :
    Matching link (children.map fun node => ⟨node, node.expand⟩)
      (branchesOf link.entering (outlinesAll children)) := by
  induction children with
  | nil => exact .nil
  | cons child children ih =>
    obtain ⟨⟨htrimmed, hfixed, hchild⟩, hrest⟩ := List.forall_mem_cons.mp h
    have hverbatim := mirrors_singleton hfixed htrimmed
    rw [List.map_cons, outlinesAll_cons]
    by_cases hword : child.isWord = true
    · obtain ⟨outline, houtline⟩ := exists_outline hword
      rw [houtline] at hverbatim ⊢
      have hmatch : Match link ⟨child, child.expand⟩ ⟨outline, outline.expand link.entering⟩ :=
        ⟨houtline, hverbatim, child.expand_enters, hchild outline houtline⟩
      exact .word hword hmatch (ih hrest)
    · have htrivia : child.isTrivia = true := by simpa [isWord] using hword
      rw [outlines_of_isTrivia htrivia] at hverbatim ⊢
      refine .trivia (by simpa [Operand.isWord] using hword) hverbatim ?_ (ih hrest)
      unfold isTrivia at htrivia
      split at htrivia
      · rfl
      · cases htrivia

/-- The run on the outline of a tree follows its expansion, if nothing is found for the names of the
tree. -/
theorem Trimmed.expand_simulates {node : Node} (h : node.Trimmed)
    (hnames : ∀ text, Token.atom .name text ∈ node.listing → link.find text = none)
    {outline : Outline} (houtline : node.outlines = [outline]) :
    Simulates link node.expand (outline.expand link.entering)
      fun node outlines => Mirrors link.find [node] outlines := by
  have hfixed := resolve_outlines hnames
  induction h generalizing outline with
  | @atom kind text before after hbefore hafter =>
    cases outlined_of_eq houtline with
    | atom text _ _ hkind =>
      rw [houtline] at hfixed
      exact expand_atom_simulates text hbefore hafter hkind (List.cons.inj hfixed).1
  | @list children before after hchildren hbefore hafter ih =>
    cases outlined_of_eq houtline with
    | list =>
      -- names of a child are names of the list, so the hypothesis goes down to the children
      have hmem : ∀ child ∈ children, ∀ text, Token.atom .name text ∈ child.listing →
          link.find text = none :=
        fun child hchild text htext => hnames text (mem_listing hchild htext)
      rw [expand_list, Outline.expand]
      refine form_simulates hbefore hafter (matching_map fun child hchild => ?_)
      have hchildFixed := resolve_outlines (hmem child hchild)
      exact ⟨hchildren child hchild, hchildFixed, fun outline houtline =>
        ih child hchild (hmem child hchild) houtline hchildFixed⟩
  | splice hitems hbefore hafter =>
    cases outlined_of_eq houtline with
    | splice =>
      rw [expand, Outline.expand]
      exact simulates_pure
        (mirrors_singleton (hfixed.trans houtline) (.splice hitems hbefore hafter))

end Node

end WatMacro
