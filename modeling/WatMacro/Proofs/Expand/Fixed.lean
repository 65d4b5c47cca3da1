import WatMacro.Proofs.Expand.Legible
import WatMacro.Proofs.Expand.Stranded

/-!
# Expansion is done once

What an expansion makes is in a form that no further expansion changes: constants, values of locals
and declarations of locals are kept as they stand, and every other list made is headed by what it
was headed by, with words that no expansion changes. Only a declaration that leaves a comment behind
may change which word is the head of its form, and only a splice below another node is out of place.

Results:

* `Node.fixed_list`: a list is kept if its expressions are.
* `Node.expand_becomes`: what a node becomes, if nothing is hoisted.
* `read_expand_fixed`: what a source expands to expands to itself, in any context.
-/

namespace WatMacro

open Expand

/-! ## Computations that collect nothing -/

namespace Expand

/-- In every context the computation yields the value, and leaves the declarations and the static
data as they are. -/
def Rests {α : Type} (x : Expand α) (value : α) : Prop :=
  ∀ context, ∃ next, x context = (.ok value, next) ∧ next.hoisted = context.hoisted ∧
    next.data = context.data

theorem rests_pure {α : Type} (value : α) : Rests (pure value) value :=
  fun context => ⟨context, rfl, rfl, rfl⟩

theorem rests_addModule (name : String) : Rests (update (·.addModule name)) () :=
  fun _ => ⟨_, rfl, rfl, rfl⟩

theorem Rests.bind {α β : Type} {x : Expand α} {next : α → Expand β} {value : α} {result : β}
    (hx : Rests x value) (hnext : Rests (next value) result) : Rests (x >>= next) result := by
  intro context
  obtain ⟨middle, hrun, hhoisted, hdata⟩ := hx context
  obtain ⟨last, hrun', hhoisted', hdata'⟩ := hnext middle
  exact ⟨last, by rw [bind_ok hrun, hrun'], hhoisted'.trans hhoisted, hdata'.trans hdata⟩

end Expand

namespace Node

/-! ## Nodes that expansion keeps -/

/-- A node other than a splice that expands to itself, with whatever attachments. -/
structure Fixed (node : Node) : Prop where
  isSplice : node.isSplice = false
  rests : ∀ before after, Rests (node.surround before after).expand (node.surround before after)

/-- Atoms that expansion keeps: trivia and keywords. -/
def isInert : Node → Bool
  | atom .trivia _ _ _ => true
  | atom .keyword _ _ _ => true
  | _ => false

theorem Fixed.expand {node : Node} (h : node.Fixed) : Rests node.expand node := by
  have hself := h.rests node.before node.after
  rwa [surround_before_after] at hself

theorem Fixed.surround {node : Node} (h : node.Fixed) (before after : List Node) :
    (node.surround before after).Fixed where
  isSplice := by rw [isSplice_surround, h.isSplice]
  rests before' after' := by
    rw [surround_surround]
    exact h.rests before' after'

theorem Fixed.of_isInert {node : Node} (h : node.isInert = true) : node.Fixed := by
  cases node with
  | atom kind text before after =>
    refine ⟨rfl, fun before after => ?_⟩
    rw [Node.surround, Node.expand]
    cases kind with
    | trivia => exact rests_pure _
    | keyword => exact rests_pure _
    | _ => cases h
  | _ => cases h

theorem spread_of_not_isSplice {node : Node} (h : node.isSplice = false) :
    node.spread = [node] := by
  cases node with
  | splice => cases h
  | _ => rfl

/-- Children are kept if their expressions are. -/
theorem expandAt_rests {expression : Nat → Bool} {position : Nat} {nodes : List Node}
    (h : ∀ i word, (nodes.filter isWord)[i]? = some word → expression (position + i) = true →
      word.Fixed) :
    Rests (Operand.expandAt expression position (nodes.map operand)) nodes := by
  induction nodes generalizing position with
  | nil => exact rests_pure []
  | cons node nodes ih =>
    rw [List.map_cons]
    cases hword : node.isWord with
    | false =>
      rw [List.filter_cons_of_neg (by simp [hword])] at h
      rw [Operand.expandAt_trivia (show node.operand.isWord = false from hword)]
      exact (ih h).bind (rests_pure _)
    | true =>
      rw [List.filter_cons_of_pos hword] at h
      have hrest : Rests (Operand.expandAt expression (position + 1) (nodes.map operand)) nodes :=
        ih fun i word hi hexpression =>
          h (i + 1) word hi (by rwa [← Nat.add_assoc, Nat.add_right_comm])
      have hoperand : node.operand.isWord = true := hword
      cases hexpression : expression position with
      | false =>
        rw [Operand.expandAt_kept hoperand hexpression]
        exact hrest.bind (rests_pure _)
      | true =>
        rw [Operand.expandAt_word hoperand hexpression]
        have hfixed : node.Fixed := h 0 node rfl hexpression
        have hspread := spread_of_not_isSplice hfixed.isSplice
        exact hfixed.expand.bind (hrest.bind (hspread ▸ rests_pure (node.spread ++ nodes)))

/-- The words of a list that may be expanded once more: it does nothing beside expanding words, or
names a module. -/
inductive Settling : List Node → Prop
  | plain {words : List Node} : Form.Plain words → Settling words
  | module (b a : List Node) (text : String) (b' a' arguments : List Node) :
    Settling (.atom .keyword "module" b a :: .atom .name text b' a' :: arguments)

/-- A list is kept if its expressions are. -/
theorem fixed_list {children : List Node} (hsettling : Settling (children.filter isWord))
    (h : ∀ i word, (children.filter isWord)[i]? = some word →
      Form.isExpression (children.filter isWord) i = true → word.Fixed)
    (before after : List Node) : (list children before after).Fixed := by
  refine ⟨rfl, fun before after => ?_⟩
  have hwords : Rests (expandWords children) children :=
    expandAt_rests fun i word hword hexpression => h i word hword (by simpa using hexpression)
  generalize hfilter : children.filter isWord = words at hsettling
  cases hsettling with
  | plain hplain =>
    subst hfilter
    rw [surround, expand_plain before after hplain]
    exact hwords.bind (rests_pure _)
  | module b a text b' a' arguments =>
    rw [surround, expand_module before after hfilter]
    exact (rests_addModule _).bind (hwords.bind (rests_pure _))

/-! ## What words become -/

/-- A node that expansion keeps, if no splices are below it and it is none. -/
def Stable (node : Node) : Prop :=
  node.isSplice = false → node.children.any holdsSplice = false → node.Fixed

/-- A list that expansion keeps, if no splices are below it. -/
structure Made (node : Node) : Prop where
  isList : node.isList = true
  stable : node.Stable

/-- One list or more that expansion keeps. -/
structure MakesLists (result : Node) : Prop where
  ne_nil : result.spread ≠ []
  made : ∀ item ∈ result.spread, item.Made

/-- What a node becomes: trivia and keywords stay, and any other node becomes one list or more. -/
inductive Becomes : Node → Node → Prop
  | inert {node : Node} : node.isInert = true → Becomes node node
  | made {node result : Node} : node.isInert = false → result.MakesLists → Becomes node result

theorem isSplice_of_isList {node : Node} (h : node.isList = true) : node.isSplice = false := by
  cases node with
  | list => rfl
  | _ => cases h

theorem Made.isWord {node : Node} (h : node.Made) : node.isWord = true := by
  have hlist := h.isList
  cases node with
  | list => rfl
  | _ => cases hlist

theorem Stable.surround {node : Node} (h : node.Stable) (before after : List Node) :
    (node.surround before after).Stable := by
  intro hsplice hbelow
  rw [isSplice_surround] at hsplice
  rw [children_surround] at hbelow
  exact (h hsplice hbelow).surround before after

theorem Made.surround {node : Node} (h : node.Made) (before after : List Node) :
    (node.surround before after).Made where
  isList := by
    have hlist := h.isList
    cases node with
    | list => rfl
    | _ => cases hlist
  stable := h.stable.surround before after

theorem Made.makesLists {result : Node} (h : result.Made) : result.MakesLists := by
  have hspread := spread_of_not_isSplice (isSplice_of_isList h.isList)
  refine ⟨by simp [hspread], fun item hitem => ?_⟩
  rw [hspread] at hitem
  rwa [List.mem_singleton.mp hitem]

theorem Made.becomes {node result : Node} (h : result.Made) (hnode : node.isInert = false) :
    Becomes node result :=
  .made hnode h.makesLists

/-- A call of a macro hands its attachments to what it makes. -/
theorem MakesLists.attach {result : Node} (h : result.MakesLists) (before after : List Node) :
    (Form.attach before after result).MakesLists := by
  have hspread : (Form.attach before after result).spread =
      result.spread.map (·.surround before after) := by
    cases result <;> rfl
  refine ⟨by simpa [hspread] using h.ne_nil, fun item hitem => ?_⟩
  rw [hspread] at hitem
  obtain ⟨inner, hinner, rfl⟩ := List.mem_map.mp hitem
  exact (h.made inner hinner).surround before after

/-- A node as a whole, if it is no splice. -/
theorem Becomes.stable {node result : Node} (h : Becomes node result) : result.Stable := by
  cases h with
  | inert hinert => exact fun _ _ => .of_isInert hinert
  | made _ hlists =>
    intro hsplice
    have hmade := hlists.made result (by simp [spread_of_not_isSplice hsplice])
    exact hmade.stable hsplice

theorem holdsSplice_eq_false {node : Node} (h : node.holdsSplice = false) :
    node.isSplice = false ∧ node.children.any holdsSplice = false := by
  cases node with
  | atom kind text before after => exact ⟨rfl, rfl⟩
  | list children before after =>
    rw [holdsSplice_list, Bool.or_eq_false_iff] at h
    exact ⟨rfl, h.1⟩
  | splice items before after =>
    rw [holdsSplice_splice] at h
    cases h

/-- A list whose expressions are stable. -/
theorem made_list {children : List Node} (hsettling : Settling (children.filter isWord))
    (h : ∀ i word, (children.filter isWord)[i]? = some word →
      Form.isExpression (children.filter isWord) i = true → word.Stable)
    (before after : List Node) : (list children before after).Made := by
  refine ⟨rfl, fun _ hbelow => fixed_list hsettling (fun i word hword hexpression => ?_) _ _⟩
  have hchild : word ∈ children := List.mem_of_mem_filter (List.mem_of_getElem? hword)
  obtain ⟨hsplice, hnone⟩ := holdsSplice_eq_false (any_holdsSplice_eq_false.mp hbelow word hchild)
  exact h i word hword hexpression hsplice hnone

/-- A form that keeps all of its words. -/
theorem made_verbatim {children arguments b a : List Node} {text : String}
    (hwords : children.filter isWord = .atom .keyword text b a :: arguments)
    (hbuiltin : Builtin.ofKeyword? text = none) (hpolicy : Policy.ofHead text = .verbatim)
    (before after : List Node) : (list children before after).Made := by
  have hmodule : text ≠ "module" := by
    rintro rfl
    cases hpolicy
  refine made_list ?_ (fun i word _ hexpression => ?_) before after
  · rw [hwords]
    exact .plain (.keyword hbuiltin (by simp [hpolicy]) fun h => absurd h hmodule)
  · rw [hwords] at hexpression
    simp [Form.isExpression, hbuiltin, hpolicy] at hexpression

/-- A form of which every word is an expression. -/
theorem made_all {children arguments b a : List Node} {text : String}
    (hwords : children.filter isWord = .atom .keyword text b a :: arguments)
    (hbuiltin : Builtin.ofKeyword? text = none) (hpolicy : Policy.ofHead text = .all)
    (h : ∀ word ∈ arguments, word.Stable) (before after : List Node) :
    (list children before after).Made := by
  have hmodule : text ≠ "module" := by
    rintro rfl
    cases hpolicy
  refine made_list ?_ (fun i word hword _ => ?_) before after
  · rw [hwords]
    exact .plain (.keyword hbuiltin (by simp [hpolicy]) fun h => absurd h hmodule)
  · rw [hwords] at hword
    rcases List.mem_cons.mp (List.mem_of_getElem? hword) with rfl | hmem
    · exact fun _ _ => .of_isInert rfl
    · exact h word hmem

/-- A form that keeps a name after its head. -/
theorem made_afterName {children arguments b a b' a' : List Node} {text name : String}
    (hwords : children.filter isWord =
      .atom .keyword text b a :: .atom .name name b' a' :: arguments)
    (hbuiltin : Builtin.ofKeyword? text = none) (hpolicy : Policy.ofHead text = .afterName)
    (hmodule : text ≠ "module") (h : ∀ word ∈ arguments, word.Stable) (before after : List Node) :
    (list children before after).Made := by
  refine made_list ?_ (fun i word hword hexpression => ?_) before after
  · rw [hwords]
    exact .plain (.keyword hbuiltin (by simp [hpolicy]) fun h => absurd h hmodule)
  · rw [hwords] at hword hexpression
    have hi : 2 ≤ i := by simpa [Form.isExpression, hbuiltin, hpolicy, isName] using hexpression
    obtain ⟨i, rfl⟩ := Nat.exists_eq_add_of_le' hi
    exact h word (List.mem_of_getElem? hword)

/-! ## Words in a row -/

/-- Words in the place of others, each of which is kept or expanded as its position says. -/
inductive Respelled (expression : Nat → Bool) : Nat → List Node → List Node → Prop
  | nil (position : Nat) : Respelled expression position [] []
  | keep {position : Nat} {node : Node} {old new : List Node} :
    (expression position = true → node.isInert = true) →
    Respelled expression (position + 1) old new →
    Respelled expression position (node :: old) (node :: new)
  | made {position : Nat} {node : Node} {items old new : List Node} :
    expression position = true → node.isInert = false → items ≠ [] →
    (∀ item ∈ items, item.Made) → Respelled expression (position + 1) old new →
    Respelled expression position (node :: old) (items ++ new)

/-- A word that an expansion has made, or that it keeps. -/
def Settled (word : Node) : Prop :=
  word.isInert = true ∨ word.Made

theorem Settled.stable {word : Node} (h : word.Settled) : word.Stable := by
  rcases h with hinert | hmade
  · exact fun _ _ => .of_isInert hinert
  · exact hmade.stable

theorem Settled.isName {word : Node} (h : word.Settled) : word.isName = false := by
  cases word with
  | atom kind text before after =>
    cases kind with
    | name =>
      rcases h with hinert | hmade
      · cases hinert
      · cases hmade.isList
    | _ => rfl
  | _ => rfl

namespace Respelled

variable {expression : Nat → Bool} {position : Nat} {old new : List Node}

/-- A keyword at the head stays there. -/
theorem keyword {text : String} {b a : List Node}
    (h : Respelled expression position (.atom .keyword text b a :: old) new) :
    ∃ rest, new = .atom .keyword text b a :: rest ∧
      Respelled expression (position + 1) old rest := by
  cases h with
  | keep _ hrest => exact ⟨_, rfl, hrest⟩
  | made _ hinert => cases hinert

/-- Where all words from some position on are expanded, all of them are settled. -/
theorem of_after {count : Nat} (h : Respelled expression position old new)
    (hexpression : ∀ i, position ≤ i → expression i = decide (count ≤ i)) :
    ∀ i word, new[i]? = some word → count ≤ position + i → word.Settled := by
  induction h with
  | nil => simp
  | @keep position node old new hkeep _ ih =>
    intro i word hword hi
    cases i with
    | zero =>
      cases hword
      exact .inl (hkeep (by rw [hexpression _ (Nat.le_refl _)]; simpa using hi))
    | succ i => exact ih (fun j hj => hexpression j (by omega)) i word hword (by omega)
  | @made position node items old new hposition _ _ hitems _ ih =>
    intro i word hword hi
    rw [hexpression _ (Nat.le_refl _), decide_eq_true_eq] at hposition
    rw [List.getElem?_append] at hword
    split at hword
    · exact .inr (hitems word (List.mem_of_getElem? hword))
    · exact ih (fun j hj => hexpression j (by omega)) _ word hword (by omega)

theorem of_all (h : Respelled expression position old new)
    (hexpression : ∀ i, position ≤ i → expression i = true) : ∀ word ∈ new, word.Settled := by
  intro word hword
  obtain ⟨i, hi⟩ := List.mem_iff_getElem?.mp hword
  exact h.of_after (fun j hj => by simp [hexpression j hj]) i word hi (Nat.zero_le _)

theorem ne_nil (h : Respelled expression position old new) (hold : old ≠ []) : new ≠ [] := by
  cases h with
  | nil => exact hold
  | keep => simp
  | made _ _ hne => simp [hne]

/-- Where the last word is expanded, the last one is settled. -/
theorem of_last (h : Respelled expression position old new)
    (hexpression : ∀ i, position ≤ i → expression i = decide (i + 1 = position + old.length)) :
    ∀ word ∈ new.getLast?, word.Settled := by
  induction h with
  | nil => simp
  | @keep position node old new hkeep hrest ih =>
    intro word hword
    by_cases hold : old = []
    · subst hold
      cases hrest
      cases hword
      exact .inl (hkeep (by rw [hexpression _ (Nat.le_refl _)]; simp))
    · obtain ⟨next, new, rfl⟩ := List.exists_cons_of_ne_nil (hrest.ne_nil hold)
      rw [List.getLast?_cons_cons] at hword
      refine ih (fun i hi => ?_) word hword
      rw [hexpression i (by omega), List.length_cons, Nat.add_right_comm, Nat.add_assoc]
  | @made position node items old new hposition _ hne hitems hrest _ =>
    intro word hword
    rw [hexpression _ (Nat.le_refl _), decide_eq_true_eq, List.length_cons] at hposition
    obtain rfl : old = [] := List.eq_nil_of_length_eq_zero (by omega)
    cases hrest
    rw [List.append_nil] at hword
    exact .inr (hitems word (List.mem_of_getLast? hword))

/-- After a head that is kept, the name of a function, a variable or a module stays, and no other
word becomes a name. -/
theorem head?_isName {arguments rest : List Node}
    (h : Respelled expression position arguments rest)
    (hexpression : expression position = !arguments.head?.any isName) :
    rest.head?.any isName = arguments.head?.any isName := by
  cases h with
  | nil => rfl
  | keep => rfl
  | @made _ node items old new hposition hinert hne hitems _ =>
    rw [hposition] at hexpression
    obtain ⟨item, items, rfl⟩ := List.exists_cons_of_ne_nil hne
    have hitem : item.isName = false := Settled.isName (.inr (hitems item List.mem_cons_self))
    have hnode : node.isName = false := by simpa using hexpression
    simp [hitem, hnode]

/-- The words of a form headed by a keyword, and what they become. -/
theorem of_keyword {text : String} {b a arguments : List Node}
    (hbuiltin : Builtin.ofKeyword? text = none) (hpolicy : ∀ last, Policy.ofHead text ≠ .hoist last)
    (h : Respelled (Form.isExpression (.atom .keyword text b a :: arguments)) 0
      (.atom .keyword text b a :: arguments) new) :
    ∃ rest, new = .atom .keyword text b a :: rest ∧
      (Policy.ofHead text = .afterName →
        rest.head?.any isName = arguments.head?.any isName) ∧
      ∀ i word, new[i]? = some word → Form.isExpression new i = true → word.Settled := by
  obtain ⟨rest, rfl, hrest⟩ := h.keyword
  refine ⟨rest, rfl, ?_⟩
  cases hcase : Policy.ofHead text with
  | hoist last => exact absurd hcase (hpolicy last)
  | verbatim =>
    refine ⟨by simp, fun i word _ hexpression => ?_⟩
    simp [Form.isExpression, hbuiltin, hcase] at hexpression
  | all =>
    have hall := h.of_all fun i _ => by simp [Form.isExpression, hbuiltin, hcase]
    exact ⟨by simp, fun i word hword _ => hall word (List.mem_of_getElem? hword)⟩
  | lastOnly =>
    have hlast := h.of_last fun i _ => by simp [Form.isExpression, hbuiltin, hcase]
    refine ⟨by simp, fun i word hword hexpression => hlast word ?_⟩
    simp only [Form.isExpression, hbuiltin, hcase, List.length_cons, decide_eq_true_eq]
      at hexpression
    obtain rfl : i = rest.length := by omega
    rw [List.getLast?_eq_getElem?]
    simpa using hword
  | afterName =>
    have hname := head?_isName hrest (by simp [Form.isExpression, hbuiltin, hcase])
    refine ⟨fun _ => hname, fun i word hword hexpression => ?_⟩
    simp only [Form.isExpression, hbuiltin, hcase, hname] at hexpression
    have hafter : ∀ count, (∀ j, Form.isExpression (.atom .keyword text b a :: arguments) j =
        decide (count ≤ j)) → count ≤ i → word.Settled := fun count hcount hi =>
      h.of_after (fun j _ => hcount j) i word hword (by omega)
    split at hexpression
    · rename_i hany
      exact hafter 2 (fun j => by simp [Form.isExpression, hbuiltin, hcase, hany])
        (by simpa using hexpression)
    · rename_i hany
      exact hafter 1 (fun j => by simp [Form.isExpression, hbuiltin, hcase, hany])
        (by simpa using hexpression)

/-- The words of a form that does nothing beside expanding words, or is a module with a name, and
what they become. -/
theorem settling {words : List Node} (hwords : Settling words)
    (h : Respelled (Form.isExpression words) 0 words new) :
    Settling new ∧ ∀ i word, new[i]? = some word → Form.isExpression new i = true →
      word.Settled := by
  cases hwords with
  | plain hplain =>
    cases hplain with
    | keyword hbuiltin hpolicy hmodule =>
      obtain ⟨rest, rfl, hname, hsettled⟩ := of_keyword hbuiltin hpolicy h
      refine ⟨.plain (.keyword hbuiltin hpolicy fun htext => ?_), hsettled⟩
      rw [hname (htext ▸ rfl), hmodule htext]
    | other hhead =>
      -- the first word is expanded, so the new one is no atom
      have hall : ∀ i, Form.isExpression words i = true := by
        intro i
        unfold Form.isExpression
        split
        · exact absurd rfl (hhead _ _ _ _ rfl).1
        · exact absurd rfl (hhead _ _ _ _ rfl).2
        · rfl
      have hsettled := h.of_all fun i _ => hall i
      refine ⟨.plain (.other fun kind text b a hnew => ?_), fun i word hword _ =>
        hsettled word (List.mem_of_getElem? hword)⟩
      cases h with
      | nil => cases hnew
      | keep => exact hhead kind text b a hnew
      | made _ _ hne hitems _ =>
        obtain ⟨item, items, rfl⟩ := List.exists_cons_of_ne_nil hne
        cases hnew
        cases (hitems _ List.mem_cons_self).isList
  | module b a text b' a' arguments =>
    obtain ⟨rest, rfl, hname, hsettled⟩ := of_keyword rfl (by decide) h
    obtain ⟨name, b'', a'', rest, rfl⟩ := exists_name (hname rfl)
    exact ⟨.module _ _ _ _ _ _, hsettled⟩

end Respelled

end Node

/-! ## Operands -/

namespace Operand

open Node

/-- An operand with its expansion, and what the expansion makes of its node. -/
structure Settles (operand : Operand) : Prop where
  enters : Enters operand.expanded
  becomes : Yields (fun _ => False) operand.expanded (Becomes operand.node)

def AllSettle (operands : List Operand) : Prop :=
  ∀ operand ∈ operands, operand.Settles

theorem AllSettle.head {operand : Operand} {operands : List Operand}
    (h : AllSettle (operand :: operands)) : operand.Settles :=
  h operand List.mem_cons_self

theorem AllSettle.tail {operand : Operand} {operands : List Operand}
    (h : AllSettle (operand :: operands)) : AllSettle operands :=
  fun o ho => h o (List.mem_cons_of_mem operand ho)

theorem AllSettle.enter {operands : List Operand} (h : AllSettle operands) : AllEnter operands :=
  fun o ho => (h o ho).enters

theorem expandAt_respelled {expression : Nat → Bool} {position : Nat} {operands : List Operand}
    (h : AllSettle operands) : Yields (fun _ => False) (expandAt expression position operands)
      fun new => Respelled expression position ((nodes operands).filter Node.isWord)
        (new.filter Node.isWord) := by
  induction operands generalizing position with
  | nil => exact yields_pure (.nil position)
  | cons operand operands ih =>
    have hnodes : nodes (operand :: operands) = operand.node :: nodes operands := rfl
    rw [hnodes]
    cases hword : operand.isWord with
    | false =>
      have hnode : operand.node.isWord = false := hword
      rw [expandAt_trivia hword, List.filter_cons_of_neg (by simp [hnode])]
      refine (ih h.tail).map fun new hnew => ?_
      rwa [List.filter_cons_of_neg (by simp [hnode])]
    | true =>
      have hnode : operand.node.isWord = true := hword
      rw [List.filter_cons_of_pos hnode]
      cases hexpression : expression position with
      | false =>
        rw [expandAt_kept hword hexpression]
        refine (ih h.tail).map fun new hnew => ?_
        rw [List.filter_cons_of_pos hnode]
        exact .keep (by simp [hexpression]) hnew
      | true =>
        rw [expandAt_word hword hexpression]
        refine h.head.becomes.bind h.head.enters (fun _ => ?_) fun result hresult => ?_
        · exact (expandAt_enters h.tail.enter).bind fun _ => enters_pure _
        refine (ih h.tail).map fun new hnew => ?_
        rw [List.filter_append]
        cases hresult with
        | inert hinert =>
          have hsplice : operand.node.isSplice = false := (Fixed.of_isInert hinert).isSplice
          rw [spread_of_not_isSplice hsplice, List.filter_cons_of_pos hnode]
          exact .keep (fun _ => hinert) hnew
        | made hinert hlists =>
          rw [List.filter_eq_self.mpr fun item hitem => (hlists.made item hitem).isWord]
          exact .made hexpression hinert hlists.ne_nil hlists.made hnew

end Operand

/-! ## Macros -/

namespace Builtin

open Node Operand

theorem made_constant (value : String) : (constant value).Made :=
  made_verbatim rfl rfl rfl [] []

theorem made_conditional {test positive negative : Node} (htest : test.Stable)
    (hpositive : positive.Made) (hnegative : negative.Made) :
    (conditional test positive negative).Made := by
  refine made_all rfl rfl rfl (fun word hword => ?_) [] []
  have hmem := List.mem_of_mem_filter hword
  simp only [List.mem_cons, List.not_mem_nil, or_false] at hmem
  rcases hmem with rfl | rfl | rfl | rfl
  · exact Settled.stable (.inl rfl)
  · exact htest
  · exact hpositive.stable
  · exact hnegative.stable

theorem made_addressForm (symbol : String) : (addressForm symbol).Made := by
  have hglobal : ∀ name before after, (Node.list [.keyword "get_global", .trivia " ", .name name]
      before after).Stable :=
    fun name before after => (made_verbatim rfl rfl rfl before after).stable
  have hwords : ∀ word ∈ [Node.list [.keyword "get_global", .trivia " ", .name "$memoryBase"] []
      [.trivia " "], .form [.keyword "get_global", .trivia " ", .name symbol]], word.Stable :=
    List.forall_mem_cons.mpr ⟨hglobal _ _ _, List.forall_mem_cons.mpr ⟨hglobal _ _ _, by simp⟩⟩
  exact made_all rfl rfl rfl hwords [] []

theorem conjunction_made {operands : List Operand} (h : AllSettle operands) :
    Yields (fun _ => False) (conjunction operands) Made := by
  induction operands with
  | nil => exact yields_pure (made_constant "1")
  | cons operand operands ih =>
    refine (ih h.tail).bind (conjunction_enters h.tail.enter) (fun _ => ?_) fun rest hrest => ?_
    · exact h.head.enters.bind fun _ => enters_pure _
    · exact h.head.becomes.map fun test htest =>
        made_conditional htest.stable hrest (made_constant "0")

theorem disjunction_made {operands : List Operand} (h : AllSettle operands) :
    Yields (fun _ => False) (disjunction operands) Made := by
  induction operands with
  | nil => exact yields_pure (made_constant "0")
  | cons operand operands ih =>
    refine (ih h.tail).bind (disjunction_enters h.tail.enter) (fun _ => ?_) fun rest hrest => ?_
    · exact h.head.enters.bind fun _ => enters_pure _
    · exact h.head.becomes.map fun test htest =>
        made_conditional htest.stable (made_constant "1") hrest

theorem codePoint_made (argument : Node) : Yields (fun _ => False) (codePoint argument) Made := by
  refine (yields_true _).bind (literal_enters _ _) (fun value => ?_) fun value _ => ?_
  · split
    · exact enters_pure _
    · exact enters_fail _
  · split
    · exact yields_pure (made_verbatim rfl rfl rfl [] [])
    · exact yields_fail _

theorem textAddress_made (argument : Node) :
    Yields (fun _ => False) (textAddress argument) Made := by
  intro context after result _ hdata hrun _ _
  obtain ⟨value, -, rfl, -⟩ := textAddress_eq_ok hdata hrun
  exact made_addressForm _

theorem arrayAddress_made (argument : Node) :
    Yields (fun _ => False) (arrayAddress argument) Made := by
  intro context after result _ hdata hrun _ _
  obtain ⟨length, -, rfl, -⟩ := arrayAddress_eq_ok hdata hrun
  exact made_addressForm _

theorem bindings_stable {operands : List Operand} (h : AllSettle operands) :
    Yields (fun _ => False) (bindings operands) fun bound =>
      ∀ pair ∈ bound, pair.1.isName = true ∧ pair.2.Stable := by
  fun_induction bindings operands with
  | case1 name value operands hname ih =>
    refine h.tail.head.becomes.bind h.tail.head.enters (fun _ => ?_) fun result hresult => ?_
    · exact (bindings_enters h.tail.tail.enter).bind fun _ => enters_pure _
    · exact (ih h.tail.tail).map fun rest hrest =>
        List.forall_mem_cons.mpr ⟨⟨hname, hresult.stable.surround [] []⟩, hrest⟩
  | case2 => exact yields_fail _
  | case3 => exact yields_pure fun _ hpair => absurd hpair List.not_mem_nil

theorem assignments_makesLists {bound : List (Node × Node)}
    (h : ∀ pair ∈ bound, pair.1.isName = true ∧ pair.2.Stable) :
    (assignments bound).MakesLists := by
  refine ⟨List.cons_ne_nil _ _, List.forall_mem_cons.mpr ⟨made_verbatim rfl rfl rfl [] [],
    fun item hitem => ?_⟩⟩
  obtain ⟨⟨name, value⟩, hpair, rfl⟩ := List.mem_map.mp hitem
  obtain ⟨hname, hvalue⟩ := h _ hpair
  obtain ⟨text, b, a, rfl⟩ := isName_eq_true hname
  refine made_afterName rfl rfl rfl (by decide) (fun word hword => ?_) [] []
  obtain rfl := List.mem_singleton.mp (List.mem_of_mem_filter hword)
  exact hvalue

theorem expand_makesLists (builtin : Builtin) {operands : List Operand} (h : AllSettle operands) :
    Yields (fun _ => False) (builtin.expand operands) Node.MakesLists := by
  unfold Builtin.expand
  split
  · exact yields_fail _
  · exact (conjunction_made h).mono fun _ => Made.makesLists
  · exact yields_fail _
  · exact (disjunction_made h).mono fun _ => Made.makesLists
  · exact (codePoint_made _).mono fun _ => Made.makesLists
  · exact yields_fail _
  · exact (textAddress_made _).mono fun _ => Made.makesLists
  · exact yields_fail _
  · exact (arrayAddress_made _).mono fun _ => Made.makesLists
  · exact yields_fail _
  · split
    · exact yields_fail _
    · split
      · exact yields_fail _
      · exact (bindings_stable h).map fun _ => assignments_makesLists

end Builtin

/-! ## Nodes -/

namespace Node

open Operand

/-- A declaration hoists itself. -/
theorem hoist_yields (head : String) (children : List Node) (post : Node → Prop) :
    Yields (fun _ => False) (Form.hoist head children) post := by
  intro context after result declarations _ hrun hhoisted hquiet
  obtain ⟨label, -, -, rfl⟩ := Form.hoist_eq_ok hrun
  obtain rfl := List.append_cancel_left hhoisted
  exact (hquiet _ List.mem_cons_self).elim

theorem expand_list_becomes {children : List Node}
    (h : ∀ child ∈ children, Yields (fun _ => False) child.expand (Becomes child))
    (before after : List Node) : Yields (fun _ => False) (list children before after).expand
      (Becomes (list children before after)) := by
  have hsettle : ∀ nodes : List Node, (∀ node ∈ nodes, node ∈ children) →
      AllSettle (nodes.map operand) := by
    intro nodes hnodes other hother
    obtain ⟨node, hnode, rfl⟩ := List.mem_map.mp hother
    exact ⟨node.expand_enters, h node (hnodes node hnode)⟩
  have hexpandWords : Settling (children.filter isWord) →
      Yields (fun _ => False) (expandWords children) fun new =>
        (list new before after).Made := by
    intro hsettling
    refine (expandAt_respelled (hsettle children fun _ hnode => hnode)).mono fun new hnew => ?_
    rw [nodes_map_operand] at hnew
    obtain ⟨hnewSettling, hsettled⟩ := hnew.settling hsettling
    exact made_list hnewSettling (fun i word hword hexpression =>
      (hsettled i word hword hexpression).stable) before after
  have henters : Enters (expandWords children) :=
    expandAt_enters (hsettle children fun _ hnode => hnode).enter
  have hstyled := Form.styled (children.filter isWord)
  generalize hwords : children.filter isWord = words at hstyled
  cases hstyled with
  | call text b a arguments =>
    obtain ⟨front, rest, rfl, hfront, -, -⟩ := exists_head hwords
    rw [expand_call before after hfront]
    refine (expandAt_respelled (hsettle rest fun node hnode => by simp [hnode])).map
      fun new hnew => ?_
    have hsettled := hnew.of_all fun i hi => decide_eq_true hi
    exact (made_afterName rfl rfl rfl (by decide) (fun word hword => (hsettled word hword).stable)
      before after).becomes rfl
  | builtin b a arguments hbuiltin =>
    rw [expand_builtin before after hwords hbuiltin]
    refine (Builtin.expand_makesLists _ (hsettle arguments fun node hnode => ?_)).map
      fun result hresult => .made rfl (hresult.attach before after)
    exact List.mem_of_mem_filter (hwords ▸ List.mem_cons_of_mem _ hnode)
  | declaration b a arguments hbuiltin hpolicy =>
    rw [expand_declaration before after hwords hbuiltin hpolicy]
    refine (yields_true _).bind henters (fun new => ?_) fun new _ => ?_
    · exact (Form.hoist_enters _ _).bind fun _ => enters_pure _
    · exact (hoist_yields _ _ fun _ => False).map fun _ hfalse => hfalse.elim
  | module b a text b' a' arguments =>
    rw [expand_module before after hwords]
    refine (yields_true _).bind (enters_addModule _) (fun _ => ?_) fun _ _ => ?_
    · exact henters.bind fun _ => enters_pure _
    · exact (hexpandWords (hwords ▸ .module ..)).map fun new hnew => hnew.becomes rfl
  | plain hplain =>
    subst hwords
    rw [expand_plain before after hplain]
    exact (hexpandWords (.plain hplain)).map fun new hnew => hnew.becomes rfl

theorem expand_atom_becomes (kind : AtomKind) (text : String) (before after : List Node) :
    Yields (fun _ => False) (atom kind text before after).expand
      (Becomes (atom kind text before after)) := by
  rw [expand]
  cases kind with
  | trivia | keyword => exact yields_pure (.inert rfl)
  | string =>
    exact (Builtin.textAddress_made _).map fun node hnode =>
      (hnode.surround before after).becomes rfl
  | _ => exact yields_pure ((made_verbatim rfl rfl rfl before after).becomes rfl)

/-- A node without splices becomes one list or more that expansion keeps, or stays as it is, if
nothing is hoisted. -/
theorem expand_becomes {node : Node} (h : node.holdsSplice = false) :
    Yields (fun _ => False) node.expand (Becomes node) := by
  induction node using Node.induction with
  | atom kind text before after _ _ => exact expand_atom_becomes kind text before after
  | list children before after ih _ _ =>
    have hchildren := (holdsSplice_eq_false h).2
    exact expand_list_becomes (fun child hchild =>
      ih child hchild (any_holdsSplice_eq_false.mp hchildren child hchild)) before after
  | splice items before after _ _ _ =>
    rw [holdsSplice_splice] at h
    cases h

end Node

/-- If the expansion of a source hoists nothing, and leaves no splice below its result, then the
result expands to itself, attachments and layout included, in every context, and neither hoists
anything nor enters a literal. -/
theorem read_expand_fixed (actions : List Context.Action) {source : String} {form result : Node}
    {next : Context} (hread : Node.read source = .ok form)
    (hexpand : form.expand (Context.after actions) = (.ok result, next))
    (hhoisted : next.hoisted = (Context.after actions).hoisted)
    (hsplice : ∀ part ∈ result.parts, part.holdsSplice = false) (context : Context) :
    ∃ last, result.expand context = (.ok result, last) ∧ last.hoisted = context.hoisted ∧
      last.data = context.data := by
  have hbecomes := (Node.expand_becomes (Node.read_asRead hread).holdsSplice_eq).of_hoisted_eq
    (Context.after_data_consistent actions) hexpand hhoisted
  cases hnode : result.isSplice with
  | true =>
    -- a splice at the root is left as it is
    cases result with
    | splice items before after => exact rests_pure _ context
    | _ => cases hnode
  | false =>
    have hbelow : result.children.any Node.holdsSplice = false := by
      rw [Node.any_holdsSplice_eq_false]
      intro child hchild
      exact hsplice child (List.mem_append_left _ (List.mem_append_right _ hchild))
    exact (hbecomes.stable hnode hbelow).expand context

/-- A conjunction with a space after it, and a call with declared locals. -/
theorem read_expand_fixed_call :
    let source := "(f (AND $x 2) ($g (LET $y 3)))"
    let form : Node := .form [.keyword "f", .trivia " ",
      .list [.keyword "AND", .trivia " ", .name "$x", .trivia " ", .integer "2"] [] [.trivia " "],
      .form [.name "$g", .trivia " ",
        .form [.keyword "LET", .trivia " ", .name "$y", .trivia " ", .integer "3"]]]
    let tests : Node := Builtin.conditional (.form [.keyword "get_local", .name "$x"])
      (Builtin.conditional (Builtin.constant "2") (Builtin.constant "1") (Builtin.constant "0"))
      (Builtin.constant "0")
    let result : Node := .form [.keyword "f", .trivia " ", tests.surround [] [.trivia " "],
      .form [.keyword "call", .name "$g", .trivia " ",
        .form [.keyword "local", .name "$y", .keyword "i32"],
        .form [.keyword "set_local", .name "$y", Builtin.constant "3"]]]
    Node.read source = .ok form ∧ form.expand (Context.after []) = (.ok result, .empty) ∧
      (∀ part ∈ result.parts, part.holdsSplice = false) ∧
      ∀ context, ∃ last, result.expand context = (.ok result, last) ∧
        last.hoisted = context.hoisted ∧ last.data = context.data := by
  intro source form tests result
  have htexts : tokenize source = .ok ["(", "f", " ", "(", "AND", " ", "$x", " ", "2", ")", " ",
      "(", "$g", " ", "(", "LET", " ", "$y", " ", "3", ")", ")", ")"] := by
    decide +kernel
  have hread : Node.read source = .ok form := Node.read_eq_ok.mpr ⟨_, htexts, rfl⟩
  have hexpand : form.expand (Context.after []) = (.ok result, .empty) := rfl
  have hsplice : ∀ part ∈ result.parts, part.holdsSplice = false :=
    Node.any_holdsSplice_eq_false.mp rfl
  exact ⟨hread, hexpand, hsplice, read_expand_fixed [] hread hexpand rfl hsplice⟩

end WatMacro
