import WatMacro.Proofs.Expand.Legible
import WatMacro.Proofs.Expand.Positions
import WatMacro.Proofs.Node.WriteBack

/-!
# Expansion token by token

Outside of macros, declarations and modules, an expansion rewrites tokens where they stand. The
place of a token in its form says what becomes of it: an atom in the place of an expression becomes
the tokens that it stands for, the name at the head of an expression is the callee of a call, what
stands before it in the parentheses is dropped, and everything else is kept.

Results:

* `Node.marked_tokens`: the marks are put on the tokens of the source.
* `Node.FormAsRead.rewrites`: a form that is read expands to itself with its tokens rewritten.
-/

namespace WatMacro

open Expand Text

/-! ## Marks -/

/-- What becomes of a token. -/
inductive Mark where
  | kept
  | dropped
  | callee
  | expression
  deriving DecidableEq, Repr

/-- What becomes of the word at a position, if the form is an expression itself. -/
def Form.markAt (words : List Node) (position : Nat) : Mark :=
  match words with
  | .atom .name _ _ _ :: _ => if position = 0 then .callee else .expression
  | _ => if isExpression words position then .expression else .kept

namespace Node

/-- Nodes whose tokens have one mark. -/
def markedAs (mark : Mark) (nodes : List Node) : List (Mark × Token) :=
  (listingAll nodes).map (mark, ·)

mutual

/-- The tokens of an expression with their marks. -/
def marked : Node → List (Mark × Token)
  | atom kind text before after =>
    markedAs .kept before ++ (.expression, .atom kind text) :: markedAs .kept after
  | list children before after =>
    markedAs .kept before ++ (.kept, .opening) ::
      (markedRow (Form.markAt (children.filter isWord)) 0 children ++
        (.kept, .closing) :: markedAs .kept after)
  | splice items before after => markedAs .kept [splice items before after]

/-- The tokens of the children of a form with their marks. Positions count words, and what stands
before a callee is dropped. -/
def markedRow (mark : Nat → Mark) : Nat → List Node → List (Mark × Token)
  | _, [] => []
  | position, node :: nodes =>
    if node.isWord then
      (if mark position = .expression then marked node else markedAs (mark position) [node]) ++
        markedRow mark (position + 1) nodes
    else
      markedAs (if mark position = .callee then .dropped else .kept) [node] ++
        markedRow mark position nodes

end

theorem markedAs_tokens (mark : Mark) (nodes : List Node) :
    (markedAs mark nodes).map Prod.snd = listingAll nodes := by
  simp [markedAs, Function.comp_def]

theorem markedRow_tokens {mark : Nat → Mark} {nodes : List Node} (position : Nat)
    (h : ∀ node ∈ nodes, node.marked.map Prod.snd = node.listing) :
    (markedRow mark position nodes).map Prod.snd = listingAll nodes := by
  induction nodes generalizing position with
  | nil => rfl
  | cons node nodes ih =>
    obtain ⟨hnode, hnodes⟩ := List.forall_mem_cons.mp h
    rw [markedRow]
    split
    · rw [List.map_append, ih _ hnodes, listingAll_cons]
      split
      · rw [hnode]
      · rw [markedAs_tokens, listingAll_cons, listingAll_nil, List.append_nil]
    · rw [List.map_append, ih _ hnodes, listingAll_cons, markedAs_tokens, listingAll_cons,
        listingAll_nil, List.append_nil]

/-- The marks are put on the tokens of the node. -/
theorem marked_tokens (node : Node) : node.marked.map Prod.snd = node.listing := by
  induction node using Node.induction with
  | atom kind text before after _ _ =>
    simp [marked, listing, markedAs_tokens]
  | list children before after ih _ _ =>
    simp [marked, listing, markedAs_tokens, markedRow_tokens 0 ih]
  | splice items before after _ _ _ =>
    rw [marked, markedAs_tokens, listingAll_cons, listingAll_nil, List.append_nil]

end Node

/-! ## Rewriting -/

namespace Mark

/-- The tokens of the address of a literal whose text is in the static data. -/
def addressTexts (data : StaticData) (literal : String) : List String :=
  match (Quoted.decode? literal).bind data.symbolOf? with
  | some symbol => Builtin.addressPieces symbol
  | none => []

/-- The texts that a token becomes. -/
def rewrite (data : StaticData) : Mark × Token → List String
  | (dropped, _) => []
  | (callee, token) => ["call", token.text]
  | (expression, .atom .name text) => ["(", "get_local", text, ")"]
  | (expression, .atom .integer text) => ["(", "i32.const", text, ")"]
  | (expression, .atom .float text) => ["(", "f32.const", text, ")"]
  | (expression, .atom .string text) => addressTexts data text
  | (_, token) => [token.text]

/-- A literal in the place of an expression. -/
def literal? : Mark × Token → Option String
  | (expression, .atom .string text) => some text
  | _ => none

/-- The literals in the place of expressions. -/
def literals (marks : List (Mark × Token)) : List String :=
  marks.filterMap literal?

theorem literals_append (front back : List (Mark × Token)) :
    literals (front ++ back) = literals front ++ literals back :=
  List.filterMap_append

theorem rewrite_kept (data : StaticData) (token : Token) :
    rewrite data (kept, token) = [token.text] := by
  cases token <;> rfl

theorem rewrite_markedAs_kept (data : StaticData) (nodes : List Node) :
    (Node.markedAs kept nodes).flatMap (rewrite data) = (Node.listingAll nodes).map Token.text := by
  simp only [Node.markedAs, List.flatMap_map, rewrite_kept]
  exact List.map_eq_flatMap.symm

theorem rewrite_markedAs_dropped (data : StaticData) (nodes : List Node) :
    (Node.markedAs dropped nodes).flatMap (rewrite data) = [] := by
  simp [Node.markedAs, rewrite]

/-- Only in the place of an expression a literal is one. -/
theorem literals_markedAs {mark : Mark} (h : mark ≠ expression) (nodes : List Node) :
    literals (Node.markedAs mark nodes) = [] := by
  rw [literals, List.filterMap_eq_nil_iff]
  intro marked hmarked
  obtain ⟨token, -, rfl⟩ := List.mem_map.mp hmarked
  cases mark with
  | expression => exact absurd rfl h
  | _ => rfl

end Mark

/-! ## Interning -/

namespace Context

/-- The context after the texts that literals stand for have been interned. -/
def internAll (context : Context) (literals : List String) : Context :=
  (literals.filterMap Quoted.decode?).foldl (fun context value => (context.intern value).2) context

theorem internAll_append (context : Context) (front back : List String) :
    context.internAll (front ++ back) = (context.internAll front).internAll back := by
  rw [internAll, List.filterMap_append, List.foldl_append]
  rfl

theorem internAll_reaches (context : Context) (literals : List String) :
    Reaches context (context.internAll literals) := by
  suffices h : ∀ (values : List String) (context : Context), Reaches context
      (values.foldl (fun context value => (context.intern value).2) context) from h _ context
  intro values
  induction values with
  | nil => exact fun _ => .refl
  | cons value values ih =>
    exact fun context => (enters_intern value context).trans (ih _)

end Context

/-- The symbol of a text stays what it is when entries follow. -/
theorem StaticData.Consistent.symbolOf?_of_prefix {data later : StaticData} (h : data.Consistent)
    (hlater : later.Consistent) (hextends : data.literals <+: later.literals)
    {value symbol : String} (hsymbol : data.symbolOf? value = some symbol) :
    later.symbolOf? value = some symbol :=
  (hlater.symbolOf?_iff value symbol).mpr
    (hextends.subset ((h.symbolOf?_iff value symbol).mp hsymbol))

/-! ## Computations that rewrite -/

namespace Expand

/-- A computation that succeeds, on consistent data, if the literals among some marked tokens stand
for texts. It interns these texts and does nothing else to the context, and the texts of its result
are the tokens rewritten. -/
def Rewrites {α : Type} (x : Expand α) (marks : List (Mark × Token)) (post : α → Prop)
    (texts : α → List String) : Prop :=
  ∀ context : Context, context.data.Consistent →
    (∀ literal ∈ Mark.literals marks, (Quoted.decode? literal).isSome = true) →
    ∃ result, x context = (.ok result, context.internAll (Mark.literals marks)) ∧ post result ∧
      ∀ data : StaticData, data.Consistent →
        (context.internAll (Mark.literals marks)).data.literals <+: data.literals →
        texts result = marks.flatMap (Mark.rewrite data)

section

variable {α β γ : Type} {front middle back : List (Mark × Token)} {p : α → Prop} {q : β → Prop}
  {r : γ → Prop} {t : α → List String} {u : β → List String} {v : γ → List String}

theorem rewrites_pure {value : α} (hnone : Mark.literals middle = []) (hpost : p value)
    (htexts : ∀ data, t value = middle.flatMap (Mark.rewrite data)) :
    Rewrites (pure value) middle p t := by
  intro context _ _
  rw [hnone]
  exact ⟨value, rfl, hpost, fun data _ _ => htexts data⟩

/-- One computation after the other. -/
theorem Rewrites.seq {x : Expand α} {y : Expand β} {f : α → β → γ} (hx : Rewrites x front p t)
    (hy : Rewrites y back q u)
    (h : ∀ a b, p a → q b → r (f a b) ∧ v (f a b) = t a ++ u b) :
    Rewrites (x >>= fun a => y >>= fun b => pure (f a b)) (front ++ back) r v := by
  intro context hdata hdecode
  rw [Mark.literals_append, List.forall_mem_append] at hdecode
  rw [Mark.literals_append, Context.internAll_append]
  have hreach := context.internAll_reaches (Mark.literals front)
  have hreach' := (context.internAll (Mark.literals front)).internAll_reaches (Mark.literals back)
  have hdata' := hreach.consistent hdata
  obtain ⟨a, ha, hpa, hta⟩ := hx context hdata hdecode.1
  obtain ⟨b, hb, hqb, hub⟩ := hy _ hdata' hdecode.2
  obtain ⟨hpost, htexts⟩ := h a b hpa hqb
  refine ⟨f a b, ?_, hpost, fun data hconsistent hextends => ?_⟩
  · rw [bind_ok ha, bind_ok hb, pure_apply]
  · rw [htexts, List.flatMap_append, hub data hconsistent hextends,
      hta data hconsistent (hreach'.extends.literals.trans hextends)]

/-- A computation whose result has further texts around it. -/
theorem Rewrites.wrap {x : Expand α} {f : α → γ} (hx : Rewrites x middle p t)
    (front back : List (Mark × Token)) (hfront : Mark.literals front = [])
    (hback : Mark.literals back = [])
    (h : ∀ a, p a → r (f a) ∧ ∀ data, v (f a) =
      front.flatMap (Mark.rewrite data) ++ (t a ++ back.flatMap (Mark.rewrite data))) :
    Rewrites (x >>= fun a => pure (f a)) (front ++ (middle ++ back)) r v := by
  intro context hdata hdecode
  have hliterals : Mark.literals (front ++ (middle ++ back)) = Mark.literals middle := by
    rw [Mark.literals_append, Mark.literals_append, hfront, hback, List.nil_append, List.append_nil]
  rw [hliterals] at hdecode ⊢
  obtain ⟨a, ha, hpa, hta⟩ := hx context hdata hdecode
  obtain ⟨hpost, htexts⟩ := h a hpa
  refine ⟨f a, ?_, hpost, fun data hconsistent hextends => ?_⟩
  · rw [bind_ok ha, pure_apply]
  · rw [htexts data, List.flatMap_append, List.flatMap_append, hta data hconsistent hextends]

end

end Expand

/-! ## Nodes that stay in place -/

namespace Node

/-- A node that can be written where another one was: a word for a word, with the same attachments
and no text that the other did not have. -/
structure Replaces (node result : Node) : Prop where
  word : result.isWord = node.isWord
  before : result.before = node.before
  after : result.after = node.after
  text : ∀ text ∈ result.text?, node.text? = some text
  spelled : result.Spelled

theorem Spelled.replaces {node : Node} (h : node.Spelled) : Replaces node node :=
  ⟨rfl, rfl, rfl, fun _ htext => htext, h⟩

theorem Spelled.spread_eq {node : Node} (h : node.Spelled) : node.spread = [node] := by
  cases h <;> rfl

theorem Replaces.of_list {children children' before after : List Node}
    (h : (list children' before after).Spelled) :
    Replaces (list children before after) (list children' before after) :=
  ⟨rfl, rfl, rfl, fun _ htext => absurd htext (Option.not_mem_none _), h⟩

/-- A child of a form, and what its expansion becomes in the form. -/
structure ChildRewrites (child : Node) : Prop where
  spelled : child.Spelled
  before : child.before = []
  after : TriviaOnly child.after
  rewrites : Rewrites child.expand child.marked (Replaces child) texts

theorem forall₂_mem {α β : Type} {R : α → β → Prop} {as : List α} {bs : List β}
    (h : List.Forall₂ R as bs) : ∀ b ∈ bs, ∃ a ∈ as, R a b := by
  induction h with
  | nil => exact fun _ h => absurd h List.not_mem_nil
  | cons hab _ ih =>
    refine List.forall_mem_cons.mpr ⟨⟨_, List.mem_cons_self, hab⟩, fun b hb => ?_⟩
    obtain ⟨a, ha, hR⟩ := ih b hb
    exact ⟨a, List.mem_cons_of_mem _ ha, hR⟩

/-- Words are replaced by words. -/
theorem replaces_words {old new : List Node} (h : List.Forall₂ Replaces old new) :
    List.Forall₂ Replaces (old.filter isWord) (new.filter isWord) := by
  induction h with
  | nil => exact .nil
  | @cons node result _ _ hnode _ ih =>
    rw [List.filter_cons, List.filter_cons, hnode.word]
    split
    · exact .cons hnode ih
    · exact ih

theorem isModule_eq_false {children : List Node}
    (h : ∀ head ∈ (children.filter isWord).head?, head.text? ≠ some "module") :
    isModule children = false := by
  unfold isModule
  split
  · rename_i head next rest heq
    rw [heq] at h
    simpa using h head rfl
  · rfl

theorem replaces_not_isModule {old new : List Node} (h : List.Forall₂ Replaces old new)
    (hold : ∀ head ∈ (old.filter isWord).head?, head.text? ≠ some "module") :
    isModule new = false := by
  apply isModule_eq_false
  intro head hhead htext
  have hwords := replaces_words h
  generalize old.filter isWord = olds at hold hwords
  generalize new.filter isWord = news at hhead hwords
  cases hwords with
  | nil => cases hhead
  | cons hfirst _ =>
    cases hhead
    exact hold _ rfl (hfirst.text _ htext)

/-- A child that is kept. -/
theorem rewrites_keep {x : Expand (List Node)} {marks : List (Mark × Token)} {node : Node}
    {nodes : List Node} (hnode : node.Spelled)
    (h : Rewrites x marks (List.Forall₂ Replaces nodes)
      fun new => (listingAll new).map Token.text) :
    Rewrites (x >>= fun new => pure (node :: new)) (markedAs .kept [node] ++ marks)
      (List.Forall₂ Replaces (node :: nodes)) fun new => (listingAll new).map Token.text := by
  rw [← List.append_nil marks]
  exact h.wrap (markedAs .kept [node]) [] (Mark.literals_markedAs (by decide) _) rfl
    fun new hnew => ⟨.cons hnode.replaces hnew, fun data => by simp [Mark.rewrite_markedAs_kept]⟩

/-- The children of a form, of which some are expressions. -/
theorem expandAt_rewrites {expression : Nat → Bool} {mark : Nat → Mark} {nodes : List Node}
    (position : Nat)
    (hmark : ∀ i, position ≤ i → mark i = if expression i then .expression else .kept)
    (h : ∀ node ∈ nodes, ChildRewrites node) :
    Rewrites (Operand.expandAt expression position (nodes.map operand))
      (markedRow mark position nodes) (List.Forall₂ Replaces nodes)
      (fun new => (listingAll new).map Token.text) := by
  induction nodes generalizing position with
  | nil => exact rewrites_pure rfl .nil fun _ => rfl
  | cons node nodes ih =>
    obtain ⟨hnode, hnodes⟩ := List.forall_mem_cons.mp h
    have hposition := hmark position (Nat.le_refl _)
    rw [List.map_cons, markedRow]
    cases hword : node.isWord with
    | false =>
      have hne : mark position ≠ .callee := by
        rw [hposition]
        split <;> decide
      rw [Operand.expandAt_trivia (show node.operand.isWord = false from hword),
        if_neg (by simp), if_neg hne]
      exact rewrites_keep hnode.spelled (ih position hmark hnodes)
    | true =>
      have hoperand : node.operand.isWord = true := hword
      have hrest := ih (position + 1) (fun i hi => hmark i (by omega)) hnodes
      rw [if_pos rfl]
      cases hexpression : expression position with
      | false =>
        rw [hexpression, if_neg (by simp)] at hposition
        rw [Operand.expandAt_kept hoperand hexpression, hposition,
          if_neg (by decide)]
        exact rewrites_keep hnode.spelled hrest
      | true =>
        rw [hexpression, if_pos rfl] at hposition
        rw [Operand.expandAt_word hoperand hexpression, hposition,
          if_pos rfl]
        refine hnode.rewrites.seq hrest fun result new hresult hnew => ?_
        rw [hresult.spelled.spread_eq, List.singleton_append, listingAll_cons, List.map_append]
        exact ⟨.cons hresult hnew, rfl⟩

/-! ## Atoms -/

/-- A list of a keyword and another atom. -/
theorem spelled_pair {head text : String} {kind : AtomKind} (hne : head ≠ "module")
    (hhead : (Token.atom .keyword head).Lexical) (htext : (Token.atom kind text).Lexical) :
    (form [keyword head, leaf kind text]).Spelled := by
  refine .list (isModule_eq_false fun first hfirst => ?_) ?_ ?_
  · obtain rfl : keyword head = first := Option.some.inj hfirst
    simpa [keyword, leaf, text?] using hne
  · simp only [List.forall_mem_cons]
    exact ⟨.atom hhead, .atom htext, fun _ h => absurd h List.not_mem_nil⟩
  · simp only [List.forall_mem_cons]
    exact ⟨⟨rfl, layout_nil.triviaOnly⟩, ⟨rfl, layout_nil.triviaOnly⟩,
      fun _ h => absurd h List.not_mem_nil⟩

theorem replaces_form {kind : AtomKind} {text : String} {children : List Node}
    (hkind : kind ≠ .trivia) (h : (form children).Spelled) :
    Replaces (leaf kind text) (form children) := by
  refine ⟨?_, rfl, rfl, fun _ htext => absurd htext (Option.not_mem_none _), h⟩
  cases kind with
  | trivia => exact absurd rfl hkind
  | _ => rfl

theorem spelled_addressForm {data : StaticData} (h : data.Consistent) {literal : Literal}
    (hmem : literal ∈ data.literals) : (Builtin.addressForm literal.symbol).Spelled := by
  have hlegible := (Builtin.legibleList_addressForm h hmem).item.legible
  have hglobal : ∀ name after, (list [keyword "get_global", trivia " ", Node.name name] []
      after).Writable := by
    intro name after
    refine .list rfl ?_
    simp only [List.forall_mem_cons]
    exact ⟨.atom .., .atom .., .atom .., fun _ h => absurd h List.not_mem_nil⟩
  refine hlegible.spelled (.list rfl ?_)
  simp only [List.forall_mem_cons]
  exact ⟨.atom .., .atom .., hglobal _ _, hglobal _ _, fun _ h => absurd h List.not_mem_nil⟩

theorem textAddress_run {text value : String} {context : Context} (hdata : context.data.Consistent)
    (hvalue : Quoted.decode? text = some value) :
    Builtin.textAddress (leaf .string text) context =
      (.ok (Builtin.addressForm (context.intern value).1), (context.intern value).2) := by
  have hliteral : Builtin.literal .string (leaf .string text) context = (.ok value, context) := by
    rw [Builtin.literal,
      show (leaf .string text).text?.bind Quoted.decode? = some value from hvalue]
    rfl
  rw [Builtin.textAddress, bind_ok hliteral]
  exact Builtin.address_intern hdata value

/-- A literal in the place of an expression. -/
theorem rewrites_string (text : String) :
    Rewrites (Builtin.textAddress (leaf .string text)) [(.expression, .atom .string text)]
      (Replaces (leaf .string text)) texts := by
  intro context hdata hdecode
  obtain ⟨value, hvalue⟩ := Option.isSome_iff_exists.mp (hdecode text List.mem_cons_self)
  have hintern : context.internAll (Mark.literals [(.expression, .atom .string text)]) =
      (context.intern value).2 := by
    simp [Mark.literals, Mark.literal?, Context.internAll, hvalue]
  rw [hintern]
  have hmem := hdata.mem_intern value
  have hconsistent := hdata.intern value
  refine ⟨Builtin.addressForm (context.intern value).1, textAddress_run hdata hvalue, ?_, ?_⟩
  · exact replaces_form (by decide) (spelled_addressForm hconsistent hmem)
  · intro data hlater hextends
    have hsymbol := hconsistent.symbolOf?_of_prefix hlater hextends
      ((hconsistent.symbolOf?_iff value _).mpr hmem)
    simp only [List.flatMap_cons, List.flatMap_nil, Mark.rewrite, Mark.addressTexts, hvalue,
      Option.bind_some, hsymbol]
    rfl

theorem rewrites_atom {kind : AtomKind} {text : String} (h : (Token.atom kind text).Lexical) :
    Rewrites (leaf kind text).expand (leaf kind text).marked (Replaces (leaf kind text)) texts := by
  have hmarked : (leaf kind text).marked = [(.expression, .atom kind text)] := by
    simp [leaf, marked, markedAs]
  rw [hmarked]
  cases kind with
  | trivia => exact rewrites_pure rfl (Spelled.atom h).replaces fun _ => rfl
  | keyword => exact rewrites_pure rfl (Spelled.atom h).replaces fun _ => rfl
  | integer =>
    exact rewrites_pure rfl (replaces_form (by decide) (spelled_pair (by decide)
      (Builtin.lexical_of_isPlainRun rfl rfl) h)) fun _ => rfl
  | float =>
    exact rewrites_pure rfl (replaces_form (by decide) (spelled_pair (by decide)
      (Builtin.lexical_of_isPlainRun rfl rfl) h)) fun _ => rfl
  | name =>
    exact rewrites_pure rfl (replaces_form (by decide) (spelled_pair (by decide)
      (Builtin.lexical_of_isPlainRun rfl rfl) h)) fun _ => rfl
  | string =>
    refine (rewrites_string text).wrap [] [] rfl rfl fun result hresult => ?_
    have hsame : result.surround [] [] = result := by
      have hsurround := result.surround_before_after
      rwa [hresult.before, hresult.after] at hsurround
    rw [hsame]
    exact ⟨hresult, fun _ => by simp⟩

/-! ## Lists -/

/-- A tree in which no list is headed by a macro, a declaration or `module`. -/
def Ordinary (node : Node) : Prop :=
  ∀ below ∈ node.descendants, ∀ head ∈ below.head?,
    Builtin.ofKeyword? head = none ∧ head ∉ ["global", "table", "module"]

instance Ordinary.decidable (node : Node) : Decidable node.Ordinary :=
  inferInstanceAs (Decidable (∀ below ∈ node.descendants, ∀ head ∈ below.head?,
    Builtin.ofKeyword? head = none ∧ head ∉ ["global", "table", "module"]))

theorem Ordinary.child {children before after : List Node} {child : Node}
    (h : (list children before after).Ordinary) (hchild : child ∈ children) : child.Ordinary :=
  fun below hbelow => h below (mem_descendants_list hchild hbelow)

/-- The head of an ordinary list. -/
theorem Ordinary.head {children before after : List Node}
    (h : (list children before after).Ordinary) :
    ∀ first ∈ (children.filter isWord).head?, ∀ head ∈ first.text?,
      Builtin.ofKeyword? head = none ∧ head ∉ ["global", "table", "module"] := by
  intro first hfirst head hhead
  refine h _ (mem_descendants_self _) head ?_
  rw [head?, words, Node.children, Option.mem_def.mp hfirst]
  exact hhead

theorem Ordinary.not_module {children before after : List Node}
    (h : (list children before after).Ordinary) :
    ∀ first ∈ (children.filter isWord).head?, first.text? ≠ some "module" :=
  fun first hfirst htext => (h.head first hfirst _ htext).2 (by decide)

theorem Ordinary.not_holdsModule {node : Node} (h : node.AsRead) (hordinary : node.Ordinary) :
    node.holdsModule = false := by
  have hany : ∀ nodes : List Node, (∀ node ∈ nodes, node.holdsModule = false) →
      holdsModuleAny nodes = false := by
    intro nodes hnodes
    induction nodes with
    | nil => rfl
    | cons node nodes ih =>
      obtain ⟨hnode, hnodes⟩ := List.forall_mem_cons.mp hnodes
      rw [holdsModuleAny, hnode, ih hnodes]
      rfl
  induction h with
  | atom kind text => rfl
  | @list children after _ _ _ ih =>
    rw [holdsModule, isModule_eq_false hordinary.not_module,
      hany children fun child hchild => ih child hchild (hordinary.child hchild)]
    rfl

theorem spelled_list {old new before after : List Node} (hnew : List.Forall₂ Replaces old new)
    (hold : ∀ node ∈ old, ChildRewrites node) (hmodule : isModule new = false) :
    (list new before after).Spelled := by
  refine .list hmodule (fun result hresult => ?_) fun result hresult => ?_
  · obtain ⟨_, -, hreplaces⟩ := forall₂_mem hnew result hresult
    exact hreplaces.spelled
  · obtain ⟨node, hnode, hreplaces⟩ := forall₂_mem hnew result hresult
    have hchild := hold node hnode
    rw [hreplaces.before, hreplaces.after]
    exact ⟨hchild.before, hchild.after⟩

/-- A call with expanded arguments. -/
theorem spelled_call {rest new before after : List Node} {text : String} {b a : List Node}
    (hname : ChildRewrites (atom .name text b a)) (hrest : ∀ child ∈ rest, ChildRewrites child)
    (hnew : List.Forall₂ Replaces rest new) :
    (list ([keyword "call", atom .name text b a] ++ new) before after).Spelled := by
  refine .list (isModule_eq_false fun first hfirst => ?_) ?_ ?_
  · obtain rfl : keyword "call" = first := Option.some.inj hfirst
    simp [keyword, leaf, text?]
  · simp only [List.cons_append, List.nil_append, List.forall_mem_cons]
    refine ⟨.atom (Builtin.lexical_of_isPlainRun rfl rfl), hname.spelled, fun result hresult => ?_⟩
    obtain ⟨_, -, hreplaces⟩ := forall₂_mem hnew result hresult
    exact hreplaces.spelled
  · simp only [List.cons_append, List.nil_append, List.forall_mem_cons]
    refine ⟨⟨rfl, layout_nil.triviaOnly⟩, ⟨hname.before, hname.after⟩, fun result hresult => ?_⟩
    obtain ⟨node, hnode, hreplaces⟩ := forall₂_mem hnew result hresult
    rw [hreplaces.before, hreplaces.after]
    exact ⟨(hrest node hnode).before, (hrest node hnode).after⟩

/-- The children of a call up to its callee. -/
theorem markedRow_callee {mark : Nat → Mark} {front rest : List Node} {callee : Node}
    (hfront : ∀ node ∈ front, node.isWord = false) (hcallee : callee.isWord = true)
    (hmark : mark 0 = .callee) :
    markedRow mark 0 (front ++ callee :: rest) =
      markedAs .dropped front ++ (markedAs .callee [callee] ++ markedRow mark 1 rest) := by
  induction front with
  | nil =>
    rw [List.nil_append, markedRow, if_pos hcallee, hmark, if_neg (by decide)]
    rfl
  | cons node front ih =>
    obtain ⟨hnode, hfront⟩ := List.forall_mem_cons.mp hfront
    rw [List.cons_append, markedRow, if_neg (by simp [hnode]), if_pos hmark, ih hfront,
      ← List.append_assoc]
    simp [markedAs]

theorem markAt_plain {words : List Node} (h : Form.Plain words) (i : Nat) :
    Form.markAt words i = if Form.isExpression words i then .expression else .kept := by
  unfold Form.markAt
  split
  · cases h with
    | other hhead => exact absurd rfl (hhead _ _ _ _ rfl).1
  · rfl

/-- A list whose children are new from some place on. -/
theorem Rewrites.list {x : Expand (List Node)} {marks : List (Mark × Token)}
    {old before after : List Node} (h : Rewrites x marks (List.Forall₂ Replaces old)
      fun new => (listingAll new).map Token.text)
    (children kept : List Node) (front : List (Mark × Token)) (hfront : Mark.literals front = [])
    (hkept : ∀ data, (listingAll kept).map Token.text = front.flatMap (Mark.rewrite data))
    (hspelled : ∀ new, List.Forall₂ Replaces old new →
      (Node.list (kept ++ new) before after).Spelled) :
    Rewrites (x >>= fun new => pure (Node.list (kept ++ new) before after))
      (markedAs .kept before ++ (.kept, .opening) :: (front ++
        (marks ++ (.kept, .closing) :: markedAs .kept after)))
      (Replaces (Node.list children before after)) texts := by
  have hmarks : markedAs .kept before ++ (.kept, .opening) :: (front ++
      (marks ++ (.kept, .closing) :: markedAs .kept after)) =
      (markedAs .kept before ++ (.kept, .opening) :: front) ++
        (marks ++ (.kept, .closing) :: markedAs .kept after) := by simp
  rw [hmarks]
  refine h.wrap _ _ ?_ (Mark.literals_markedAs (by decide) after) fun new hnew => ?_
  · rw [Mark.literals_append, Mark.literals_markedAs (by decide)]
    exact hfront
  · refine ⟨.of_list (hspelled new hnew), fun data => ?_⟩
    rw [texts, listing]
    simp [Mark.rewrite_markedAs_kept, Mark.rewrite_kept, hkept data, Token.text]

/-- A form that does nothing beside expanding words. -/
theorem rewrites_plain {children before after : List Node}
    (hplain : Form.Plain (children.filter isWord))
    (hmodule : ∀ first ∈ (children.filter isWord).head?, first.text? ≠ some "module")
    (h : ∀ child ∈ children, ChildRewrites child) :
    Rewrites (list children before after).expand (list children before after).marked
      (Replaces (list children before after)) texts := by
  have hrow := expandAt_rewrites 0 (fun i _ => markAt_plain hplain i) h
  rw [expand_plain before after hplain, marked]
  exact Rewrites.list hrow children [] [] rfl (fun _ => rfl) fun new hnew =>
    spelled_list hnew h (replaces_not_isModule hnew hmodule)

/-- A call. -/
theorem rewrites_call {front rest before after : List Node} {text : String} {b a : List Node}
    (hfront : ∀ node ∈ front, node.isWord = false)
    (hwords : (front ++ atom .name text b a :: rest).filter isWord =
      atom .name text b a :: rest.filter isWord)
    (h : ∀ child ∈ front ++ atom .name text b a :: rest, ChildRewrites child) :
    Rewrites (list (front ++ atom .name text b a :: rest) before after).expand
      (list (front ++ atom .name text b a :: rest) before after).marked
      (Replaces (list (front ++ atom .name text b a :: rest) before after)) texts := by
  have hname : ChildRewrites (atom .name text b a) := h _ (by simp)
  have hrest : ∀ child ∈ rest, ChildRewrites child := fun child hchild => h child (by simp [hchild])
  have hmark : ∀ i, 1 ≤ i → Form.markAt (atom .name text b a :: rest.filter isWord) i =
      if decide (0 < i) then .expression else .kept := by
    intro i hi
    rw [Form.markAt, if_neg (by omega), if_pos (by simp; omega)]
  rw [expand_call before after hfront, marked, hwords, markedRow_callee hfront rfl rfl]
  have hnone : Mark.literals (markedAs .dropped front ++ markedAs .callee [atom .name text b a]) =
      [] := by
    rw [Mark.literals_append, Mark.literals_markedAs (by decide),
      Mark.literals_markedAs (by decide)]
    rfl
  have hkept : ∀ data, (listingAll [keyword "call", atom .name text b a]).map Token.text =
      (markedAs .dropped front ++ markedAs .callee [atom .name text b a]).flatMap
        (Mark.rewrite data) := by
    intro data
    cases hname.spelled
    rw [List.flatMap_append, Mark.rewrite_markedAs_dropped]
    rfl
  have hmarks : ∀ marks, markedAs .dropped front ++
      (markedAs .callee [atom .name text b a] ++ marks) =
        (markedAs .dropped front ++ markedAs .callee [atom .name text b a]) ++ marks :=
    fun marks => (List.append_assoc ..).symm
  rw [hmarks, List.append_assoc]
  exact Rewrites.list (expandAt_rewrites 1 hmark hrest) _ _ _ hnone hkept fun _ hnew =>
    spelled_call hname hrest hnew

/-- A list in which no form is headed by a macro, a declaration or `module`. -/
theorem rewrites_list {children before after : List Node}
    (hordinary : (list children before after).Ordinary)
    (h : ∀ child ∈ children, ChildRewrites child) :
    Rewrites (list children before after).expand (list children before after).marked
      (Replaces (list children before after)) texts := by
  have hhead := hordinary.head
  have hmodule := hordinary.not_module
  have hstyled := Form.styled (children.filter isWord)
  generalize hwords : children.filter isWord = words at hhead hmodule hstyled
  cases hstyled with
  | call text b a arguments =>
    obtain ⟨front, rest, rfl, hfront, -, rfl⟩ := exists_head hwords
    exact rewrites_call hfront hwords h
  | builtin b a arguments hbuiltin =>
    rw [(hhead _ rfl _ rfl).1] at hbuiltin
    cases hbuiltin
  | declaration b a arguments _ hpolicy =>
    have hother := (hhead _ rfl _ rfl).2
    rcases Form.ofHead_hoist hpolicy with ⟨rfl, -⟩ | ⟨rfl, -⟩
    · exact absurd hother (by simp)
    · exact absurd hother (by simp)
  | module b a text b' a' arguments => exact absurd (hhead _ rfl "module" rfl).2 (by simp)
  | plain hplain =>
    subst hwords
    exact rewrites_plain hplain hmodule h

/-- A node that is read expands, as a child, to itself with its tokens rewritten. -/
theorem AsRead.childRewrites {node : Node} (h : node.AsRead)
    (hlexical : ∀ token ∈ node.listing, token.Lexical) (hordinary : node.Ordinary) :
    ChildRewrites node := by
  induction h with
  | atom kind text =>
    have htext : (Token.atom kind text).Lexical := hlexical _ (by simp)
    exact ⟨.atom htext, rfl, layout_nil.triviaOnly, rewrites_atom htext⟩
  | @list children after hchildren hchain hafter ih =>
    have hread : (Node.list children [] after).AsRead := .list hchildren hchain hafter
    refine ⟨hread.spelled hlexical (hordinary.not_holdsModule hread), rfl,
      hread.before_after.2.triviaOnly fun token htoken =>
        hlexical token (listingAll_after_subset _ htoken), ?_⟩
    refine rewrites_list hordinary fun child hmem => ih child hmem (fun token htoken => ?_)
      (hordinary.child hmem)
    exact hlexical token (@mem_listing (.list children [] after) child hmem token htoken)

/-- What is attached to a form that is read. -/
theorem FormAsRead.triviaOnly {form : Node} (h : form.FormAsRead)
    (hlexical : ∀ token ∈ form.listing, token.Lexical) :
    TriviaOnly form.before ∧ TriviaOnly form.after := by
  cases h with
  | @list children before after _ hbefore hafter =>
    refine ⟨hbefore.triviaOnly fun token htoken => hlexical token ?_,
      hafter.triviaOnly fun token htoken => hlexical token (listingAll_after_subset _ htoken)⟩
    rw [listing]
    exact List.mem_append_left _ htoken

/-- A form that is read expands to itself with its tokens rewritten. -/
theorem FormAsRead.rewrites {form : Node} (h : form.FormAsRead)
    (hlexical : ∀ token ∈ form.listing, token.Lexical) (hordinary : form.Ordinary) :
    Rewrites form.expand form.marked (Replaces form) texts := by
  cases h with
  | @list children before after hchildren _ _ =>
    refine rewrites_list hordinary fun child hmem => ?_
    exact (hchildren.asRead child hmem).childRewrites (fun token htoken =>
      hlexical token (@mem_listing (.list children before after) child hmem token htoken))
      (hordinary.child hmem)

end Node

end WatMacro
