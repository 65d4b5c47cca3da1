import WatMacro.Proofs.Node.Depth
import WatMacro.Proofs.Node.WriteBack

/-!
# The reader undoes the listing

The tokens of a tree that has the shape of read forms are read as that tree. So the form that a
source holds is known without running the reader: the one whose tokens are those of the source.

From this, what stands inside of a form can be replaced: the trivia around the form stays as it is,
and other tokens between its parentheses are written and read back, if none of them runs into the
next one.

Results:

* `Reading.run_node`: the tokens of a node put the node among the children of the open list.
* `Node.read_eq_ok_iff`: which form a source holds.
* `Node.render_read_inside`: a form with another inside is written and read back.
-/

namespace WatMacro

open Lexeme

namespace Reading

open Node

theorem run_append_ok {line : Nat} {reading next final : Reading} {front back : List Token}
    (hfront : reading.run line front = .ok next)
    (hback : ∀ line, next.run line back = .ok final) :
    reading.run line (front ++ back) = .ok final := by
  rw [run_append, hfront]
  exact hback _

/-! ## Trivia around a form, and after a list -/

/-- Trivia is taken token by token, wherever each token is attached behind the ones before it. -/
theorem run_layout (attach : List Node → Reading)
    (hattach : ∀ line layout text, (attach layout).step line (.atom .trivia text) =
      .ok (attach (layout ++ [.trivia text])))
    {nodes : List Node} (h : LayoutAsRead nodes) (line : Nat) (layout : List Node) :
    (attach layout).run line (listingAll nodes) = .ok (attach (layout ++ nodes)) := by
  induction nodes generalizing line layout with
  | nil =>
    rw [List.append_nil]
    rfl
  | cons node nodes ih =>
    obtain ⟨text, rfl⟩ := h node List.mem_cons_self
    have hnodes : LayoutAsRead nodes := fun other hother => h other (List.mem_cons_of_mem _ hother)
    rw [listingAll_cons, listing_trivia, List.singleton_append,
      run_cons_ok (hattach line layout text), ih hnodes, List.append_assoc, List.singleton_append]

theorem run_before {nodes : List Node} (h : LayoutAsRead nodes) (line : Nat) :
    (start []).run line (listingAll nodes) = .ok (start nodes) :=
  run_layout start (fun _ _ _ => rfl) h line []

theorem run_after {nodes : List Node} (h : LayoutAsRead nodes) (line : Nat)
    (children before : List Node) :
    (complete (.list children before [])).run line (listingAll nodes) =
      .ok (complete (.list children before nodes)) :=
  run_layout (fun after => complete (.list children before after)) (fun _ _ _ => rfl) h line []

/-- Trivia after a nested list is attached to it. -/
theorem run_attach {nodes : List Node} (h : LayoutAsRead nodes) (line : Nat)
    (before : List Node) (outer : List (List Node)) (children older : List Node) :
    (inside before outer (.list children [] [] :: older)).run line (listingAll nodes) =
      .ok (inside before outer (.list children [] nodes :: older)) :=
  run_layout (fun after => inside before outer (.list children [] after :: older))
    (fun line after text =>
      step_inside_trivia line before outer (.list children [] after :: older) text) h line []

/-! ## Nodes inside a form -/

/-- What can be put after the children of an open list, which stand newest first: trivia after a
list would be attached to it. -/
def Fits (node : Node) (older : List Node) : Prop :=
  ∀ last ∈ older.head?, last.isList = true → node.isWord = true

/-- The tokens of the node put it among the children of the open list, wherever it fits. -/
def Returns (node : Node) : Prop :=
  ∀ (line : Nat) (before : List Node) (outer : List (List Node)) (older : List Node),
    Fits node older →
    (inside before outer older).run line node.listing = .ok (inside before outer (node :: older))

theorem addTrivia_of_fits {text : String} {older : List Node} (h : Fits (.trivia text) older) :
    addTrivia text older = .trivia text :: older := by
  unfold addTrivia
  split
  · cases h _ rfl rfl
  · rfl

theorem returns_leaf (kind : AtomKind) (text : String) : Returns (leaf kind text) := by
  intro line before outer older hfits
  rw [listing_leaf]
  by_cases hkind : kind = .trivia
  · subst hkind
    rw [run_cons_ok (step_inside_trivia line before outer older text), addTrivia_of_fits hfits]
    rfl
  · rw [run_cons_ok (step_inside_atom line before outer older hkind text)]
    rfl

theorem run_row {nodes : List Node} (hnodes : ∀ node ∈ nodes, Returns node)
    (hchain : nodes.IsChain fun child next => child.isList = true → next.isWord = true)
    (line : Nat) (before : List Node) (outer : List (List Node)) {older : List Node}
    (hfits : ∀ first ∈ nodes.head?, Fits first older) :
    (inside before outer older).run line (listingAll nodes) =
      .ok (inside before outer (nodes.reverse ++ older)) := by
  induction nodes generalizing line older with
  | nil => rfl
  | cons node nodes ih =>
    have hrest : ∀ first ∈ nodes.head?, Fits first (node :: older) := by
      intro first hfirst last hlast
      cases hlast
      cases nodes with
      | nil => cases hfirst
      | cons next nodes =>
        cases hfirst
        exact (List.isChain_cons_cons.mp hchain).1
    rw [listingAll_cons, List.reverse_cons, List.append_assoc, List.singleton_append]
    refine run_append_ok (hnodes node List.mem_cons_self line before outer older (hfits node rfl))
      fun line => ?_
    exact ih (fun other hother => hnodes other (List.mem_cons_of_mem node hother)) hchain.tail line
      hrest

/-- The tokens of a node put the node among the children of the open list. -/
theorem run_node {node : Node} (h : node.AsRead) : Returns node := by
  induction h with
  | atom kind text => exact returns_leaf kind text
  | @list children after hchildren hchain hafter ih =>
    intro line before outer older _
    rw [Node.listing, listingAll_nil, List.nil_append,
      run_cons_ok (step_inside_opening line before outer older)]
    have hempty : ∀ first ∈ children.head?, Fits first [] := fun _ _ _ hlast => by cases hlast
    refine run_append_ok (run_row ih hchain _ before (older :: outer) hempty) fun line => ?_
    rw [run_cons_ok rfl, List.append_nil, List.reverse_reverse]
    exact run_attach hafter _ before outer children older

/-- The tokens of a form are taken as the form. -/
theorem run_form {form : Node} (h : form.FormAsRead) (line : Nat) :
    (start []).run line form.listing = .ok (complete form) := by
  cases h with
  | @list children before after hchildren hbefore hafter =>
    have hempty : ∀ first ∈ children.head?, Fits first [] := fun _ _ _ hlast => by cases hlast
    rw [Node.listing]
    refine run_append_ok (run_before hbefore line) fun line => ?_
    rw [run_cons_ok rfl]
    refine run_append_ok (run_row (fun child hchild => run_node (hchildren.asRead child hchild))
      hchildren.chain _ before [] hempty) fun line => ?_
    rw [run_cons_ok rfl, List.append_nil, List.reverse_reverse]
    exact run_after hafter _ children before

end Reading

namespace Node

/-- A source holds the form that lists its tokens, if it has the shape of read forms. -/
theorem read_eq_ok_iff {source : String} {form : Node} :
    Node.read source = .ok form ↔ form.FormAsRead ∧
      ∃ texts, tokenize source = .ok texts ∧ form.listing = texts.map Token.ofText := by
  constructor
  · intro h
    exact ⟨read_asRead h, read_listing h⟩
  · rintro ⟨hform, texts, htexts, hlisting⟩
    refine read_eq_ok.mpr ⟨texts, htexts, ?_⟩
    rw [← hlisting]
    exact Reading.run_form hform 1

/-! ## Another inside -/

/-- Texts that can stand between the parentheses of a form: lexemes that do not run together, also
not with the parentheses. -/
structure IsInside (texts : List String) : Prop where
  closed : ∀ text ∈ texts, Closed text.toList
  chain : ("(" :: (texts ++ [")"])).IsChain fun left right =>
    Apart left.toList right.toList ∧ ¬RunTogether left right

theorem not_runTogether_of_isTrivia_left {left right : String} (h : Atom.isTrivia left = true) :
    ¬RunTogether left right := by
  rintro ⟨hleft, -⟩
  rw [h] at hleft
  cases hleft

theorem not_runTogether_of_isTrivia_right {left right : String} (h : Atom.isTrivia right = true) :
    ¬RunTogether left right := by
  rintro ⟨-, hright, -⟩
  rw [h] at hright
  cases hright

/-- In the source of a form, what follows a token continues it only if that is an opening
parenthesis. -/
theorem isChain_apart_of_tokenize {source : String} {texts : List String}
    (h : tokenize source = .ok texts)
    (hlast : ∀ last ∈ texts.getLast?, last = ")" ∨ Atom.isTrivia last = true) :
    texts.IsChain fun left right => left ≠ "(" → Apart left.toList right.toList := by
  rw [List.isChain_iff_forall_rel_of_append_cons_cons]
  intro left right front back hsplit hopening d hd
  rw [← Bool.not_eq_true]
  exact fun hcontinues => hopening ((tokenize_closed h hlast hsplit).2 right rfl d hd hcontinues)

/-- The texts of the source of a form: those of its attachments, and between them its parentheses
and what they hold. -/
theorem exists_texts_list {children before after : List Node} {texts : List String}
    (h : (list children before after).listing = texts.map Token.ofText) :
    ∃ front inside back, texts = front ++ "(" :: (inside ++ ")" :: back) ∧
      front.map Token.ofText = listingAll before ∧ inside.map Token.ofText = listingAll children ∧
      back.map Token.ofText = listingAll after := by
  rw [listing] at h
  obtain ⟨front, rest, rfl, hfront, hrest⟩ := List.map_eq_append_iff.mp h.symm
  obtain ⟨opening, rest, rfl, hopening, hrest⟩ := List.map_eq_cons_iff.mp hrest
  obtain ⟨inside, rest, rfl, hinside, hrest⟩ := List.map_eq_append_iff.mp hrest
  obtain ⟨closing, back, rfl, hclosing, hback⟩ := List.map_eq_cons_iff.mp hrest
  obtain rfl : opening = "(" := by rw [← Token.text_ofText opening, hopening, Token.text]
  obtain rfl : closing = ")" := by rw [← Token.text_ofText closing, hclosing, Token.text]
  exact ⟨front, inside, back, rfl, hfront, hinside, hback⟩

/-- Other texts between the parentheses of a form do not run together with the trivia around it. -/
theorem IsInside.chain_around {front old inside back : List String} (hinside : IsInside inside)
    (hchain : (front ++ "(" :: (old ++ ")" :: back)).IsChain fun left right =>
      left ≠ "(" → Apart left.toList right.toList)
    (hfront : ∀ text ∈ front, Atom.isTrivia text = true)
    (hback : ∀ text ∈ back, Atom.isTrivia text = true) :
    (front ++ "(" :: (inside ++ ")" :: back)).IsChain fun left right =>
      Apart left.toList right.toList ∧ ¬RunTogether left right := by
  have hne : ∀ {text : String}, Atom.isTrivia text = true → text ≠ "(" := by
    rintro text htrivia rfl
    cases htrivia
  obtain ⟨hfrontChain, -, hborder⟩ := List.isChain_append.mp hchain
  have hinfix : back <:+: front ++ "(" :: (old ++ ")" :: back) :=
    ⟨front ++ "(" :: (old ++ [")"]), [], by simp⟩
  have hbackChain := hchain.infix hinfix
  have hsplit : "(" :: (inside ++ ")" :: back) = ("(" :: (inside ++ [")"])) ++ back := by simp
  rw [List.isChain_append, hsplit, List.isChain_append]
  refine ⟨hfrontChain.imp_of_mem_imp fun left right hleft _ h => ?_, ⟨hinside.chain, ?_, ?_⟩, ?_⟩
  · exact ⟨h (hne (hfront left hleft)), not_runTogether_of_isTrivia_left (hfront left hleft)⟩
  · refine hbackChain.imp_of_mem_imp fun left right hleft _ h => ?_
    exact ⟨h (hne (hback left hleft)), not_runTogether_of_isTrivia_left (hback left hleft)⟩
  · intro closing hclosing text htext
    rw [← List.cons_append, List.getLast?_concat] at hclosing
    obtain rfl : ")" = closing := Option.some.inj hclosing
    have htrivia := hback text (List.mem_of_head? htext)
    exact ⟨Apart.closing _, not_runTogether_of_isTrivia_right htrivia⟩
  · intro last hlast opening hopening
    obtain rfl : opening = "(" := by simpa using hopening.symm
    have htrivia := hfront last (List.mem_of_getLast? hlast)
    exact ⟨hborder last hlast "(" rfl (hne htrivia), not_runTogether_of_isTrivia_left htrivia⟩

/-- A form that is read is written and read back with other children in their place, if their tokens
do not run together. -/
theorem render_read_inside {source : String} {children before after children' : List Node}
    {inside : List String} (h : Node.read source = .ok (list children before after))
    (hrow : RowAsRead children') (hlisting : listingAll children' = inside.map Token.ofText)
    (hinside : IsInside inside) (hmodule : (list children' before after).holdsModule = false) :
    ∃ text, (list children' before after).render = .ok text ∧
      Node.read text = .ok (list children' before after) := by
  obtain ⟨texts, htexts, htokens⟩ := read_listing h
  have hform := read_asRead h
  have hlast := hform.getLast?_texts htokens
  have hlexical := tokenize_lexical htexts hlast
  have hapart := isChain_apart_of_tokenize htexts hlast
  obtain ⟨front, old, back, rfl, hfront, hold, hback⟩ := exists_texts_list htokens
  cases hform with
  | list _ hbefore hafter =>
    have hchain := hinside.chain_around hapart
      (fun text htext => hbefore.isTrivia_of_mem (hfront ▸ List.mem_map_of_mem htext))
      (fun text htext => hafter.isTrivia_of_mem (hback ▸ List.mem_map_of_mem htext))
    have hclosed : ∀ text ∈ front ++ "(" :: (inside ++ ")" :: back), Closed text.toList := by
      intro text htext
      have hsource : ∀ other ∈ front ++ "(" :: (old ++ ")" :: back), Closed other.toList := by
        intro other hother
        simpa using (hlexical (Token.ofText other) (List.mem_map_of_mem hother)).closed
      by_cases hmem : text ∈ inside
      · exact hinside.closed text hmem
      · refine hsource text ?_
        simp only [List.mem_append, List.mem_cons] at htext ⊢
        tauto
    have htokenize := tokenize_join_of_row hclosed
      ((List.isChain_map _).mpr (hchain.imp fun _ _ => And.left))
    have hread := read_eq_ok_iff.mpr ⟨.list hrow hbefore hafter, _, htokenize, by
      rw [listing, ← hfront, ← hback, hlisting]
      simp [Token.ofText]⟩
    refine ⟨_, ?_, hread⟩
    rw [render_of_read htokenize hread hmodule, spaceOut_eq_separated,
      separated_eq_self (hchain.imp fun _ _ => And.right)]

end Node

end WatMacro
