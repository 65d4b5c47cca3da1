import Mathlib.Data.List.Chain
import WatMacro.Node.Reader

/-!
# What the reader builds

Listing a tree gives back the tokens that it was read from, and the tree has the shape that the
docstring of the reader tells: atoms and opening parentheses have nothing attached, and trivia after
a nested list is attached to that list.

Results:

* `Reading.run_listing`: the tokens that a reading holds are the ones it has taken.
* `Node.read_listing`: the listing of a form is the tokens of its source.
* `Node.read_asRead`: a form that is read has the shape of read forms.
-/

namespace WatMacro

/-- A token that carries no meaning. -/
def Token.isTrivia : Token → Bool
  | atom .trivia _ => true
  | _ => false

namespace Node

mutual

/-- The tokens of a node in order, its attachments included. -/
def listing : Node → List Token
  | atom kind text before after => listingAll before ++ .atom kind text :: listingAll after
  | list children before after =>
    listingAll before ++ .opening :: (listingAll children ++ .closing :: listingAll after)
  | splice items before after => listingAll before ++ (listingAll items ++ listingAll after)

/-- The tokens of several nodes in order. -/
def listingAll : List Node → List Token
  | [] => []
  | node :: nodes => listing node ++ listingAll nodes

end

theorem listingAll_eq (nodes : List Node) : listingAll nodes = nodes.flatMap listing := by
  induction nodes with
  | nil => rfl
  | cons node nodes ih => rw [listingAll, ih, List.flatMap_cons]

@[simp] theorem listingAll_nil : listingAll [] = [] := rfl

@[simp] theorem listingAll_cons (node : Node) (nodes : List Node) :
    listingAll (node :: nodes) = node.listing ++ listingAll nodes := by
  rw [listingAll]

@[simp] theorem listingAll_append (front back : List Node) :
    listingAll (front ++ back) = listingAll front ++ listingAll back := by
  simp only [listingAll_eq, List.flatMap_append]

@[simp] theorem listing_leaf (kind : AtomKind) (text : String) :
    (leaf kind text).listing = [.atom kind text] := by
  simp [leaf, listing]

@[simp] theorem listing_trivia (text : String) : (trivia text).listing = [.atom .trivia text] :=
  listing_leaf .trivia text

theorem listing_part {children : List Node} {child : Node} (h : child ∈ children) :
    child.listing <:+: listingAll children := by
  obtain ⟨front, back, rfl⟩ := List.append_of_mem h
  exact ⟨listingAll front, listingAll back, by simp⟩

/-- The tokens of a child are among those of its parent. -/
theorem mem_listing {node child : Node} (h : child ∈ node.children) {token : Token}
    (htoken : token ∈ child.listing) : token ∈ node.listing := by
  have hall : token ∈ listingAll node.children := (listing_part h).subset htoken
  cases node with
  | atom => cases h
  | list children before after =>
    have hlist : token ∈ listingAll children := hall
    simp [listing, hlist]
  | splice items before after =>
    have hitems : token ∈ listingAll items := hall
    simp [listing, hitems]

end Node

/-! ## Tokens taken so far -/

namespace Reading

open Node

/-- The tokens of a list that is still open, whose children stand newest first. -/
def openListing (children : List Node) : List Token :=
  .opening :: listingAll children.reverse

/-- The tokens that a reading holds. -/
def listing : Reading → List Token
  | start before => listingAll before
  | inside before outer children =>
    listingAll before ++ (outer.reverse.flatMap openListing ++ openListing children)
  | complete form => form.listing

theorem openListing_cons (node : Node) (children : List Node) :
    openListing (node :: children) = openListing children ++ node.listing := by
  simp [openListing]

theorem openListing_addTrivia (text : String) (children : List Node) :
    openListing (addTrivia text children) = openListing children ++ [.atom .trivia text] := by
  unfold addTrivia
  split
  · simp [openListing_cons, Node.listing]
  · simp [openListing_cons]

theorem openListing_form (children : List Node) :
    (form children.reverse).listing = openListing children ++ [.closing] := by
  simp [form, Node.listing, openListing]

/-- A reading holds one more token after it has taken one. -/
theorem step_listing {line : Nat} {reading next : Reading} {token : Token}
    (h : reading.step line token = .ok next) : next.listing = reading.listing ++ [token] := by
  unfold step at h
  split at h
  · cases h
    simp [listing]
  · cases h
    simp [listing, openListing]
  · cases h
  · cases h
  · cases h
    simp [listing, openListing]
  · cases h
    simp [listing, openListing, Node.listing]
  · cases h
    simp [listing, openListing_cons, openListing_form]
  · cases h
    simp [listing, openListing_addTrivia]
  · cases h
    simp [listing, openListing_cons]
  · rename_i form text
    cases h
    cases form <;> simp [listing, Node.listing, surround, before, after]
  · cases h

theorem run_listing {line : Nat} {reading final : Reading} {tokens : List Token}
    (h : reading.run line tokens = .ok final) : final.listing = reading.listing ++ tokens := by
  induction tokens generalizing line reading with
  | nil =>
    cases h
    rw [List.append_nil]
  | cons token tokens ih =>
    rw [run] at h
    cases hstep : reading.step line token with
    | error error =>
      rw [hstep] at h
      cases h
    | ok next =>
      rw [hstep] at h
      rw [ih h, step_listing hstep, List.append_assoc, List.singleton_append]

theorem finish_eq_ok {line : Nat} {reading : Reading} {form : Node}
    (h : reading.finish line = .ok form) : reading = complete form := by
  cases reading <;> cases h
  rfl

end Reading

/-! ## The shape of read forms -/

namespace Node

/-- A node as the reader builds it inside a form. -/
inductive AsRead : Node → Prop
  | atom (kind : AtomKind) (text : String) : AsRead (leaf kind text)
  | list {children after : List Node} : (∀ child ∈ children, AsRead child) →
    children.IsChain (fun child next => child.isList = true → next.isWord = true) →
    (∀ node ∈ after, ∃ text, node = trivia text) → AsRead (list children [] after)

/-- Children as the reader builds them: trivia after a list belongs to the list. -/
structure RowAsRead (children : List Node) : Prop where
  asRead : ∀ child ∈ children, AsRead child
  chain : children.IsChain fun child next => child.isList = true → next.isWord = true

/-- Attachments as the reader builds them. -/
def LayoutAsRead (nodes : List Node) : Prop :=
  ∀ node ∈ nodes, ∃ text, node = trivia text

/-- A whole form as the reader builds it. -/
inductive FormAsRead : Node → Prop
  | list {children before after : List Node} : RowAsRead children → LayoutAsRead before →
    LayoutAsRead after → FormAsRead (list children before after)

theorem layoutAsRead_nil : LayoutAsRead [] := fun _ h => absurd h List.not_mem_nil

theorem LayoutAsRead.concat {nodes : List Node} (h : LayoutAsRead nodes) (text : String) :
    LayoutAsRead (nodes ++ [trivia text]) := by
  intro node hnode
  rcases List.mem_append.mp hnode with hnode | hnode
  · exact h node hnode
  · exact ⟨text, List.mem_singleton.mp hnode⟩

end Node

namespace Reading

open Node

/-- Children that stand newest first, as the reader builds them. -/
def OpenAsRead (children : List Node) : Prop :=
  RowAsRead children.reverse

/-- A reading whose parts are as the reader builds them. -/
inductive AsRead : Reading → Prop
  | start {before : List Node} : LayoutAsRead before → AsRead (start before)
  | inside {before : List Node} {outer : List (List Node)} {children : List Node} :
    LayoutAsRead before → (∀ level ∈ outer, OpenAsRead level) → OpenAsRead children →
    AsRead (inside before outer children)
  | complete {form : Node} : FormAsRead form → AsRead (complete form)

theorem openAsRead_nil : OpenAsRead [] :=
  ⟨fun _ h => absurd h List.not_mem_nil, .nil⟩

theorem OpenAsRead.cons {node : Node} {children : List Node} (h : OpenAsRead children)
    (hnode : node.AsRead) (hlast : ∀ last ∈ children.head?, last.isList = true →
      node.isWord = true) : OpenAsRead (node :: children) := by
  refine ⟨fun child hchild => ?_, ?_⟩
  · rcases List.mem_cons.mp (List.mem_reverse.mp hchild) with rfl | hchild
    · exact hnode
    · exact h.asRead child (List.mem_reverse.mpr hchild)
  · rw [List.reverse_cons, List.isChain_append]
    refine ⟨h.chain, .singleton node, fun last hlast' next hnext => ?_⟩
    rw [List.getLast?_reverse] at hlast'
    obtain rfl : node = next := by simpa using hnext
    exact hlast last hlast'

theorem OpenAsRead.addTrivia {children : List Node} (h : OpenAsRead children) (text : String) :
    OpenAsRead (addTrivia text children) := by
  unfold Reading.addTrivia
  split
  · rename_i inner before after older
    have hold : OpenAsRead older := by
      refine ⟨fun child hchild => h.asRead child ?_, ?_⟩
      · rw [List.reverse_cons]
        exact List.mem_append_left _ hchild
      · have hchain := h.chain
        rw [List.reverse_cons, List.isChain_append] at hchain
        exact hchain.1
    have hlist := h.asRead (.list inner before after) (by simp)
    cases hlist with
    | list hinner hchain hafter =>
      exact hold.cons (.list hinner hchain (LayoutAsRead.concat hafter text)) fun _ _ _ => rfl
  · rename_i hnotList
    refine h.cons (.atom .trivia text) fun last hlast hisList => ?_
    cases children with
    | nil => cases hlast
    | cons node older =>
      obtain rfl : node = last := by simpa using hlast
      cases node with
      | list inner before after => exact absurd rfl (hnotList inner before after older)
      | _ => cases hisList

theorem step_asRead {line : Nat} {reading next : Reading} {token : Token}
    (h : reading.step line token = .ok next) (hreading : reading.AsRead) : next.AsRead := by
  unfold step at h
  split at h
  · cases h
    cases hreading with
    | start hbefore => exact .start (hbefore.concat _)
  · cases h
    cases hreading with
    | start hbefore => exact .inside hbefore (fun _ h => absurd h List.not_mem_nil) openAsRead_nil
  · cases h
  · cases h
  · cases h
    cases hreading with
    | inside hbefore houter hchildren =>
      refine .inside hbefore (fun level hlevel => ?_) openAsRead_nil
      rcases List.mem_cons.mp hlevel with rfl | hlevel
      · exact hchildren
      · exact houter level hlevel
  · cases h
    cases hreading with
    | inside hbefore houter hchildren => exact .complete (.list hchildren hbefore layoutAsRead_nil)
  · cases h
    cases hreading with
    | inside hbefore houter hchildren =>
      refine .inside hbefore (fun level hlevel => houter level (List.mem_cons_of_mem _ hlevel)) ?_
      refine (houter _ List.mem_cons_self).cons ?_ fun _ _ _ => rfl
      exact .list hchildren.asRead hchildren.chain layoutAsRead_nil
  · cases h
    cases hreading with
    | inside hbefore houter hchildren => exact .inside hbefore houter (hchildren.addTrivia _)
  · rename_i before outer children kind text hkind
    cases h
    cases hreading with
    | inside hbefore houter hchildren =>
      refine .inside hbefore houter (hchildren.cons (.atom kind text) fun _ _ _ => ?_)
      cases kind with
      | trivia => exact absurd rfl hkind
      | _ => rfl
  · cases h
    cases hreading with
    | complete hform =>
      cases hform with
      | list hchildren hbefore hafter => exact .complete (.list hchildren hbefore (hafter.concat _))
  · cases h

theorem run_asRead {line : Nat} {reading final : Reading} {tokens : List Token}
    (h : reading.run line tokens = .ok final) (hreading : reading.AsRead) : final.AsRead := by
  induction tokens generalizing line reading with
  | nil =>
    cases h
    exact hreading
  | cons token tokens ih =>
    rw [run] at h
    cases hstep : reading.step line token with
    | error error =>
      rw [hstep] at h
      cases h
    | ok next =>
      rw [hstep] at h
      exact ih h (step_asRead hstep hreading)

end Reading

/-! ## Forms that are read -/

namespace Node

theorem ofTokens_eq_ok {tokens : List Token} {form : Node} :
    ofTokens tokens = .ok form ↔ (Reading.start []).run 1 tokens = .ok (.complete form) := by
  unfold ofTokens
  cases hrun : (Reading.start []).run 1 tokens with
  | error error =>
    constructor <;> intro h <;> cases h
  | ok final =>
    constructor
    · intro h
      rw [Reading.finish_eq_ok h]
    · intro h
      cases h
      rfl

theorem read_eq_ok {source : String} {form : Node} :
    Node.read source = .ok form ↔ ∃ texts, tokenize source = .ok texts ∧
      (Reading.start []).run 1 (texts.map Token.ofText) = .ok (.complete form) := by
  unfold Node.read WatMacro.tokens
  cases tokenize source with
  | error error =>
    constructor
    · intro h
      cases h
    · rintro ⟨_, h, -⟩
      cases h
  | ok texts =>
    constructor
    · intro h
      exact ⟨texts, rfl, ofTokens_eq_ok.mp h⟩
    · rintro ⟨_, ⟨⟩, h⟩
      exact ofTokens_eq_ok.mpr h

/-- The listing of a form is the tokens of its source. -/
theorem read_listing {source : String} {form : Node} (h : Node.read source = .ok form) :
    ∃ texts, tokenize source = .ok texts ∧ form.listing = texts.map Token.ofText := by
  obtain ⟨texts, htexts, hrun⟩ := read_eq_ok.mp h
  refine ⟨texts, htexts, ?_⟩
  have hlisting := Reading.run_listing hrun
  rwa [Reading.listing, Reading.listing, listingAll_nil, List.nil_append] at hlisting

/-- A form that is read has the shape of read forms. -/
theorem read_asRead {source : String} {form : Node} (h : Node.read source = .ok form) :
    form.FormAsRead := by
  obtain ⟨texts, -, hrun⟩ := read_eq_ok.mp h
  cases Reading.run_asRead hrun (.start layoutAsRead_nil) with
  | complete hform => exact hform

end Node

end WatMacro
