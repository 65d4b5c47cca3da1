import WatMacro.Proofs.Node.Legible

/-!
# Spaces in a written tree

Writing a tree without modules gives its tokens in order, with a space between two of them wherever
they would run together and the second one closes no list. Read back, the text has the same tokens
but for white space.

Results:

* `Node.Spelled.pieces_eq`: what a node is written as.
* `tokenize_spaceOut`: the text splits into the same tokens other than trivia.
-/

namespace WatMacro

open Lexeme

/-! ## Spaces between texts -/

/-- Whether a space is written between two texts. -/
def spaceBetween (left right : String) : Bool :=
  Node.needsSpace left right && right ≠ ")"

theorem spaceBetween_eq_true_iff {left right : String} : spaceBetween left right = true ↔
    Atom.isTrivia left = false ∧ Atom.isTrivia right = false ∧ left ≠ "(" ∧ right ≠ ")" := by
  simp [spaceBetween, Node.needsSpace]
  tauto

theorem spaceBetween_opening (text : String) : spaceBetween "(" text = false := by
  simp [spaceBetween, Node.needsSpace]

theorem spaceBetween_of_isTrivia_left {left : String} (h : Atom.isTrivia left = true)
    (right : String) : spaceBetween left right = false := by
  simp [spaceBetween, Node.needsSpace, h]

theorem spaceBetween_of_isTrivia_right (left : String) {right : String}
    (h : Atom.isTrivia right = true) : spaceBetween left right = false := by
  simp [spaceBetween, Node.needsSpace, h]

theorem isTrivia_space : Atom.isTrivia " " = true := by
  decide

/-- Texts with the spaces between them, after the text `last`. -/
def spaceAfter (last : String) : List String → List String
  | [] => []
  | text :: texts =>
    if spaceBetween last text then " " :: text :: spaceAfter text texts
    else text :: spaceAfter text texts

theorem spaceAfter_cons (last text : String) (texts : List String) :
    spaceAfter last (text :: texts) =
      if spaceBetween last text then " " :: text :: spaceAfter text texts
      else text :: spaceAfter text texts := by
  rw [spaceAfter]

/-- Texts with the spaces between them. -/
def spaceOut : List String → List String
  | [] => []
  | text :: texts => text :: spaceAfter text texts

theorem spaceOut_eq_spaceAfter (texts : List String) : spaceOut texts = spaceAfter "(" texts := by
  cases texts with
  | nil => rfl
  | cons text texts =>
    rw [spaceAfter_cons, spaceBetween_opening]
    rfl

theorem spaceAfter_append (last : String) (front back : List String) :
    spaceAfter last (front ++ back) =
      spaceAfter last front ++ spaceAfter (front.getLast?.getD last) back := by
  induction front generalizing last with
  | nil => rfl
  | cons text front ih =>
    rw [List.cons_append, spaceAfter, spaceAfter, ih]
    have hlast : (text :: front).getLast?.getD last = front.getLast?.getD text := by
      cases front with
      | nil => rfl
      | cons other front => simp [List.getLast?_cons]
    rw [hlast]
    split <;> rfl

theorem getLast?_spaceAfter (last : String) (texts : List String) :
    (spaceAfter last texts).getLast? = texts.getLast? := by
  induction texts generalizing last with
  | nil => rfl
  | cons text texts ih =>
    have hcons : (text :: spaceAfter text texts).getLast? = (text :: texts).getLast? := by
      rw [List.getLast?_cons, List.getLast?_cons, ih]
    rw [spaceAfter]
    split
    · rw [List.getLast?_cons_cons, hcons]
    · exact hcons

theorem getLast?_spaceOut (texts : List String) : (spaceOut texts).getLast? = texts.getLast? := by
  rw [spaceOut_eq_spaceAfter, getLast?_spaceAfter]

/-- No space is written after trivia. -/
theorem spaceOut_append_of_isTrivia {front : List String}
    (h : ∀ text ∈ front, Atom.isTrivia text = true) (back : List String) :
    spaceOut (front ++ back) = front ++ spaceOut back := by
  have hafter : ∀ last, Atom.isTrivia last = true → ∀ texts,
      spaceAfter last texts = spaceOut texts := by
    intro last hlast texts
    cases texts with
    | nil => rfl
    | cons text texts =>
      rw [spaceAfter, spaceBetween_of_isTrivia_left hlast, spaceOut]
      rfl
  induction front with
  | nil => rfl
  | cons text front ih =>
    rw [List.cons_append, spaceOut, hafter text (h text List.mem_cons_self),
      ih fun other hother => h other (List.mem_cons_of_mem _ hother), List.cons_append]

/-- Neither trivia nor a closing parenthesis has a space in front of it. -/
theorem spaceAfter_of_isTrivia (last : String) {texts : List String}
    (h : ∀ text ∈ texts, Atom.isTrivia text = true) : spaceAfter last texts = texts := by
  induction texts generalizing last with
  | nil => rfl
  | cons text texts ih =>
    rw [spaceAfter, spaceBetween_of_isTrivia_right last (h text List.mem_cons_self),
      ih text fun other hother => h other (List.mem_cons_of_mem _ hother)]
    rfl

theorem spaceAfter_closing (last : String) (texts : List String) :
    spaceAfter last (")" :: texts) = ")" :: spaceAfter ")" texts := by
  rw [spaceAfter]
  simp [spaceBetween]

/-! ## Reading spaced texts -/

theorem spaceAfter_chain {last : String} {texts : List String}
    (hclosed : ∀ text ∈ last :: texts, Closed text.toList)
    (hfollows : (last :: texts).IsChain Follows) :
    ((last :: spaceAfter last texts).map String.toList).IsChain LooselyApart := by
  induction texts generalizing last with
  | nil => exact .singleton _
  | cons text texts ih =>
    have hlast := hclosed last List.mem_cons_self
    have hfollow := (List.isChain_cons_cons.mp hfollows).1
    have hrest := ih (fun other hother => hclosed other (List.mem_cons_of_mem _ hother))
      hfollows.tail
    rw [List.map_cons] at hrest
    rw [spaceAfter_cons]
    split
    · rename_i hspace
      have hneeds : Node.needsSpace last text = true := by
        simp only [spaceBetween, Bool.and_eq_true] at hspace
        exact hspace.1
      have hcomment : isLineComment last = false := by
        rw [← Bool.not_eq_true]
        intro hcomment
        simp [Node.needsSpace, isTrivia_of_isLineComment hlast hcomment] at hneeds
      simp only [List.map_cons, List.isChain_cons_cons]
      exact ⟨looselyApart_of_not_isPlain hlast hcomment (by decide), .of_space rfl _, hrest⟩
    · rename_i hspace
      simp only [List.map_cons, List.isChain_cons_cons]
      refine ⟨?_, hrest⟩
      by_cases hclosing : text = ")"
      · subst hclosing
        have hcomment : isLineComment last = false := by
          rw [← Bool.not_eq_true]
          exact fun hcomment => absurd (hfollow.comment hcomment) (by decide)
        exact looselyApart_of_not_isPlain hlast hcomment (by decide)
      · refine looselyApart_of_follows hlast (hclosed text (by simp)) hfollow ?_
        simpa [spaceBetween, hclosing] using hspace

theorem closed_of_mem_spaceAfter (last : String) {texts : List String}
    (hclosed : ∀ text ∈ texts, Closed text.toList) :
    ∀ text ∈ spaceAfter last texts, Closed text.toList := by
  induction texts generalizing last with
  | nil => exact fun _ h => absurd h List.not_mem_nil
  | cons text texts ih =>
    have htext := hclosed text List.mem_cons_self
    have hspace : Closed " ".toList := .space (by decide) (by decide)
    have hrest := ih text fun other hother => hclosed other (List.mem_cons_of_mem _ hother)
    rw [spaceAfter_cons]
    split
    · exact List.forall_mem_cons.mpr ⟨hspace, List.forall_mem_cons.mpr ⟨htext, hrest⟩⟩
    · exact List.forall_mem_cons.mpr ⟨htext, hrest⟩

theorem filter_spaceAfter (last : String) (texts : List String) :
    (spaceAfter last texts).filter (!Atom.isTrivia ·) = texts.filter (!Atom.isTrivia ·) := by
  induction texts generalizing last with
  | nil => rfl
  | cons text texts ih =>
    rw [spaceAfter_cons]
    split <;> simp [List.filter_cons, isTrivia_space, ih]

/-- A spaced text splits into the same tokens other than trivia. -/
theorem tokenize_spaceOut {texts : List String} (hclosed : ∀ text ∈ texts, Closed text.toList)
    (hfollows : texts.IsChain Follows) :
    ∃ texts', tokenize (String.join (spaceOut texts)) = .ok texts' ∧
      texts'.filter (!Atom.isTrivia ·) = texts.filter (!Atom.isTrivia ·) := by
  have hchain : ((spaceOut texts).map String.toList).IsChain LooselyApart := by
    cases texts with
    | nil => exact .nil
    | cons text texts => exact spaceAfter_chain hclosed hfollows
  rw [spaceOut_eq_spaceAfter] at hchain ⊢
  have hspaced := closed_of_mem_spaceAfter "(" hclosed
  obtain ⟨texts', htexts', hsame⟩ := tokenize_join_of_loose hspaced hchain
  refine ⟨texts', htexts', ?_⟩
  -- white space is trivia, so texts that agree but for white space agree but for trivia
  have hne' : ∀ text ∈ spaceAfter "(" texts, text ≠ "" := by
    rintro text htext rfl
    exact (hspaced _ htext).ne_nil rfl
  rw [← filter_isSpaceRun_filter_isTrivia fun text htext => ne_empty_of_mem_tokenize htexts' htext,
    hsame, filter_isSpaceRun_filter_isTrivia hne', filter_spaceAfter]

/-! ## Written nodes -/

namespace Node

/-- A node that can be written, and that holds no module. -/
inductive Writable : Node → Prop
  | atom (kind : AtomKind) (text : String) (before after : List Node) :
    Writable (atom kind text before after)
  | list {children before after : List Node} : isModule children = false →
    (∀ child ∈ children, Writable child) → Writable (list children before after)

/-- The texts of the tokens of a node. -/
def texts (node : Node) : List String :=
  node.listing.map Token.text

theorem pieces_atom (kind : AtomKind) (text : String) (before after : List Node) :
    (atom kind text before after).pieces = (do
      let front ← (before.map pieces).mapM id
      let back ← (after.map pieces).mapM id
      return front.flatten ++ text :: back.flatten) := by
  rw [pieces, piecesEach_eq, piecesEach_eq]

theorem pieces_list (children before after : List Node) :
    (list children before after).pieces = (do
      let front ← (before.map pieces).mapM id
      let middle ← listPieces children (children.map pieces)
      let back ← (after.map pieces).mapM id
      return front.flatten ++ middle ++ back.flatten) := by
  rw [pieces, piecesEach_eq, piecesEach_eq, piecesEach_eq]

theorem mapM_id_map {α β ε : Type} {items : List α} {f : α → Except ε β} {g : α → β}
    (h : ∀ item ∈ items, f item = .ok (g item)) : (items.map f).mapM id = .ok (items.map g) := by
  induction items with
  | nil => rfl
  | cons item items ih =>
    rw [List.map_cons, List.mapM_cons, id, h item List.mem_cons_self,
      ih fun other hother => h other (List.mem_cons_of_mem _ hother)]
    rfl

theorem exists_of_except_bind {α β ε : Type} {x : Except ε α} {next : α → Except ε β} {value : β}
    (h : x >>= next = .ok value) : ∃ first, x = .ok first ∧ next first = .ok value := by
  cases x with
  | error error => cases h
  | ok first => exact ⟨first, rfl, h⟩

theorem render_eq_ok {node : Node} {text : String} (h : node.render = .ok text) :
    ∃ written, node.pieces = .ok written ∧ String.join written = text := by
  unfold render at h
  cases hpieces : node.pieces with
  | error error =>
    rw [hpieces] at h
    cases h
  | ok written =>
    rw [hpieces] at h
    cases h
    exact ⟨written, rfl, rfl⟩

theorem mapM_id_eq_ok {α ε : Type} {results : List (Except ε α)} {values : List α}
    (h : results.mapM id = .ok values) : results = values.map .ok := by
  induction results generalizing values with
  | nil =>
    cases h
    rfl
  | cons result results ih =>
    rw [List.mapM_cons] at h
    obtain ⟨value, hvalue, hrest⟩ := exists_of_except_bind h
    obtain ⟨rest, hmapM, heq⟩ := exists_of_except_bind hrest
    cases heq
    rw [ih hmapM, List.map_cons, ← hvalue]
    rfl

theorem zip_map_pieces (children : List Node) :
    children.zip (children.map pieces) = children.map fun child => (child, child.pieces) :=
  List.map_prod_left_eq_zip.symm

theorem pieces_atom_eq_ok {kind : AtomKind} {text : String} {before after : List Node}
    {written : List String} (h : (atom kind text before after).pieces = .ok written) :
    ∃ front back, (before.map pieces).mapM id = .ok front ∧ (after.map pieces).mapM id = .ok back ∧
      written = front.flatten ++ text :: back.flatten := by
  rw [pieces_atom] at h
  obtain ⟨front, hfront, hrest⟩ := exists_of_except_bind h
  obtain ⟨back, hback, heq⟩ := exists_of_except_bind hrest
  cases heq
  exact ⟨front, back, hfront, hback, rfl⟩

theorem pieces_list_eq_ok {children before after : List Node} {written : List String}
    (h : (list children before after).pieces = .ok written) :
    ∃ front middle back, (before.map pieces).mapM id = .ok front ∧
      listPieces children (children.map pieces) = .ok middle ∧
      (after.map pieces).mapM id = .ok back ∧
      written = front.flatten ++ middle ++ back.flatten := by
  rw [pieces_list] at h
  obtain ⟨front, hfront, hrest⟩ := exists_of_except_bind h
  obtain ⟨middle, hmiddle, hlast⟩ := exists_of_except_bind hrest
  obtain ⟨back, hback, heq⟩ := exists_of_except_bind hlast
  cases heq
  exact ⟨front, middle, back, hfront, hmiddle, hback, rfl⟩

/-- Attached trivia is written as it stands. -/
theorem pieces_triviaOnly {nodes : List Node} (h : TriviaOnly nodes) :
    ∃ written, (nodes.map pieces).mapM id = .ok written ∧
      written.flatten = (listingAll nodes).map Token.text ∧
      ∀ text ∈ (listingAll nodes).map Token.text, Atom.isTrivia text = true := by
  have hpieces : ∀ node ∈ nodes, node.pieces = .ok node.texts ∧
      ∀ text ∈ node.texts, Atom.isTrivia text = true := by
    intro node hnode
    obtain ⟨text, rfl, hlexical⟩ := h node hnode
    refine ⟨rfl, fun other hother => ?_⟩
    obtain rfl : other = text := by simpa [texts, Token.text] using hother
    exact hlexical.isTrivia_iff.mp rfl
  have htexts : (nodes.map texts).flatten = (listingAll nodes).map Token.text := by
    rw [listingAll_eq, List.map_flatMap, List.flatMap_def]
    rfl
  refine ⟨nodes.map texts, mapM_id_map fun node hnode => (hpieces node hnode).1, htexts, ?_⟩
  intro text htext
  rw [← htexts] at htext
  obtain ⟨written, hwritten, hmem⟩ := List.mem_flatten.mp htext
  obtain ⟨node, hnode, rfl⟩ := List.mem_map.mp hwritten
  exact (hpieces node hnode).2 text hmem

/-- A node that is written as its texts: it holds no module and no splice, its atoms are lexemes of
their kinds, and what is attached to a child is trivia after it. -/
inductive Spelled : Node → Prop
  | atom {kind : AtomKind} {text : String} : (Token.atom kind text).Lexical →
    Spelled (leaf kind text)
  | list {children before after : List Node} : isModule children = false →
    (∀ child ∈ children, Spelled child) →
    (∀ child ∈ children, child.before = [] ∧ TriviaOnly child.after) →
    Spelled (list children before after)
  /-- The comment in the place of a declaration. -/
  | marker {text : String} {before after : List Node} : (Token.atom .trivia text).Lexical →
    Spelled (atom .trivia text before after)

theorem Legible.spelled {node : Node} (h : node.Legible) (hwritable : node.Writable) :
    node.Spelled := by
  induction h with
  | atom hlexical => exact .atom hlexical
  | list _ hseated _ _ ih =>
    cases hwritable with
    | list hmodule hchildren =>
      refine .list hmodule (fun child hchild => ih child hchild (hchildren child hchild)) ?_
      exact fun child hchild =>
        ⟨(hseated child hchild).before, (hseated child hchild).after.triviaOnly⟩
  | marker hlexical => exact .marker hlexical
  | splice => cases hwritable

/-- The first text of a child. -/
theorem Spelled.texts_eq_cons {node : Node} (h : node.Spelled) (hbefore : node.before = []) :
    ∃ text rest, node.texts = text :: rest ∧ text ≠ ")" := by
  cases h with
  | @atom kind text hlexical => exact ⟨text, [], by simp [texts, Token.text], hlexical.kind.2.2⟩
  | @list children before after =>
    obtain rfl : before = [] := hbefore
    exact ⟨"(", _, by rw [texts, listing]; rfl, by decide⟩
  | @marker text before after hlexical =>
    obtain rfl : before = [] := hbefore
    exact ⟨text, _, by rw [texts, listing]; rfl, hlexical.kind.2.2⟩

/-- The written children of a list, each without the space before it. -/
theorem spaced_eq_spaceAfter (last : String) {children : List Node}
    (h : ∀ child ∈ children, ∃ text rest, child.texts = text :: rest ∧ text ≠ ")") :
    spaced last (children.map fun child => spaceOut child.texts) =
      spaceAfter last ((listingAll children).map Token.text) := by
  induction children generalizing last with
  | nil => rfl
  | cons child children ih =>
    obtain ⟨text, rest, htexts, hne⟩ := h child List.mem_cons_self
    have hih := fun last => ih last fun other hother => h other (List.mem_cons_of_mem _ hother)
    have hlast : (text :: spaceAfter text rest).getLast (List.cons_ne_nil _ _) =
        rest.getLast?.getD text := by
      have hspaced := getLast?_spaceOut (text :: rest)
      rw [spaceOut, List.getLast?_eq_some_getLast (List.cons_ne_nil _ _),
        List.getLast?_cons] at hspaced
      exact Option.some.inj hspaced
    have hbetween : spaceBetween last text = needsSpace last text := by
      simp [spaceBetween, hne]
    have hright : (listingAll (child :: children)).map Token.text =
        text :: (rest ++ (listingAll children).map Token.text) := by
      rw [listingAll_cons, List.map_append, ← texts, htexts, List.cons_append]
    rw [hright, spaceAfter_cons, hbetween, spaceAfter_append, List.map_cons, htexts, spaceOut,
      spaced, hih, hlast]
    rfl

/-- What a node is written as. -/
theorem Spelled.pieces_eq {node : Node} (h : node.Spelled) (hbefore : TriviaOnly node.before)
    (hafter : TriviaOnly node.after) : node.pieces = .ok (spaceOut node.texts) := by
  induction h with
  | atom hlexical => rfl
  | @list children before after hmodule hspelled hseated ih =>
    change TriviaOnly before at hbefore
    change TriviaOnly after at hafter
    obtain ⟨front, hfront, hfrontTexts, hfrontTrivia⟩ := pieces_triviaOnly hbefore
    obtain ⟨back, hback, hbackTexts, hbackTrivia⟩ := pieces_triviaOnly hafter
    have hrow : (children.map pieces).mapM id =
        .ok (children.map fun child => spaceOut child.texts) := by
      refine mapM_id_map fun child hchild => ?_
      obtain ⟨hchildBefore, hchildAfter⟩ := hseated child hchild
      exact ih child hchild (hchildBefore ▸ layout_nil.triviaOnly) hchildAfter
    have hspaced := spaced_eq_spaceAfter "(" fun child hchild =>
      (hspelled child hchild).texts_eq_cons (hseated child hchild).1
    have hmiddle : listPieces children (children.map pieces) =
        .ok ("(" :: spaceAfter "(" ((listingAll children).map Token.text) ++ [")"]) := by
      rw [listPieces, hmodule, hrow, ← hspaced]
      rfl
    rw [pieces_list, hfront, hmiddle, hback, texts, listing, List.map_append,
      spaceOut_append_of_isTrivia hfrontTrivia, ← hfrontTexts, List.map_cons, spaceOut,
      List.map_append, spaceAfter_append, List.map_cons]
    change _ = Except.ok (_ ++ "(" :: (_ ++ spaceAfter _ (")" :: _)))
    rw [spaceAfter_closing, spaceAfter_of_isTrivia _ hbackTrivia, ← hbackTexts]
    change Except.ok _ = _
    simp [Token.text]
  | @marker text before after hlexical =>
    change TriviaOnly before at hbefore
    change TriviaOnly after at hafter
    obtain ⟨front, hfront, hfrontTexts, hfrontTrivia⟩ := pieces_triviaOnly hbefore
    obtain ⟨back, hback, hbackTexts, hbackTrivia⟩ := pieces_triviaOnly hafter
    rw [pieces_atom, hfront, hback, texts, listing, List.map_append,
      spaceOut_append_of_isTrivia hfrontTrivia, ← hfrontTexts, List.map_cons, spaceOut,
      spaceAfter_of_isTrivia _ hbackTrivia, ← hbackTexts]
    rfl

end Node

end WatMacro
