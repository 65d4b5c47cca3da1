import WatMacro.Proofs.Lexeme.Trivia
import WatMacro.Proofs.Node.Outline

/-!
# Legible trees

A tree is legible if its text can be read back: atoms are lexemes of their kind, what is attached to
a child stands after it and is layout, and the line of every line comment ends.

Results:

* `Node.FormAsRead.legible`: a form that is read is legible, if no line comment of its source stands
  right after an opening parenthesis.
-/

namespace WatMacro

open Lexeme

theorem Token.ofText_eq_atom {kind : AtomKind} {text : String}
    (h : Token.ofText text = .atom kind text) :
    kind = Atom.kindOf text ∧ text ≠ "(" ∧ text ≠ ")" := by
  rw [Token.ofText] at h
  by_cases hopening : text = "("
  · rw [if_pos hopening] at h
    cases h
  · by_cases hclosing : text = ")"
    · rw [if_neg hopening, if_pos hclosing] at h
      cases h
    · rw [if_neg hopening, if_neg hclosing] at h
      exact ⟨(Token.atom.inj h).1.symm, hopening, hclosing⟩

/-- The token of a text, by cases. -/
theorem Token.ofText_cases (text : String) :
    text = "(" ∧ Token.ofText text = .opening ∨ text = ")" ∧ Token.ofText text = .closing ∨
      Atom.isTrivia text = true ∧ Token.ofText text = .atom .trivia text ∨
      (text ≠ "(" ∧ text ≠ ")" ∧ Atom.isTrivia text = false ∧
        ∃ kind, kind ≠ .trivia ∧ Token.ofText text = .atom kind text) := by
  rw [Token.ofText]
  by_cases hopening : text = "("
  · exact .inl ⟨hopening, if_pos hopening⟩
  by_cases hclosing : text = ")"
  · exact .inr (.inl ⟨hclosing, by rw [if_neg hopening, if_pos hclosing]⟩)
  rw [if_neg hopening, if_neg hclosing]
  cases htrivia : Atom.isTrivia text with
  | true => exact .inr (.inr (.inl ⟨rfl, by rw [Atom.kindOf_eq_trivia_iff.mpr htrivia]⟩))
  | false =>
    refine .inr (.inr (.inr ⟨hopening, hclosing, rfl, Atom.kindOf text, fun hkind => ?_, rfl⟩))
    rw [Atom.kindOf_eq_trivia_iff.mp hkind] at htrivia
    cases htrivia

theorem Token.Lexical.kind {kind : AtomKind} {text : String}
    (h : (Token.atom kind text).Lexical) : kind = Atom.kindOf text ∧ text ≠ "(" ∧ text ≠ ")" :=
  Token.ofText_eq_atom h.ofText

theorem Token.Lexical.isTrivia_iff {kind : AtomKind} {text : String}
    (h : (Token.atom kind text).Lexical) : kind = .trivia ↔ Atom.isTrivia text = true := by
  rw [h.kind.1]
  exact Atom.kindOf_eq_trivia_iff

theorem Token.lexical_opening : Token.opening.Lexical :=
  ⟨.mark rfl, rfl⟩

theorem Token.lexical_closing : Token.closing.Lexical :=
  ⟨.mark rfl, rfl⟩

theorem isTriviaChars_of_isSpaceRun {cs : List Char} (hne : cs ≠ []) (h : isSpaceRun cs = true) :
    Atom.isTriviaChars cs = true := by
  unfold Atom.isTriviaChars
  split
  · cases h
  · rfl
  · rw [isSpaceRun] at h
    rw [h, Bool.and_true, Bool.not_eq_true', List.isEmpty_eq_false_iff]
    exact hne

/-- White space is trivia, so leaving it out first makes no difference to leaving out trivia. -/
theorem filter_isSpaceRun_filter_isTrivia {texts : List String} (hne : ∀ text ∈ texts, text ≠ "") :
    (texts.filter fun text => !isSpaceRun text.toList).filter (!Atom.isTrivia ·) =
      texts.filter (!Atom.isTrivia ·) := by
  rw [List.filter_filter]
  refine List.filter_congr fun text htext => ?_
  cases hspace : isSpaceRun text.toList with
  | false => simp
  | true =>
    have htrivia : Atom.isTrivia text = true :=
      isTriviaChars_of_isSpaceRun (by simpa using hne text htext) hspace
    simp [htrivia]

/-- A closed lexeme that begins with white space is trivia. -/
theorem isTrivia_of_isSpace {text : String} {c : Char} (h : Closed text.toList)
    (hhead : text.toList.head? = some c) (hspace : Text.isSpace c = true) :
    Atom.isTrivia text = true := by
  rw [Atom.isTrivia]
  generalize text.toList = cs at h hhead
  have hne : ∀ {d : Char}, Text.isSpace d = false → d ≠ c := by
    rintro d hd rfl
    rw [hspace] at hd
    cases hd
  cases h with
  | space hne hall => exact isTriviaChars_of_isSpaceRun hne (List.all_eq_true.mpr hall)
  | blockComment hinside => exact absurd (Option.some.inj hhead) (hne rfl)
  | mark hmark => exact absurd (Option.some.inj hhead) (hne (not_isSpace_of_isMark hmark))
  | literal hquote hcloses =>
    exact absurd (Option.some.inj hhead) (hne (not_isSpace_of_isQuote hquote))
  | lineComment hline => exact absurd (Option.some.inj hhead) (hne rfl)
  | plain hmark hplain =>
    exact absurd (Option.some.inj hhead) (hne (isPlain_iff.mp (hplain _ List.mem_cons_self)).1)

namespace Node

/-! ## Legible trees -/

def isLineComment : Node → Bool
  | atom .trivia text _ _ => WatMacro.isLineComment text
  | _ => false

/-- White space that begins with a newline. -/
def opensLine : Node → Bool
  | atom .trivia text _ _ => text.toList.head? = some '\n'
  | _ => false

/-- A list or a block comment. -/
def isBracketed : Node → Bool
  | atom _ text _ _ => text.toList.head? = some '('
  | list .. => true
  | splice .. => false

/-- After every line comment comes white space that begins with a newline. -/
def CommentsEnd : List Node → Prop
  | [] => True
  | node :: nodes =>
    (node.isLineComment = true → ∃ next ∈ nodes.head?, next.opensLine = true) ∧ CommentsEnd nodes

/-- Trivia nodes whose texts are lexemes. -/
def TriviaOnly (nodes : List Node) : Prop :=
  ∀ node ∈ nodes, ∃ text, node = trivia text ∧ (Token.atom .trivia text).Lexical

/-- Attachments that may stand before anything. -/
structure Layout (nodes : List Node) : Prop where
  triviaOnly : TriviaOnly nodes
  commentsEnd : CommentsEnd nodes

/-- Attachments as a child has them: layout after the child, and nothing before it. -/
structure Seated (node : Node) : Prop where
  before : node.before = []
  after : Layout node.after

/-- A node whose text can be read back. Its own attachments are left aside. -/
inductive Legible : Node → Prop
  | atom {kind : AtomKind} {text : String} : (Token.atom kind text).Lexical →
    Legible (leaf kind text)
  | list {children before after : List Node} : (∀ child ∈ children, Legible child) →
    (∀ child ∈ children, Seated child) → CommentsEnd children →
    (∀ first ∈ children.head?, first.isLineComment = false) →
    Legible (list children before after)
  /-- The comment in the place of a declaration has what was attached to the declaration. -/
  | marker {text : String} {before after : List Node} : (Token.atom .trivia text).Lexical →
    WatMacro.isLineComment text = false → Legible (atom .trivia text before after)
  /-- A splice is not written at all. -/
  | splice {items : List Node} : Legible (splice items [] [])

/-- The last children of a legible list. -/
structure LegibleTail (children : List Node) : Prop where
  legible : ∀ child ∈ children, Legible child
  seated : ∀ child ∈ children, Seated child
  commentsEnd : CommentsEnd children

/-- All children of a legible list. -/
structure LegibleRow (children : List Node) : Prop extends LegibleTail children where
  opening : ∀ first ∈ children.head?, first.isLineComment = false

/-- A form whose text can be read back, its attachments included. -/
structure LegibleForm (form : Node) : Prop where
  legible : form.Legible
  before : Layout form.before
  triviaAfter : TriviaOnly form.after
  follows : ((listingAll form.after).map Token.text).IsChain Follows

theorem layout_nil : Layout [] :=
  ⟨fun _ h => absurd h List.not_mem_nil, trivial⟩

theorem Seated.triviaBefore {node : Node} (h : Seated node) : TriviaOnly node.before := by
  rw [h.before]
  exact layout_nil.triviaOnly

theorem seated_leaf (kind : AtomKind) (text : String) : Seated (leaf kind text) :=
  ⟨rfl, layout_nil⟩

theorem seated_form (children : List Node) : Seated (form children) :=
  ⟨rfl, layout_nil⟩

theorem LegibleRow.list {children : List Node} (h : LegibleRow children)
    (before after : List Node) : Legible (list children before after) :=
  .list h.legible h.seated h.commentsEnd h.opening

theorem Legible.row {children before after : List Node}
    (h : Legible (.list children before after)) : LegibleRow children := by
  cases h with
  | list hlegible hseated hends hopening => exact ⟨⟨hlegible, hseated, hends⟩, hopening⟩

theorem isWord_leaf {kind : AtomKind} (h : kind ≠ .trivia) (text : String) :
    (leaf kind text).isWord = true := by
  cases kind with
  | trivia => exact absurd rfl h
  | _ => rfl

theorem isLineComment_of_isWord {node : Node} (h : node.isWord = true) :
    node.isLineComment = false := by
  unfold isLineComment
  split
  · cases h
  · rfl

theorem opensLine_of_isWord {node : Node} (h : node.isWord = true) : node.opensLine = false := by
  unfold opensLine
  split
  · cases h
  · rfl

theorem commentsEnd_append {items nodes : List Node}
    (hitems : ∀ node ∈ items, node.isLineComment = false) (h : CommentsEnd nodes) :
    CommentsEnd (items ++ nodes) := by
  induction items with
  | nil => exact h
  | cons node items ih =>
    refine ⟨fun hcomment => ?_, ih fun other hother => hitems other (List.mem_cons_of_mem _ hother)⟩
    rw [hitems node List.mem_cons_self] at hcomment
    cases hcomment

theorem LegibleTail.of_cons {node : Node} {nodes : List Node} (h : LegibleTail (node :: nodes)) :
    LegibleTail nodes :=
  ⟨fun other hother => h.legible other (List.mem_cons_of_mem _ hother),
    fun other hother => h.seated other (List.mem_cons_of_mem _ hother), h.commentsEnd.2⟩

theorem LegibleTail.of_suffix {nodes suffix : List Node} (h : LegibleTail nodes)
    (hsuffix : suffix <:+ nodes) : LegibleTail suffix := by
  obtain ⟨front, rfl⟩ := hsuffix
  induction front with
  | nil => exact h
  | cons node front ih => exact ih h.of_cons

/-- Nodes other than line comments in front of a tail. -/
theorem LegibleTail.append {items nodes : List Node} (h : LegibleTail nodes)
    (hitems : ∀ node ∈ items, node.Legible ∧ node.Seated ∧ node.isLineComment = false) :
    LegibleTail (items ++ nodes) where
  legible node hnode :=
    (List.mem_append.mp hnode).elim (fun hitem => (hitems node hitem).1) (h.legible node)
  seated node hnode :=
    (List.mem_append.mp hnode).elim (fun hitem => (hitems node hitem).2.1) (h.seated node)
  commentsEnd := commentsEnd_append (fun node hnode => (hitems node hnode).2.2) h.commentsEnd

theorem legibleTail_nil : LegibleTail [] :=
  ⟨fun _ h => absurd h List.not_mem_nil, fun _ h => absurd h List.not_mem_nil, trivial⟩

theorem LegibleTail.cons {node : Node} {nodes : List Node} (h : LegibleTail nodes)
    (hlegible : node.Legible) (hseated : node.Seated) (hcomment : node.isLineComment = false) :
    LegibleTail (node :: nodes) where
  legible other hother := by
    rcases List.mem_cons.mp hother with rfl | hother
    · exact hlegible
    · exact h.legible other hother
  seated other hother := by
    rcases List.mem_cons.mp hother with rfl | hother
    · exact hseated
    · exact h.seated other hother
  commentsEnd := by
    refine ⟨fun hyes => ?_, h.commentsEnd⟩
    rw [hcomment] at hyes
    cases hyes

/-- A row that does not begin with a line comment. -/
theorem LegibleTail.row {node : Node} {nodes : List Node} (h : LegibleTail (node :: nodes))
    (hcomment : node.isLineComment = false) : LegibleRow (node :: nodes) := by
  refine ⟨h, ?_⟩
  rintro _ ⟨⟩
  exact hcomment

/-- A row without line comments. -/
theorem legibleRow_of_items {items : List Node}
    (h : ∀ node ∈ items, node.Legible ∧ node.Seated ∧ node.isLineComment = false) :
    LegibleRow items := by
  have htail := legibleTail_nil.append h
  rw [List.append_nil] at htail
  exact ⟨htail, fun first hfirst => (h first (List.mem_of_mem_head? hfirst)).2.2⟩

/-! ## Forms that are read -/

theorem opensLine_of_lexical {kind : AtomKind} {text : String}
    (h : (Token.atom kind text).Lexical) (hhead : text.toList.head? = some '\n') :
    (leaf kind text).opensLine = true := by
  obtain rfl := h.isTrivia_iff.mpr (isTrivia_of_isSpace h.closed hhead (by decide))
  simp [leaf, opensLine, hhead]

theorem LayoutAsRead.triviaOnly {nodes : List Node} (h : LayoutAsRead nodes)
    (hlexical : ∀ token ∈ listingAll nodes, token.Lexical) : TriviaOnly nodes := by
  intro node hnode
  obtain ⟨text, rfl⟩ := h node hnode
  exact ⟨text, rfl, hlexical _ ((listing_part hnode).subset (by simp))⟩

/-- The first token of a child as it is read. -/
theorem AsRead.listing_eq_cons {node : Node} (h : node.AsRead)
    (hlexical : ∀ token ∈ node.listing, token.Lexical) :
    ∃ token rest, node.listing = token :: rest ∧
      (token.text.toList.head? = some '\n' → node.opensLine = true) ∧
      (WatMacro.isLineComment token.text = false → node.isLineComment = false) := by
  cases h with
  | atom kind text =>
    rw [listing_leaf] at hlexical ⊢
    refine ⟨_, [], rfl, opensLine_of_lexical (hlexical _ List.mem_cons_self), fun hno => ?_⟩
    cases kind with
    | trivia => exact hno
    | _ => rfl
  | list hchildren hchain hafter =>
    exact ⟨.opening, _, by rw [listing]; rfl, fun hhead => absurd hhead (by decide), fun _ => rfl⟩

/-- Trivia that something other than a newline follows is layout. -/
theorem layout_of_follows {nodes : List Node} (next : String) (h : LayoutAsRead nodes)
    (hlexical : ∀ token ∈ listingAll nodes, token.Lexical)
    (hfollows : ((listingAll nodes).map Token.text ++ [next]).IsChain Follows)
    (hnext : next.toList.head? ≠ some '\n') : Layout nodes := by
  induction nodes with
  | nil => exact layout_nil
  | cons node nodes ih =>
    obtain ⟨text, rfl⟩ := h node List.mem_cons_self
    simp only [listingAll_cons, listing_trivia, List.mem_append, List.mem_singleton] at hlexical
    simp only [listingAll_cons, listing_trivia, List.map_cons, List.cons_append,
      List.nil_append] at hfollows
    have hrest := ih (fun other hother => h other (List.mem_cons_of_mem _ hother))
      (fun token htoken => hlexical token (.inr htoken)) hfollows.tail
    refine ⟨fun other hother => ?_, fun hcomment => ?_, hrest.commentsEnd⟩
    · rcases List.mem_cons.mp hother with rfl | hother
      · exact ⟨text, rfl, hlexical _ (.inl rfl)⟩
      · exact hrest.triviaOnly other hother
    · cases nodes with
      | nil => exact absurd ((List.isChain_cons_cons.mp hfollows).1.comment hcomment) hnext
      | cons other nodes =>
        obtain ⟨text', rfl, hlexical'⟩ := hrest.triviaOnly other List.mem_cons_self
        rw [listingAll_cons, listing_trivia] at hfollows
        have hhead := (List.isChain_cons_cons.mp hfollows).1.comment hcomment
        exact ⟨_, rfl, opensLine_of_lexical hlexical' hhead⟩

/-- What follows a child among the children and the parenthesis that closes them. -/
theorem head?_listingAll_closing {children : List Node} (hread : ∀ child ∈ children, AsRead child)
    (hlexical : ∀ token ∈ listingAll children, token.Lexical) :
    ∃ token rest, listingAll children ++ [.closing] = token :: rest ∧
      (token.text.toList.head? = some '\n' →
        ∃ next ∈ children.head?, next.opensLine = true) := by
  cases children with
  | nil => exact ⟨.closing, [], rfl, fun hhead => absurd hhead (by decide)⟩
  | cons child children =>
    obtain ⟨token, rest, hlisting, hopens, -⟩ :=
      (hread child List.mem_cons_self).listing_eq_cons fun token htoken =>
        hlexical token (by rw [listingAll_cons]; exact List.mem_append_left _ htoken)
    refine ⟨token, rest ++ listingAll children ++ [.closing], ?_, fun hhead => ?_⟩
    · rw [listingAll_cons, hlisting]
      simp
    · exact ⟨child, rfl, hopens hhead⟩

theorem seated_commentsEnd {children : List Node} (hread : RowAsRead children)
    (hlexical : ∀ token ∈ listingAll children, token.Lexical)
    (hfollows : ((listingAll children ++ [Token.closing]).map Token.text).IsChain Follows) :
    (∀ child ∈ children, Seated child) ∧ CommentsEnd children := by
  induction children with
  | nil => exact ⟨fun _ h => absurd h List.not_mem_nil, trivial⟩
  | cons child children ih =>
    simp only [listingAll_cons, List.mem_append] at hlexical
    rw [listingAll_cons, List.append_assoc] at hfollows
    have hread' : RowAsRead children :=
      ⟨fun other hother => hread.asRead other (List.mem_cons_of_mem _ hother), hread.chain.tail⟩
    have hlexical' : ∀ token ∈ listingAll children, token.Lexical :=
      fun token htoken => hlexical token (.inr htoken)
    have hsuffix : ((listingAll children ++ [Token.closing]).map Token.text).IsChain Follows := by
      rw [List.map_append, List.isChain_append] at hfollows
      exact hfollows.2.1
    obtain ⟨hseated, hends⟩ := ih hread' hlexical' hsuffix
    obtain ⟨next, rest, hnext, hopens⟩ := head?_listingAll_closing hread'.asRead hlexical'
    rw [hnext] at hfollows
    suffices hchild : Seated child ∧
        (child.isLineComment = true → ∃ next ∈ children.head?, next.opensLine = true) by
      refine ⟨fun other hother => ?_, hchild.2, hends⟩
      rcases List.mem_cons.mp hother with rfl | hother
      · exact hchild.1
      · exact hseated other hother
    cases hread.asRead child List.mem_cons_self with
    | atom kind text =>
      refine ⟨seated_leaf kind text, fun hcomment => hopens ?_⟩
      rw [listing_leaf] at hfollows
      refine (List.isChain_cons_cons.mp hfollows).1.comment ?_
      cases kind with
      | trivia => exact hcomment
      | _ => cases hcomment
    | @list inner after hinner hadjacent hafter =>
      refine ⟨⟨rfl, layout_of_follows next.text hafter (fun token htoken => ?_) ?_ ?_⟩,
        fun hcomment => by cases hcomment⟩
      · refine hlexical token (.inl ?_)
        rw [listing]
        simp only [Node.after] at htoken
        simp [htoken]
      · refine hfollows.infix ⟨(Token.opening :: listingAll inner ++ [Token.closing]).map
          Token.text, rest.map Token.text, ?_⟩
        simp [listing, Node.after]
      · intro hhead
        obtain ⟨other, hother, hline⟩ := hopens hhead
        cases children with
        | nil => cases hother
        | cons sibling children =>
          cases hother
          have hword := (List.isChain_cons_cons.mp hread.chain).1 rfl
          unfold opensLine at hline
          split at hline
          · cases hword
          · cases hline

/-- The children of a list that is read make a legible row, if each of them is legible. -/
theorem legibleRow_of_follows {children : List Node} (hread : RowAsRead children)
    (hlegible : ∀ child ∈ children, (∀ token ∈ child.listing, token.Lexical) →
      (child.listing.map Token.text).IsChain Follows → child.Legible)
    (hlexical : ∀ token ∈ listingAll children, token.Lexical)
    (hfollows : ((Token.opening :: listingAll children ++ [Token.closing]).map
      Token.text).IsChain Follows) :
    LegibleRow children := by
  obtain ⟨hseated, hends⟩ := seated_commentsEnd hread hlexical hfollows.tail
  refine ⟨⟨fun child hchild => ?_, hseated, hends⟩, ?_⟩
  · have hpart := listing_part hchild
    refine hlegible child hchild (fun token htoken => hlexical token (hpart.subset htoken)) ?_
    refine hfollows.infix ((hpart.trans ?_).map Token.text)
    exact ⟨[.opening], [.closing], rfl⟩
  · cases children with
    | nil => simp
    | cons child children =>
      rintro _ ⟨⟩
      obtain ⟨token, rest, hlisting, -, hcomment⟩ :=
        (hread.asRead child List.mem_cons_self).listing_eq_cons fun token htoken =>
          hlexical token ((listing_part List.mem_cons_self).subset htoken)
      rw [listingAll_cons, hlisting] at hfollows
      exact hcomment ((List.isChain_cons_cons.mp hfollows).1.opening rfl)

theorem AsRead.legible {node : Node} (h : node.AsRead)
    (hlexical : ∀ token ∈ node.listing, token.Lexical)
    (hfollows : (node.listing.map Token.text).IsChain Follows) : node.Legible := by
  induction h with
  | atom kind text => exact .atom (hlexical _ (by simp))
  | @list children after hchildren hadjacent hafter ih =>
    rw [listing] at hlexical hfollows
    have hrow : RowAsRead children := ⟨hchildren, hadjacent⟩
    refine (legibleRow_of_follows hrow ih (fun token htoken => ?_) ?_).list [] after
    · exact hlexical token (by simp [htoken])
    · exact hfollows.infix ⟨[], (listingAll after).map Token.text, by simp⟩

/-- What is attached to a form stands in its source as trivia. -/
theorem LayoutAsRead.isTrivia_of_mem {nodes : List Node} (h : LayoutAsRead nodes) {text : String}
    (hmem : Token.ofText text ∈ listingAll nodes) : Atom.isTrivia text = true := by
  rw [listingAll_eq] at hmem
  obtain ⟨node, hnode, htoken⟩ := List.mem_flatMap.mp hmem
  obtain ⟨other, rfl⟩ := h node hnode
  rw [listing_trivia, List.mem_singleton] at htoken
  obtain rfl : text = other := by
    rw [← Token.text_ofText text, htoken]
    rfl
  exact Atom.kindOf_eq_trivia_iff.mp (Token.ofText_eq_atom htoken).1.symm

/-- A source ends with the parenthesis that closes its form, or with trivia. -/
theorem FormAsRead.getLast?_texts {form : Node} {texts : List String} (h : form.FormAsRead)
    (hlisting : form.listing = texts.map Token.ofText) :
    ∀ last ∈ texts.getLast?, last = ")" ∨ Atom.isTrivia last = true := by
  cases h with
  | @list children before after hchildren hbefore hafter =>
    intro last hlast
    have hlast' : Token.ofText last ∈ (Node.list children before after).listing.getLast? := by
      rw [hlisting, List.getLast?_map, Option.mem_def.mp hlast]
      rfl
    have hmem : Token.ofText last ∈ Token.closing :: listingAll after := by
      rw [listing, ← List.cons_append, ← List.append_assoc, List.getLast?_append_of_ne_nil _
        (List.cons_ne_nil _ _)] at hlast'
      exact List.mem_of_getLast? hlast'
    rcases List.mem_cons.mp hmem with hclosing | hmem
    · left
      rw [← Token.text_ofText last, hclosing]
      rfl
    · exact .inr (hafter.isTrivia_of_mem hmem)

/-- A form that is read is legible, if no line comment of its source stands right after an opening
parenthesis. -/
theorem read_legible {source : String} {form : Node} (h : Node.read source = .ok form)
    (hopening : ∀ texts, tokenize source = .ok texts →
      texts.IsChain fun left right => left = "(" → WatMacro.isLineComment right = false) :
    LegibleForm form := by
  obtain ⟨texts, htexts, hlisting⟩ := read_listing h
  have hform := read_asRead h
  have hlast := hform.getLast?_texts hlisting
  have hlexical := tokenize_lexical htexts hlast
  have hfollows := tokenize_follows htexts hlast (hopening texts htexts)
  have htext : form.listing.map Token.text = texts := by
    rw [hlisting, List.map_map]
    simp [Function.comp_def]
  rw [← hlisting] at hlexical
  rw [← htext] at hfollows
  cases hform with
  | @list children before after hchildren hbefore hafter =>
    rw [listing] at hlexical hfollows
    refine ⟨?_, ?_, ?_, ?_⟩
    · refine (legibleRow_of_follows hchildren
        (fun child hchild => (hchildren.asRead child hchild).legible)
        (fun token htoken => hlexical token (by simp [htoken])) ?_).list before after
      exact hfollows.infix ⟨(listingAll before).map Token.text, (listingAll after).map Token.text,
        by simp⟩
    · refine layout_of_follows "(" hbefore (fun token htoken => hlexical token ?_) ?_
        (by decide)
      · exact List.mem_append_left _ htoken
      · exact hfollows.infix ⟨[], (listingAll children ++ .closing :: listingAll after).map
          Token.text, by simp [Node.before, Token.text]⟩
    · exact hafter.triviaOnly fun token htoken => hlexical token (by simp [htoken])
    · exact hfollows.infix ⟨(listingAll before ++ Token.opening :: listingAll children ++
        [Token.closing]).map Token.text, [], by simp [Node.after]⟩

end Node

end WatMacro
