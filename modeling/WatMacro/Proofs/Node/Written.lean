import WatMacro.Proofs.Lexeme.Row
import WatMacro.Proofs.Node.Spacing

/-!
# What a legible tree is written as

Whatever modules it holds, a legible tree is written as closed lexemes, and no text that is written
after it changes them, unless a line comment is attached to its end.

Results:

* `Node.Legible.writtenAs`: what a legible child is written as.
* `Node.LegibleForm.passage`: what a legible form is written as, and how its text begins and ends.
-/

namespace WatMacro.Node

open Lexeme

/-! ## Modules right after a parenthesis -/

/-- Whether a node is written as a module. -/
def isModuleList : Node → Bool
  | list children _ _ => isModule children
  | _ => false

mutual

/-- Whether a list of the tree that is no module has a module as its first child. The header of the
module would stand right after the parenthesis. -/
def holdsLeadingModule : Node → Bool
  | atom .. => false
  | list children _ _ =>
    (!isModule children && children.head?.any isModuleList) || holdsLeadingModuleAny children
  | splice items _ _ => holdsLeadingModuleAny items

/-- Whether one of several nodes holds such a list. -/
def holdsLeadingModuleAny : List Node → Bool
  | [] => false
  | node :: nodes => holdsLeadingModule node || holdsLeadingModuleAny nodes

end

theorem not_holdsLeadingModule_of_mem {nodes : List Node}
    (h : holdsLeadingModuleAny nodes = false) :
    ∀ node ∈ nodes, node.holdsLeadingModule = false := by
  induction nodes with
  | nil => exact fun _ h => absurd h List.not_mem_nil
  | cons node nodes ih =>
    rw [holdsLeadingModuleAny, Bool.or_eq_false_iff] at h
    exact List.forall_mem_cons.mpr ⟨h.1, ih h.2⟩

theorem not_isModuleList_of_head? {children before after : List Node}
    (h : (list children before after).holdsLeadingModule = false)
    (hmodule : isModule children = false) :
    ∀ first ∈ children.head?, first.isModuleList = false := by
  intro first hfirst
  rw [holdsLeadingModule, hmodule, Option.mem_def.mp hfirst] at h
  simp_all

theorem not_holdsLeadingModule_child {children before after : List Node}
    (h : (list children before after).holdsLeadingModule = false) :
    ∀ child ∈ children, child.holdsLeadingModule = false := by
  rw [holdsLeadingModule, Bool.or_eq_false_iff] at h
  exact not_holdsLeadingModule_of_mem h.2

/-! ## Written children -/

/-- The characters of written pieces. -/
def chars (written : List String) : List Char :=
  written.flatMap String.toList

@[simp] theorem chars_nil : chars [] = [] := rfl

@[simp] theorem chars_cons (text : String) (written : List String) :
    chars (text :: written) = text.toList ++ chars written := rfl

@[simp] theorem chars_append (front back : List String) :
    chars (front ++ back) = chars front ++ chars back :=
  List.flatMap_append

/-- What is known of the pieces that a child is written as. -/
structure WrittenAs (node : Node) (written : List String) : Prop where
  nonempty : written ≠ []
  contained : node.isLineComment = false → SelfContained (chars written)
  comment : node.isLineComment = true → ∃ text inside, written = [text] ∧ Closed text.toList ∧
    text.toList = ';' :: ';' :: inside
  opensLine : node.opensLine = true → ∃ text more, written = text :: more ∧
    Atom.isTrivia text = true ∧ text.toList.head? = some '\n'
  begins : node.isLineComment = false → node.isModuleList = false →
    ∀ text ∈ written.head?, text.toList ≠ [] ∧ text.toList.head? ≠ some ';'

/-- A written child in front of other text. -/
theorem WrittenAs.append {node : Node} {written : List String} (h : WrittenAs node written)
    {rest : List Char} (hrest : SelfContained rest)
    (hends : node.isLineComment = true → rest.head? = some '\n') :
    SelfContained (chars written ++ rest) := by
  cases hcomment : node.isLineComment with
  | false => exact (h.contained hcomment).append hrest
  | true =>
    obtain ⟨text, inside, rfl, hclosed, htext⟩ := h.comment hcomment
    rw [chars_cons, chars_nil, List.append_nil, htext]
    rw [htext] at hclosed
    exact hrest.comment hclosed (hends hcomment)

theorem WrittenAs.head?_of_opensLine {node : Node} {written : List String}
    (h : WrittenAs node written) (hopens : node.opensLine = true) (rest : List Char) :
    (chars written ++ rest).head? = some '\n' := by
  obtain ⟨text, more, rfl, -, hhead⟩ := h.opensLine hopens
  rw [chars_cons, List.append_assoc, List.head?_append, hhead]
  rfl

/-- Written children one right after the other. -/
theorem selfContained_row {children : List Node} {row : List (List String)}
    (h : List.Forall₂ WrittenAs children row) (hends : CommentsEnd children) :
    SelfContained (chars row.flatten) := by
  induction h with
  | nil => exact selfContained_nil
  | @cons child written children row hchild hrest ih =>
    rw [List.flatten_cons, chars_append]
    refine hchild.append (ih hends.2) fun hcomment => ?_
    obtain ⟨next, hnext, hopens⟩ := hends.1 hcomment
    cases hrest with
    | nil => cases hnext
    | cons hnextWritten _ =>
      cases hnext
      rw [List.flatten_cons, chars_append]
      exact hnextWritten.head?_of_opensLine hopens _

/-- Written children with spaces between them. -/
theorem selfContained_spaced (last : String) {children : List Node} {row : List (List String)}
    (h : List.Forall₂ WrittenAs children row) (hends : CommentsEnd children) :
    SelfContained (chars (spaced last row)) := by
  induction h generalizing last with
  | nil => exact selfContained_nil
  | @cons child written children row hchild hrest ih =>
    obtain ⟨text, more, rfl⟩ := List.exists_cons_of_ne_nil hchild.nonempty
    have hrow : SelfContained (chars (text :: more ++
        spaced ((text :: more).getLast (List.cons_ne_nil _ _)) row)) := by
      rw [chars_append]
      refine hchild.append (ih _ hends.2) fun hcomment => ?_
      obtain ⟨next, hnext, hopens⟩ := hends.1 hcomment
      cases hrest with
      | nil => cases hnext
      | cons hnextWritten _ =>
        cases hnext
        obtain ⟨text', more', rfl, htrivia, hhead⟩ := hnextWritten.opensLine hopens
        have hno : ∀ last, needsSpace last text' = false := by simp [needsSpace, htrivia]
        rw [spaced, hno, if_neg (by decide), List.cons_append, chars_cons, List.head?_append, hhead]
        rfl
    rw [spaced]
    split
    · rw [chars_cons]
      exact hrow.cons (.space (by decide) (by decide)) rfl
    · exact hrow

theorem forall₂_pieces {R : Node → List String → Prop} {nodes : List Node}
    {row : List (List String)} (h : (nodes.map pieces).mapM id = .ok row)
    (hR : ∀ node ∈ nodes, ∀ written, node.pieces = .ok written → R node written) :
    List.Forall₂ R nodes row := by
  have hpieces := mapM_id_eq_ok h
  clear h
  induction nodes generalizing row with
  | nil =>
    cases row with
    | nil => exact .nil
    | cons written row => cases hpieces
  | cons node nodes ih =>
    cases row with
    | nil => cases hpieces
    | cons written row =>
      obtain ⟨hwritten, hrest⟩ := List.cons.inj hpieces
      exact .cons (hR node List.mem_cons_self written hwritten)
        (ih (fun other hother => hR other (List.mem_cons_of_mem _ hother)) hrest)

/-- The children that are written in the body of a module. A line comment keeps the white space
after it. -/
theorem exists_moduleBody {children : List Node} (hends : CommentsEnd children) :
    ∃ kept, moduleBody (children.map fun child => (child, child.pieces)) = kept.map pieces ∧
      (∀ child ∈ kept, child ∈ children) ∧ CommentsEnd kept ∧
      ∀ next ∈ children.head?, next.opensLine = true → next ∈ kept.head? := by
  induction children with
  | nil => exact ⟨[], rfl, fun _ hchild => hchild, trivial, fun _ hnext => by cases hnext⟩
  | cons child children ih =>
    obtain ⟨kept, hkept, hsubset, hkeptEnds, hnext⟩ := ih hends.2
    rw [List.map_cons, moduleBody, hkept]
    split
    · refine ⟨child :: children, ?_, fun _ hchild => hchild, hends, fun _ hfirst _ => hfirst⟩
      simp [Function.comp_def]
    · split
      · rename_i hhead
        refine ⟨kept, rfl, fun other hother => List.mem_cons_of_mem _ (hsubset other hother),
          hkeptEnds, ?_⟩
        rintro _ ⟨⟩ hopens
        unfold opensLine at hopens
        split at hopens
        · cases hhead
        · cases hopens
      · refine ⟨child :: kept, rfl, fun other hother => ?_, ⟨fun hcomment => ?_, hkeptEnds⟩,
          fun _ hfirst _ => hfirst⟩
        · exact List.mem_cons.mpr ((List.mem_cons.mp hother).imp_right (hsubset other))
        obtain ⟨next, hfirst, hopens⟩ := hends.1 hcomment
        exact ⟨next, hnext next hfirst hopens, hopens⟩

theorem head?_of_name {text : String} (h : Atom.kindOf text = .name) :
    text.toList.head? = some '$' := by
  rw [Atom.kindOf, Atom.kindOfChars] at h
  by_contra hne
  rw [if_neg hne] at h
  split_ifs at h

/-- The header of a module is a line comment and the end of its line. -/
theorem moduleHeader_eq {children : List Node} (h : ∀ child ∈ children, child.Legible) :
    ∃ inside, (moduleHeader children).toList = ';' :: ';' :: inside ++ ['\n'] ∧
      Closed (';' :: ';' :: inside) := by
  unfold moduleHeader
  split
  · rename_i word text before after words heq
    have hmem : Node.atom .name text before after ∈ children.filter isWord := by simp [heq]
    have hlexical : (Token.atom .name text).Lexical := by
      cases h _ (List.mem_of_mem_filter hmem) with
      | atom hlexical => exact hlexical
    -- a name is a run of plain characters
    have hname : ∀ d ∈ text.toList, d ≠ '\n' := by
      obtain ⟨cs, hchars⟩ := List.head?_eq_some_iff.mp (head?_of_name hlexical.kind.1.symm)
      have hclosed : Closed ('$' :: cs) := hchars ▸ hlexical.closed
      rw [hchars]
      rintro d hd rfl
      exact absurd (all_isPlain_of_closed hclosed (by decide) '\n' hd) (by decide)
    refine ⟨" module ".toList ++ text.toList, by simp, .lineComment fun d hd => ?_⟩
    rcases List.mem_append.mp hd with hd | hd
    · rintro rfl
      exact absurd hd (by decide)
    · exact hname d hd
  · exact ⟨" module".toList, rfl, .lineComment (by decide)⟩

/-! ## Legible children -/

theorem isEager_toList {text : String} (hopening : text ≠ "(") :
    isEager text.toList = WatMacro.isLineComment text := by
  cases hcomment : WatMacro.isLineComment text with
  | true =>
    obtain ⟨cs, hcs⟩ := isLineComment_eq_true hcomment
    rw [hcs]
    rfl
  | false =>
    unfold isEager
    split
    · rename_i heq
      exact absurd (String.toList_inj.mp heq) hopening
    · rename_i heq
      rw [isLineComment_of_toList heq] at hcomment
      cases hcomment
    · rfl

theorem isLineComment_leaf {kind : AtomKind} {text : String} (h : (Token.atom kind text).Lexical) :
    (leaf kind text).isLineComment = WatMacro.isLineComment text := by
  cases hcomment : WatMacro.isLineComment text with
  | true =>
    obtain rfl := h.isTrivia_iff.mpr (isTrivia_of_isLineComment h.closed hcomment)
    exact hcomment
  | false =>
    cases kind with
    | trivia => exact hcomment
    | _ => rfl

/-- The text of a lexeme other than a line comment begins with no semicolon. -/
theorem begins_of_lexical {kind : AtomKind} {text : String} (h : (Token.atom kind text).Lexical)
    (hcomment : WatMacro.isLineComment text = false) :
    text.toList ≠ [] ∧ text.toList.head? ≠ some ';' := by
  refine ⟨h.closed.ne_nil, fun hhead => ?_⟩
  have hyes : WatMacro.isLineComment text = true := isLineComment_of_closed h.closed hhead
  rw [hyes] at hcomment
  cases hcomment

theorem writtenAs_leaf {kind : AtomKind} {text : String} (h : (Token.atom kind text).Lexical) :
    WrittenAs (leaf kind text) [text] where
  nonempty := List.cons_ne_nil _ _
  contained hcomment := by
    rw [isLineComment_leaf h] at hcomment
    rw [chars_cons, chars_nil, List.append_nil]
    exact .of_closed h.closed ((isEager_toList h.kind.2.1).trans hcomment)
  comment hcomment := by
    rw [isLineComment_leaf h] at hcomment
    obtain ⟨inside, hinside⟩ := isLineComment_eq_true hcomment
    exact ⟨text, inside, rfl, h.closed, hinside⟩
  opensLine hopens := by
    unfold leaf opensLine at hopens
    split at hopens
    · rename_i heq
      cases heq
      exact ⟨text, [], rfl, h.isTrivia_iff.mp rfl, of_decide_eq_true hopens⟩
    · cases hopens
  begins hcomment _ := by
    rw [isLineComment_leaf h] at hcomment
    rintro _ ⟨⟩
    exact begins_of_lexical h hcomment

/-- What is attached to a child. -/
theorem Layout.selfContained {nodes : List Node} (h : Layout nodes) {row : List (List String)}
    (hrow : (nodes.map pieces).mapM id = .ok row) : SelfContained (chars row.flatten) := by
  refine selfContained_row (forall₂_pieces hrow fun node hnode written hwritten => ?_) h.commentsEnd
  obtain ⟨text, rfl, hlexical⟩ := h.triviaOnly node hnode
  cases hwritten
  exact writtenAs_leaf hlexical

/-- What the children of a list are written as. -/
theorem LegibleRow.listPieces {children : List Node} (h : LegibleRow children)
    (hchildren : ∀ child ∈ children, ∀ written, child.pieces = .ok written →
      WrittenAs child written)
    (hleading : isModule children = false → ∀ first ∈ children.head?, first.isModuleList = false)
    {middle : List String}
    (hmiddle : listPieces children (children.map pieces) = .ok middle) :
    SelfContained (chars middle) ∧ ∃ text more, middle = text :: more ∧
      text.toList.head? = some (if isModule children then ';' else '(') := by
  unfold Node.listPieces at hmiddle
  split at hmiddle
  · rename_i hmodule
    obtain ⟨body, hbody, heq⟩ := exists_of_except_bind hmiddle
    cases heq
    obtain ⟨kept, hkept, hsubset, hends, -⟩ := exists_moduleBody h.commentsEnd
    rw [zip_map_pieces, hkept] at hbody
    have hrow : SelfContained (chars body.flatten) :=
      selfContained_row (forall₂_pieces hbody fun child hchild written =>
        hchildren child (hsubset child hchild) written) hends
    obtain ⟨inside, hheader, hclosed⟩ := moduleHeader_eq h.legible
    refine ⟨?_, _, _, rfl, by rw [hheader, if_pos hmodule]; rfl⟩
    rw [chars_cons, hheader, List.append_assoc]
    exact (hrow.cons (.space (by decide) (by decide)) rfl).comment hclosed rfl
  · rename_i hmodule
    obtain ⟨row, hrow, heq⟩ := exists_of_except_bind hmiddle
    cases heq
    have hwritten : List.Forall₂ WrittenAs children row := forall₂_pieces hrow hchildren
    have hspaced := selfContained_spaced "(" hwritten h.commentsEnd
    refine ⟨?_, _, _, rfl, by rw [if_neg hmodule]; rfl⟩
    have hchars : chars ("(" :: spaced "(" row ++ [")"]) =
        '(' :: (chars (spaced "(" row) ++ [')']) := by
      simp
    rw [hchars]
    refine hspaced.parenthesized ?_
    cases hwritten with
    | nil => decide
    | @cons child written children row hchild _ =>
      obtain ⟨text, more, rfl⟩ := List.exists_cons_of_ne_nil hchild.nonempty
      obtain ⟨hne, hhead⟩ := hchild.begins (h.opening child rfl)
        (hleading (by simpa using hmodule) child rfl) text rfl
      obtain ⟨c, cs, hchars⟩ := List.exists_cons_of_ne_nil hne
      have hno : needsSpace "(" text = false := by simp [needsSpace]
      rw [hchars] at hhead
      rw [spaced, hno, if_neg (by decide), List.cons_append, chars_cons, hchars]
      exact hhead

theorem Legible.writtenAs {node : Node} (h : node.Legible) (hseated : node.Seated)
    (hleading : node.holdsLeadingModule = false) {written : List String}
    (hwritten : node.pieces = .ok written) : WrittenAs node written := by
  induction h generalizing written with
  | atom hlexical =>
    cases hwritten
    exact writtenAs_leaf hlexical
  | @list children before after hlegible hseats hends hopening ih =>
    obtain rfl : before = [] := hseated.before
    obtain ⟨front, middle, back, hfront, hmiddle, hback, rfl⟩ := pieces_list_eq_ok hwritten
    obtain rfl : [] = front := Except.ok.inj hfront
    have hrow : LegibleRow children := ⟨⟨hlegible, hseats, hends⟩, hopening⟩
    obtain ⟨hcontained, text, more, rfl, hhead⟩ := hrow.listPieces
      (fun child hchild _ => ih child hchild (hseats child hchild)
        (not_holdsLeadingModule_child hleading child hchild))
      (not_isModuleList_of_head? hleading) hmiddle
    refine ⟨by simp, fun _ => ?_, fun hcomment => (nomatch hcomment),
      fun hline => (nomatch hline), fun _ hmodule => ?_⟩
    · rw [List.flatten_nil, List.nil_append, chars_append]
      exact hcontained.append (hseated.after.selfContained hback)
    · rintro _ ⟨⟩
      rw [show isModule children = false from hmodule] at hhead
      obtain ⟨cs, hchars⟩ := List.head?_eq_some_iff.mp hhead
      rw [hchars]
      exact ⟨List.cons_ne_nil _ _, by simp⟩
  | @marker text before after hlexical hcomment =>
    obtain rfl : before = [] := hseated.before
    obtain ⟨front, back, hfront, hback, rfl⟩ := pieces_atom_eq_ok hwritten
    obtain rfl : [] = front := Except.ok.inj hfront
    rw [List.flatten_nil, List.nil_append]
    refine ⟨by simp, fun _ => ?_, fun hyes => ?_, fun hline => ?_, fun _ _ => ?_⟩
    · rw [chars_cons]
      exact (hseated.after.selfContained hback).cons hlexical.closed
        ((isEager_toList hlexical.kind.2.1).trans hcomment)
    · rw [isLineComment, hcomment] at hyes
      cases hyes
    · exact ⟨text, _, rfl, hlexical.isTrivia_iff.mp rfl, of_decide_eq_true hline⟩
    · rintro _ ⟨⟩
      exact begins_of_lexical hlexical hcomment
  | splice => cases hwritten

/-! ## Legible forms -/

/-- Whether a line comment is attached to the end of a node. -/
def endsInComment (node : Node) : Bool :=
  node.after.getLast?.any isLineComment

/-- Whether a newline is attached to the front of a node. -/
def beginsWithNewline (node : Node) : Bool :=
  node.before.head?.any opensLine

/-- The texts of attached trivia. -/
theorem TriviaOnly.exists_texts {nodes : List Node} (h : TriviaOnly nodes) :
    ∃ texts : List String, nodes = texts.map trivia ∧
      (∀ text ∈ texts, (Token.atom .trivia text).Lexical) ∧
      (listingAll nodes).map Token.text = texts := by
  induction nodes with
  | nil => exact ⟨[], rfl, fun _ h => absurd h List.not_mem_nil, rfl⟩
  | cons node nodes ih =>
    obtain ⟨text, rfl, hlexical⟩ := h node List.mem_cons_self
    obtain ⟨texts, rfl, hall, htexts⟩ := ih fun other hother =>
      h other (List.mem_cons_of_mem _ hother)
    refine ⟨text :: texts, rfl, List.forall_mem_cons.mpr ⟨hlexical, hall⟩, ?_⟩
    rw [listingAll_cons, listing_trivia, List.map_append, htexts]
    rfl

theorem isRow_of_trivia {texts : List String}
    (hlexical : ∀ text ∈ texts, (Token.atom .trivia text).Lexical)
    (hfollows : texts.IsChain Follows) : IsRow (texts.map String.toList) := by
  refine ⟨fun l hl => ?_, ?_⟩
  · obtain ⟨text, htext, rfl⟩ := List.mem_map.mp hl
    exact (hlexical text htext).closed
  · rw [List.isChain_map]
    refine List.IsChain.imp_of_mem_imp (fun left right hleft hright hfollow => ?_) hfollows
    have htrivia : Atom.isTrivia right = true := (hlexical right hright).isTrivia_iff.mp rfl
    exact looselyApart_of_follows (hlexical left hleft).closed (hlexical right hright).closed
      hfollow (by simp [needsSpace, htrivia])

/-- What a node is written as between its attachments. -/
theorem Legible.pieces_middle {node : Node} (h : node.Legible)
    (hleading : node.holdsLeadingModule = false) (hbracketed : node.isBracketed = true)
    {written : List String} (hwritten : node.pieces = .ok written) :
    ∃ front middle back, (node.before.map pieces).mapM id = .ok front ∧
      (node.after.map pieces).mapM id = .ok back ∧
      written = front.flatten ++ middle ++ back.flatten ∧ SelfContained (chars middle) ∧
      ∃ c cs, chars middle = c :: cs ∧ (c = '(' ∨ c = ';') := by
  have hatom : ∀ {kind : AtomKind} {text : String}, (Token.atom kind text).Lexical →
      text.toList.head? = some '(' →
      SelfContained (chars [text]) ∧ ∃ c cs, chars [text] = c :: cs ∧ (c = '(' ∨ c = ';') := by
    intro kind text hlexical hhead
    obtain ⟨cs, hchars⟩ := List.head?_eq_some_iff.mp hhead
    have hcomment : WatMacro.isLineComment text = false := by
      rw [WatMacro.isLineComment, hchars]
      rfl
    rw [chars_cons, chars_nil, List.append_nil]
    exact ⟨.of_closed hlexical.closed ((isEager_toList hlexical.kind.2.1).trans hcomment), '(', cs,
      hchars, .inl rfl⟩
  cases h with
  | @atom kind text hlexical =>
    cases hwritten
    exact ⟨[], [text], [], rfl, rfl, rfl, hatom hlexical (of_decide_eq_true hbracketed)⟩
  | @list children before after hlegible hseats hends hopening =>
    obtain ⟨front, middle, back, hfront, hmiddle, hback, rfl⟩ := pieces_list_eq_ok hwritten
    have hrow : LegibleRow children := ⟨⟨hlegible, hseats, hends⟩, hopening⟩
    obtain ⟨hcontained, text, more, rfl, hhead⟩ := hrow.listPieces
      (fun child hchild _ => (hlegible child hchild).writtenAs (hseats child hchild)
        (not_holdsLeadingModule_child hleading child hchild))
      (not_isModuleList_of_head? hleading) hmiddle
    obtain ⟨cs, hchars⟩ := List.head?_eq_some_iff.mp hhead
    refine ⟨front, _, back, hfront, hback, rfl, hcontained,
      if isModule children then ';' else '(', cs ++ chars more, ?_, ?_⟩
    · rw [chars_cons, hchars, List.cons_append]
    · split
      · exact .inr rfl
      · exact .inl rfl
  | @marker text before after hlexical _ =>
    obtain ⟨front, back, hfront, hback, rfl⟩ := pieces_atom_eq_ok hwritten
    exact ⟨front, [text], back, hfront, hback, by simp,
      hatom hlexical (of_decide_eq_true hbracketed)⟩
  | splice => cases hwritten

/-- How the text of a form begins. -/
theorem chars_before {nodes : List Node} (h : TriviaOnly nodes) {row : List (List String)}
    (hrow : (nodes.map pieces).mapM id = .ok row) {c : Char} (hc : c = '(' ∨ c = ';')
    (cs : List Char) :
    ∃ first rest, chars row.flatten ++ c :: cs = first :: rest ∧ isPlain first = false ∧
      (first = '\n' ↔ nodes.head?.any opensLine = true) := by
  obtain ⟨row', hrow', htexts, -⟩ := pieces_triviaOnly h
  cases hrow.symm.trans hrow'
  cases nodes with
  | nil =>
    rw [htexts]
    refine ⟨c, cs, rfl, ?_⟩
    rcases hc with rfl | rfl <;> decide
  | cons node nodes =>
    obtain ⟨text, rfl, hlexical⟩ := h node List.mem_cons_self
    obtain ⟨first, rest, hchars, hfirst⟩ := isTriviaChars_opens (hlexical.isTrivia_iff.mp rfl)
    have hopens : (trivia text).opensLine = decide (first = '\n') := by
      simp [trivia, leaf, opensLine, hchars]
    refine ⟨first, rest ++ (chars ((listingAll nodes).map Token.text) ++ c :: cs), ?_,
      not_isPlain_of_opensTrivia hfirst, ?_⟩
    · rw [htexts, listingAll_cons, listing_trivia, List.map_append, chars_append]
      simp [Token.text, hchars]
    · simp [hopens]

/-- The lexemes of a form that can stand among others: the last one is a line comment, and the first
one begins with a newline, just if the attachments say so. -/
structure Passage (form : Node) (row : List (List Char)) : Prop extends IsPassage row where
  last : ∀ last ∈ row.getLast?, isEager last = form.endsInComment
  first : row.flatten.head? = some '\n' ↔ form.beginsWithNewline = true

/-- What a legible form is written as. -/
theorem LegibleForm.passage {form : Node} {text : String} (h : LegibleForm form)
    (hbracketed : form.isBracketed = true) (hleading : form.holdsLeadingModule = false)
    (hrender : form.render = .ok text) : ∃ row, Passage form row ∧ row.flatten = text.toList := by
  obtain ⟨written, hwritten, rfl⟩ := render_eq_ok hrender
  obtain ⟨front, middle, back, hfront, hback, rfl, hmiddle, c, cs, hchars, hc⟩ :=
    h.legible.pieces_middle hleading hbracketed hwritten
  obtain ⟨texts, hafter, hlexical, htexts⟩ := h.triviaAfter.exists_texts
  obtain ⟨back', hback', hflatten, -⟩ := pieces_triviaOnly h.triviaAfter
  cases hback.symm.trans hback'
  obtain ⟨row, hrow, hfrontRow, hlast⟩ := (h.before.selfContained hfront).append hmiddle
  have htail : IsRow (texts.map String.toList) :=
    isRow_of_trivia hlexical (htexts ▸ h.follows)
  have hborder : ∀ last ∈ row.getLast?, LooselyApart last (texts.map String.toList).flatten := by
    intro last hmem
    refine looselyApart_of_not_isEager (hrow.closed last (List.mem_of_getLast? hmem))
      (hlast last hmem) fun _ d hd => ?_
    cases texts with
    | nil => cases hd
    | cons text texts =>
      have htrivia := (hlexical text List.mem_cons_self).isTrivia_iff.mp rfl
      obtain ⟨c, cs, hcs, hfirst⟩ := isTriviaChars_opens htrivia
      rw [List.map_cons, hcs] at hd
      cases hd
      exact not_isPlain_of_opensTrivia hfirst
  have htext : (row ++ texts.map String.toList).flatten =
      (String.join (front.flatten ++ middle ++ back.flatten)).toList := by
    rw [String.toList_join, List.flatMap_append, List.flatMap_append, hflatten, htexts,
      List.flatten_append, hfrontRow, List.flatMap_def (l := texts)]
    rfl
  have hends : ∀ last ∈ (row ++ texts.map String.toList).getLast?,
      last ≠ ['('] ∧ isEager last = form.endsInComment := by
    intro last hmem
    rw [endsInComment, hafter]
    rcases List.eq_nil_or_concat texts with rfl | ⟨init, text, rfl⟩
    · rw [List.map_nil, List.append_nil] at hmem
      have heager := hlast last hmem
      refine ⟨?_, heager⟩
      rintro rfl
      cases heager
    · obtain rfl : text.toList = last := by simpa using hmem
      have hopening : text ≠ "(" := (hlexical text (by simp)).kind.2.1
      refine ⟨fun hparen => hopening (String.toList_inj.mp hparen), ?_⟩
      rw [isEager_toList hopening]
      simp [trivia, leaf, isLineComment]
  obtain ⟨first, rest, hbegin, hplain, hnewline⟩ :=
    chars_before h.before.triviaOnly hfront hc (cs ++ (texts.map String.toList).flatten)
  have hfirst : (row ++ texts.map String.toList).flatten = first :: rest := by
    rw [List.flatten_append, hfrontRow, hchars, List.append_assoc, List.cons_append, hbegin]
  have hpassage : IsPassage (row ++ texts.map String.toList) := by
    refine ⟨hrow.append htail hborder, fun hnil => ?_, ?_, fun last hmem => (hends last hmem).1⟩
    · rw [hnil] at hfirst
      cases hfirst
    · rw [hfirst]
      rintro _ ⟨⟩
      exact hplain
  refine ⟨_, ⟨hpassage, fun last hmem => (hends last hmem).2, ?_⟩, htext⟩
  rw [hfirst, beginsWithNewline, ← hnewline, List.head?_cons, Option.some.injEq]

end WatMacro.Node
