import WatMacro.Proofs.Lexeme.Comment
import WatMacro.Proofs.Node.Reread

/-!
# Writing back what was read

A form that holds no module is written as its source, with one space more between two tokens that
would run together: neither is trivia, the first is no opening and the second no closing
parenthesis. The text has the tokens of the source and those spaces, and nothing else. So it is read
again, and then written without a change.

In a source a line comment may stand right after an opening parenthesis, if no `;)` comes later: the
two would be the start of a block comment. Spaces between tokens do not bring a semicolon and a
parenthesis together, so it stays a line comment.

Results:

* `spaceOut_eq_separated`: where a tree is written with spaces.
* `tokenize_spaceOut_of_source`: the tokens of a source that was spaced out.
* `Node.render_of_read`: what a form that is read is written as.
* `Node.read_render`: the text, when it is the source itself, and that it is written back as it is.
-/

namespace WatMacro

open Text Lexeme

/-! ## Tokens that run together -/

/-- Two tokens that run together: neither is trivia, the first is no opening and the second no
closing parenthesis. -/
def RunTogether (left right : String) : Prop :=
  Atom.isTrivia left = false ∧ Atom.isTrivia right = false ∧ left ≠ "(" ∧ right ≠ ")"

instance RunTogether.decidable (left right : String) : Decidable (RunTogether left right) :=
  inferInstanceAs (Decidable (_ ∧ _ ∧ _ ∧ _))

/-- Tokens with a space between any two that run together. -/
def separated : List String → List String
  | left :: right :: texts =>
    if RunTogether left right then left :: " " :: separated (right :: texts)
    else left :: separated (right :: texts)
  | texts => texts

theorem spaceBetween_iff_runTogether {left right : String} :
    spaceBetween left right = true ↔ RunTogether left right :=
  spaceBetween_eq_true_iff

/-- The spaces that a tree is written with are those. -/
theorem spaceOut_eq_separated (texts : List String) : spaceOut texts = separated texts := by
  fun_induction separated texts with
  | case1 left right texts htogether ih =>
    rw [spaceOut, spaceAfter, if_pos (spaceBetween_iff_runTogether.mpr htogether), ← ih, spaceOut]
  | case2 left right texts hapart ih =>
    rw [spaceOut, spaceAfter, if_neg (mt spaceBetween_iff_runTogether.mp hapart), ← ih, spaceOut]
  | case3 texts hshort =>
    cases texts with
    | nil => rfl
    | cons text texts =>
      cases texts with
      | nil => rfl
      | cons other texts => exact absurd rfl (hshort text other texts)

/-! ## Spaces put in once -/

/-- Spaces stand between the texts where they are needed. -/
theorem spaceAfter_spaceAfter (last : String) (texts : List String) :
    spaceAfter last (spaceAfter last texts) = spaceAfter last texts := by
  induction texts generalizing last with
  | nil => rfl
  | cons text texts ih =>
    rw [spaceAfter_cons]
    cases hspace : spaceBetween last text with
    | false =>
      change spaceAfter last (text :: spaceAfter text texts) = text :: spaceAfter text texts
      rw [spaceAfter_cons, hspace, ih]
      rfl
    | true =>
      change spaceAfter last (" " :: text :: spaceAfter text texts) =
        " " :: text :: spaceAfter text texts
      rw [spaceAfter_cons, spaceBetween_of_isTrivia_right last isTrivia_space, spaceAfter_cons,
        spaceBetween_of_isTrivia_left isTrivia_space, ih]
      rfl

theorem spaceOut_spaceOut (texts : List String) : spaceOut (spaceOut texts) = spaceOut texts := by
  rw [spaceOut_eq_spaceAfter, spaceOut_eq_spaceAfter, spaceAfter_spaceAfter]

/-- Tokens of which no two run together stay as they are. -/
theorem separated_eq_self {texts : List String}
    (h : texts.IsChain fun left right => ¬RunTogether left right) : separated texts = texts := by
  induction texts with
  | nil => rfl
  | cons left texts ih =>
    cases texts with
    | nil => rfl
    | cons right texts =>
      obtain ⟨hno, hrest⟩ := List.isChain_cons_cons.mp h
      rw [separated, if_neg hno, ih hrest]

/-! ## Spaces and comments -/

namespace Lexeme

/-- The second text is the first one with spaces put in. -/
inductive Loosened : List Char → List Char → Prop
  | nil : Loosened [] []
  | char {cs ds : List Char} (c : Char) : Loosened cs ds → Loosened (c :: cs) (c :: ds)
  | space {cs ds : List Char} : Loosened cs ds → Loosened cs (' ' :: ds)

theorem Loosened.append_left {cs ds : List Char} (h : Loosened cs ds) (front : List Char) :
    Loosened (front ++ cs) (front ++ ds) := by
  induction front with
  | nil => exact h
  | cons c front ih => exact .char c ih

/-- Spaces do not bring the end of a block comment about. -/
theorem Loosened.throughCommentEnd?_eq_none {cs ds : List Char} (h : Loosened cs ds)
    (hcs : throughCommentEnd? cs = none) : throughCommentEnd? ds = none := by
  induction h with
  | nil => rfl
  | @char cs ds c hrest ih =>
    obtain ⟨hopen, hcs⟩ := throughCommentEnd?_cons_eq_none_iff.mp hcs
    refine throughCommentEnd?_cons_eq_none_iff.mpr ⟨?_, ih hcs⟩
    rintro ⟨hsemicolon, hhead⟩
    cases hrest with
    | nil => cases hhead
    | char c' _ => exact hopen ⟨hsemicolon, hhead⟩
    | space _ => cases hhead
  | space _ ih =>
    exact throughCommentEnd?_cons_eq_none_iff.mpr ⟨fun hend => absurd hend.1 (by decide), ih hcs⟩

theorem Loosened.blockComment?_eq_none {cs ds : List Char} (h : Loosened cs ds)
    (hcs : blockComment? ('(' :: cs) = none) : blockComment? ('(' :: ds) = none := by
  rw [blockComment?_eq_none_iff] at hcs ⊢
  rintro rest rfl
  cases h with
  | char _ hrest => exact hrest.throughCommentEnd?_eq_none (hcs _ rfl)

end Lexeme

/-! ## Tokens of a spaced source -/

theorem loosened_spaceAfter (last : String) (texts : List String) :
    Loosened (texts.map String.toList).flatten
      ((spaceAfter last texts).map String.toList).flatten := by
  induction texts generalizing last with
  | nil => exact .nil
  | cons text texts ih =>
    have htext := (ih text).append_left text.toList
    rw [spaceAfter_cons]
    split
    · exact .space htext
    · exact htext

/-- A token that stands after a space does not begin with one. -/
theorem not_isSpace_of_not_isTrivia {text : String} (hclosed : Closed text.toList)
    (htrivia : Atom.isTrivia text = false) : ∀ d ∈ text.toList.head?, isSpace d = false := by
  intro d hd
  rw [← Bool.not_eq_true]
  intro hspace
  rw [isTrivia_of_isSpace hclosed hd hspace] at htrivia
  cases htrivia

/-- A token that a space follows is not changed by the space. -/
theorem not_continues_space {text : String} (hclosed : Closed text.toList)
    (htrivia : Atom.isTrivia text = false) : continues text.toList ' ' = false := by
  have hcomment : isLineComment text = false := by
    rw [← Bool.not_eq_true]
    intro hcomment
    rw [isTrivia_of_isLineComment hclosed hcomment] at htrivia
    cases htrivia
  rw [← Bool.not_eq_true]
  intro hcontinues
  have hloose : LooselyApart text.toList " ".toList :=
    looselyApart_of_not_isPlain hclosed hcomment (by decide)
  have hspace := hloose ' ' rfl hcontinues
  rw [Atom.isTrivia, isTriviaChars_of_isSpaceRun hclosed.ne_nil hspace] at htrivia
  cases htrivia

/-- A token is read in front of spaced texts as it is in front of the texts. -/
theorem lexeme?_spaceAfter {text : String} {texts : List String}
    (hclosed : ∀ other ∈ text :: texts, Closed other.toList)
    (h : lexeme? (text.toList ++ (texts.map String.toList).flatten) =
      some (text.toList, (texts.map String.toList).flatten)) :
    lexeme? (text.toList ++ ((spaceAfter text texts).map String.toList).flatten) =
      some (text.toList, ((spaceAfter text texts).map String.toList).flatten) := by
  -- what comes after an opening parenthesis may make a comment of it, however far away it is; all
  -- other tokens end where the next character is not one of theirs
  by_cases hopening : text = "("
  · subst hopening
    exact lexeme?_opening_iff.mpr
      ((loosened_spaceAfter "(" texts).blockComment?_eq_none (lexeme?_opening_iff.mp h))
  · have htext := hclosed text List.mem_cons_self
    refine lexeme?_append htext fun d hd => ?_
    cases texts with
    | nil => cases hd
    | cons next texts =>
      have hnext := hclosed next (by simp)
      rw [spaceAfter_cons] at hd
      split at hd
      · rename_i hspace
        obtain rfl : ' ' = d := Option.some.inj hd
        exact not_continues_space htext (spaceBetween_eq_true_iff.mp hspace).1
      · rw [List.map_cons, head?_flatten_of_closed hnext] at hd
        rw [← Bool.not_eq_true]
        intro hcontinues
        have hread := eq_opening_of_continues h d (by rwa [List.map_cons,
          head?_flatten_of_closed hnext]) hcontinues
        exact hopening (String.toList_inj.mp hread)

/-- The lexemes of a source that was spaced out. -/
theorem lexemes_spaceAfter {cs : List Char} {texts : List String}
    (hclosed : ∀ text ∈ texts, Closed text.toList)
    (h : lexemes cs = (texts.map String.toList, [])) (last : String) :
    lexemes ((spaceAfter last texts).map String.toList).flatten =
      ((spaceAfter last texts).map String.toList, []) := by
  induction texts generalizing cs last with
  | nil => exact lexemes_nil
  | cons text texts ih =>
    have hfirst := hclosed text List.mem_cons_self
    obtain ⟨rest, hread, hrest⟩ := lexemes_split h (List.nil_append _).symm
    have hflatten := lexemes_flatten rest
    rw [hrest, List.append_nil] at hflatten
    subst hflatten
    have htext := lexemes_of_some (lexeme?_spaceAfter hclosed hread)
    rw [ih (fun other hother => hclosed other (List.mem_cons_of_mem _ hother)) hrest text] at htext
    rw [spaceAfter_cons]
    split
    · rename_i hspace
      have hstop : ∀ d ∈ (text.toList ++
          ((spaceAfter text texts).map String.toList).flatten).head?,
          continues " ".toList d = false := by
        intro d hd
        rw [← List.flatten_cons, head?_flatten_of_closed hfirst] at hd
        exact not_isSpace_of_not_isTrivia hfirst (spaceBetween_eq_true_iff.mp hspace).2.1 d hd
      have hone := lexemes_of_some (lexeme?_append (.space (by decide) (by decide)) hstop)
      rw [htext] at hone
      exact hone
    · exact htext

/-- The tokens of a source that was spaced out. -/
theorem tokenize_spaceOut_of_source {source : String} {texts : List String}
    (h : tokenize source = .ok texts) (hclosed : ∀ text ∈ texts, Closed text.toList) :
    tokenize (String.join (spaceOut texts)) = .ok (spaceOut texts) := by
  rw [tokenize_eq_ok_iff, String.toList_join, List.flatMap_def, spaceOut_eq_spaceAfter]
  exact lexemes_spaceAfter hclosed (tokenize_eq_ok_iff.mp h) "("

/-! ## Modules and outlines -/

namespace Outline

/-- Whether a list with children of the given outlines is a module. -/
def opensModule : List Outline → Bool
  | word _ text :: _ :: _ => text = "module"
  | _ => false

mutual

/-- Whether a tree with the given outline holds a module. -/
def holdsModule : Outline → Bool
  | word .. | entry _ => false
  | list children => opensModule children || holdsModuleAny children
  | splice items => holdsModuleAny items

/-- Whether one of several trees with the given outlines holds a module. -/
def holdsModuleAny : List Outline → Bool
  | [] => false
  | outline :: outlines => holdsModule outline || holdsModuleAny outlines

end

theorem holdsModuleAny_append (front back : List Outline) :
    holdsModuleAny (front ++ back) = (holdsModuleAny front || holdsModuleAny back) := by
  induction front with
  | nil => rfl
  | cons outline front ih =>
    rw [List.cons_append, holdsModuleAny, holdsModuleAny, ih, Bool.or_assoc]

end Outline

namespace Node

theorem isModule_eq_opensModule (children : List Node) :
    isModule children = Outline.opensModule (outlinesAll children) := by
  rw [← outlinesAll_filter_isWord]
  have hwords : ∀ word ∈ children.filter isWord, word.isWord = true :=
    fun word hword => (List.mem_filter.mp hword).2
  unfold isModule
  generalize children.filter isWord = words at hwords ⊢
  cases words with
  | nil => rfl
  | cons head rest =>
    obtain ⟨outline, houtline⟩ := exists_outline (hwords head List.mem_cons_self)
    rw [outlinesAll_cons, houtline, List.singleton_append]
    cases rest with
    | nil => cases outline <;> rfl
    | cons next rest =>
      obtain ⟨outline', houtline'⟩ := exists_outline (hwords next (by simp))
      rw [outlinesAll_cons, houtline', List.singleton_append]
      cases outlined_of_eq houtline with
      | atom text => simp [Outline.opensModule, text?]
      | _ => rfl

/-- Whether a tree holds a module depends on its outline. -/
theorem holdsModule_eq_of_outlines (node : Node) :
    node.holdsModule = Outline.holdsModuleAny node.outlines := by
  have hall : ∀ nodes : List Node,
      (∀ node ∈ nodes, node.holdsModule = Outline.holdsModuleAny node.outlines) →
      holdsModuleAny nodes = Outline.holdsModuleAny (outlinesAll nodes) := by
    intro nodes hnodes
    induction nodes with
    | nil => rfl
    | cons node nodes ih =>
      rw [holdsModuleAny, outlinesAll_cons, Outline.holdsModuleAny_append,
        hnodes node List.mem_cons_self, ih fun other hother =>
        hnodes other (List.mem_cons_of_mem _ hother)]
  induction node using Node.induction with
  | atom kind text before after _ _ => cases kind <;> rfl
  | list children before after ih _ _ =>
    rw [holdsModule, outlines_list, isModule_eq_opensModule, hall children ih]
    simp [Outline.holdsModuleAny, Outline.holdsModule]
  | splice items before after ih _ _ =>
    rw [holdsModule, outlines_splice, hall items ih]
    simp [Outline.holdsModuleAny, Outline.holdsModule]

/-! ## Forms that are read -/

/-- What is attached to a child that is read. -/
theorem AsRead.before_after {node : Node} (h : node.AsRead) :
    node.before = [] ∧ LayoutAsRead node.after := by
  cases h with
  | atom kind text => exact ⟨rfl, layoutAsRead_nil⟩
  | list _ _ hafter => exact ⟨rfl, hafter⟩

theorem listingAll_after_subset (node : Node) : listingAll node.after ⊆ node.listing := by
  intro token htoken
  cases node <;> simp_all [listing, after]

/-- A node that is read is written as its texts, if it holds no module. -/
theorem AsRead.spelled {node : Node} (h : node.AsRead)
    (hlexical : ∀ token ∈ node.listing, token.Lexical) (hmodule : node.holdsModule = false) :
    node.Spelled := by
  induction h with
  | atom kind text => exact .atom (hlexical _ (by simp))
  | @list children after hchildren hchain hafter ih =>
    rw [holdsModule, Bool.or_eq_false_iff] at hmodule
    have hchild : ∀ child ∈ children, ∀ token ∈ child.listing, token.Lexical :=
      fun child hchild token htoken =>
        hlexical token (@mem_listing (.list children [] after) child hchild token htoken)
    refine .list hmodule.1 (fun child hmem => ?_) fun child hmem => ?_
    · exact ih child hmem (hchild child hmem) (not_holdsModule_of_mem hmodule.2 child hmem)
    · obtain ⟨hbefore, hlayout⟩ := (hchildren child hmem).before_after
      exact ⟨hbefore, hlayout.triviaOnly fun token htoken =>
        hchild child hmem token (listingAll_after_subset child htoken)⟩

theorem Spelled.attach {children before after : List Node}
    (h : (Node.list children before after).Spelled) (before' after' : List Node) :
    (Node.list children before' after').Spelled := by
  cases h with
  | list hmodule hspelled hseated => exact .list hmodule hspelled hseated

/-- A form that is read is written as the texts of its tokens, with spaces between them. -/
theorem FormAsRead.render_eq {form : Node} (h : form.FormAsRead)
    (hlexical : ∀ token ∈ form.listing, token.Lexical) (hmodule : form.holdsModule = false) :
    form.render = .ok (String.join (spaceOut form.texts)) := by
  cases h with
  | @list children before after hchildren hbefore hafter =>
    have hspelled : (Node.list children [] after).Spelled :=
      (AsRead.list hchildren.asRead hchildren.chain hafter).spelled (fun token htoken =>
        hlexical token (by rw [listing] at htoken ⊢; exact List.mem_append_right _ htoken)) hmodule
    have hpieces := (hspelled.attach before after).pieces_eq
      (hbefore.triviaOnly fun token htoken =>
        hlexical token (by rw [listing]; exact List.mem_append_left _ htoken))
      (hafter.triviaOnly fun token htoken => hlexical token (listingAll_after_subset _ htoken))
    rw [render, hpieces]
    rfl

/-- What a form that is read is written as. -/
theorem render_of_read {source : String} {texts : List String} {form : Node}
    (htexts : tokenize source = .ok texts) (h : Node.read source = .ok form)
    (hmodule : form.holdsModule = false) :
    form.render = .ok (String.join (spaceOut texts)) := by
  obtain ⟨texts', htexts', hlisting⟩ := read_listing h
  cases htexts.symm.trans htexts'
  have hform := read_asRead h
  have hlexical := tokenize_lexical htexts (hform.getLast?_texts hlisting)
  rw [← hlisting] at hlexical
  have hform_texts : form.texts = texts := by
    rw [Node.texts, hlisting, List.map_map]
    simp [Function.comp_def]
  rw [hform.render_eq hlexical hmodule, hform_texts]

/-- A form that is read and holds no module is written as its source with a space between any two
tokens that run together, so as the source itself if there are no such tokens. The text is read, and
written as it is. -/
theorem read_render {source : String} {form : Node} (h : Node.read source = .ok form)
    (hmodule : form.holdsModule = false) :
    ∃ texts text, tokenize source = .ok texts ∧ String.join texts = source ∧
      form.render = .ok text ∧ text = String.join (separated texts) ∧
      ((texts.IsChain fun left right => ¬RunTogether left right) → text = source) ∧
      ∃ reread, Node.read text = .ok reread ∧ reread.render = .ok text := by
  obtain ⟨texts, htexts, hlisting⟩ := read_listing h
  have hjoin := join_of_tokenize htexts
  have hrender := render_of_read htexts h hmodule
  rw [spaceOut_eq_separated] at hrender
  refine ⟨texts, _, htexts, hjoin, hrender, rfl, fun hapart => ?_, ?_⟩
  · rw [separated_eq_self hapart, hjoin]
  · have hlexical := tokenize_lexical htexts ((read_asRead h).getLast?_texts hlisting)
    have hclosed : ∀ text ∈ texts, Closed text.toList := fun text htext => by
      simpa using (hlexical (Token.ofText text) (List.mem_map_of_mem htext)).closed
    have hspaced := tokenize_spaceOut_of_source htexts hclosed
    have hwords : texts.filter (!Atom.isTrivia ·) =
        (spaceOut texts).filter (!Atom.isTrivia ·) := by
      rw [spaceOut_eq_spaceAfter, filter_spaceAfter]
    obtain ⟨reread, hreread, houtlines⟩ := read_outlines htexts hspaced hwords h
    have hmodule' : reread.holdsModule = false := by
      rw [holdsModule_eq_of_outlines, ← houtlines, ← holdsModule_eq_of_outlines, hmodule]
    rw [← spaceOut_eq_separated]
    refine ⟨reread, hreread, ?_⟩
    rw [render_of_read hspaced hreread hmodule', spaceOut_spaceOut]

/-- A string next to a word, and a line comment right after an opening parenthesis. -/
theorem read_render_glued :
    let source := "(a\"s\"(;; \"\n b)c)"
    ∃ form reread, Node.read source = .ok form ∧
      form.render = .ok "(a \"s\" (;; \"\n b) c)" ∧
      Node.read "(a \"s\" (;; \"\n b) c)" = .ok reread ∧
      reread.render = .ok "(a \"s\" (;; \"\n b) c)" := by
  intro source
  have htokens : tokenize source =
      .ok ["(", "a", "\"s\"", "(", ";; \"", "\n ", "b", ")", "c", ")"] := by
    decide +kernel
  have hmodule : (Node.read source).toOption.map Node.holdsModule = some false := by
    decide +kernel
  cases hform : Node.read source with
  | error error =>
    rw [hform] at hmodule
    cases hmodule
  | ok form =>
    rw [hform] at hmodule
    obtain ⟨texts, text, htexts, -, hrender, htext, -, reread, hreread, hrerender⟩ :=
      read_render hform (Option.some.inj hmodule)
    cases htokens.symm.trans htexts
    have hspaced : text = "(a \"s\" (;; \"\n b) c)" := by
      rw [htext]
      decide +kernel
    rw [hspaced] at hrender hreread hrerender
    exact ⟨form, reread, rfl, hrender, hreread, hrerender⟩

end Node

end WatMacro
