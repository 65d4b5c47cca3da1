import WatMacro.Proofs.Node.Spacing

/-!
# Reading a written tree

A legible form that is written without modules is read back as a form of the same outline.

Results:

* `Node.writable_of_pieces`: what can be written holds no splice.
* `Node.Legible.follows`: in the listing of a legible form each token may follow the one before it.
* `Node.read_outlines`: a source is read whenever one with the same words is, and with the same
  outline.
* `Node.LegibleForm.reread`: the text of a legible form is read back with the same outline.
-/

namespace WatMacro.Node

open Lexeme

/-! ## Trees that can be written -/

mutual

/-- Whether a list of the tree is headed by `module` and has more words than that. -/
def holdsModule : Node → Bool
  | atom .. => false
  | list children _ _ => isModule children || holdsModuleAny children
  | splice items _ _ => holdsModuleAny items

/-- Whether one of several nodes holds a module. -/
def holdsModuleAny : List Node → Bool
  | [] => false
  | node :: nodes => holdsModule node || holdsModuleAny nodes

end

theorem not_holdsModule_of_mem {nodes : List Node} (h : holdsModuleAny nodes = false) :
    ∀ node ∈ nodes, node.holdsModule = false := by
  induction nodes with
  | nil => exact fun _ h => absurd h List.not_mem_nil
  | cons node nodes ih =>
    rw [holdsModuleAny, Bool.or_eq_false_iff] at h
    exact List.forall_mem_cons.mpr ⟨h.1, ih h.2⟩

/-- What can be written holds no splice. -/
theorem writable_of_pieces {node : Node} {written : List String}
    (hmodule : node.holdsModule = false) (h : node.pieces = .ok written) : node.Writable := by
  induction node using Node.induction generalizing written with
  | atom kind text before after _ _ => exact .atom kind text before after
  | list children before after ih _ _ =>
    rw [holdsModule, Bool.or_eq_false_iff] at hmodule
    refine .list hmodule.1 fun child hchild => ?_
    obtain ⟨front, middle, back, -, hmiddle, -, -⟩ := pieces_list_eq_ok h
    rw [listPieces, hmodule.1, if_neg (by decide)] at hmiddle
    obtain ⟨row, hrow, -⟩ := exists_of_except_bind hmiddle
    have hpieces : child.pieces ∈ row.map Except.ok := by
      rw [← mapM_id_eq_ok hrow]
      exact List.mem_map_of_mem hchild
    obtain ⟨written, -, hwritten⟩ := List.mem_map.mp hpieces
    exact ih child hchild (not_holdsModule_of_mem hmodule.2 child hchild) hwritten.symm
  | splice items before after _ _ _ =>
    rw [pieces] at h
    cases h

/-! ## Tokens that may follow each other -/

/-- The last text of layout. -/
theorem Layout.getLast?_texts {nodes : List Node} (h : Layout nodes) :
    ∀ last ∈ ((listingAll nodes).map Token.text).getLast?,
      last ≠ "(" ∧ WatMacro.isLineComment last = false := by
  obtain ⟨htrivia, hends⟩ := h
  induction nodes with
  | nil => simp
  | cons node nodes ih =>
    obtain ⟨text, rfl, hlexical⟩ := htrivia node List.mem_cons_self
    cases nodes with
    | nil =>
      intro last hlast
      obtain rfl : text = last := by simpa [Token.text] using hlast
      refine ⟨hlexical.kind.2.1, ?_⟩
      rw [← Bool.not_eq_true]
      intro hcomment
      obtain ⟨next, hnext, -⟩ := hends.1 hcomment
      cases hnext
    | cons other nodes =>
      intro last hlast
      have htrivia' : TriviaOnly (other :: nodes) := fun other hother =>
        htrivia other (List.mem_cons_of_mem _ hother)
      obtain ⟨text', rfl, -⟩ := htrivia' other List.mem_cons_self
      refine ih htrivia' hends.2 last ?_
      rw [listingAll_cons, listing_trivia, List.singleton_append, listingAll_cons, listing_trivia,
        List.singleton_append, List.map_cons, List.map_cons, List.getLast?_cons_cons] at hlast
      rwa [listingAll_cons, listing_trivia, List.singleton_append, List.map_cons]

/-- The last text of something that layout follows. -/
theorem Layout.getLast?_cons {nodes : List Node} (h : Layout nodes) {text : String}
    (hopening : text ≠ "(") (hcomment : WatMacro.isLineComment text = false) :
    ∀ last ∈ (text :: (listingAll nodes).map Token.text).getLast?,
      last ≠ "(" ∧ WatMacro.isLineComment last = false := by
  intro last hlast
  rw [List.getLast?_cons] at hlast
  cases hafter : ((listingAll nodes).map Token.text).getLast? with
  | none =>
    rw [hafter] at hlast
    cases hlast
    exact ⟨hopening, hcomment⟩
  | some other =>
    rw [hafter] at hlast
    cases hlast
    exact h.getLast?_texts other hafter

/-- The first text of a legible child. -/
theorem Legible.texts_eq_cons {node : Node} (h : node.Legible) (hwritable : node.Writable)
    (hseated : node.Seated) : ∃ text rest, node.texts = text :: rest ∧
      (WatMacro.isLineComment text = true → node.isLineComment = true) ∧
      (node.opensLine = true → text.toList.head? = some '\n') := by
  cases h with
  | @atom kind text hlexical =>
    refine ⟨text, [], by simp [texts, Token.text], fun hcomment => ?_,
      fun hopens => ?_⟩
    · obtain rfl := hlexical.isTrivia_iff.mpr (isTrivia_of_isLineComment hlexical.closed hcomment)
      exact hcomment
    · cases kind with
      | trivia => simpa [leaf, opensLine] using hopens
      | _ => cases hopens
  | @list children before after _ _ _ _ =>
    obtain rfl : before = [] := hseated.before
    refine ⟨"(", _, by rw [texts, listing]; rfl, fun hcomment => ?_, fun hopens => ?_⟩
    · exact absurd hcomment (by decide)
    · cases hopens
  | @marker text before after hlexical hcomment =>
    obtain rfl : before = [] := hseated.before
    refine ⟨text, _, by rw [texts, listing]; rfl, fun hyes => ?_, fun hopens => ?_⟩
    · rw [hcomment] at hyes
      cases hyes
    · simpa [opensLine] using hopens
  | splice => cases hwritable

/-- The last text of a child. -/
theorem getLast?_texts {node : Node} (h : node.Legible) (hwritable : node.Writable)
    (hseated : node.Seated) : ∀ last ∈ node.texts.getLast?, last ≠ "(" ∧
      (WatMacro.isLineComment last = true → node.isLineComment = true) := by
  cases h with
  | @atom kind text hlexical =>
    intro last hlast
    obtain rfl : text = last := by simpa [texts, Token.text] using hlast
    refine ⟨hlexical.kind.2.1, fun hcomment => ?_⟩
    obtain rfl := hlexical.isTrivia_iff.mpr (isTrivia_of_isLineComment hlexical.closed hcomment)
    exact hcomment
  | @list children before after _ _ _ _ =>
    intro last hlast
    rw [texts, listing, List.map_append, List.map_cons, List.map_append, List.map_cons,
      ← List.cons_append, ← List.append_assoc, List.getLast?_append_of_ne_nil _
      (List.cons_ne_nil _ _)] at hlast
    obtain ⟨hopening, hno⟩ := hseated.after.getLast?_cons (by decide) (by decide) last hlast
    refine ⟨hopening, fun hcomment => ?_⟩
    rw [hno] at hcomment
    cases hcomment
  | @marker text before after hlexical hcomment =>
    intro last hlast
    rw [texts, listing, List.map_append, List.map_cons, List.getLast?_append_of_ne_nil _
      (List.cons_ne_nil _ _)] at hlast
    obtain ⟨hopening, hno⟩ := hseated.after.getLast?_cons hlexical.kind.2.1 hcomment last hlast
    refine ⟨hopening, fun hyes => ?_⟩
    rw [hno] at hyes
    cases hyes
  | splice => cases hwritable

/-- The texts of a legible list between its parentheses. -/
theorem LegibleRow.follows {children : List Node} (h : LegibleRow children)
    (hwritable : ∀ child ∈ children, child.Writable)
    (hchildren : ∀ child ∈ children, child.texts.IsChain Follows) :
    ("(" :: ((listingAll children).map Token.text ++ [")"])).IsChain Follows := by
  obtain ⟨⟨hlegible, hseated, hends⟩, hopening⟩ := h
  -- what stands before the children, and whether they end its line
  suffices htail : ∀ left : String,
      (WatMacro.isLineComment left = true → ∃ next ∈ children.head?, next.opensLine = true) →
      (left = "(" → ∀ first ∈ children.head?, first.isLineComment = false) →
      (left :: ((listingAll children).map Token.text ++ [")"])).IsChain Follows from
    htail "(" (fun hcomment => absurd hcomment (by decide)) fun _ => hopening
  clear hopening
  induction children with
  | nil =>
    intro left hcomment _
    refine List.isChain_cons_cons.mpr ⟨⟨fun hyes => ?_, fun _ => rfl⟩, .singleton _⟩
    obtain ⟨next, hnext, -⟩ := hcomment hyes
    cases hnext
  | cons child children ih =>
    intro left hcomment hopening
    have hchild := hlegible child List.mem_cons_self
    have hchildWritable := hwritable child List.mem_cons_self
    have hchildSeated := hseated child List.mem_cons_self
    obtain ⟨text, rest, htexts, hfirstComment, hfirstLine⟩ :=
      hchild.texts_eq_cons hchildWritable hchildSeated
    obtain ⟨last, hlast⟩ : ∃ last, child.texts.getLast? = some last :=
      ⟨_, List.getLast?_eq_some_getLast (by rw [htexts]; exact List.cons_ne_nil _ _)⟩
    obtain ⟨hlastOpening, hlastComment⟩ :=
      getLast?_texts hchild hchildWritable hchildSeated last hlast
    have hrest := ih (fun other hother => hwritable other (List.mem_cons_of_mem _ hother))
      (fun other hother => hchildren other (List.mem_cons_of_mem _ hother))
      (fun other hother => hlegible other (List.mem_cons_of_mem _ hother))
      (fun other hother => hseated other (List.mem_cons_of_mem _ hother)) hends.2 last
      (fun hyes => hends.1 (hlastComment hyes)) (fun hyes => absurd hyes hlastOpening)
    rw [listingAll_cons, List.map_append, ← texts, List.append_assoc]
    refine List.isChain_cons.mpr ⟨fun first hfirst => ?_, ?_⟩
    · rw [htexts] at hfirst
      obtain rfl : text = first := by simpa using hfirst
      refine ⟨fun hyes => ?_, fun hyes => ?_⟩
      · obtain ⟨next, hnext, hopens⟩ := hcomment hyes
        cases hnext
        exact hfirstLine hopens
      · rw [← Bool.not_eq_true]
        intro hno
        have := hopening hyes child rfl
        rw [hfirstComment hno] at this
        cases this
    · refine List.isChain_append.mpr ⟨hchildren child List.mem_cons_self, hrest.tail, ?_⟩
      intro other hother next hnext
      obtain rfl : last = other := Option.some.inj (hlast.symm.trans hother)
      exact (List.isChain_cons.mp hrest).1 next hnext

theorem Layout.follows {nodes : List Node} (h : Layout nodes) :
    ((listingAll nodes).map Token.text).IsChain Follows := by
  obtain ⟨htrivia, hends⟩ := h
  induction nodes with
  | nil => exact .nil
  | cons node nodes ih =>
    obtain ⟨text, rfl, hlexical⟩ := htrivia node List.mem_cons_self
    have htrivia' : TriviaOnly nodes := fun other hother =>
      htrivia other (List.mem_cons_of_mem _ hother)
    rw [listingAll_cons, listing_trivia, List.singleton_append, List.map_cons]
    refine List.isChain_cons.mpr ⟨fun next hnext => ?_, ih htrivia' hends.2⟩
    refine ⟨fun hcomment => ?_, fun hopening => absurd hopening hlexical.kind.2.1⟩
    obtain ⟨other, hother, hopens⟩ := hends.1 hcomment
    cases nodes with
    | nil => cases hother
    | cons other' nodes =>
      cases hother
      obtain ⟨text', rfl, -⟩ := htrivia' other List.mem_cons_self
      obtain rfl : text' = next := by simpa [Token.text] using hnext
      simpa [opensLine, trivia, leaf] using hopens

theorem list_follows {children before after : List Node}
    (hrow : ("(" :: ((listingAll children).map Token.text ++ [")"])).IsChain Follows)
    (hbefore : Layout before) (hafter : ((listingAll after).map Token.text).IsChain Follows) :
    (Node.list children before after).texts.IsChain Follows := by
  have htexts : (Node.list children before after).texts =
      (listingAll before).map Token.text ++ (("(" :: ((listingAll children).map Token.text ++
        [")"])) ++ (listingAll after).map Token.text) := by
    simp [texts, listing, Token.text]
  rw [htexts]
  refine List.isChain_append.mpr ⟨hbefore.follows, List.isChain_append.mpr ⟨hrow, hafter, ?_⟩, ?_⟩
  · intro last hlast next _
    obtain rfl : ")" = last := by simpa [List.getLast?_cons] using hlast
    exact ⟨fun hcomment => absurd hcomment (by decide), fun hopening => absurd hopening (by decide)⟩
  · intro last hlast next _
    obtain ⟨hopening, hcomment⟩ := hbefore.getLast?_texts last hlast
    refine ⟨fun hyes => ?_, fun hyes => absurd hyes hopening⟩
    rw [hcomment] at hyes
    cases hyes

/-- In the texts of a legible child each may follow the one before it. -/
theorem Legible.follows {node : Node} (h : node.Legible) (hwritable : node.Writable)
    (hseated : node.Seated) : node.texts.IsChain Follows := by
  induction h with
  | atom hlexical => exact .singleton _
  | @list children before after hlegible hseats hends hopening ih =>
    obtain rfl : before = [] := hseated.before
    cases hwritable with
    | list hmodule hchildren =>
      have hrow : LegibleRow children := ⟨⟨hlegible, hseats, hends⟩, hopening⟩
      refine list_follows (hrow.follows hchildren fun child hchild => ?_) layout_nil
        hseated.after.follows
      exact ih child hchild (hchildren child hchild) (hseats child hchild)
  | @marker text before after hlexical hcomment =>
    obtain rfl : before = [] := hseated.before
    rw [texts, listing, listingAll_nil, List.nil_append, List.map_cons]
    refine List.isChain_cons.mpr ⟨fun next _ => ⟨fun hyes => ?_, fun hopening => ?_⟩,
      hseated.after.follows⟩
    · rw [show (Token.atom .trivia text).text = text from rfl, hcomment] at hyes
      cases hyes
    · exact absurd hopening hlexical.kind.2.1
  | splice => cases hwritable

/-! ## Reading the words back -/

theorem filter_triviaOnly {nodes : List Node} (h : TriviaOnly nodes) :
    (listingAll nodes).filter Token.isWord = [] := by
  refine List.filter_eq_nil_iff.mpr fun token htoken => ?_
  rw [listingAll_eq] at htoken
  obtain ⟨node, hnode, hmem⟩ := List.mem_flatMap.mp htoken
  obtain ⟨text, rfl, -⟩ := h node hnode
  obtain rfl : token = .atom .trivia text := by simpa using hmem
  simp [Token.isWord, Token.isTrivia]

/-- The words of a list without its attachments. -/
theorem filter_listing_list {children before after : List Node} (hbefore : TriviaOnly before)
    (hafter : TriviaOnly after) :
    (Node.list children before after).listing.filter Token.isWord =
      .opening :: ((listingAll children).filter Token.isWord ++ [.closing]) := by
  rw [listing, List.filter_append, filter_triviaOnly hbefore, List.nil_append,
    List.filter_cons_of_pos rfl, List.filter_append, List.filter_cons_of_pos rfl,
    filter_triviaOnly hafter]

end WatMacro.Node

namespace WatMacro

open Lexeme Node

/-- From inside of any list, the words of some nodes are read as children of the same outlines. -/
def Reading.ReadsBack (tokens : List Token) (outlines : List Outline) : Prop :=
  ∀ (line : Nat) (before : List Node) (outer : List (List Node)) (children : List Node),
    ∃ children', (inside before outer children).run line tokens =
        .ok (inside before outer children') ∧
      outlinesAll children'.reverse = outlinesAll children.reverse ++ outlines

namespace Reading

theorem readsBack_nil : ReadsBack [] [] :=
  fun _ _ _ children => ⟨children, rfl, (List.append_nil _).symm⟩

theorem ReadsBack.append {front back : List Token} {outlines outlines' : List Outline}
    (hfront : ReadsBack front outlines) (hback : ReadsBack back outlines') :
    ReadsBack (front ++ back) (outlines ++ outlines') := by
  intro line before outer children
  obtain ⟨middle, hmiddle, hmiddleOutlines⟩ := hfront line before outer children
  obtain ⟨last, hlast, hlastOutlines⟩ :=
    hback (line + Token.newlinesAll front) before outer middle
  refine ⟨last, ?_, ?_⟩
  · rw [run_append, hmiddle]
    exact hlast
  · rw [hlastOutlines, hmiddleOutlines, List.append_assoc]

theorem ReadsBack.list {tokens : List Token} {outlines : List Outline}
    (h : ReadsBack tokens outlines) :
    ReadsBack (.opening :: (tokens ++ [.closing])) [.list outlines] := by
  intro line before outer children
  obtain ⟨inner, hinner, houtlines⟩ :=
    h (line + Token.opening.newlines) before (children :: outer) []
  refine ⟨.form inner.reverse :: children, ?_, ?_⟩
  · rw [run, step_inside_opening]
    change run _ (inside before (children :: outer) []) (tokens ++ [.closing]) = _
    rw [run_append, hinner]
    rfl
  · rw [List.reverse_nil, outlinesAll_nil, List.nil_append] at houtlines
    simp [houtlines]

end Reading

namespace Node

theorem readsBack_all {nodes : List Node}
    (h : ∀ node ∈ nodes, Reading.ReadsBack (node.listing.filter Token.isWord) node.outlines) :
    Reading.ReadsBack ((listingAll nodes).filter Token.isWord) (outlinesAll nodes) := by
  induction nodes with
  | nil => exact Reading.readsBack_nil
  | cons node nodes ih =>
    rw [listingAll_cons, outlinesAll_cons, List.filter_append]
    exact (h node List.mem_cons_self).append
      (ih fun other hother => h other (List.mem_cons_of_mem _ hother))

theorem Legible.readsBack {node : Node} (h : node.Legible) (hwritable : node.Writable)
    (hbefore : TriviaOnly node.before) (hafter : TriviaOnly node.after) :
    Reading.ReadsBack (node.listing.filter Token.isWord) node.outlines := by
  induction h with
  | @atom kind text hlexical =>
    rw [listing_leaf]
    cases htrivia : (Token.atom kind text).isTrivia with
    | true =>
      cases kind with
      | trivia => exact Reading.readsBack_nil
      | _ => cases htrivia
    | false =>
      have hkind : kind ≠ .trivia := by
        rintro rfl
        cases htrivia
      rw [outlines_leaf hkind, List.filter_cons_of_pos (by simp [Token.isWord, htrivia])]
      intro line before outer children
      refine ⟨leaf kind text :: children, ?_, by simp [outlines_leaf hkind]⟩
      rw [List.filter_nil, Reading.run, Reading.step_inside_atom line before outer children hkind]
      rfl
  | @list children before after hlegible hseated _ _ ih =>
    cases hwritable with
    | list hmodule hchildren =>
      change TriviaOnly before at hbefore
      change TriviaOnly after at hafter
      rw [filter_listing_list hbefore hafter, outlines_list]
      refine (readsBack_all fun child hchild => ?_).list
      exact ih child hchild (hchildren child hchild) (hseated child hchild).triviaBefore
        (hseated child hchild).after.triviaOnly
  | @marker text before after hlexical _ =>
    change TriviaOnly before at hbefore
    change TriviaOnly after at hafter
    have hnone : (Node.atom .trivia text before after).listing.filter Token.isWord = [] := by
      rw [listing, List.filter_append, filter_triviaOnly hbefore, List.nil_append,
        List.filter_cons_of_neg (by simp [Token.isWord, Token.isTrivia])]
      exact filter_triviaOnly hafter
    rw [hnone]
    exact Reading.readsBack_nil
  | splice => cases hwritable

/-- Reading a form from its words alone. -/
theorem ofTokens_words {form : Node} {children before after : List Node}
    (hform : form = .list children before after) (h : LegibleForm form)
    (hwritable : form.Writable) :
    ∃ form', ofTokens (form.listing.filter Token.isWord) = .ok form' ∧
      form'.outlines = form.outlines := by
  subst hform
  have hrow := h.legible.row
  cases hwritable with
  | list hmodule hchildren =>
    have hback : Reading.ReadsBack ((listingAll children).filter Token.isWord)
        (outlinesAll children) := by
      refine readsBack_all fun child hchild => ?_
      have hseated := hrow.seated child hchild
      exact (hrow.legible child hchild).readsBack (hchildren child hchild) hseated.triviaBefore
        hseated.after.triviaOnly
    obtain ⟨inner, hinner, houtlines⟩ := hback (1 + Token.opening.newlines) [] [] []
    rw [List.reverse_nil, outlinesAll_nil, List.nil_append] at houtlines
    refine ⟨.list inner.reverse [] [], ofTokens_eq_ok.mpr ?_, ?_⟩
    · have hbefore : TriviaOnly before := h.before.triviaOnly
      have hafter : TriviaOnly after := h.triviaAfter
      rw [filter_listing_list hbefore hafter]
      change Reading.run _ (.inside [] [] []) ((listingAll children).filter Token.isWord ++ _) = _
      rw [Reading.run_append, hinner]
      rfl
    · rw [outlines_list, outlines_list, houtlines]

/-- The tokens of a legible form are closed lexemes. -/
theorem Legible.lexical {node : Node} (h : node.Legible) (hwritable : node.Writable)
    (hbefore : TriviaOnly node.before) (hafter : TriviaOnly node.after) :
    ∀ token ∈ node.listing, token.Lexical := by
  have htrivia : ∀ {nodes : List Node}, TriviaOnly nodes →
      ∀ token ∈ listingAll nodes, token.Lexical := by
    intro nodes hnodes token htoken
    rw [listingAll_eq] at htoken
    obtain ⟨node, hnode, hmem⟩ := List.mem_flatMap.mp htoken
    obtain ⟨text, rfl, hlexical⟩ := hnodes node hnode
    obtain rfl : token = .atom .trivia text := by simpa using hmem
    exact hlexical
  induction h with
  | atom hlexical => simpa using hlexical
  | @list children before after hlegible hseated _ _ ih =>
    cases hwritable with
    | list hmodule hchildren =>
      intro token htoken
      rw [listing] at htoken
      simp only [List.mem_append, List.mem_cons] at htoken
      rcases htoken with htoken | rfl | htoken | rfl | htoken
      · exact htrivia hbefore token htoken
      · exact Token.lexical_opening
      · rw [listingAll_eq] at htoken
        obtain ⟨child, hchild, hmem⟩ := List.mem_flatMap.mp htoken
        exact ih child hchild (hchildren child hchild) (hseated child hchild).triviaBefore
          (hseated child hchild).after.triviaOnly token hmem
      · exact Token.lexical_closing
      · exact htrivia hafter token htoken
  | @marker text before after hlexical _ =>
    intro token htoken
    rw [listing] at htoken
    simp only [List.mem_append, List.mem_cons] at htoken
    rcases htoken with htoken | rfl | htoken
    · exact htrivia hbefore token htoken
    · exact hlexical
    · exact htrivia hafter token htoken
  | splice => cases hwritable

theorem filter_map_ofText (texts : List String) :
    (texts.map Token.ofText).filter Token.isWord =
      (texts.filter (!Atom.isTrivia ·)).map Token.ofText := by
  have hword : ∀ text, (Token.ofText text).isWord = !Atom.isTrivia text := by
    intro text
    rcases Token.ofText_cases text with
      ⟨rfl, -⟩ | ⟨rfl, -⟩ | ⟨htrivia, htoken⟩ | ⟨-, -, htrivia, kind, hkind, htoken⟩
    · decide
    · decide
    · rw [htoken, htrivia]
      rfl
    · rw [htoken, htrivia]
      cases kind with
      | trivia => exact absurd rfl hkind
      | _ => rfl
  rw [List.filter_map]
  exact congrArg _ (List.filter_congr fun text _ => hword text)

/-- A source with the same tokens but for trivia is read as a form of the same outline. -/
theorem read_outlines {source source' : String} {texts texts' : List String} {form : Node}
    (htexts : tokenize source = .ok texts) (htexts' : tokenize source' = .ok texts')
    (hwords : texts.filter (!Atom.isTrivia ·) = texts'.filter (!Atom.isTrivia ·))
    (h : Node.read source = .ok form) :
    ∃ form', Node.read source' = .ok form' ∧ form.outlines = form'.outlines := by
  have htokens : (texts.map Token.ofText).filter Token.isWord =
      (texts'.map Token.ofText).filter Token.isWord := by
    rw [filter_map_ofText, filter_map_ofText, hwords]
  rw [Node.read, WatMacro.tokens, htexts] at h
  rw [Node.read, WatMacro.tokens, htexts']
  exact ofTokens_outlines htokens h

/-- The text of a legible form is read back with the same outline. -/
theorem LegibleForm.reread {form : Node} {text : String} (h : LegibleForm form)
    (hlist : form.isList = true) (hmodule : form.holdsModule = false)
    (htext : form.render = .ok text) :
    ∃ form', Node.read text = .ok form' ∧ form'.outlines = form.outlines := by
  obtain ⟨written, hwritten, rfl⟩ := render_eq_ok htext
  have hwritable := writable_of_pieces hmodule hwritten
  have hlexical := h.legible.lexical hwritable h.before.triviaOnly h.triviaAfter
  rw [(h.legible.spelled hwritable).pieces_eq h.before.triviaOnly h.triviaAfter] at hwritten
  cases hwritten
  cases form with
  | list children before after =>
    have hfollows : (Node.list children before after).texts.IsChain Follows := by
      cases hwritable with
      | list _ hchildren =>
        refine list_follows (h.legible.row.follows hchildren fun child hchild => ?_) h.before
          h.follows
        exact (h.legible.row.legible child hchild).follows (hchildren child hchild)
          (h.legible.row.seated child hchild)
    have hclosed : ∀ text ∈ (Node.list children before after).texts, Closed text.toList := by
      intro text htext
      obtain ⟨token, htoken, rfl⟩ := List.mem_map.mp htext
      exact (hlexical token htoken).closed
    obtain ⟨texts', htexts', hsame⟩ := tokenize_spaceOut hclosed hfollows
    obtain ⟨form', hform', houtlines⟩ := ofTokens_words rfl h hwritable
    have hlisting : (Node.list children before after).texts.map Token.ofText =
        (Node.list children before after).listing := by
      rw [texts, List.map_map]
      exact (List.map_congr_left fun token htoken => (hlexical token htoken).ofText).trans
        (List.map_id _)
    have hwords : ((Node.list children before after).listing.filter Token.isWord).filter
        Token.isWord = (texts'.map Token.ofText).filter Token.isWord := by
      rw [List.filter_filter, filter_map_ofText, hsame, ← filter_map_ofText, hlisting]
      simp
    obtain ⟨form'', hform'', houtlines'⟩ := ofTokens_outlines hwords hform'
    refine ⟨form'', ?_, houtlines'.symm.trans houtlines⟩
    rw [Node.read, WatMacro.tokens, htexts']
    exact hform''
  | _ => cases hlist

end Node

end WatMacro
