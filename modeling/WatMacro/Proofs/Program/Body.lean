import WatMacro.Proofs.Node.Written
import WatMacro.Proofs.Program.Session

/-!
# The body of a module

The body of a module is made of the items of all sources, written one right after the other. Each
item has a text with tokens of its own, and in the body these tokens should stand one item after the
other.

**Deviation.** An item carries the layout after the form of its source, up to a line comment at the
end of the source that no newline ends. That comment swallows the first line of the next item. It is
the one way in which items get into each other, as long as every comment and every literal of an
item ends in the item: as long as no line comment, be it one of a source or the header of a module,
stands right after an opening parenthesis, where a `;)` of a later item would make a block comment
of all that is between, and no label of a declaration ends the comment that it is named in
(`Module.preprocess_body_swallowed`).

Results:

* `Program.addAll_items`: what is known of the items of a program.
* `Module.preprocess_body`: when the tokens of the body are those of the items.
-/

namespace WatMacro

open Expand Lexeme Node

/-! ## Items -/

/-- What a source contributes: lists and block comments that can be read back. -/
theorem expandSource_items {source : String} {context next : Context} {nodes : List Node}
    {declarations : List Node} (h : expandSource source context = (.ok nodes, next))
    (hopening : ∀ texts, tokenize source = .ok texts →
      texts.IsChain fun left right => left = "(" → isLineComment right = false)
    (hdata : context.data.Consistent) (hhoisted : next.hoisted = context.hoisted ++ declarations)
    (hlabels : ∀ declaration ∈ declarations, Form.PlainLabel declaration) :
    ∀ item ∈ nodes, LegibleForm item ∧ item.isBracketed = true := by
  obtain ⟨form, node, hread, hexpand, rfl⟩ := expandSource_eq_ok h
  have hasRead := read_asRead hread
  have hform := read_legible hread hopening
  have hstands := hasRead.expand_stands_of_quiet (fun _ hlabel => hlabel) hform.legible context next
    node declarations hdata hexpand hhoisted hlabels
  have hlist : form.isList = true := by
    cases hasRead
    rfl
  have hword : form.isWord = true := by
    cases hasRead
    rfl
  intro item hitem
  obtain ⟨hlegible, -, hbefore, hafter⟩ := (hstands.word hword).2 item hitem
  refine ⟨⟨hlegible, ?_, ?_, ?_⟩, hstands.list hlist item hitem⟩
  · rw [hbefore]
    exact hform.before
  · rw [hafter]
    exact hform.triviaAfter
  · rw [hafter]
    exact hform.follows

theorem Program.addAll_items {sources : List String} {program final : Program}
    (h : program.addAll sources = .ok final)
    (hopening : ∀ source ∈ sources, ∀ texts, tokenize source = .ok texts →
      texts.IsChain fun left right => left = "(" → isLineComment right = false)
    (hdata : program.context.data.Consistent)
    (hlabels : ∀ declaration ∈ final.context.hoisted, Form.PlainLabel declaration)
    (hitems : ∀ item ∈ program.items, LegibleForm item ∧ item.isBracketed = true) :
    ∀ item ∈ final.items, LegibleForm item ∧ item.isBracketed = true := by
  induction sources generalizing program with
  | nil =>
    cases h
    exact hitems
  | cons source sources ih =>
    obtain ⟨nodes, next, hadd, hrest⟩ := Program.addAll_cons_eq_ok h
    obtain ⟨hsource, hnext⟩ := Program.add_eq_ok hadd
    obtain ⟨hfirst, hopeningRest⟩ := List.forall_mem_cons.mp hopening
    have hreach : Context.Reaches program.context next.context := by
      have := program.add_reaches source
      rwa [hadd] at this
    obtain ⟨declarations, hdeclarations⟩ := hreach.extends.hoisted
    -- what this source hoists is among what all sources hoist
    have hsubset : ∀ declaration ∈ declarations, declaration ∈ final.context.hoisted :=
      fun declaration hmem => (Program.addAll_reaches hrest).extends.hoisted.subset
        (hdeclarations ▸ List.mem_append_right _ hmem)
    have hnodes := expandSource_items hsource hfirst hdata hdeclarations.symm
      fun declaration hmem => hlabels declaration (hsubset declaration hmem)
    refine ih hrest hopeningRest (hreach.consistent hdata) fun item hitem => ?_
    rw [hnext] at hitem
    exact (List.mem_append.mp hitem).elim (hitems item) (hnodes item)

namespace Module

/-! ## Significant tokens -/

theorem toList_significant (texts : List String) :
    (significant texts).map String.toList =
      (texts.map String.toList).filter (!isSpaceRun ·) := by
  rw [significant, List.filter_map]
  rfl

/-- A row of lexemes is split into tokens that are the same but for white space. -/
theorem tokenize_of_isRow {text : String} {row : List (List Char)} (h : IsRow row)
    (htext : row.flatten = text.toList) :
    ∃ texts, tokenize text = .ok texts ∧
      (significant texts).map String.toList = row.filter (!isSpaceRun ·) := by
  obtain ⟨hstuck, hfilter⟩ := lexemes_flatten_of_loose h.closed h.apart
  have htexts : ((lexemes row.flatten).1.map String.ofList).map String.toList =
      (lexemes row.flatten).1 := by
    simp [Function.comp_def]
  refine ⟨(lexemes row.flatten).1.map String.ofList, ?_, ?_⟩
  · rw [tokenize_eq_ok_iff, ← htext, htexts]
    exact Prod.ext rfl hstuck
  · rw [toList_significant, htexts, hfilter]

/-- The tokens of a text are given ones but for white space just if its lexemes are. -/
theorem tokenize_significant_iff {text : String} {expected : List String} :
    (∃ texts, tokenize text = .ok texts ∧ significant texts = expected) ↔
      (lexemes text.toList).2 = [] ∧
        (lexemes text.toList).1.filter (!isSpaceRun ·) = expected.map String.toList := by
  have hinjective : Function.Injective (List.map String.toList) :=
    List.map_injective_iff.mpr fun _ _ => String.toList_inj.mp
  constructor
  · rintro ⟨texts, htexts, rfl⟩
    rw [tokenize_eq_ok_iff] at htexts
    rw [htexts, toList_significant]
    exact ⟨rfl, rfl⟩
  · rintro ⟨hstuck, hfilter⟩
    have htexts : ((lexemes text.toList).1.map String.ofList).map String.toList =
        (lexemes text.toList).1 := by
      simp [Function.comp_def]
    refine ⟨(lexemes text.toList).1.map String.ofList, ?_, hinjective ?_⟩
    · rw [tokenize_eq_ok_iff, htexts]
      exact Prod.ext rfl hstuck
    · rw [toList_significant, htexts, hfilter]

/-! ## Items in a row -/

/-- Items that can be written, their lexemes, and the tokens of each of them. -/
theorem exists_passages {items : List Node} {body : List String}
    (hitems : ∀ item ∈ items, LegibleForm item ∧ item.isBracketed = true)
    (hleading : ∀ item ∈ items, item.holdsLeadingModule = false)
    (h : items.mapM Node.render = .ok body) :
    ∃ rows parts, List.Forall₂ Passage items rows ∧ (∀ row ∈ rows, IsPassage row) ∧
      rows.flatten.flatten = (String.join body).toList ∧ body.mapM tokenize = .ok parts ∧
      (parts.flatMap significant).map String.toList = rows.flatten.filter (!isSpaceRun ·) := by
  induction items generalizing body with
  | nil =>
    cases h
    exact ⟨[], [], .nil, fun _ h => absurd h List.not_mem_nil, rfl, rfl, rfl⟩
  | cons item items ih =>
    obtain ⟨⟨hform, hbracketed⟩, hitems⟩ := List.forall_mem_cons.mp hitems
    obtain ⟨hfirst, hleading⟩ := List.forall_mem_cons.mp hleading
    rw [List.mapM_cons] at h
    obtain ⟨text, htext, hmore⟩ := exists_of_except_bind h
    obtain ⟨texts, htexts, heq⟩ := exists_of_except_bind hmore
    cases heq
    obtain ⟨rows, parts, hrows, hpassages, hflatten, hparts, hsignificant⟩ :=
      ih hitems hleading htexts
    obtain ⟨row, hrow, hchars⟩ := hform.passage hbracketed hfirst htext
    obtain ⟨part, hpart, hwords⟩ := tokenize_of_isRow hrow.toIsRow hchars
    refine ⟨row :: rows, part :: parts, .cons hrow hrows,
      List.forall_mem_cons.mpr ⟨hrow.toIsPassage, hpassages⟩, ?_, ?_, ?_⟩
    · rw [List.flatten_cons, List.flatten_append, hchars, hflatten, String.join_cons,
        String.toList_append]
    · rw [List.mapM_cons, hpart, hparts]
      rfl
    · rw [List.flatMap_cons, List.map_append, hwords, hsignificant, List.flatten_cons,
        List.filter_append]

/-- Neighbours in two rows that go together. -/
theorem isChain_iff_of_forall₂ {α β : Type} {R : α → β → Prop} {S : α → α → Prop}
    {T : β → β → Prop} {as : List α} {bs : List β} (h : List.Forall₂ R as bs)
    (hiff : ∀ a a' b b', R a b → R a' b' → (S a a' ↔ T b b')) :
    as.IsChain S ↔ bs.IsChain T := by
  induction h with
  | nil => exact iff_of_true .nil .nil
  | cons hfirst hrest ih =>
    cases hrest with
    | nil => exact iff_of_true (.singleton _) (.singleton _)
    | cons hsecond _ => rw [List.isChain_cons_cons, List.isChain_cons_cons, ih,
      hiff _ _ _ _ hfirst hsecond]

theorem endsLine_iff {item next : Node} {row nextRow : List (List Char)} (h : Passage item row)
    (hnext : Passage next nextRow) :
    (item.endsInComment = true → next.beginsWithNewline = true) ↔ EndsLine row nextRow := by
  rw [EndsLine, hnext.first]
  obtain ⟨last, hlast⟩ : ∃ last, row.getLast? = some last :=
    ⟨_, List.getLast?_eq_some_getLast h.nonempty⟩
  have heager := h.last last hlast
  constructor
  · intro himp other hother hyes
    exact himp (by rw [← h.last other hother, hyes])
  · intro hall hcomment
    exact hall last hlast (heager.trans hcomment)

/-- The body of the module that is made of some sources. Every item has tokens of its own, and the
body has the same ones but for white space, item after item, exactly if after each item that a line
comment ends comes one that begins with a newline. No line comment of the sources stands right after
an opening parenthesis, no module begins a list, and no label of a declaration ends a comment. -/
theorem preprocess_body {sources : List String} {pages : UInt32} {module : String}
    (h : preprocess sources pages = .ok module)
    (hopening : ∀ source ∈ sources, ∀ texts, tokenize source = .ok texts →
      texts.IsChain fun left right => left = "(" → isLineComment right = false) :
    ∃ program front body, Program.empty.addAll sources = .ok program ∧
      program.items.mapM Node.render = .ok body ∧ module = front ++ String.join body ++ "\n)" ∧
      ((∀ declaration ∈ program.context.hoisted, Form.PlainLabel declaration) →
        (∀ item ∈ program.items, item.holdsLeadingModule = false) →
        ∃ parts, body.mapM tokenize = .ok parts ∧
          ((∃ tokens, tokenize (String.join body) = .ok tokens ∧
              significant tokens = parts.flatMap significant) ↔
            program.items.IsChain fun item next =>
              item.endsInComment = true → next.beginsWithNewline = true)) := by
  obtain ⟨program, body, declarations, hprogram, -, hbody, -, hmodule⟩ := preprocess_eq_ok h
  refine ⟨program, _, body, hprogram, hbody, hmodule, fun hlabels hleading => ?_⟩
  have hitems := Program.addAll_items hprogram hopening StaticData.empty_consistent hlabels
    fun _ hitem => absurd hitem List.not_mem_nil
  obtain ⟨rows, parts, hrows, hpassages, hflatten, hparts, hsignificant⟩ :=
    exists_passages hitems hleading hbody
  refine ⟨parts, hparts, ?_⟩
  rw [tokenize_significant_iff, ← hflatten, hsignificant, lexemes_flatten_iff hpassages]
  exact (isChain_iff_of_forall₂ hrows fun _ _ _ _ => endsLine_iff).symm

/-- Three sources, each of which ends or begins with a comment or a new line. -/
theorem preprocess_body_four_items :
    let sources := ["(module $m (global $g i32 7)) ;; first\n", "(LET $a 1) (; b ;)",
      "\n(func $f(call $g)) ;; last"]
    ∃ program body parts tokens, Program.empty.addAll sources = .ok program ∧
      program.items.mapM Node.render = .ok body ∧ body.mapM tokenize = .ok parts ∧
      tokenize (String.join body) = .ok tokens ∧
      significant tokens = parts.flatMap significant := by
  intro sources
  have hok : (preprocess sources 1).toOption.isSome = true := by decide +kernel
  have hopening : ∀ source ∈ sources, ∀ texts ∈ (tokenize source).toOption,
      texts.IsChain fun left right => left = "(" → isLineComment right = false := by
    decide +kernel
  -- what the theorem asks for of the program
  have hchecks : (Program.empty.addAll sources).toOption.map (fun program =>
      (program.context.hoisted.map fun declaration =>
          (declaration.children.filter Node.isWord)[1]?.bind Node.text?,
        program.items.map fun item =>
          (item.holdsLeadingModule, item.endsInComment, item.beginsWithNewline))) =
      some ([some "$g"], [(false, false, false), (false, false, false), (false, false, false),
        (false, true, true)]) := by
    decide +kernel
  cases hmodule : preprocess sources 1 with
  | error error =>
    rw [hmodule] at hok
    cases hok
  | ok module =>
    obtain ⟨program, front, body, hprogram, hbody, -, hparts⟩ :=
      preprocess_body hmodule fun source hsource texts htexts =>
        hopening source hsource texts (by rw [htexts]; rfl)
    rw [hprogram] at hchecks
    obtain ⟨hlabels, hitems⟩ := Prod.mk.inj (Option.some.inj hchecks)
    have hplain : ∀ declaration ∈ program.context.hoisted, Form.PlainLabel declaration := by
      intro declaration hdeclaration
      have hlabel := List.mem_map_of_mem (f := fun declaration : Node =>
        (declaration.children.filter Node.isWord)[1]?.bind Node.text?) hdeclaration
      rw [hlabels, List.mem_singleton] at hlabel
      exact Form.plainLabel_of_text? hlabel (by decide)
    have hleading : ∀ item ∈ program.items, item.holdsLeadingModule = false := by
      intro item hitem
      have hmem := List.mem_map_of_mem (f := fun item : Node =>
        (item.holdsLeadingModule, item.endsInComment, item.beginsWithNewline)) hitem
      rw [hitems] at hmem
      simp only [List.mem_cons, List.not_mem_nil, or_false, Prod.mk.injEq] at hmem
      rcases hmem with h | h | h | h <;> exact h.1
    have hchain : program.items.IsChain fun item next =>
        item.endsInComment = true → next.beginsWithNewline = true := by
      have hmap := List.isChain_map (R := fun before after : Bool × Bool × Bool =>
        before.2.1 = true → after.2.2 = true) (fun item : Node =>
        (item.holdsLeadingModule, item.endsInComment, item.beginsWithNewline)) (l := program.items)
      rw [hitems] at hmap
      exact hmap.mp (by decide)
    obtain ⟨parts, hparts, hiff⟩ := hparts hplain hleading
    obtain ⟨tokens, htokens, hsignificant⟩ := hiff.mpr hchain
    exact ⟨program, body, parts, tokens, hprogram, hbody, hparts, htokens, hsignificant⟩

/-- **Deviation.** The first source ends with a line comment, which swallows the second source. -/
theorem preprocess_body_swallowed :
    let sources := ["(func) ;; c", "(func $g)"]
    ∃ module program front parts tokens, preprocess sources 256 = .ok module ∧
      Program.empty.addAll sources = .ok program ∧ program.items.mapM Node.render = .ok sources ∧
      module = front ++ String.join sources ++ "\n)" ∧
      sources.mapM tokenize = .ok parts ∧ tokenize (String.join sources) = .ok tokens ∧
      parts.flatMap significant = ["(", "func", ")", ";; c", "(", "func", "$g", ")"] ∧
      significant tokens = ["(", "func", ")", ";; c(func $g)"] := by
  intro sources
  have hok : (preprocess sources 256).toOption.isSome = true := by decide +kernel
  cases hmodule : preprocess sources 256 with
  | error error =>
    rw [hmodule] at hok
    cases hok
  | ok module =>
    obtain ⟨program, body, declarations, hprogram, -, hbody, -, htext⟩ := preprocess_eq_ok hmodule
    have hwritten : (Program.empty.addAll sources).toOption.map (fun program =>
        (program.items.mapM Node.render).toOption) = some (some sources) := by
      decide +kernel
    rw [hprogram] at hwritten
    have hsources : (program.items.mapM Node.render).toOption = some sources :=
      Option.some.inj hwritten
    rw [hbody] at hsources
    obtain rfl : body = sources := Option.some.inj hsources
    have hparts : sources.mapM tokenize = .ok [["(", "func", ")", " ", ";; c"],
        ["(", "func", " ", "$g", ")"]] := by
      decide +kernel
    have htokens :
        tokenize (String.join sources) = .ok ["(", "func", ")", " ", ";; c(func $g)"] := by
      decide +kernel
    exact ⟨module, program, _, _, _, rfl, hprogram, hbody, htext, hparts, htokens, by decide,
      by decide⟩

end Module

end WatMacro
