import WatMacro.Proofs.Expand.Outline

/-!
# Literals in place

Instead of keeping a table, an expansion can write what a literal holds right into its address. The
table adds nothing to that: when all sources are expanded, every symbol stands for what would have
been written in its place. Texts that occur again share a literal, arguments of a conjunction are
expanded from the last one back, and later sources enter more literals; still no symbol ever comes
to stand for something else.

Results:

* `Program.addAll_simulates`: a run on the outlines of sources follows their expansion.
* `Program.addAll_inPlace`: the trees and declarations of a program, with the symbols resolved.
-/

namespace WatMacro

open Outline

/-! ## Expansion without a table -/

/-- A literal stands where it is used, and nothing is kept. -/
def Entering.inPlace : Entering Unit :=
  fun content _ => (.ok (.entry content), ())

/-- The trees that forms become, and the declarations that they hoist, if literals stand in
place. -/
def Outline.expandInPlace (forms : List Outline) : Except Error (List Outline × List Outline) :=
  match expandAll Entering.inPlace forms ⟨[], (), []⟩ with
  | (.ok trees, collected) => .ok (trees, collected.hoisted)
  | (.error error, _) => .error error

/-! ## Symbols -/

/-- Whether a text begins like the symbol of a literal. -/
def isSymbolLike (text : String) : Bool :=
  "$S_STRING_".toList.isPrefixOf text.toList || "$S_STATIC_ARRAY_".toList.isPrefixOf text.toList

theorem Content.isSymbolLike_symbol (content : Content) (position : Nat) :
    isSymbolLike (content.symbol position) = true := by
  rw [isSymbolLike, Bool.or_eq_true, List.isPrefixOf_iff_prefix, List.isPrefixOf_iff_prefix]
  cases content with
  | text value =>
    left
    rw [Content.symbol, String.toList_append]
    exact List.prefix_append _ _
  | zeroed length =>
    right
    rw [Content.symbol, String.toList_append]
    exact List.prefix_append _ _

namespace StaticData

/-- Only the symbols of literals stand for something. -/
theorem Consistent.contentOf?_eq_none {data : StaticData} (h : data.Consistent) {text : String}
    (htext : isSymbolLike text = false) : data.contentOf? text = none := by
  have hnone : data.literals.find? (fun literal => literal.symbol == text) = none := by
    rw [List.find?_eq_none]
    intro literal hliteral hsymbol
    obtain ⟨i, hi, rfl⟩ := List.mem_iff_getElem.mp hliteral
    have hlike := (data.literals[i].content).isSymbolLike_symbol i
    rw [← h.symbol_eq i _ (List.getElem?_eq_getElem hi), eq_of_beq hsymbol, htext] at hlike
    cases hlike
  rw [contentOf?, hnone]
  rfl

/-- A symbol of an earlier table stands for the same content in a later one. -/
theorem Consistent.resolve_symbol {data later : StaticData} (h : later.Consistent)
    (hlater : data.literals <+: later.literals) {literal : Literal}
    (hmem : literal ∈ data.literals) :
    resolve later.contentOf? (.word .name literal.symbol) = .entry literal.content :=
  resolve_name_of_some (h.contentOf?_eq (hlater.subset hmem))

end StaticData

/-- Expansion without a table, beside one that ends with the given table. -/
def Link.inPlace {final : StaticData} (h : final.Consistent) : Link Unit where
  entering := .inPlace
  find := final.contentOf?
  agrees _ _ := True
  below data := data.literals <+: final.literals
  faithful := False
  find_base := h.contentOf?_eq_none (by decide)
  below_of_prefix hprefix hlater := hprefix.trans hlater
  text value hdata _ hbelow :=
    ⟨(), by rw [h.resolve_symbol hbelow (hdata.mem_intern value)]; rfl, trivial⟩
  array _ _ _ hbelow :=
    ⟨(), by rw [h.resolve_symbol hbelow (StaticData.mem_allocate _ _)]; rfl, trivial⟩
  tooLarge hfaithful := hfaithful.elim

/-! ## Sources -/

theorem Node.FormAsRead.exists_outline {form : Node} (h : form.FormAsRead) :
    form.Trimmed ∧ ∃ outline, form.outlines = [outline] := by
  cases h with
  | list hchildren hbefore hafter =>
    exact ⟨.list (fun child hchild => (hchildren.asRead child hchild).trimmed) hbefore hafter,
      _, Node.outlines_list _ _ _⟩

/-- A run on the outlines of sources follows their expansion, if nothing is found for the names in
them. -/
theorem Program.addAll_simulates {σ : Type} {link : Link σ} {sources : List String}
    {program final : Program} {collected : Collected σ}
    (hnames : ∀ source ∈ sources, ∀ form, Node.read source = .ok form →
      ∀ text, Token.atom .name text ∈ form.listing → link.find text = none)
    (hagrees : link.Agrees program.context collected) (h : program.addAll sources = .ok final)
    (hbelow : link.below final.context.data) :
    ∃ forms trees collected', sources.mapM Node.read = .ok forms ∧
      Outline.expandAll link.entering (Node.outlinesAll forms) collected = (.ok trees, collected') ∧
      resolveAll link.find (Node.outlinesAll final.items) =
        resolveAll link.find (Node.outlinesAll program.items) ++ trees ∧
      link.Agrees final.context collected' := by
  induction sources generalizing program collected with
  | nil =>
    cases h
    exact ⟨[], [], collected, rfl, rfl, (List.append_nil _).symm, hagrees⟩
  | cons source sources ih =>
    obtain ⟨nodes, next, hadd, hrest⟩ := Program.addAll_cons_eq_ok h
    obtain ⟨hsource, hitems⟩ := Program.add_eq_ok hadd
    obtain ⟨form, node, hread, hexpand, rfl⟩ := expandSource_eq_ok hsource
    obtain ⟨htrimmed, outline, houtline⟩ := (Node.read_asRead hread).exists_outline
    obtain ⟨hnamesFirst, hnamesRest⟩ := List.forall_mem_cons.mp hnames
    -- later sources only add to the table, so the link to the final one covers this source too
    have hsimulates := htrimmed.expand_simulates (hnamesFirst form hread) houtline
    obtain ⟨_, middle, hrun, hrelated, hmiddle⟩ := hsimulates hagrees hexpand
      (link.below_of_reaches (Program.addAll_reaches hrest) hbelow) fun _ herror => by cases herror
    cases hrelated with
    | @ok _ result hresult =>
      obtain ⟨forms, trees, collected', hforms, htrees, hfinal, hagrees'⟩ :=
        ih hnamesRest hmiddle hrest
      refine ⟨form :: forms, result.flatMap Outline.spread ++ trees, collected', ?_, ?_, ?_,
        hagrees'⟩
      · rw [List.mapM_cons, hread, hforms]
        rfl
      · rw [Node.outlinesAll_cons, houtline, List.singleton_append]
        exact (Run.bind_ok hrun _).trans (Run.bind_ok htrees _)
      · rw [hfinal, hitems, Node.outlinesAll_append, resolveAll_append, hresult.spread.eq,
          List.append_assoc]

/-- The outlines of nodes, with the content of its literal in the place of every symbol. -/
def Program.resolved (program : Program) (nodes : List Node) : List Outline :=
  resolveAll program.context.data.contentOf? (Node.outlinesAll nodes)

/-- Where no source uses a name that begins like the symbol of a literal, resolving all symbols of a
program by its final table gives what the sources become with every literal in place. -/
theorem Program.addAll_inPlace {sources : List String} {program : Program}
    (hnames : ∀ source ∈ sources, ∀ texts, tokenize source = .ok texts →
      ∀ text ∈ texts, isSymbolLike text = false)
    (h : Program.empty.addAll sources = .ok program) :
    ∃ forms, sources.mapM Node.read = .ok forms ∧
      expandInPlace (Node.outlinesAll forms) = .ok
        (program.resolved program.items, program.resolved program.context.hoisted) := by
  have hdata : program.context.data.Consistent :=
    (Program.addAll_reaches h).consistent StaticData.empty_consistent
  have hfind : ∀ source ∈ sources, ∀ form, Node.read source = .ok form →
      ∀ text, Token.atom .name text ∈ form.listing →
        program.context.data.contentOf? text = none := by
    intro source hsource form hread text htext
    obtain ⟨texts, htexts, hlisting⟩ := Node.read_listing hread
    rw [hlisting] at htext
    obtain ⟨other, hother, heq⟩ := List.mem_map.mp htext
    obtain rfl : other = text := by rw [← Token.text_ofText other, heq, Token.text]
    exact hdata.contentOf?_eq_none (hnames source hsource texts htexts other hother)
  have hempty : (Link.inPlace hdata).Agrees Program.empty.context ⟨[], (), []⟩ :=
    ⟨StaticData.empty_consistent, trivial, rfl, rfl⟩
  obtain ⟨forms, trees, collected, hforms, htrees, hitems, hagrees⟩ :=
    Program.addAll_simulates hfind hempty h List.prefix_rfl
  have htrees' : Outline.expandAll Entering.inPlace (Node.outlinesAll forms) ⟨[], (), []⟩ =
      (.ok trees, collected) := htrees
  have hitems' : program.resolved program.items = trees := hitems
  have hhoisted : program.resolved program.context.hoisted = collected.hoisted := hagrees.hoisted
  refine ⟨forms, hforms, ?_⟩
  rw [expandInPlace, htrees', hitems', hhoisted]

/-- The second argument of the conjunction is entered first, and its text is used again by a later
source, after the table has grown. -/
theorem Program.addAll_inPlace_shared_text :
    let sources := ["(func (AND \"a\" \"b\"))", "(global $x i32 (STATIC_ARRAY 3))", "(func \"b\")"]
    ∃ program forms, Program.empty.addAll sources = .ok program ∧
      program.context.data.literals.map (·.content) = [.text "b", .text "a", .zeroed 3] ∧
      sources.mapM Node.read = .ok forms ∧
      expandInPlace (Node.outlinesAll forms) = .ok
        (program.resolved program.items, program.resolved program.context.hoisted) := by
  intro sources
  have hnames : ∀ source ∈ sources, ((tokenize source).toOption.getD []).all
      (fun text => !isSymbolLike text) = true := by
    decide +kernel
  have hliterals : (Program.empty.addAll sources).toOption.map
      (·.context.data.literals.map (·.content)) = some [.text "b", .text "a", .zeroed 3] := by
    decide +kernel
  cases h : Program.empty.addAll sources with
  | error error =>
    rw [h] at hliterals
    cases hliterals
  | ok program =>
    obtain ⟨forms, hforms, hinPlace⟩ := Program.addAll_inPlace (fun source hsource texts htexts
      text htext => by
        have hall := hnames source hsource
        rw [htexts] at hall
        simpa using List.all_eq_true.mp hall text htext) h
    rw [h] at hliterals
    exact ⟨program, forms, rfl, Option.some.inj hliterals, hforms, hinPlace⟩

end WatMacro
