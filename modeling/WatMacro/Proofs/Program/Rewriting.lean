import WatMacro.Proofs.Expand.Rewriting
import WatMacro.Proofs.Program.Reread

/-!
# Sources without macros

A source in which no form is headed by a macro, a declaration or `module` expands token by token,
whatever was collected before. The only way for it to fail is a literal that stands for no text.

Results:

* `expandText_rewritten`: the text of an expanded source, and what the expansion collects.
-/

namespace WatMacro

open Expand Node Text

/-- Every literal has a symbol once it is interned. -/
theorem Context.exists_symbol_internAll {context : Context} (hdata : context.data.Consistent)
    {literals : List String} {literal value : String} (hmem : literal ∈ literals)
    (hvalue : Quoted.decode? literal = some value) :
    ∃ symbol, (context.internAll literals).data.symbolOf? value = some symbol := by
  obtain ⟨front, back, rfl⟩ := List.append_of_mem hmem
  have hfront := (context.internAll_reaches front).consistent hdata
  have hone : (context.internAll front).internAll (literal :: back) =
      ((context.internAll front).intern value).2.internAll back := by
    rw [internAll, List.filterMap_cons_some hvalue]
    rfl
  rw [internAll_append, hone]
  have hintern := hfront.intern value
  have hback := ((context.internAll front).intern value).2.internAll_reaches back
  exact ⟨_, hintern.symbolOf?_of_prefix (hback.consistent hintern) hback.extends.literals
    ((hintern.symbolOf?_iff value _).mpr (hfront.mem_intern value))⟩

/-- A source that expands to a single node is written as this node. -/
theorem expandText_of_render {source text : String} {form result : Node} {context next : Context}
    (hread : Node.read source = .ok form) (hexpand : form.expand context = (.ok result, next))
    (hspread : result.spread = [result]) (hrender : result.render = .ok text) :
    expandText source context = (.ok text, next) := by
  have hform : Expand.ofExcept (Node.read source) context = (.ok form, context) := by
    rw [hread]
    rfl
  have hsource : expandSource source context = (.ok [result], next) := by
    rw [expandSource, bind_ok hform, bind_ok hexpand, hspread]
    rfl
  refine expandText_eq_ok_iff.mpr ⟨[result], [text], hsource, ?_, ?_⟩
  · rw [List.mapM_cons, hrender]
    rfl
  · rw [← String.toList_inj, String.toList_join]
    simp

/-- A source in which no list is headed by a macro, a declaration or `module`, and in which the
literals in the place of expressions stand for texts, expands in every context that actions have
made. The text has the tokens of the source, rewritten as their places say and with a space between
any two that run together. The expansion interns the texts of the literals and collects nothing
else. -/
theorem expandText_rewritten (actions : List Context.Action) {source : String} {form : Node}
    (hread : Node.read source = .ok form) (hordinary : form.Ordinary)
    (hdecode : ∀ literal ∈ Mark.literals form.marked, (Quoted.decode? literal).isSome = true) :
    ∃ texts next, tokenize source = .ok texts ∧
      form.marked.map Prod.snd = texts.map Token.ofText ∧
      next = (Context.after actions).internAll (Mark.literals form.marked) ∧
      (∀ literal ∈ Mark.literals form.marked, ∀ value, Quoted.decode? literal = some value →
        ∃ symbol, next.data.symbolOf? value = some symbol) ∧
      expandText source (Context.after actions) =
        (.ok (String.join (separated (form.marked.flatMap (Mark.rewrite next.data)))), next) := by
  obtain ⟨texts, htexts, hlisting⟩ := read_listing hread
  have hform := read_asRead hread
  have hlexical := tokenize_lexical htexts (hform.getLast?_texts hlisting)
  rw [← hlisting] at hlexical
  have hdata := Context.after_data_consistent actions
  obtain ⟨result, hexpand, hreplaces, hrewritten⟩ :=
    hform.rewrites hlexical hordinary (Context.after actions) hdata hdecode
  refine ⟨texts, _, htexts, form.marked_tokens.trans hlisting, rfl, fun literal hliteral value =>
    Context.exists_symbol_internAll hdata hliteral, ?_⟩
  have hconsistent := ((Context.after actions).internAll_reaches
    (Mark.literals form.marked)).consistent hdata
  obtain ⟨hbefore, hafter⟩ := hform.triviaOnly hlexical
  have hpieces := hreplaces.spelled.pieces_eq (hreplaces.before ▸ hbefore)
    (hreplaces.after ▸ hafter)
  rw [hrewritten _ hconsistent List.prefix_rfl, spaceOut_eq_separated] at hpieces
  refine expandText_of_render hread hexpand hreplaces.spelled.spread_eq ?_
  rw [render, hpieces]
  rfl

/-- A call with a comment before its callee, a literal that is new, and a form that is kept. -/
theorem expandText_rewritten_call :
    let source := "(func $f (; ( ;)\n ((; c ;) $g 1\"a\"$x)(br 2))"
    (expandText source (Context.after [.intern "b"])).1 =
      .ok ("(func $f (; ( ;)\n (call $g (i32.const 1) (i32.add (get_global $memoryBase) " ++
        "(get_global $S_STRING_1)) (get_local $x)) (br 2))") := by
  intro source
  have hplain : (Node.read source).toOption.any (fun form => decide (form.Ordinary ∧
      ∀ literal ∈ Mark.literals form.marked, (Quoted.decode? literal).isSome = true)) = true := by
    decide +kernel
  have htext : (Node.read source).toOption.map (fun form =>
      String.join (separated (form.marked.flatMap (Mark.rewrite
        ((Context.after [.intern "b"]).internAll (Mark.literals form.marked)).data)))) =
      some ("(func $f (; ( ;)\n (call $g (i32.const 1) (i32.add (get_global $memoryBase) " ++
        "(get_global $S_STRING_1)) (get_local $x)) (br 2))") := by
    decide +kernel
  cases hread : Node.read source with
  | error error =>
    rw [hread] at hplain
    cases hplain
  | ok form =>
    rw [hread] at hplain htext
    obtain ⟨hordinary, hdecode⟩ := of_decide_eq_true hplain
    obtain ⟨texts, next, -, -, rfl, -, hexpand⟩ :=
      expandText_rewritten [.intern "b"] hread hordinary hdecode
    rw [hexpand]
    exact congrArg Except.ok (Option.some.inj htext)

end WatMacro
