import WatMacro.Proofs.Expand.Legible
import WatMacro.Proofs.Node.Reread

/-!
# Reading an expanded source

The text of a source that is expanded on its own has the tree that the expansion has made: nothing
is glued together, split, or swallowed by a comment.

Results:

* `expandText_reread`: the text of an expanded source is read with the outline of its expansion.
-/

namespace WatMacro

open Expand Node

theorem expandText_eq_ok_iff {source text : String} {context next : Context} :
    expandText source context = (.ok text, next) ↔
      ∃ nodes texts, expandSource source context = (.ok nodes, next) ∧
        nodes.mapM Node.render = .ok texts ∧ text = String.join texts := by
  unfold expandText
  constructor
  · intro h
    cases hsource : expandSource source context with
    | mk result after =>
      rw [hsource] at h
      cases result with
      | error error => cases h
      | ok nodes =>
        cases hrender : nodes.mapM Node.render with
        | error error =>
          simp only [hrender] at h
          cases h
        | ok texts =>
          simp only [hrender] at h
          cases h
          exact ⟨nodes, texts, rfl, hrender, rfl⟩
  · rintro ⟨nodes, texts, hsource, hrender, rfl⟩
    rw [hsource]
    simp only [hrender]

theorem expandText_eq_ok {source text : String} {context next : Context}
    (h : expandText source context = (.ok text, next)) :
    ∃ form node texts, Node.read source = .ok form ∧ form.expand context = (.ok node, next) ∧
      node.spread.mapM Node.render = .ok texts ∧ text = String.join texts := by
  obtain ⟨nodes, texts, hsource, hrender, rfl⟩ := expandText_eq_ok_iff.mp h
  obtain ⟨form, node, hread, hexpand, rfl⟩ := expandSource_eq_ok hsource
  exact ⟨form, node, texts, hread, hexpand, hrender, rfl⟩

/-- The text of a source that is expanded on its own, in a context that actions have made, is read
with the outline of its expansion. The source hoists nothing and declares no locals at its root, no
line comment of it stands right after an opening parenthesis, and no list of the expansion is
written as a module. -/
theorem expandText_reread (actions : List Context.Action) (source text : String) (next : Context)
    (htext : expandText source (Context.after actions) = (.ok text, next))
    (hhoisted : next.hoisted = (Context.after actions).hoisted)
    (hopening : ∀ texts, tokenize source = .ok texts →
      texts.IsChain fun left right => left = "(" → isLineComment right = false) :
    ∃ form node, Node.read source = .ok form ∧
      form.expand (Context.after actions) = (.ok node, next) ∧
      ((∀ head ∈ form.words.head?, head.text? ≠ some Builtin.bindLocals.keyword) →
        node.holdsModule = false →
        ∃ reread, Node.read text = .ok reread ∧ reread.outlines = node.outlines) := by
  obtain ⟨form, node, texts, hread, hexpand, hrender, rfl⟩ := expandText_eq_ok htext
  refine ⟨form, node, hread, hexpand, fun hhead hmodule => ?_⟩
  have hdata := Context.after_data_consistent actions
  have hasRead := read_asRead hread
  have hform := read_legible hread hopening
  have hlist := hasRead.expand_isList hform.legible hhead _ _ _ hdata hexpand hhoisted
  have hstands := hasRead.expand_stands hform.legible _ _ _ hdata hexpand hhoisted
  have hspread : node.spread = [node] := by
    cases node with
    | splice => cases hlist
    | _ => rfl
  have hword : form.isWord = true := by
    cases hasRead
    rfl
  obtain ⟨hlegible, -, hbefore, hafter⟩ :=
    (hstands.word hword).2 node (by rw [hspread]; exact List.mem_singleton.mpr rfl)
  have hnode : LegibleForm node := by
    refine ⟨hlegible, ?_, ?_, ?_⟩
    · rw [hbefore]
      exact hform.before
    · rw [hafter]
      exact hform.triviaAfter
    · rw [hafter]
      exact hform.follows
  have hrendered : node.render = .ok (String.join texts) := by
    rw [hspread] at hrender
    cases hone : node.render with
    | error error =>
      rw [List.mapM_cons, hone] at hrender
      cases hrender
    | ok one =>
      rw [List.mapM_cons, hone] at hrender
      cases hrender
      simp
  exact hnode.reread hlist hmodule hrendered

theorem expandText_reread_let :
    let source := "(func ;; (\n(LET $a 1)(CHR \")\"))"
    ∃ form node text reread, Node.read source = .ok form ∧
      (form.expand (Context.after [])).1 = .ok node ∧
      (expandText source (Context.after [])).1 = .ok text ∧
      Node.read text = .ok reread ∧ reread.outlines = node.outlines := by
  intro source
  have hopening : ∀ texts, tokenize source = .ok texts →
      texts.IsChain fun left right => left = "(" → isLineComment right = false := by
    have htokens : tokenize source = .ok ["(", "func", " ", ";; (", "\n", "(", "LET", " ", "$a",
        " ", "1", ")", "(", "CHR", " ", "\")\"", ")", ")"] := by
      decide +kernel
    intro texts htexts
    cases htokens.symm.trans htexts
    decide
  have htext : (expandText source (Context.after [])).1 = .ok ("(func ;; (\n(local $a i32) " ++
      "(set_local $a (i32.const 1)) (i32.const 0x29 (; \")\" ;)))") := by
    decide +kernel
  obtain ⟨form, node, hform, hnode, hreread⟩ := expandText_reread [] source _
    (expandText source (Context.after [])).2 (Prod.ext htext rfl)
    (List.isEmpty_iff.mp (by decide +kernel)) hopening
  have hhead : ((Node.read source).toOption.bind fun form => form.words.head?).bind Node.text? =
      some "func" := by
    decide +kernel
  have hmodule : ((Node.read source).toOption.bind fun form =>
      (form.expand (Context.after [])).1.toOption).map Node.holdsModule = some false := by
    decide +kernel
  rw [hform] at hhead hmodule
  rw [Except.toOption, Option.bind_some] at hhead hmodule
  rw [hnode] at hmodule
  obtain ⟨reread, hread, houtlines⟩ := hreread (fun head hfirst hlet => by
    rw [Option.mem_def.mp hfirst, Option.bind_some, hlet] at hhead
    exact absurd hhead (by decide)) (Option.some.inj hmodule)
  exact ⟨form, node, _, reread, hform, by rw [hnode], htext, hread, houtlines⟩

end WatMacro
