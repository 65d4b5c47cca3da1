import WatMacro.Proofs.Expand.Tabled
import WatMacro.Proofs.Node.Reread
import WatMacro.Proofs.Program.InPlace

/-!
# Trivia carries no meaning

Two sources that have the same tokens but for layout and comments are read as forms of one outline,
or both refused. From one context, forms of one outline are expanded alike: to the same outline or
with the same error, and to the same static data, module names and declarations.

Results:

* `Node.Trimmed.expand_alike_of_eq`: trees whose outlines expand alike do so too.
* `read_expand_alike`: the two together, in every context that actions have made.
-/

namespace WatMacro

open Node

/-! ## Expanding -/

/-- Two outcomes of an expansion that differ in nothing but trivia and attachments. -/
structure Alike (run run' : Except Error Node × Context) : Prop where
  result : (∃ error, run.1 = .error error ∧ run'.1 = .error error) ∨
    ∃ node node', run.1 = .ok node ∧ run'.1 = .ok node' ∧ node.outlines = node'.outlines
  data : run.2.data = run'.2.data
  modules : run.2.modules = run'.2.modules
  hoisted : outlinesAll run.2.hoisted = outlinesAll run'.2.hoisted

theorem alike_of_map_outlines {result result' : Except Error Node}
    (h : result.map Node.outlines = result'.map Node.outlines) :
    (∃ error, result = .error error ∧ result' = .error error) ∨
      ∃ node node', result = .ok node ∧ result' = .ok node' ∧ node.outlines = node'.outlines := by
  cases result with
  | error error =>
    cases result' with
    | error error' =>
      cases h
      exact .inl ⟨error, rfl, rfl⟩
    | ok node' => cases h
  | ok node =>
    cases result' with
    | error error' => cases h
    | ok node' => exact .inr ⟨node, node', rfl, rfl, Except.ok.inj h⟩

/-- Trees expand alike if their outlines do. -/
theorem Node.Trimmed.expand_alike_of_eq {node node' : Node} (h : node.Trimmed) (h' : node'.Trimmed)
    {outline outline' : Outline} (houtline : node.outlines = [outline])
    (houtline' : node'.outlines = [outline'])
    (hexpand : outline'.expand Entering.tabled = outline.expand Entering.tabled)
    {context : Context} (hdata : context.data.Consistent) :
    Alike (node.expand context) (node'.expand context) := by
  have hrun := h.expand_tabled houtline hdata
  rw [← hexpand, h'.expand_tabled houtline' hdata] at hrun
  obtain ⟨hresult, hcontext⟩ := Prod.mk.inj hrun
  obtain ⟨hhoisted, hliterals, hmodules⟩ := Collected.mk.inj hcontext
  exact ⟨alike_of_map_outlines hresult.symm, hliterals.symm, hmodules.symm, hhoisted.symm⟩

/-- Trees that have one outline expand alike. -/
theorem Node.Trimmed.expand_alike {node node' : Node} (h : node.Trimmed) (h' : node'.Trimmed)
    {outline : Outline} (houtline : node.outlines = [outline])
    (houtline' : node'.outlines = [outline]) {context : Context}
    (hdata : context.data.Consistent) : Alike (node.expand context) (node'.expand context) :=
  h.expand_alike_of_eq h' houtline houtline' rfl hdata

/-- Two sources with the same tokens but for trivia are both read or both refused, and if they are
read, they expand alike in every context that actions have made. -/
theorem read_expand_alike (actions : List Context.Action) {source source' : String}
    {texts texts' : List String} (htexts : tokenize source = .ok texts)
    (htexts' : tokenize source' = .ok texts')
    (hwords : texts.filter (!Atom.isTrivia ·) = texts'.filter (!Atom.isTrivia ·)) :
    ((∃ form, Node.read source = .ok form) ↔ ∃ form', Node.read source' = .ok form') ∧
      ∀ form form', Node.read source = .ok form → Node.read source' = .ok form' →
        Alike (form.expand (Context.after actions)) (form'.expand (Context.after actions)) := by
  refine ⟨⟨?_, ?_⟩, fun form form' hform hform' => ?_⟩
  · rintro ⟨form, hform⟩
    obtain ⟨form', hform', -⟩ := Node.read_outlines htexts htexts' hwords hform
    exact ⟨form', hform'⟩
  · rintro ⟨form', hform'⟩
    obtain ⟨form, hform, -⟩ := Node.read_outlines htexts' htexts hwords.symm hform'
    exact ⟨form, hform⟩
  · obtain ⟨other, hother, houtlines⟩ := Node.read_outlines htexts htexts' hwords hform
    cases hform'.symm.trans hother
    obtain ⟨htrimmed, outline, houtline⟩ := (read_asRead hform).exists_outline
    obtain ⟨htrimmed', -⟩ := (read_asRead hform').exists_outline
    exact htrimmed.expand_alike htrimmed' houtline (houtlines ▸ houtline)
      (Context.after_data_consistent actions)

/-- Comments before the name of a declaration and inside of it, with parentheses and names in them,
and a source without any. -/
theorem read_expand_alike_comments :
    let source := "(func $f (global $g i32 \"a\") (AND $x \"b\"))"
    let source' := "(; ( ;)(func ;; $h\n$f(global(; $h ;)$g i32;; \"c\"\n\"a\");; )\n" ++
      "(AND(;;)$x\t\"b\"(; 1 ;)))\n"
    let context := Context.after [.intern "b"]
    ∃ form form', Node.read source = .ok form ∧ Node.read source' = .ok form' ∧
      Alike (form.expand context) (form'.expand context) := by
  intro source source' context
  have htexts : tokenize source = .ok ["(", "func", " ", "$f", " ", "(", "global", " ", "$g", " ",
      "i32", " ", "\"a\"", ")", " ", "(", "AND", " ", "$x", " ", "\"b\"", ")", ")"] := by
    decide +kernel
  have htexts' : tokenize source' = .ok ["(; ( ;)", "(", "func", " ", ";; $h", "\n", "$f", "(",
      "global", "(; $h ;)", "$g", " ", "i32", ";; \"c\"", "\n", "\"a\"", ")", ";; )", "\n", "(",
      "AND", "(;;)", "$x", "\t", "\"b\"", "(; 1 ;)", ")", ")", "\n"] := by
    decide +kernel
  obtain ⟨hread, halike⟩ := read_expand_alike [.intern "b"] htexts htexts' (by decide +kernel)
  have hok : (Node.read source).toOption.isSome = true := by
    decide +kernel
  cases hform : Node.read source with
  | error error =>
    rw [hform] at hok
    cases hok
  | ok form =>
    obtain ⟨form', hform'⟩ := hread.mp ⟨form, hform⟩
    exact ⟨form, form', rfl, hform', halike form form' hform hform'⟩

end WatMacro
