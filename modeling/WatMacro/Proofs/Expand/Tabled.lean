import WatMacro.Proofs.Expand.Outline

/-!
# Expansion depends on outlines

A run on outlines that keeps the literals in a table does what expansion does, but for trivia and
attachments: it fails with the same errors, makes the same table, and collects the same
declarations.

Results:

* `Node.Trimmed.expand_tabled`: the run on the outline of a tree is its expansion, outlined.
-/

namespace WatMacro

open Outline

/-- Literals are entered into a table, and their symbols stand for them. -/
def Entering.tabled : Entering StaticData := fun content data =>
  match content with
  | .text value =>
    let (symbol, data) := data.intern value
    (.ok (.word .name symbol), data)
  | .zeroed length =>
    if addSaturating (addSaturating data.size length) 1 ≤ Builtin.addressSpace then
      let (symbol, data) := data.allocate length
      (.ok (.word .name symbol), data)
    else
      (.error (.argument .staticArray (.tooLarge length)), data)

/-- A table on both sides. -/
def Link.tabled : Link StaticData where
  entering := .tabled
  find _ := none
  agrees data state := state = data
  below _ := True
  faithful := True
  find_base := rfl
  below_of_prefix _ _ := trivial
  text value _ hstate _ := by
    subst hstate
    exact ⟨_, by rw [resolve_name_of_none rfl]; rfl, rfl⟩
  array _ hfits hstate _ := by
    subst hstate
    refine ⟨_, ?_, rfl⟩
    rw [resolve_name_of_none rfl, Entering.tabled]
    exact if_pos hfits
  tooLarge _ hfits hstate := by
    subst hstate
    exact if_neg hfits

/-- What a context holds, with the outlines of the declarations. -/
def Context.outlined (context : Context) : Collected StaticData :=
  ⟨Node.outlinesAll context.hoisted, context.data, context.modules⟩

theorem Node.resolve_none (nodes : List Node) :
    resolveAll (fun _ => none) (outlinesAll nodes) = outlinesAll nodes :=
  resolve_outlinesAll fun _ _ => resolve_outlines fun _ _ => rfl

theorem Context.agrees_outlined {context : Context} (h : context.data.Consistent) :
    Link.tabled.Agrees context context.outlined :=
  ⟨h, rfl, Node.resolve_none _, rfl⟩

theorem Link.Agrees.eq_outlined {context : Context} {collected : Collected StaticData}
    (h : Link.tabled.Agrees context collected) : collected = context.outlined := by
  obtain ⟨hoisted, literals, modules⟩ := collected
  obtain ⟨-, rfl, rfl, rfl⟩ := h
  rw [Context.outlined]
  exact congrArg (Collected.mk · _ _) (Node.resolve_none _)

/-- The run on the outline of a tree is its expansion, outlined. -/
theorem Node.Trimmed.expand_tabled {node : Node} (h : node.Trimmed) {outline : Outline}
    (houtline : node.outlines = [outline]) {context : Context} (hdata : context.data.Consistent) :
    outline.expand Entering.tabled context.outlined =
      ((node.expand context).1.map Node.outlines, (node.expand context).2.outlined) := by
  have hsimulates : Simulates Link.tabled node.expand (outline.expand Entering.tabled)
      fun node outlines => Mirrors (fun _ => none) [node] outlines :=
    h.expand_simulates (fun _ _ => rfl) houtline
  obtain ⟨result, collected, hrun, hrelated, hagrees⟩ :=
    hsimulates (Context.agrees_outlined hdata) rfl trivial fun _ _ => trivial
  rw [← hagrees.eq_outlined]
  refine hrun.trans (congrArg (Prod.mk · collected) ?_)
  generalize (node.expand context).1 = outcome at hrelated ⊢
  cases hrelated with
  | error error => rfl
  | @ok value outlines hvalue =>
    have hfixed : resolveAll (fun _ => none) value.outlines = value.outlines :=
      resolve_outlines fun _ _ => rfl
    exact congrArg Except.ok (hvalue.outlines_eq.symm.trans hfixed)

end WatMacro
