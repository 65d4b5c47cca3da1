import WatMacro.Proofs.Node.Spacing
import WatMacro.Proofs.Outline.Expand

/-!
# Splices in outlines

A splice has no text, so a tree that holds one anywhere cannot be written. The outline shows whether
there is one: the attachments of a tree are trivia.

Results:

* `Node.Trimmed.render_eq_error`, `Node.Trimmed.render_eq_ok`: a tree can be written exactly if its
  outline holds no splice.
-/

namespace WatMacro

namespace Outline

@[simp] theorem holdsSpliceAny_nil : holdsSpliceAny [] = false := rfl

@[simp] theorem holdsSpliceAny_cons (outline : Outline) (outlines : List Outline) :
    holdsSpliceAny (outline :: outlines) = (outline.holdsSplice || holdsSpliceAny outlines) := by
  rw [holdsSpliceAny]

@[simp] theorem holdsSpliceAny_append (front back : List Outline) :
    holdsSpliceAny (front ++ back) = (holdsSpliceAny front || holdsSpliceAny back) := by
  induction front with
  | nil => rfl
  | cons outline front ih => simp [ih, Bool.or_assoc]

@[simp] theorem holdsSplice_list (children : List Outline) :
    (list children).holdsSplice = holdsSpliceAny children := by
  rw [holdsSplice]

end Outline

open Outline

namespace Node

/-- A tree whose attachments are trivia throughout. -/
inductive Trimmed : Node → Prop
  | atom {kind : AtomKind} {text : String} {before after : List Node} : LayoutAsRead before →
    LayoutAsRead after → Trimmed (atom kind text before after)
  | list {children before after : List Node} : (∀ child ∈ children, Trimmed child) →
    LayoutAsRead before → LayoutAsRead after → Trimmed (list children before after)
  | splice {items before after : List Node} : (∀ item ∈ items, Trimmed item) →
    LayoutAsRead before → LayoutAsRead after → Trimmed (splice items before after)

theorem trimmed_leaf (kind : AtomKind) (text : String) : (leaf kind text).Trimmed :=
  .atom layoutAsRead_nil layoutAsRead_nil

theorem AsRead.trimmed {node : Node} (h : node.AsRead) : node.Trimmed := by
  induction h with
  | atom kind text => exact trimmed_leaf kind text
  | list _ _ hafter ih => exact .list ih layoutAsRead_nil hafter

theorem Trimmed.surround {node : Node} (h : node.Trimmed) {before after : List Node}
    (hbefore : LayoutAsRead before) (hafter : LayoutAsRead after) :
    (node.surround before after).Trimmed := by
  cases h with
  | atom => exact .atom hbefore hafter
  | list hchildren => exact .list hchildren hbefore hafter
  | splice hitems => exact .splice hitems hbefore hafter

theorem Trimmed.spread {node : Node} (h : node.Trimmed) : ∀ item ∈ node.spread, item.Trimmed := by
  intro item hitem
  cases h with
  | splice hitems => exact hitems item hitem
  | atom hbefore hafter =>
    cases List.mem_singleton.mp hitem
    exact .atom hbefore hafter
  | list hchildren hbefore hafter =>
    cases List.mem_singleton.mp hitem
    exact .list hchildren hbefore hafter

/-! ## Writing children -/

theorem exists_mapM_id {α ε : Type} {results : List (Except ε α)}
    (h : ∀ result ∈ results, ∃ value, result = .ok value) :
    ∃ values, results.mapM id = .ok values := by
  induction results with
  | nil => exact ⟨[], rfl⟩
  | cons result results ih =>
    obtain ⟨value, rfl⟩ := h result List.mem_cons_self
    obtain ⟨values, hvalues⟩ := ih fun other hother => h other (List.mem_cons_of_mem _ hother)
    exact ⟨value :: values, by rw [List.mapM_cons, hvalues]; rfl⟩

/-- If there is but one error that can occur, it does not matter which result is in error. -/
theorem mapM_id_eq_error {α ε : Type} {results : List (Except ε α)} {error : ε}
    (hall : ∀ result ∈ results, result = .error error ∨ ∃ value, result = .ok value)
    (hmem : .error error ∈ results) : results.mapM id = .error error := by
  induction results with
  | nil => cases hmem
  | cons result results ih =>
    rw [List.mapM_cons]
    rcases hall result List.mem_cons_self with rfl | ⟨value, rfl⟩
    · rfl
    · have hrest : .error error ∈ results := by simpa using hmem
      have hmapM := ih (fun other hother => hall other (List.mem_cons_of_mem _ hother)) hrest
      rw [hmapM]
      rfl

theorem mem_of_mem_moduleBody {α : Type} {row : List (Node × α)} {written : α}
    (h : written ∈ moduleBody row) : ∃ child, (child, written) ∈ row := by
  induction row with
  | nil => cases h
  | cons pair row ih =>
    obtain ⟨child, first⟩ := pair
    have hrest : written ∈ moduleBody row → ∃ other, (other, written) ∈ (child, first) :: row :=
      fun hmem => (ih hmem).imp fun other hother => List.mem_cons_of_mem _ hother
    unfold moduleBody at h
    split at h
    · rcases List.mem_cons.mp h with rfl | hmem
      · exact ⟨child, List.mem_cons_self⟩
      · obtain ⟨⟨other, _⟩, hother, rfl⟩ := List.mem_map.mp hmem
        exact ⟨other, List.mem_cons_of_mem _ hother⟩
    · split at h
      · exact hrest h
      · rcases List.mem_cons.mp h with rfl | hmem
        · exact ⟨child, List.mem_cons_self⟩
        · exact hrest hmem

/-- Only atoms are left out of the body of a module. -/
theorem mem_moduleBody {α : Type} {row : List (Node × α)} {child : Node} {written : α}
    (h : (child, written) ∈ row) (hkept : child.isModuleHead = false) :
    written ∈ moduleBody row := by
  induction row with
  | nil => cases h
  | cons pair row ih =>
    obtain ⟨first, other⟩ := pair
    unfold moduleBody
    rcases List.mem_cons.mp h with heq | hmem
    · cases heq
      rw [hkept]
      split <;> exact List.mem_cons_self
    · split
      · exact List.mem_cons_of_mem _ (List.mem_map_of_mem hmem)
      · split
        · exact ih hmem
        · exact List.mem_cons_of_mem _ (ih hmem)

theorem listPieces_eq_ok {children : List Node}
    (h : ∀ child ∈ children, ∃ written, child.pieces = .ok written) :
    ∃ written, listPieces children (children.map pieces) = .ok written := by
  unfold listPieces
  split
  · rw [zip_map_pieces]
    have hbody : ∀ result ∈ moduleBody (children.map fun child => (child, child.pieces)),
        ∃ value, result = .ok value := by
      intro result hresult
      obtain ⟨child, hchild⟩ := mem_of_mem_moduleBody hresult
      obtain ⟨other, hother, heq⟩ := List.mem_map.mp hchild
      cases heq
      exact h child hother
    obtain ⟨values, hvalues⟩ := exists_mapM_id hbody
    exact ⟨_, by rw [hvalues]; rfl⟩
  · have hall : ∀ result ∈ children.map pieces, ∃ value, result = .ok value := by simpa using h
    obtain ⟨values, hvalues⟩ := exists_mapM_id hall
    exact ⟨_, by rw [hvalues]; rfl⟩

theorem listPieces_eq_error {children : List Node} {error : Error} {child : Node}
    (hall : ∀ child ∈ children,
      child.pieces = .error error ∨ ∃ written, child.pieces = .ok written)
    (hchild : child ∈ children) (hkept : child.isModuleHead = false)
    (herror : child.pieces = .error error) :
    listPieces children (children.map pieces) = .error error := by
  unfold listPieces
  split
  · have hbody : ∀ result ∈ moduleBody (children.map fun child => (child, child.pieces)),
        result = .error error ∨ ∃ written, result = .ok written := by
      intro result hresult
      obtain ⟨other, hother⟩ := mem_of_mem_moduleBody hresult
      obtain ⟨node, hnode, heq⟩ := List.mem_map.mp hother
      cases heq
      exact hall other hnode
    have hmem : .error error ∈ moduleBody (children.map fun child => (child, child.pieces)) := by
      rw [← herror]
      exact mem_moduleBody (List.mem_map_of_mem hchild) hkept
    rw [zip_map_pieces, mapM_id_eq_error hbody hmem]
    rfl
  · have hrow : ∀ result ∈ children.map pieces,
        result = .error error ∨ ∃ written, result = .ok written := by simpa using hall
    have hmem : .error error ∈ children.map pieces := by
      rw [← herror]
      exact List.mem_map_of_mem hchild
    rw [mapM_id_eq_error hrow hmem]
    rfl

/-! ## Writing trees -/

theorem LayoutAsRead.exists_pieces {nodes : List Node} (h : LayoutAsRead nodes) :
    ∃ written, (nodes.map pieces).mapM id = .ok written := by
  refine exists_mapM_id fun result hresult => ?_
  obtain ⟨node, hnode, rfl⟩ := List.mem_map.mp hresult
  obtain ⟨text, rfl⟩ := h node hnode
  exact ⟨_, rfl⟩

theorem holdsSpliceAny_outlinesAll (nodes : List Node) :
    holdsSpliceAny (outlinesAll nodes) = nodes.any fun node => holdsSpliceAny node.outlines := by
  induction nodes with
  | nil => rfl
  | cons node nodes ih => rw [outlinesAll_cons, holdsSpliceAny_append, ih, List.any_cons]

theorem isModuleHead_of_holdsSplice {node : Node} (h : holdsSpliceAny node.outlines = true) :
    node.isModuleHead = false := by
  cases node with
  | atom kind text before after =>
    rw [outlines] at h
    split at h <;> cases h
  | _ => rfl

/-- A tree without splices can be written, and one with splices is refused. -/
theorem Trimmed.pieces_outcome {node : Node} (h : node.Trimmed) :
    (holdsSpliceAny node.outlines = false ∧ ∃ written, node.pieces = .ok written) ∨
    (holdsSpliceAny node.outlines = true ∧ node.pieces = .error .strandedSplice) := by
  induction h with
  | @atom kind text before after hbefore hafter =>
    left
    obtain ⟨front, hfront⟩ := hbefore.exists_pieces
    obtain ⟨back, hback⟩ := hafter.exists_pieces
    refine ⟨?_, front.flatten ++ text :: back.flatten, ?_⟩
    · rw [outlines]
      split <;> rfl
    · rw [pieces_atom, hfront, hback]
      rfl
  | @list children before after _ hbefore hafter ih =>
    obtain ⟨front, hfront⟩ := hbefore.exists_pieces
    obtain ⟨back, hback⟩ := hafter.exists_pieces
    rw [pieces_list, hfront, hback, outlines_list, holdsSpliceAny_cons, holdsSplice_list,
      holdsSpliceAny_nil, Bool.or_false, holdsSpliceAny_outlinesAll]
    by_cases hsplice : ∃ child ∈ children, holdsSpliceAny child.outlines = true
    · -- the body of a module leaves out atoms only, so it has the child that is in error
      right
      obtain ⟨child, hchild, hholds⟩ := hsplice
      have herror : child.pieces = .error .strandedSplice := by
        rcases ih child hchild with ⟨hnone, -⟩ | ⟨-, herror⟩
        · rw [hholds] at hnone
          cases hnone
        · exact herror
      have hall : ∀ child ∈ children,
          child.pieces = .error .strandedSplice ∨ ∃ written, child.pieces = .ok written :=
        fun other hother => (ih other hother).symm.imp And.right And.right
      rw [listPieces_eq_error hall hchild (isModuleHead_of_holdsSplice hholds) herror]
      exact ⟨List.any_eq_true.mpr ⟨child, hchild, hholds⟩, rfl⟩
    · left
      have hok : ∀ child ∈ children, ∃ written, child.pieces = .ok written := by
        intro child hchild
        rcases ih child hchild with ⟨-, hok⟩ | ⟨hholds, -⟩
        · exact hok
        · exact absurd ⟨child, hchild, hholds⟩ hsplice
      obtain ⟨middle, hmiddle⟩ := listPieces_eq_ok hok
      rw [hmiddle]
      refine ⟨?_, _, rfl⟩
      rw [List.any_eq_false]
      exact fun child hchild hholds => hsplice ⟨child, hchild, hholds⟩
  | splice =>
    right
    rw [outlines_splice]
    exact ⟨rfl, rfl⟩

theorem Trimmed.render_eq_ok {node : Node} (h : node.Trimmed)
    (hsplice : holdsSpliceAny node.outlines = false) : ∃ text, node.render = .ok text := by
  rcases h.pieces_outcome with ⟨-, written, hwritten⟩ | ⟨hholds, -⟩
  · exact ⟨String.join written, by rw [render, hwritten]; rfl⟩
  · rw [hsplice] at hholds
    cases hholds

theorem Trimmed.render_eq_error {node : Node} (h : node.Trimmed)
    (hsplice : holdsSpliceAny node.outlines = true) : node.render = .error .strandedSplice := by
  rcases h.pieces_outcome with ⟨hnone, -⟩ | ⟨-, herror⟩
  · rw [hsplice] at hnone
    cases hnone
  · rw [render, herror]
    rfl

end Node

end WatMacro
