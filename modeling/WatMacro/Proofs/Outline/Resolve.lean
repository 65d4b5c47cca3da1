import WatMacro.Proofs.Context.Consistency
import WatMacro.Proofs.Outline.Splices

/-!
# Resolving symbols

The symbols of a table of literals stand for what their literals hold. Resolving a tree puts the
content of a literal in the place of every name that is its symbol.

Results:

* `StaticData.Consistent.contentOf?_eq`: a symbol of a table stands for one content.
* `Node.resolve_outlines`: a tree that has no symbol in it stays as it is.
-/

namespace WatMacro

/-- An induction over outlines that reaches the children of each. -/
theorem Outline.induction {P : Outline → Prop} (word : ∀ kind text, P (word kind text))
    (entry : ∀ content, P (entry content))
    (list : ∀ children, (∀ o ∈ children, P o) → P (list children))
    (splice : ∀ items, (∀ o ∈ items, P o) → P (splice items)) (outline : Outline) : P outline :=
  Outline.rec (motive_1 := P) (motive_2 := fun outlines => ∀ o ∈ outlines, P o)
    word entry list splice (fun _ h => absurd h List.not_mem_nil)
    (fun _ _ head tail _ h => (List.mem_cons.1 h).elim (· ▸ head) (tail _)) outline

/-- The content of the literal with a given symbol. -/
def StaticData.contentOf? (data : StaticData) (symbol : String) : Option Content :=
  (data.literals.find? fun literal => literal.symbol == symbol).map (·.content)

theorem StaticData.Consistent.contentOf?_eq {data : StaticData} (h : data.Consistent)
    {literal : Literal} (hmem : literal ∈ data.literals) :
    data.contentOf? literal.symbol = some literal.content := by
  have hfound : data.literals.find? (fun other => other.symbol == literal.symbol) =
      some literal := by
    cases hfind : data.literals.find? fun other => other.symbol == literal.symbol with
    | none => simpa using List.find?_eq_none.mp hfind literal hmem
    | some other =>
      have hsymbol : other.symbol = literal.symbol := by simpa using List.find?_some hfind
      rw [List.inj_on_of_nodup_map h.symbols_nodup (List.mem_of_find?_eq_some hfind) hmem hsymbol]
  rw [contentOf?, hfound]
  rfl

namespace Outline

section

variable (find : String → Option Content)

mutual

/-- Puts the content that is found for a name in the place of the name. -/
def resolve : Outline → Outline
  | word kind text =>
    match find text with
    | some content => if kind = .name then entry content else word kind text
    | none => word kind text
  | entry content => entry content
  | list children => list (resolveAll children)
  | splice items => splice (resolveAll items)

def resolveAll : List Outline → List Outline
  | [] => []
  | outline :: outlines => resolve outline :: resolveAll outlines

end

end

variable {find : String → Option Content}

@[simp] theorem resolveAll_nil : resolveAll find [] = [] := rfl

@[simp] theorem resolveAll_cons (outline : Outline) (outlines : List Outline) :
    resolveAll find (outline :: outlines) = resolve find outline :: resolveAll find outlines := rfl

theorem resolveAll_eq (outlines : List Outline) :
    resolveAll find outlines = outlines.map (resolve find) := by
  induction outlines with
  | nil => rfl
  | cons outline outlines ih => rw [resolveAll_cons, ih, List.map_cons]

@[simp] theorem resolveAll_append (front back : List Outline) :
    resolveAll find (front ++ back) = resolveAll find front ++ resolveAll find back := by
  simp only [resolveAll_eq, List.map_append]

@[simp] theorem resolve_entry (content : Content) :
    resolve find (entry content) = entry content := rfl

@[simp] theorem resolve_list (children : List Outline) :
    resolve find (list children) = list (resolveAll find children) := rfl

@[simp] theorem resolve_splice (items : List Outline) :
    resolve find (splice items) = splice (resolveAll find items) := rfl

theorem resolve_word {kind : AtomKind} (h : kind ≠ .name) (text : String) :
    resolve find (word kind text) = word kind text := by
  rw [resolve]
  split
  · rw [if_neg h]
  · rfl

theorem resolve_name_of_some {text : String} {content : Content} (h : find text = some content) :
    resolve find (word .name text) = entry content := by
  rw [resolve, h]
  rfl

theorem resolve_name_of_none {text : String} (h : find text = none) :
    resolve find (word .name text) = word .name text := by
  rw [resolve, h]

theorem spread_resolve (outline : Outline) :
    (resolve find outline).spread = resolveAll find outline.spread := by
  cases outline with
  | word kind text =>
    have hspread : (resolve find (word kind text)).spread = [resolve find (word kind text)] := by
      rw [resolve]
      split
      · split <;> rfl
      · rfl
    simpa [spread] using hspread
  | _ => simp [spread]

/-- Resolving neither adds nor removes splices. -/
theorem holdsSplice_resolve (outline : Outline) :
    (resolve find outline).holdsSplice = outline.holdsSplice := by
  induction outline using Outline.induction with
  | word kind text =>
    rw [resolve]
    split
    · split <;> rfl
    · rfl
  | entry content => rw [resolve]
  | list children ih =>
    rw [resolve_list, holdsSplice_list, holdsSplice_list]
    induction children with
    | nil => rfl
    | cons child children ihc =>
      rw [resolveAll_cons, holdsSpliceAny_cons, holdsSpliceAny_cons, ih child List.mem_cons_self,
        ihc fun other hother => ih other (List.mem_cons_of_mem _ hother)]
  | splice items _ =>
    rw [resolve_splice]
    rfl

end Outline

namespace Node

open Outline

theorem resolve_outlinesAll {find : String → Option Content} {nodes : List Node}
    (h : ∀ node ∈ nodes, resolveAll find node.outlines = node.outlines) :
    resolveAll find (outlinesAll nodes) = outlinesAll nodes := by
  induction nodes with
  | nil => rfl
  | cons node nodes ih =>
    rw [outlinesAll_cons, resolveAll_append, h node List.mem_cons_self,
      ih fun other hother => h other (List.mem_cons_of_mem _ hother)]

/-- A tree without a name for which something is found stays as it is. -/
theorem resolve_outlines {find : String → Option Content} {node : Node}
    (h : ∀ text, Token.atom .name text ∈ node.listing → find text = none) :
    resolveAll find node.outlines = node.outlines := by
  induction node using Node.induction with
  | atom kind text before after _ _ =>
    rw [outlines]
    split
    · rfl
    · by_cases hname : kind = .name
      · subst hname
        rw [resolveAll_cons, resolve_name_of_none (h text (by simp [listing])), resolveAll_nil]
      · rw [resolveAll_cons, resolve_word hname, resolveAll_nil]
  | list children before after ih _ _ =>
    have hchildren : resolveAll find (outlinesAll children) = outlinesAll children :=
      resolve_outlinesAll fun child hchild =>
        ih child hchild fun text htext => h text (mem_listing hchild htext)
    rw [outlines_list, resolveAll_cons, resolve_list, hchildren, resolveAll_nil]
  | splice items before after ih _ _ =>
    have hitems : resolveAll find (outlinesAll items) = outlinesAll items :=
      resolve_outlinesAll fun item hitem =>
        ih item hitem fun text htext => h text (mem_listing hitem htext)
    rw [outlines_splice, resolveAll_cons, resolve_splice, hitems, resolveAll_nil]

end Node

end WatMacro
