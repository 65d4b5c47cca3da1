import WatMacro.Proofs.Context.Entries
import WatMacro.Proofs.Outline.Resolve

/-!
# Runs that follow expansions

An expansion works on trees and a context, a run on outlines and on what it collects. A link says
how the two keep the literals of a program and what the symbols of the one stand for in the other.
A run follows an expansion if it gets from related states to related states and results.

Results:

* `Simulates.bind`: sequences follow sequences.
-/

namespace WatMacro

open Outline

variable {σ α β γ δ : Type}

/-! ## Links -/

/-- Whether an array fits into the address space behind static data. -/
def StaticData.Fits (data : StaticData) (length : UInt64) : Prop :=
  addSaturating (addSaturating data.size length) 1 ≤ Builtin.addressSpace

/-- How a run keeps the literals of an expansion. -/
structure Link (σ : Type) where
  /-- How the run enters a literal. -/
  entering : Entering σ
  /-- What a symbol of the expansion stands for in the run. -/
  find : String → Option Content
  /-- Which literals of the run belong to static data of the expansion. -/
  agrees : StaticData → σ → Prop
  /-- The static data that the expansion may reach. -/
  below : StaticData → Prop
  /-- Whether the run fails where the expansion fails. -/
  faithful : Prop
  find_base : find "$memoryBase" = none
  below_of_prefix : ∀ {data later : StaticData}, data.literals <+: later.literals →
    below later → below data
  text : ∀ {data : StaticData} {state : σ} (value : String), data.Consistent →
    agrees data state → below (data.intern value).2 →
    ∃ state', entering (.text value) state =
        (.ok (resolve find (.word .name (data.intern value).1)), state') ∧
      agrees (data.intern value).2 state'
  array : ∀ {data : StaticData} {state : σ} {length : UInt64}, data.Consistent → data.Fits length →
    agrees data state → below (data.allocate length).2 →
    ∃ state', entering (.zeroed length) state =
        (.ok (resolve find (.word .name (data.allocate length).1)), state') ∧
      agrees (data.allocate length).2 state'
  tooLarge : ∀ {data : StaticData} {state : σ} {length : UInt64}, faithful → ¬data.Fits length →
    agrees data state →
    entering (.zeroed length) state = (.error (.argument .staticArray (.tooLarge length)), state)

/-- What a run has collected where an expansion has made a context. -/
structure Link.Agrees (link : Link σ) (context : Context) (collected : Collected σ) : Prop where
  consistent : context.data.Consistent
  literals : link.agrees context.data collected.literals
  hoisted : resolveAll link.find (Node.outlinesAll context.hoisted) = collected.hoisted
  modules : context.modules = collected.modules

theorem Link.below_of_reaches (link : Link σ) {context after : Context}
    (h : Context.Reaches context after) (hbelow : link.below after.data) :
    link.below context.data :=
  link.below_of_prefix h.extends.literals hbelow

/-! ## Simulation -/

/-- Results that are related, or the same error. -/
inductive Related (rel : α → β → Prop) : Except Error α → Except Error β → Prop
  | ok {a : α} {b : β} : rel a b → Related rel (.ok a) (.ok b)
  | error (error : Error) : Related rel (.error error) (.error error)

/-- A run that follows an expansion: always if the expansion succeeds, and if it fails as far as the
link is faithful. -/
def Simulates (link : Link σ) (x : Expand α) (y : Run σ β) (rel : α → β → Prop) : Prop :=
  ∀ ⦃context after : Context⦄ ⦃collected : Collected σ⦄ ⦃result : Except Error α⦄,
    link.Agrees context collected → x context = (result, after) → link.below after.data →
    (∀ error, result = .error error → link.faithful) →
    ∃ result' collected', y collected = (result', collected') ∧ Related rel result result' ∧
      link.Agrees after collected'

section

variable {link : Link σ} {p : α → β → Prop} {q : γ → δ → Prop}

theorem simulates_pure {a : α} {b : β} (h : p a b) : Simulates link (pure a) (pure b) p := by
  intro context after collected result hagrees hrun _ _
  cases hrun
  exact ⟨.ok b, collected, rfl, .ok h, hagrees⟩

theorem simulates_fail (error : Error) : Simulates link (Expand.fail error) (Run.fail error) p := by
  intro context after collected result hagrees hrun _ _
  cases hrun
  exact ⟨.error error, collected, rfl, .error error, hagrees⟩

/-- Sequences follow sequences. -/
theorem Simulates.bind {x : Expand α} {y : Run σ β} {f : α → Expand γ} {g : β → Run σ δ}
    (hxy : Simulates link x y p) (hf : ∀ a, Expand.Enters (f a))
    (hfg : ∀ a b, p a b → Simulates link (f a) (g b) q) :
    Simulates link (x >>= f) (y >>= g) q := by
  intro context after collected result hagrees hrun hbelow hfaithful
  cases hx : x context with
  | mk first middle =>
    cases first with
    | error error =>
      rw [Expand.bind_error hx] at hrun
      cases hrun
      obtain ⟨_, collected', hy, hrel, hagrees'⟩ :=
        hxy hagrees hx hbelow fun _ _ => hfaithful error rfl
      cases hrel
      exact ⟨.error error, collected', Run.bind_error hy g, .error error, hagrees'⟩
    | ok a =>
      rw [Expand.bind_ok hx] at hrun
      -- the static data only grows, so the first part stays below what the whole may reach
      have hreach : Context.Reaches middle after := by
        have := hf a middle
        rwa [hrun] at this
      obtain ⟨_, middle', hy, hrel, hmiddle⟩ :=
        hxy hagrees hx (link.below_of_reaches hreach hbelow) fun _ h => by cases h
      cases hrel with
      | @ok _ b hab =>
        obtain ⟨result', collected', hg, hrel', hagrees'⟩ :=
          hfg a b hab hmiddle hrun hbelow hfaithful
        exact ⟨result', collected', (Run.bind_ok hy g).trans hg, hrel', hagrees'⟩

theorem Simulates.map {x : Expand α} {y : Run σ β} {f : α → γ} {g : β → δ}
    (hxy : Simulates link x y p) (hfg : ∀ a b, p a b → q (f a) (g b)) :
    Simulates link (x >>= fun a => pure (f a)) (y >>= fun b => pure (g b)) q :=
  hxy.bind (fun _ => Expand.enters_pure _) fun a b hab => simulates_pure (hfg a b hab)

/-- A change of the result that a run does not see. -/
theorem Simulates.mapLeft {x : Expand α} {y : Run σ β} {f : α → γ} {p' : γ → β → Prop}
    (hxy : Simulates link x y p) (hf : ∀ a b, p a b → p' (f a) b) :
    Simulates link (x >>= fun a => pure (f a)) y p' := by
  have h : Simulates link (x >>= fun a => pure (f a)) (y >>= fun b => pure b) p' := hxy.map hf
  rwa [Run.bind_pure] at h

end

/-! ## Trees and outlines -/

/-- Outlines that are those of nodes once the symbols are resolved. -/
structure Mirrors (find : String → Option Content) (nodes : List Node) (outlines : List Outline) :
    Prop where
  eq : resolveAll find (Node.outlinesAll nodes) = outlines
  trimmed : ∀ node ∈ nodes, node.Trimmed

section

variable {find : String → Option Content}

theorem mirrors_nil : Mirrors find [] [] :=
  ⟨rfl, fun _ h => absurd h List.not_mem_nil⟩

theorem Mirrors.append {front back : List Node} {outlines outlines' : List Outline}
    (hfront : Mirrors find front outlines) (hback : Mirrors find back outlines') :
    Mirrors find (front ++ back) (outlines ++ outlines') := by
  refine ⟨?_, fun node hnode => ?_⟩
  · rw [Node.outlinesAll_append, resolveAll_append, hfront.eq, hback.eq]
  · exact (List.mem_append.mp hnode).elim (hfront.trimmed node) (hback.trimmed node)

theorem Mirrors.cons {node : Node} {nodes : List Node} {outlines outlines' : List Outline}
    (hnode : Mirrors find [node] outlines) (hnodes : Mirrors find nodes outlines') :
    Mirrors find (node :: nodes) (outlines ++ outlines') :=
  hnode.append hnodes

theorem Mirrors.outlines_eq {node : Node} {outlines : List Outline}
    (h : Mirrors find [node] outlines) : resolveAll find node.outlines = outlines := by
  rw [← h.eq, Node.outlinesAll_cons, Node.outlinesAll_nil, List.append_nil]

theorem mirrors_singleton {node : Node} {outlines : List Outline}
    (h : resolveAll find node.outlines = outlines) (htrimmed : node.Trimmed) :
    Mirrors find [node] outlines := by
  refine ⟨?_, fun other hother => ?_⟩
  · rw [Node.outlinesAll_cons, Node.outlinesAll_nil, List.append_nil, h]
  · cases List.mem_singleton.mp hother
    exact htrimmed

theorem Mirrors.head {node : Node} {outlines : List Outline} (h : Mirrors find [node] outlines) :
    node.Trimmed :=
  h.trimmed node List.mem_cons_self

theorem mirrors_trivia (text : String) : Mirrors find [.trivia text] [] :=
  mirrors_singleton rfl (Node.trimmed_leaf _ _)

theorem mirrors_leaf {kind : AtomKind} (hname : kind ≠ .name) (htrivia : kind ≠ .trivia)
    (text : String) : Mirrors find [.leaf kind text] [.word kind text] := by
  refine mirrors_singleton ?_ (Node.trimmed_leaf _ _)
  rw [Node.outlines_leaf htrivia, resolveAll_cons, resolve_word hname, resolveAll_nil]

theorem mirrors_keyword (text : String) : Mirrors find [.keyword text] [.keyword text] :=
  mirrors_leaf (by decide) (by decide) text

theorem Mirrors.list {children before after : List Node} {outlines : List Outline}
    (h : Mirrors find children outlines) (hbefore : Node.LayoutAsRead before)
    (hafter : Node.LayoutAsRead after) :
    Mirrors find [.list children before after] [.list outlines] := by
  refine mirrors_singleton ?_ (.list h.trimmed hbefore hafter)
  rw [Node.outlines_list, resolveAll_cons, resolve_list, h.eq, resolveAll_nil]

theorem Mirrors.form {children : List Node} {outlines : List Outline}
    (h : Mirrors find children outlines) : Mirrors find [.form children] [.list outlines] :=
  h.list Node.layoutAsRead_nil Node.layoutAsRead_nil

theorem Mirrors.splice {items : List Node} {outlines : List Outline}
    (h : Mirrors find items outlines) : Mirrors find [.splice items [] []] [.splice outlines] := by
  refine mirrors_singleton ?_ (.splice h.trimmed Node.layoutAsRead_nil Node.layoutAsRead_nil)
  rw [Node.outlines_splice, resolveAll_cons, resolve_splice, h.eq, resolveAll_nil]

theorem Mirrors.surround {node : Node} {before after : List Node} {outlines : List Outline}
    (h : Mirrors find [node] outlines) (hbefore : Node.LayoutAsRead before)
    (hafter : Node.LayoutAsRead after) : Mirrors find [node.surround before after] outlines := by
  refine mirrors_singleton ?_ (h.head.surround hbefore hafter)
  rw [Node.outlines_surround, h.outlines_eq]

theorem Mirrors.spread {node : Node} {outlines : List Outline}
    (h : Mirrors find [node] outlines) :
    Mirrors find node.spread (outlines.flatMap Outline.spread) := by
  refine ⟨?_, h.head.spread⟩
  rw [← h.outlines_eq]
  cases node with
  | atom kind text before after =>
    have hspread : (Node.atom kind text before after).spread = [.atom kind text before after] := rfl
    rw [hspread, Node.outlinesAll_cons, Node.outlinesAll_nil, List.append_nil, Node.outlines]
    split
    · rfl
    · rw [resolveAll_cons, resolveAll_nil, List.flatMap_singleton, spread_resolve]
      exact (resolveAll_cons (word kind text) []).symm
  | list children before after => simp [Node.spread, Outline.spread]
  | splice items before after => simp [Node.spread, Outline.spread]

end

end WatMacro
