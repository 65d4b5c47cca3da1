import Mathlib.Data.List.Nodup
import WatMacro.Proofs.Context.Entries

/-!
# Consistency of the static data

The table of literals and the map of interned texts are kept apart, and are changed by every part of
an expansion. They agree in every context that comes from the empty one: a symbol carries the
position of its literal, and the map knows exactly the texts of the table.

Results:

* `Context.Reaches.extends`: entries only append.
* `Context.Reaches.consistent`: entries keep the static data consistent.
* `Context.after_consistent`: what holds after any sequence of actions on the empty context.
-/

namespace WatMacro

/-! ## Symbols -/

namespace Content

/-- A symbol tells the position it was made for. -/
theorem symbol_position_inj {a b : Content} {i j : Nat} (h : a.symbol i = b.symbol j) : i = j := by
  have hchars := congrArg String.toList h
  cases a <;> cases b <;>
    simp only [symbol, String.toList_append, Nat.toString_eq_repr, Nat.toList_repr] at hchars
  · have hdigits := (List.append_right_inj _).mp hchars
    rw [← Nat.ofDigitChars_ten_toDigits (n := i), hdigits, Nat.ofDigitChars_ten_toDigits]
  · simp at hchars
  · simp at hchars
  · have hdigits := (List.append_right_inj _).mp hchars
    rw [← Nat.ofDigitChars_ten_toDigits (n := i), hdigits, Nat.ofDigitChars_ten_toDigits]

/-- The text that an entry holds. -/
def text? : Content → Option String
  | text value => some value
  | zeroed _ => none

theorem text?_eq_some_iff {content : Content} {value : String} :
    content.text? = some value ↔ content = .text value := by
  cases content <;> simp [text?]

end Content

namespace StaticData

/-- The symbols of the table are those of its positions, and the map sends a text to a symbol
exactly when the table has the text under that symbol. -/
structure Consistent (data : StaticData) : Prop where
  symbol_eq : ∀ (i : Nat) (literal : Literal), data.literals[i]? = some literal →
    literal.symbol = literal.content.symbol i
  symbolOf?_iff : ∀ value symbol : String,
    data.symbolOf? value = some symbol ↔ ⟨symbol, .text value⟩ ∈ data.literals

theorem empty_consistent : Consistent empty where
  symbol_eq := by simp [empty]
  symbolOf?_iff := by simp [empty, symbolOf?]

theorem literals_add (data : StaticData) (content : Content) :
    (data.add content).2.literals =
      data.literals ++ [⟨content.symbol data.literals.length, content⟩] :=
  rfl

theorem literals_allocate (data : StaticData) (length : UInt64) :
    (data.allocate length).2.literals =
      data.literals ++ [⟨"$S_STATIC_ARRAY_" ++ toString data.literals.length, .zeroed length⟩] :=
  rfl

theorem intern_of_some {data : StaticData} {value symbol : String}
    (h : data.symbolOf? value = some symbol) : data.intern value = (symbol, data) := by
  rw [intern, h]

theorem intern_of_none {data : StaticData} {value : String} (h : data.symbolOf? value = none) :
    data.intern value =
      ((Content.text value).symbol data.literals.length,
        { (data.add (.text value)).2 with
          interned :=
            (value, (Content.text value).symbol data.literals.length) :: data.interned }) := by
  rw [intern, h]
  rfl

/-- A literal under the symbol of the next position keeps the symbols right. -/
theorem Consistent.symbol_eq_add {data : StaticData} (h : data.Consistent) (content : Content)
    (i : Nat) (literal : Literal) (hi : (data.add content).2.literals[i]? = some literal) :
    literal.symbol = literal.content.symbol i := by
  rw [literals_add, List.getElem?_append] at hi
  split at hi
  · exact h.symbol_eq i literal hi
  · rename_i hlt
    rw [List.getElem?_singleton] at hi
    split at hi
    · cases hi
      have heq : i = data.literals.length := by omega
      rw [heq]
    · cases hi

theorem Consistent.allocate {data : StaticData} (h : data.Consistent) (length : UInt64) :
    (data.allocate length).2.Consistent where
  symbol_eq := h.symbol_eq_add (.zeroed length)
  symbolOf?_iff value symbol := by
    rw [literals_allocate]
    simpa [symbolOf?, StaticData.allocate, add] using h.symbolOf?_iff value symbol

theorem Consistent.intern {data : StaticData} (h : data.Consistent) (value : String) :
    (data.intern value).2.Consistent := by
  cases hlookup : data.symbolOf? value with
  | some symbol =>
    rw [intern_of_some hlookup]
    exact h
  | none =>
    rw [intern_of_none hlookup]
    refine ⟨h.symbol_eq_add (.text value), fun value' symbol => ?_⟩
    have hiff := h.symbolOf?_iff value' symbol
    have hnot : ⟨symbol, .text value⟩ ∉ data.literals := fun hmem => by
      have := (h.symbolOf?_iff value symbol).mpr hmem
      rw [hlookup] at this
      cases this
    simp only [symbolOf?, List.lookup_cons, literals_add, List.mem_append, List.mem_singleton,
      Literal.mk.injEq, Content.text.injEq] at hiff ⊢
    by_cases hvalue : value' = value
    · subst hvalue
      simp [hnot, eq_comm]
    · rw [beq_eq_false_iff_ne.mpr hvalue]
      simpa [hvalue] using hiff

/-- The symbols of a consistent table are distinct. -/
theorem Consistent.symbols_nodup {data : StaticData} (h : data.Consistent) :
    (data.literals.map (·.symbol)).Nodup := by
  rw [List.nodup_iff_injective_get]
  intro i j hij
  simp only [List.get_eq_getElem, List.getElem_map] at hij
  have hi := h.symbol_eq i _ (List.getElem?_eq_getElem (by simpa using i.isLt))
  have hj := h.symbol_eq j _ (List.getElem?_eq_getElem (by simpa using j.isLt))
  rw [hi, hj] at hij
  exact Fin.ext (Content.symbol_position_inj hij)

/-- No two literals of a consistent table have the same text. -/
theorem Consistent.text_inj {data : StaticData} (h : data.Consistent) {a b : Literal}
    (ha : a ∈ data.literals) (hb : b ∈ data.literals) {value : String}
    (hav : a.content = .text value) (hbv : b.content = .text value) : a = b := by
  obtain ⟨symbol, content⟩ := a
  obtain ⟨symbol', content'⟩ := b
  obtain rfl : content = .text value := hav
  obtain rfl : content' = .text value := hbv
  have hsymbol := (h.symbolOf?_iff value symbol).mpr ha
  rw [(h.symbolOf?_iff value symbol').mpr hb] at hsymbol
  cases hsymbol
  rfl

theorem Consistent.texts_nodup {data : StaticData} (h : data.Consistent) :
    (data.literals.filterMap (·.content.text?)).Nodup := by
  have hnodup : data.literals.Nodup := h.symbols_nodup.of_map _
  rw [List.Nodup, List.pairwise_filterMap]
  refine List.Pairwise.imp_of_mem (fun {a b} ha hb hne value hav value' hbv heq => ?_) hnodup
  subst heq
  exact hne (h.text_inj ha hb (Content.text?_eq_some_iff.mp hav) (Content.text?_eq_some_iff.mp hbv))

/-- A new text is entered, and a known one is not. -/
theorem Consistent.literals_intern {data : StaticData} (h : data.Consistent) (value : String) :
    ((∃ literal ∈ data.literals, literal.content = .text value) →
      (data.intern value).2.literals = data.literals) ∧
    ((¬ ∃ literal ∈ data.literals, literal.content = .text value) →
      (data.intern value).2.literals =
        data.literals ++ [⟨"$S_STRING_" ++ toString data.literals.length, .text value⟩]) := by
  constructor
  · rintro ⟨⟨symbol, content⟩, hmem, rfl⟩
    rw [intern_of_some ((h.symbolOf?_iff value symbol).mpr hmem)]
  · intro hnone
    cases hlookup : data.symbolOf? value with
    | some symbol => exact absurd ⟨_, (h.symbolOf?_iff value symbol).mp hlookup, rfl⟩ hnone
    | none =>
      rw [intern_of_none hlookup]
      rfl

end StaticData

/-! ## Growth -/

namespace Context

/-- The second context has everything that the first one has, and more only at the ends. -/
structure Extends (context after : Context) : Prop where
  hoisted : context.hoisted <+: after.hoisted
  literals : context.data.literals <+: after.data.literals
  modules : context.modules <+: after.modules

theorem Extends.refl (context : Context) : context.Extends context :=
  ⟨List.prefix_rfl, List.prefix_rfl, List.prefix_rfl⟩

theorem Extends.trans {a b c : Context} (hab : a.Extends b) (hbc : b.Extends c) : a.Extends c :=
  ⟨hab.hoisted.trans hbc.hoisted, hab.literals.trans hbc.literals, hab.modules.trans hbc.modules⟩

theorem literals_prefix_intern (data : StaticData) (value : String) :
    data.literals <+: (data.intern value).2.literals := by
  cases hlookup : data.symbolOf? value with
  | some symbol =>
    simp only [StaticData.intern_of_some hlookup, List.prefix_rfl]
  | none =>
    rw [StaticData.intern_of_none hlookup]
    exact List.prefix_append _ _

/-- An entry only appends. -/
theorem Entry.extends {context after : Context} (h : Entry context after) :
    context.Extends after := by
  cases h with
  | hoist declaration => exact ⟨List.prefix_append _ _, List.prefix_rfl, List.prefix_rfl⟩
  | addModule name => exact ⟨List.prefix_rfl, List.prefix_rfl, List.prefix_append _ _⟩
  | intern value => exact ⟨List.prefix_rfl, literals_prefix_intern _ value, List.prefix_rfl⟩
  | allocate length => exact ⟨List.prefix_rfl, List.prefix_append _ _, List.prefix_rfl⟩

/-- An entry keeps the static data consistent. -/
theorem Entry.consistent {context after : Context} (h : Entry context after)
    (hdata : context.data.Consistent) : after.data.Consistent := by
  cases h with
  | hoist declaration => exact hdata
  | addModule name => exact hdata
  | intern value => exact hdata.intern value
  | allocate length => exact hdata.allocate length

theorem Reaches.extends {context after : Context} (h : Reaches context after) :
    context.Extends after := by
  induction h with
  | refl => exact .refl context
  | tail _ hentry ih => exact ih.trans hentry.extends

theorem Reaches.consistent {context after : Context} (h : Reaches context after)
    (hdata : context.data.Consistent) : after.data.Consistent := by
  induction h with
  | refl => exact hdata
  | tail _ hentry ih => exact hentry.consistent ih

/-! ## Actions -/

/-- What may be done to a context from outside. -/
inductive Action where
  | intern (value : String)
  | allocate (length : UInt64)
  | hoist (declaration : Node)
  | addModule (name : String)
  /-- Expands a node, whether or not it fails. -/
  | expand (node : Node)
  /-- Adds a source to a program. -/
  | addSource (source : String)
  /-- Expands a source on its own. -/
  | expandText (source : String)

/-- The context after an action. -/
def Action.run (context : Context) : Action → Context
  | intern value => (context.intern value).2
  | allocate length => (context.allocate length).2
  | hoist declaration => context.hoist declaration
  | addModule name => context.addModule name
  | expand node => (node.expand context).2
  | addSource source => (Program.add ⟨context, []⟩ source).2.context
  | expandText source => (WatMacro.expandText source context).2

/-- The context after actions on the empty one. -/
def after (actions : List Action) : Context :=
  actions.foldl Action.run empty

theorem Action.run_reaches (context : Context) (action : Action) :
    Reaches context (action.run context) := by
  cases action with
  | intern value => exact .single (.intern context value)
  | allocate length => exact .single (.allocate context length)
  | hoist declaration => exact .single (.hoist context declaration)
  | addModule name => exact .single (.addModule context name)
  | expand node => exact node.expand_enters context
  | addSource source => exact Program.add_reaches ⟨context, []⟩ source
  | expandText source => exact expandText_reaches source context

/-- Actions reach their context by entries. -/
theorem after_reaches (actions : List Action) : Reaches empty (after actions) := by
  suffices h : ∀ context, Reaches context (actions.foldl Action.run context) from h empty
  induction actions with
  | nil => exact fun _ => .refl
  | cons action actions ih =>
    exact fun context => (action.run_reaches context).trans (ih _)

theorem after_data_consistent (actions : List Action) : (after actions).data.Consistent :=
  (after_reaches actions).consistent StaticData.empty_consistent

/-- The static data of every context that actions make: a literal carries the symbol of its kind and
position, no symbol and no text occurs twice, and the map sends a text to a symbol exactly when the
table has it under that symbol. A further action, also one that fails, only appends; a text is
entered exactly if it is new, and an array always. -/
theorem after_consistent (actions : List Action) :
    let context := after actions
    (∀ (i : Nat) (literal : Literal), context.data.literals[i]? = some literal →
      literal.symbol = match literal.content with
        | .text _ => "$S_STRING_" ++ toString i
        | .zeroed _ => "$S_STATIC_ARRAY_" ++ toString i) ∧
    (context.data.literals.map (·.symbol)).Nodup ∧
    (context.data.literals.filterMap (·.content.text?)).Nodup ∧
    (∀ value symbol : String, context.data.symbolOf? value = some symbol ↔
      ⟨symbol, .text value⟩ ∈ context.data.literals) ∧
    (∀ action : Action, context.Extends (action.run context)) ∧
    (∀ value : String,
      ((∃ literal ∈ context.data.literals, literal.content = .text value) →
        (context.intern value).2.data.literals = context.data.literals) ∧
      ((¬ ∃ literal ∈ context.data.literals, literal.content = .text value) →
        (context.intern value).2.data.literals = context.data.literals ++
          [⟨"$S_STRING_" ++ toString context.data.literals.length, .text value⟩])) ∧
    ∀ length : UInt64, (context.allocate length).2.data.literals = context.data.literals ++
      [⟨"$S_STATIC_ARRAY_" ++ toString context.data.literals.length, .zeroed length⟩] := by
  intro context
  have hdata : context.data.Consistent := after_data_consistent actions
  refine ⟨fun i literal hi => ?_, hdata.symbols_nodup, hdata.texts_nodup, hdata.symbolOf?_iff,
    fun action => (action.run_reaches context).extends, hdata.literals_intern,
    StaticData.literals_allocate context.data⟩
  rw [hdata.symbol_eq i literal hi]
  cases literal.content <;> rfl

end Context

end WatMacro
