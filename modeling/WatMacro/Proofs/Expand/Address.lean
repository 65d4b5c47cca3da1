import WatMacro.Expand.Macro
import WatMacro.Proofs.Lexeme.Symbol
import WatMacro.Proofs.Node.Listing

/-!
# Addresses

The address of a literal is read from its source. For the symbol of a literal the result is known in
advance, so an address is made whenever its literal is entered.

Results:

* `Builtin.read_addressSource`: the tree that is read.
* `Builtin.textAddress_eq_ok`, `Builtin.arrayAddress_eq_ok`: what the macros that make addresses
  yield.
-/

namespace WatMacro

open Lexeme

/-! ## Symbols of entered literals -/

namespace StaticData

/-- A text that is interned is entered, and nothing else is. -/
theorem Consistent.mem_intern_iff {data : StaticData} (h : data.Consistent)
    (value : String) (literal : Literal) : literal ∈ (data.intern value).2.literals ↔
      literal ∈ data.literals ∨ literal = ⟨(data.intern value).1, .text value⟩ := by
  cases hlookup : data.symbolOf? value with
  | some symbol =>
    have hmem := (h.symbolOf?_iff value symbol).mp hlookup
    rw [intern_of_some hlookup, or_iff_left_of_imp]
    rintro rfl
    exact hmem
  | none =>
    rw [intern_of_none hlookup, literals_add, List.mem_append, List.mem_singleton]

/-- An interned text is in the table, under the symbol that is returned. -/
theorem Consistent.mem_intern {data : StaticData} (h : data.Consistent) (value : String) :
    ⟨(data.intern value).1, .text value⟩ ∈ (data.intern value).2.literals :=
  (h.mem_intern_iff value _).mpr (.inr rfl)

theorem mem_allocate (data : StaticData) (length : UInt64) :
    ⟨(data.allocate length).1, .zeroed length⟩ ∈ (data.allocate length).2.literals := by
  rw [literals_allocate]
  exact List.mem_append_right _ (List.mem_singleton.mpr rfl)

theorem Consistent.head?_symbol {data : StaticData} (h : data.Consistent) {literal : Literal}
    (hmem : literal ∈ data.literals) : literal.symbol.toList.head? = some '$' := by
  obtain ⟨i, hi, rfl⟩ := List.mem_iff_getElem.mp hmem
  rw [h.symbol_eq i _ (List.getElem?_eq_getElem hi)]
  cases data.literals[i].content <;> rw [Content.symbol, String.toList_append] <;> rfl

end StaticData

namespace Builtin

open Expand

/-- The address of a literal as a tree. -/
def addressForm (symbol : String) : Node :=
  .form [.keyword "i32.add", .trivia " ",
    .list [.keyword "get_global", .trivia " ", .name "$memoryBase"] [] [.trivia " "],
    .form [.keyword "get_global", .trivia " ", .name symbol]]

/-- The lexemes of an address. -/
def addressPieces (symbol : String) : List String :=
  ["(", "i32.add", " ", "(", "get_global", " ", "$memoryBase", ")", " ", "(", "get_global", " "]
    ++ [symbol, ")", ")"]

theorem join_addressPieces (symbol : String) :
    String.join (addressPieces symbol) = addressSource symbol := by
  have hfront : String.join ["(", "i32.add", " ", "(", "get_global", " ", "$memoryBase", ")", " ",
      "(", "get_global", " "] = "(i32.add (get_global $memoryBase) (get_global " := by
    rw [← String.toList_inj, String.toList_join]
    rfl
  have hback : String.join [symbol, ")", ")"] = symbol ++ "))" := by
    rw [← String.toList_inj]
    simp
  rw [addressPieces, String.join_append, hfront, hback]
  exact (String.append_assoc ..).symm

theorem ofText_name {text : String} (h : text.toList.head? = some '$') :
    Token.ofText text = .atom .name text := by
  have hne : ∀ other : String, other.toList.head? ≠ some '$' → text ≠ other := by
    rintro other hother rfl
    exact hother h
  rw [Token.ofText, if_neg (hne _ (by decide)), if_neg (hne _ (by decide)), Atom.kindOf,
    Atom.kindOfChars, if_pos h]

theorem tokenize_addressSource {symbol : String} (hplain : isPlainRun symbol.toList = true) :
    tokenize (addressSource symbol) = .ok (addressPieces symbol) := by
  rw [← join_addressPieces]
  refine tokenize_join_of_row ?_ ?_
  · have hspace : Closed " ".toList := .space (by decide) (by decide)
    simp only [addressPieces, List.cons_append, List.nil_append, List.forall_mem_cons]
    exact ⟨.mark rfl, .of_plainRun rfl, hspace, .mark rfl, .of_plainRun rfl, hspace,
      .of_plainRun rfl, .mark rfl, hspace, .mark rfl, .of_plainRun rfl, hspace,
      .of_plainRun hplain, .mark rfl, .mark rfl, by simp⟩
  · have hopening : ∀ next : List Char, next.head? ≠ some ';' → Apart "(".toList next :=
      fun _ => Apart.opening
    have hspace : ∀ next : List Char, (∀ d ∈ next.head?, Text.isSpace d = false) →
        Apart " ".toList next := fun _ hnext d hd => hnext d hd
    have hsymbol : ∀ d ∈ symbol.toList.head?, Text.isSpace d = false := by
      intro d hd
      cases hchars : symbol.toList with
      | nil => simp [hchars] at hd
      | cons c cs =>
        rw [hchars, isPlainRun, Bool.and_eq_true] at hplain
        obtain rfl : c = d := by simpa [hchars] using hd
        exact (isPlain_iff.mp (List.all_eq_true.mp hplain.2 c List.mem_cons_self)).1
    simp only [addressPieces, List.cons_append, List.nil_append, List.map_cons, List.map_nil,
      List.isChain_cons_cons]
    exact ⟨hopening _ (by decide), .of_plainRun rfl (by decide), hspace _ (by decide),
      hopening _ (by decide), .of_plainRun rfl (by decide), hspace _ (by decide),
      .of_plainRun rfl (by decide), .closing _, hspace _ (by decide), hopening _ (by decide),
      .of_plainRun rfl (by decide), hspace _ hsymbol, .of_plainRun hplain (by decide),
      .closing _, .singleton _⟩

/-- The tree that is read from the address of a symbol. -/
theorem read_addressSource {symbol : String} (hplain : isPlainRun symbol.toList = true)
    (hname : symbol.toList.head? = some '$') :
    Node.read (addressSource symbol) = .ok (addressForm symbol) := by
  refine Node.read_eq_ok.mpr ⟨_, tokenize_addressSource hplain, ?_⟩
  have htokens : (addressPieces symbol).map Token.ofText =
      [.opening, .atom .keyword "i32.add", .atom .trivia " ", .opening,
        .atom .keyword "get_global", .atom .trivia " ", .atom .name "$memoryBase", .closing,
        .atom .trivia " ", .opening, .atom .keyword "get_global", .atom .trivia " ",
        .atom .name symbol, .closing, .closing] := by
    rw [addressPieces]
    simp only [List.cons_append, List.nil_append, List.map_cons, List.map_nil, ofText_name hname]
    rfl
  rw [htokens]
  rfl

theorem address_of_mem {data : StaticData} (h : data.Consistent) {literal : Literal}
    (hmem : literal ∈ data.literals) (context : Context) :
    address literal.symbol context = (.ok (addressForm literal.symbol), context) := by
  rw [address, read_addressSource (h.isPlainRun_symbol hmem) (h.head?_symbol hmem)]
  rfl

/-- The address of a text that is interned. -/
theorem address_intern {context : Context} (h : context.data.Consistent) (value : String) :
    address (context.intern value).1 (context.intern value).2 =
      (.ok (addressForm (context.intern value).1), (context.intern value).2) :=
  address_of_mem (h.intern value) (h.mem_intern value) _

/-- The address of an array that is allocated. -/
theorem address_allocate {context : Context} (h : context.data.Consistent) (length : UInt64) :
    address (context.allocate length).1 (context.allocate length).2 =
      (.ok (addressForm (context.allocate length).1), (context.allocate length).2) :=
  address_of_mem (h.allocate length) (StaticData.mem_allocate _ length) _

/-! ## Macros that make addresses -/

theorem literal_eq_ok {builtin : Builtin} {argument : Node} {context after : Context}
    {value : String} (h : literal builtin argument context = (.ok value, after)) :
    argument.text?.bind Text.Quoted.decode? = some value ∧ after = context := by
  unfold literal at h
  cases hdecode : argument.text?.bind Text.Quoted.decode? with
  | none =>
    rw [hdecode] at h
    cases h
  | some decoded =>
    rw [hdecode] at h
    cases h
    exact ⟨rfl, rfl⟩

/-- The address of a text comes from its decoded argument, which is interned. -/
theorem textAddress_eq_ok {argument node : Node} {context after : Context}
    (hdata : context.data.Consistent) (h : textAddress argument context = (.ok node, after)) :
    ∃ value, argument.text?.bind Text.Quoted.decode? = some value ∧
      node = addressForm (context.intern value).1 ∧ after = (context.intern value).2 := by
  obtain ⟨value, middle, hliteral, hrest⟩ := bind_eq_ok h
  obtain ⟨hvalue, rfl⟩ := literal_eq_ok hliteral
  have haddress : address (middle.intern value).1 (middle.intern value).2 = (.ok node, after) :=
    hrest
  rw [address_intern hdata] at haddress
  cases haddress
  exact ⟨value, hvalue, rfl, rfl⟩

/-- The address of an array comes from its length, for which an array is allocated. -/
theorem arrayAddress_eq_ok {argument node : Node} {context after : Context}
    (hdata : context.data.Consistent) (h : arrayAddress argument context = (.ok node, after)) :
    ∃ length, length? argument = some length ∧
      node = addressForm (context.allocate length).1 ∧ after = (context.allocate length).2 := by
  unfold arrayAddress at h
  cases hlength : length? argument with
  | none =>
    rw [hlength] at h
    cases h
  | some length =>
    rw [hlength] at h
    obtain ⟨used, middle, hlook, hrest⟩ := bind_eq_ok h
    cases hlook
    split at hrest
    · have haddress : address (context.allocate length).1 (context.allocate length).2 =
          (.ok node, after) := hrest
      rw [address_allocate hdata] at haddress
      cases haddress
      exact ⟨length, rfl, rfl, rfl⟩
    · cases hrest

end Builtin

end WatMacro
