import WatMacro.Proofs.Expand.Address
import WatMacro.Proofs.Expand.Positions
import WatMacro.Proofs.Lexeme.Literal

/-!
# Texts that a source can give

What `STRING` enters is given by a literal. Since a literal that can be decoded is one token, it is
read as it stands; and since every text can be written as a literal, every text can be entered.

Results:

* `read_textSource`, `expandSource_textSource`: a call of `STRING` with a literal is read, and
  enters what the literal stands for.
* `literals_end_alike`: literals end at the same quote for the reader and for the decoder, and every
  text can be written as one.
-/

namespace WatMacro

open Lexeme Text Quoted Builtin

variable {literal value : String}

/-- The source of a call of `STRING`. -/
def textSource (literal : String) : String :=
  "(STRING " ++ literal ++ ")"

/-- The lexemes of a call of `STRING`. -/
def textPieces (literal : String) : List String :=
  ["(", "STRING", " ", literal, ")"]

theorem join_textPieces (literal : String) :
    String.join (textPieces literal) = textSource literal := by
  rw [← String.toList_inj]
  simp [textPieces, textSource]

theorem tokenize_textSource (h : decode? literal = some value) :
    tokenize (textSource literal) = .ok (textPieces literal) := by
  rw [← join_textPieces]
  obtain ⟨quote, items, hspells, -⟩ := decode?_eq_some_iff.mp h
  have hclosed := hspells.closed
  obtain ⟨inside, hquote, hinside⟩ := hspells.exists_eq_cons
  refine tokenize_join_of_row ?_ ?_
  · simp only [textPieces, List.forall_mem_cons]
    exact ⟨.mark rfl, .of_plainRun rfl, .space (by decide) (by decide), hclosed, .mark rfl, by simp⟩
  · have hspace : ∀ d ∈ literal.toList.head?, isSpace d = false := by
      rw [hinside]
      rintro d ⟨⟩
      exact not_isSpace_of_isQuote (isQuote_iff.mpr hquote)
    simp only [textPieces, List.map_cons, List.map_nil, List.isChain_cons_cons]
    refine ⟨.opening (by decide), .of_plainRun rfl (by decide), hspace, ?_, .singleton _⟩
    rw [hinside]
    exact .of_literal (isQuote_iff.mpr hquote) _

/-- The tree that is read from a call of `STRING`, with its argument as a word. -/
theorem read_textSource (h : decode? literal = some value) :
    ∃ kind, (Node.leaf kind literal).isWord = true ∧ Node.read (textSource literal) =
      .ok (.form [.keyword "STRING", .trivia " ", .leaf kind literal]) := by
  obtain ⟨quote, items, hspells, -⟩ := decode?_eq_some_iff.mp h
  obtain ⟨inside, hquote, hinside⟩ := hspells.exists_eq_cons
  have hhead : literal.toList.head? = some quote := by
    rw [hinside]
    rfl
  have htokens : (textPieces literal).map Token.ofText =
      [.opening, .atom .keyword "STRING", .atom .trivia " ", Token.ofText literal, .closing] :=
    rfl
  refine ⟨if quote = doubleQuote then .string else .keyword, ?_, ?_⟩
  · split <;> rfl
  · refine Node.read_eq_ok.mpr ⟨_, tokenize_textSource h, ?_⟩
    rw [htokens, Token.ofText_literal hquote hhead]
    split <;> rfl

/-- The address of a text that is given by a literal. -/
theorem textAddress_of_decode? {context : Context} (hdata : context.data.Consistent)
    (h : decode? literal = some value) (kind : AtomKind) :
    textAddress (.leaf kind literal) context =
      (.ok (addressForm (context.intern value).1), (context.intern value).2) := by
  have hargument : Builtin.literal .string (.leaf kind literal) = pure value := by
    rw [Builtin.literal, Node.leaf, Node.text?, Option.bind_some, h]
  rw [textAddress, hargument]
  exact address_intern hdata value

/-- A call of `STRING` with a literal enters what the literal stands for, and is its address. -/
theorem expandSource_textSource {context : Context} (hdata : context.data.Consistent)
    (h : decode? literal = some value) :
    expandSource (textSource literal) context =
      (.ok [addressForm (context.intern value).1], (context.intern value).2) := by
  obtain ⟨kind, hword, hread⟩ := read_textSource h
  have hwords : [Node.keyword "STRING", .trivia " ", .leaf kind literal].filter Node.isWord =
      [.keyword "STRING", .leaf kind literal] := by
    have hhead : (Node.keyword "STRING").isWord = true := rfl
    have htrivia : (Node.trivia " ").isWord = false := rfl
    simp [hhead, htrivia, hword]
  have hexpand : (Node.form [.keyword "STRING", .trivia " ", .leaf kind literal]).expand context =
      (.ok (addressForm (context.intern value).1), (context.intern value).2) := by
    rw [Node.form, Node.expand_builtin [] [] hwords rfl]
    exact Expand.bind_ok (textAddress_of_decode? hdata h kind) _
  have hform : Expand.ofExcept (Node.read (textSource literal)) context =
      (.ok (Node.form [.keyword "STRING", .trivia " ", .leaf kind literal]), context) := by
    rw [hread]
    rfl
  rw [expandSource, Expand.bind_ok hform, Expand.bind_ok hexpand]
  rfl

/-- A literal that can be decoded is one token, and the first one of every source that begins with
it. Every text can be written as such a literal between either quotes, namely with a backslash
before each backslash and each of these quotes; between double quotes it is a string. In a context
that actions have made, a call of `STRING` with it enters that text and nothing else, unless it has
been entered before. -/
theorem literals_end_alike :
    (∀ literal value, decode? literal = some value → tokenize literal = .ok [literal] ∧
      ∀ rest texts, tokenize (literal ++ rest) = .ok texts → texts.head? = some literal) ∧
    ∀ quote value, quote = doubleQuote ∨ quote = apostrophe →
      let literal := write quote value
      tokenize literal = .ok [literal] ∧ decode? literal = some value ∧
      (quote = doubleQuote → Token.ofText literal = .atom .string literal) ∧
      ∀ actions, let context := Context.after actions
        let symbol := (context.intern value).1
        let next := (context.intern value).2
        expandSource (textSource literal) context = (.ok [addressForm symbol], next) ∧
        ∀ entry, entry ∈ next.data.literals ↔
          entry ∈ context.data.literals ∨ entry = ⟨symbol, .text value⟩ := by
  refine ⟨fun literal value h => ⟨tokenize_of_closed (closed_of_decode? h), ?_⟩,
    fun quote value hquote => ?_⟩
  · intro rest texts htexts
    obtain ⟨more, -, rfl⟩ := tokenize_append_of_decode? h htexts
    rfl
  · intro literal
    have hdecode : decode? literal = some value := decode?_write hquote value
    refine ⟨tokenize_of_closed (closed_of_decode? hdecode), hdecode, ?_, fun actions => ?_⟩
    · rintro rfl
      exact Token.ofText_literal hquote (head?_write _ value)
    · have hdata := Context.after_data_consistent actions
      exact ⟨expandSource_textSource hdata hdecode, hdata.mem_intern_iff value⟩

/-- A literal before one that has no end, and a text that is written between apostrophes and entered
after another. -/
theorem literals_end_alike_apostrophe :
    let literal := "\"\\x41\\\"\""
    let context := Context.after [.intern "a"]
    (decode? literal = some "A\"" ∧ tokenize literal = .ok [literal] ∧
      tokenize (literal ++ " \"b") = .ok [literal, " ", "\"b"] ∧
      [literal, " ", "\"b"].head? = some literal) ∧
    write doubleQuote "A\"" = "\"A\\\"\"" ∧
    Token.ofText "\"A\\\"\"" = .atom .string "\"A\\\"\"" ∧
    write apostrophe "it's" = "'it\\'s'" ∧ decode? "'it\\'s'" = some "it's" ∧
    expandSource "(STRING 'it\\'s')" context =
      (.ok [addressForm "$S_STRING_1"], (context.intern "it's").2) := by
  intro literal context
  obtain ⟨hdecoded, hwritten⟩ := literals_end_alike
  have hliteral : decode? literal = some "A\"" := by decide +kernel
  have htexts : tokenize (literal ++ " \"b") = .ok [literal, " ", "\"b"] := by decide +kernel
  have hdouble : write doubleQuote "A\"" = "\"A\\\"\"" := by decide +kernel
  have hsingle : write apostrophe "it's" = "'it\\'s'" := by decide +kernel
  obtain ⟨-, -, htoken, -⟩ := hwritten doubleQuote "A\"" (.inl rfl)
  obtain ⟨-, hapostrophe, -, hentered⟩ := hwritten apostrophe "it's" (.inr rfl)
  have hsource : textSource "'it\\'s'" = "(STRING 'it\\'s')" := by decide +kernel
  have hsymbol : (context.intern "it's").1 = "$S_STRING_1" := by decide +kernel
  have hexpand := (hentered [.intern "a"]).1
  rw [hdouble] at htoken
  rw [hsingle] at hapostrophe hexpand
  rw [hsource, hsymbol] at hexpand
  exact ⟨⟨hliteral, (hdecoded _ _ hliteral).1, htexts, (hdecoded _ _ hliteral).2 _ _ htexts⟩,
    hdouble, htoken rfl, hsingle, hapostrophe, hexpand⟩

end WatMacro
