import WatMacro.Proofs.Lexeme.Comment
import WatMacro.Proofs.Text.Quoted

/-!
# Literals as lexemes

A lexeme takes a backslash with the one character after it, whatever that is; a literal is decoded
with escapes of two to six characters. The two still end at the same quote, because nothing in an
escape beyond the character after the backslash is a quote or a backslash.

Results:

* `closed_of_decode?`: a literal that can be decoded is a closed lexeme.
* `tokenize_append_of_decode?`: it is the first token of every source that begins with it.
* `decode?_write`: every text can be written as a literal, between either kind of quotes.
* `Token.ofText_literal`: what token a literal is.
-/

namespace WatMacro

open Lexeme Text Quoted

/-! ## The closing quote -/

namespace Lexeme

variable {quote : Char}

theorem ne_of_isDigitOf {base : Nat} {d : Char} (h : isDigitOf base d = true)
    (hquote : isQuote quote = true) : d ≠ '\\' ∧ d ≠ quote := by
  constructor
  · rintro rfl
    cases h
  · rintro rfl
    rcases isQuote_iff.mp hquote with rfl | rfl <;> cases h

theorem Closes.digits_append {base : Nat} {digits cs : List Char} (hquote : isQuote quote = true)
    (hdigits : ∀ d ∈ digits, isDigitOf base d = true) (hcs : Closes quote cs) :
    Closes quote (digits ++ cs) := by
  induction digits with
  | nil => exact hcs
  | cons d digits ih =>
    obtain ⟨hslash, hne⟩ := ne_of_isDigitOf (hdigits d List.mem_cons_self) hquote
    exact .char hslash hne (ih fun d' hd' => hdigits d' (List.mem_cons_of_mem d hd'))

end Lexeme

namespace Text.Quoted

variable {quote : Char}

/-- What is left after an item ends where it did before. -/
theorem Item.closes {item cs : List Char} {c : Char} (h : Item quote item c)
    (hquote : isQuote quote = true) (hcs : Closes quote cs) : Closes quote (item ++ cs) := by
  cases h with
  | plain hslash hne => exact .char hslash hne hcs
  | escape hescape =>
    cases hescape with
    | letter => exact .escape _ hcs
    | short _ hdigits => exact .escape 'x' (hcs.digits_append hquote hdigits.isDigit)
    | long _ hdigits => exact .escape 'u' (hcs.digits_append hquote hdigits.isDigit)
    | octal hne _ hdigits =>
      obtain ⟨d, digits, rfl⟩ := List.exists_cons_of_ne_nil hne
      exact .escape d (hcs.digits_append hquote fun d' hd' =>
        hdigits.isDigit d' (List.mem_cons_of_mem d hd'))

theorem Items.closes {items : List (List Char × Char)} {text : List Char}
    (h : Items quote items text) (hquote : isQuote quote = true) : Closes quote text := by
  induction h with
  | nil => exact .quote
  | cons hitem _ _ ih => exact hitem.closes hquote ih

theorem Spells.exists_eq_cons {items : List (List Char × Char)} {cs : List Char}
    (h : Spells quote items cs) :
    ∃ inside, (quote = doubleQuote ∨ quote = apostrophe) ∧ cs = quote :: inside := by
  obtain ⟨hquote, -⟩ := h
  exact ⟨_, hquote, rfl⟩

theorem Spells.closed {items : List (List Char × Char)} {cs : List Char}
    (h : Spells quote items cs) : Closed cs := by
  obtain ⟨hquote, hitems⟩ := h
  exact .literal (isQuote_iff.mpr hquote) (hitems.closes (isQuote_iff.mpr hquote))

/-- A literal that can be decoded is a closed lexeme. -/
theorem closed_of_decode? {literal value : String} (h : decode? literal = some value) :
    Closed literal.toList := by
  obtain ⟨quote, items, hspells, -⟩ := decode?_eq_some_iff.mp h
  exact hspells.closed

/-- A literal that can be decoded is the first token of every source that begins with it. -/
theorem tokenize_append_of_decode? {literal value rest : String} {texts : List String}
    (h : decode? literal = some value) (htexts : tokenize (literal ++ rest) = .ok texts) :
    ∃ more, tokenize rest = .ok more ∧ texts = literal :: more := by
  obtain ⟨quote, items, hspells, -⟩ := decode?_eq_some_iff.mp h
  have hread : lexeme? (literal.toList ++ rest.toList) = some (literal.toList, rest.toList) := by
    obtain ⟨inside, hquote, hinside⟩ := hspells.exists_eq_cons
    refine lexeme?_append hspells.closed ?_
    rw [hinside]
    exact Apart.of_literal (isQuote_iff.mpr hquote) _
  rw [tokenize_eq_ok_iff, String.toList_append, lexemes_of_some hread, Prod.mk.injEq] at htexts
  obtain ⟨htexts, hstuck⟩ := htexts
  obtain ⟨text, more, rfl, htext, hmore⟩ := List.map_eq_cons_iff.mp htexts.symm
  obtain rfl := String.toList_inj.mp htext
  exact ⟨more, tokenize_eq_ok_iff.mpr (Prod.ext hmore.symm hstuck), rfl⟩

/-! ## Writing a literal -/

/-- A character in a literal, with a backslash before it where it would not stand for itself. -/
def guarded (quote c : Char) : List Char :=
  if c = '\\' ∨ c = quote then ['\\', c] else [c]

/-- The literal of a text between the given quotes. -/
def write (quote : Char) (value : String) : String :=
  String.ofList (quote :: (value.toList.flatMap (guarded quote) ++ [quote]))

theorem item_guarded (hquote : quote = doubleQuote ∨ quote = apostrophe) (c : Char)
    (rest : List Char) : Item quote (guarded quote c) c ∧ Greedy (guarded quote c) rest := by
  unfold guarded
  split
  · rename_i hguarded
    have hself : (c, c) ∈ letters := by
      rcases hguarded with rfl | rfl
      · decide
      · rcases hquote with rfl | rfl <;> decide
    exact ⟨.escape (.letter hself), .of_not_octal (not_octal_of_mem_letters hself)⟩
  · rename_i hplain
    obtain ⟨hslash, hne⟩ := not_or.mp hplain
    exact ⟨.plain hslash hne, .of_plain hslash⟩

theorem items_guarded (hquote : quote = doubleQuote ∨ quote = apostrophe) (value : List Char) :
    Items quote (value.map fun c => (guarded quote c, c))
      (value.flatMap (guarded quote) ++ [quote]) := by
  induction value with
  | nil => exact .nil
  | cons c value ih =>
    obtain ⟨hitem, hgreedy⟩ := item_guarded hquote c (value.flatMap (guarded quote) ++ [quote])
    rw [List.map_cons, List.flatMap_cons, List.append_assoc]
    exact .cons hitem hgreedy ih

theorem spells_write (hquote : quote = doubleQuote ∨ quote = apostrophe) (value : String) :
    Spells quote (value.toList.map fun c => (guarded quote c, c)) (write quote value).toList := by
  rw [write, String.toList_ofList]
  exact .literal hquote (items_guarded hquote value.toList)

/-- The literal of a text stands for the text. -/
theorem decode?_write (hquote : quote = doubleQuote ∨ quote = apostrophe) (value : String) :
    decode? (write quote value) = some value :=
  decode?_eq_some_iff.mpr ⟨quote, _, spells_write hquote value, by simp [Function.comp_def]⟩

theorem head?_write (quote : Char) (value : String) :
    (write quote value).toList.head? = some quote := by
  rw [write, String.toList_ofList]
  rfl

end Text.Quoted

/-! ## Literals as tokens -/

/-- A literal is an atom: a string between double quotes, and a keyword between apostrophes. -/
theorem Token.ofText_literal {literal : String} {quote : Char}
    (hquote : quote = doubleQuote ∨ quote = apostrophe)
    (h : literal.toList.head? = some quote) :
    Token.ofText literal = .atom (if quote = doubleQuote then .string else .keyword) literal := by
  have hne : ∀ other : String, other.toList.head? ≠ some doubleQuote →
      other.toList.head? ≠ some apostrophe → literal ≠ other := by
    rintro other hdouble hsingle rfl
    rcases hquote with rfl | rfl
    · exact hdouble h
    · exact hsingle h
  obtain ⟨cs, hcs⟩ := List.head?_eq_some_iff.mp h
  rw [Token.ofText, if_neg (hne _ (by decide) (by decide)), if_neg (hne _ (by decide) (by decide)),
    Atom.kindOf, hcs]
  rcases hquote with rfl | rfl <;> rfl

end WatMacro
