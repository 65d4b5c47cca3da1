import WatMacro.Expand.Macro
import WatMacro.Proofs.Lexeme.Comment
import WatMacro.Proofs.Node.Legible
import WatMacro.Proofs.Text.Quoted

/-!
# Code points

The form of a code point holds two atoms that no source has given: a hexadecimal numeral, and a
comment around the literal. Both are single tokens of their kinds, because a literal of one
character has nothing in it that ends a comment.

Results:

* `natural?_hexadecimal`: the digits denote the number that was written.
* `Builtin.lexical_numeral`: the numeral is an integer.
* `Builtin.lexical_comment`: the comment is trivia.
-/

namespace WatMacro

open Lexeme Text

/-! ## Hexadecimal numerals -/

namespace Text

theorem mem_toDigits {base n : Nat} (hbase : 1 < base) {c : Char} (h : c ∈ Nat.toDigits base n) :
    ∃ digit < base, c = digit.digitChar := by
  induction n using Nat.strongRecOn with
  | _ n ih =>
    rw [Nat.toDigits_eq_if hbase] at h
    split at h
    · rename_i hlt
      exact ⟨n, hlt, List.mem_singleton.mp h⟩
    · rename_i hle
      rcases List.mem_append.mp h with h | h
      · exact ih (n / base) (Nat.div_lt_self (by omega) hbase) h
      · exact ⟨n % base, Nat.mod_lt n (by omega), List.mem_singleton.mp h⟩

theorem isDigitOf_hexadecimal {n : Nat} {c : Char} (h : c ∈ hexadecimal n) :
    isDigitOf 16 c = true := by
  obtain ⟨digit, hdigit, rfl⟩ := mem_toDigits (by decide) h
  have htable : ∀ digit < 16, isDigitOf 16 digit.digitChar = true := by decide
  exact htable digit hdigit

theorem isPlain_of_mem_hexadecimal {n : Nat} {c : Char} (h : c ∈ hexadecimal n) :
    isPlain c = true := by
  obtain ⟨digit, hdigit, rfl⟩ := mem_toDigits (by decide) h
  have htable : ∀ digit < 16, isPlain digit.digitChar = true := by decide
  exact htable digit hdigit

/-- The number that hexadecimal digits denote is the one that was written. -/
theorem ofDigits_hexadecimal (n : Nat) : ofDigits 16 (hexadecimal n) = n := by
  have hvalue : ∀ digit < 16, (digitValue? digit.digitChar).getD 0 = digit := by decide
  induction n using Nat.strongRecOn with
  | _ n ih =>
    rw [hexadecimal, Nat.toDigits_eq_if (by decide)]
    split
    · rename_i hlt
      rw [← List.nil_append [n.digitChar], ofDigits_concat, hvalue n hlt]
      exact Nat.zero_add n
    · rename_i hle
      have hhigh := ih (n / 16) (Nat.div_lt_self (by omega) (by decide))
      rw [hexadecimal] at hhigh
      rw [ofDigits_concat, hhigh, hvalue _ (Nat.mod_lt n (by decide)), Nat.div_add_mod]

theorem natural?_hexadecimal (n : Nat) : natural? 16 (hexadecimal n) = some n := by
  have hdigits : hexadecimal n ≠ [] ∧ (hexadecimal n).all (isDigitOf 16) = true :=
    ⟨Nat.toDigits_ne_nil, List.all_eq_true.mpr fun _ => isDigitOf_hexadecimal⟩
  rw [natural?, if_pos hdigits, ofDigits_hexadecimal]

/-! ## Literals of one character -/

namespace Quoted

/-- No escape holds a closing parenthesis. -/
theorem Escape.not_mem_closing {used : List Char} {c : Char} (h : Escape used c) : ')' ∉ used := by
  have hdigits : ∀ {base : Nat} {digits : List Char} {c : Char}, Denotes base digits c →
      ')' ∉ digits := by
    intro base digits c hdenotes hmem
    cases hdenotes.isDigit ')' hmem
  cases h with
  | letter hletter =>
    have hletters : ∀ letter ∈ letters, ')' ≠ letter.1 := by decide
    simpa using hletters _ hletter
  | short _ hdenotes => simpa using hdigits hdenotes
  | long _ hdenotes => simpa using hdigits hdenotes
  | octal _ _ hdenotes => exact hdigits hdenotes

/-- A literal of one character is one item between its quotes. -/
theorem decodeChars?_singleton {cs : List Char} {c : Char} (h : decodeChars? cs = some [c]) :
    ∃ quote item, (quote = doubleQuote ∨ quote = apostrophe) ∧ Item quote item c ∧
      cs = quote :: (item ++ [quote]) := by
  obtain ⟨quote, items, hspells, hvalue⟩ := decodeChars?_eq_some_iff.mp h
  obtain ⟨hquote, hitems⟩ := hspells
  obtain ⟨⟨item, c⟩, items, rfl, rfl, hnil⟩ := List.map_eq_cons_iff.mp hvalue.symm
  obtain rfl := List.map_eq_nil_iff.mp hnil
  cases hitems with
  | cons hitem _ hrest =>
    cases hrest
    exact ⟨quote, item, hquote, hitem, rfl⟩

/-- In a literal of one character no semicolon stands before a closing parenthesis. -/
theorem not_infix_of_singleton {cs : List Char} {c : Char} (h : decodeChars? cs = some [c]) :
    ¬[';', ')'] <:+: cs := by
  obtain ⟨quote, item, hquote, hitem, rfl⟩ := decodeChars?_singleton h
  have hclosing : ')' ≠ quote := by
    rintro rfl
    exact absurd hquote (by decide)
  cases hitem with
  | plain =>
    rw [← throughCommentEnd?_eq_none_iff]
    rcases hquote with rfl | rfl <;>
      simp [throughCommentEnd?, doubleQuote, apostrophe]
  | escape hescape =>
    intro hends
    have hmem : ')' ∈ quote :: ('\\' :: _ ++ [quote]) := hends.subset (by simp)
    simp [hclosing, hescape.not_mem_closing] at hmem

end Quoted

end Text

/-! ## The atoms of the form -/

namespace Builtin

theorem isPlainRun_numeral (n : Nat) :
    isPlainRun ("0x" ++ String.ofList (hexadecimal n)).toList = true := by
  have hchars : ("0x" ++ String.ofList (hexadecimal n)).toList = '0' :: 'x' :: hexadecimal n := by
    simp
  rw [hchars, isPlainRun, Bool.and_eq_true, List.all_eq_true]
  refine ⟨by decide, fun d hd => ?_⟩
  rcases List.mem_cons.mp hd with rfl | hd
  · decide
  · rcases List.mem_cons.mp hd with rfl | hd
    · decide
    · exact isPlain_of_mem_hexadecimal hd

/-- The numeral of a code point is an integer. -/
theorem lexical_numeral (n : Nat) :
    (Token.atom .integer ("0x" ++ String.ofList (hexadecimal n))).Lexical := by
  have hchars : ("0x" ++ String.ofList (hexadecimal n)).toList = '0' :: 'x' :: hexadecimal n := by
    simp
  have hne : ∀ other : String, other.toList.head? ≠ some '0' →
      "0x" ++ String.ofList (hexadecimal n) ≠ other := by
    rintro other hother heq
    rw [← heq, hchars] at hother
    exact hother rfl
  have hdigits : Atom.isDigits 16 (hexadecimal n) = true := by
    rw [Atom.isDigits, Bool.and_eq_true, Bool.not_eq_true', List.isEmpty_eq_false_iff]
    exact ⟨Nat.toDigits_ne_nil, List.all_eq_true.mpr fun _ => isDigitOf_hexadecimal⟩
  have hinteger : Atom.isInteger ('0' :: 'x' :: hexadecimal n) = true := hdigits
  constructor
  · exact .of_plainRun (isPlainRun_numeral n)
  · rw [Token.text, Token.ofText, if_neg (hne _ (by decide)), if_neg (hne _ (by decide)),
      Atom.kindOf, hchars, Atom.kindOfChars, hinteger]
    rfl

/-- A comment around a literal of one character is trivia. -/
theorem lexical_comment {text : String} {c : Char}
    (h : Quoted.decodeChars? text.toList = some [c]) :
    (Token.atom .trivia ("(; " ++ text ++ " ;)")).Lexical :=
  lexical_commented (Quoted.not_infix_of_singleton h)

end Builtin

end WatMacro
