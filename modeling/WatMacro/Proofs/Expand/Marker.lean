import WatMacro.Proofs.Context.Entries
import WatMacro.Proofs.Lexeme.Comment

/-!
# What a declaration leaves behind

A declaration that moves to the top of the module leaves a comment in its place, which says what was
declared. What is declared is the second word of the declaration: an atom is written as it stands, a
list as its text.

Results:

* `Form.hoist_eq_ok`: what is hoisted and what is left behind.
* `Form.tokenize_marker_iff`: the comment is one token exactly if the label holds no `;)`.
* `Form.lexeme?_marker`: otherwise the comment ends in the label.
-/

namespace WatMacro.Form

open Expand Lexeme

/-! ## Labels -/

/-- What a declaration with the given children is called: the text of its second word, or what that
word is written as. -/
def Labelled (children : List Node) (label : String) : Prop :=
  ∃ head word words, children.filter Node.isWord = head :: word :: words ∧
    (word.text? = some label ∨ word.text? = none ∧ (word.surround [] []).render = .ok label)

/-- A declaration with a label that ends no comment. -/
def PlainLabel (declaration : Node) : Prop :=
  ∀ label, Labelled declaration.children label → ¬[';', ')'] <:+: label.toList

/-- The label of a declaration whose second word is an atom. -/
theorem plainLabel_of_text? {declaration : Node} {text : String}
    (h : (declaration.children.filter Node.isWord)[1]?.bind Node.text? = some text)
    (htext : ¬[';', ')'] <:+: text.toList) : PlainLabel declaration := by
  rintro label ⟨head, word, words, hwords, hlabel⟩
  rw [hwords] at h
  change word.text? = some text at h
  rcases hlabel with hlabel | ⟨hnone, -⟩
  · rw [h] at hlabel
    cases hlabel
    exact htext
  · rw [h] at hnone
    cases hnone

/-- The comment that takes the place of a declaration. -/
def marker (head label : String) : String :=
  "(; " ++ head ++ " " ++ label ++ " hoisted to top ;)"

theorem declarationLabel_eq_ok {head label : String} {children : List Node}
    {context next : Context} (h : declarationLabel head children context = (.ok label, next)) :
    Labelled children label ∧ next = context := by
  rw [declarationLabel] at h
  generalize hwords : children.filter Node.isWord = words at h
  rcases words with - | ⟨first, - | ⟨word, words⟩⟩
  · cases h
  · cases h
  · cases htext : word.text? with
    | some text =>
      simp only [htext] at h
      cases h
      exact ⟨⟨first, word, words, hwords, .inl htext⟩, rfl⟩
    | none =>
      simp only [htext] at h
      obtain ⟨hrender, rfl⟩ := Prod.mk.inj h
      exact ⟨⟨first, word, words, hwords, .inr ⟨htext, hrender⟩⟩, rfl⟩

/-- A declaration is hoisted on a line of its own, and its label is named in its place. -/
theorem hoist_eq_ok {head : String} {children : List Node} {context next : Context} {node : Node}
    (h : hoist head children context = (.ok node, next)) :
    ∃ label, Labelled children label ∧ node = .trivia (marker head label) ∧
      next = context.hoist (.list children [.trivia "  "] [.trivia "\n"]) := by
  obtain ⟨label, middle, hlabel, hrest⟩ := bind_eq_ok h
  obtain ⟨hlabelled, rfl⟩ := declarationLabel_eq_ok hlabel
  cases hrest
  exact ⟨label, hlabelled, rfl, rfl⟩

/-! ## Labels in comments -/

section

variable {head : String} (hhead : head = "global" ∨ head = "table")

theorem marker_eq (head label : String) :
    marker head label = "(; " ++ (head ++ " " ++ label ++ " hoisted to top") ++ " ;)" := by
  rw [← String.toList_inj]
  simp [marker]

theorem head?_marker (head label : String) : (marker head label).toList.head? = some '(' := by
  simp [marker]

theorem not_isLineComment_marker (head label : String) :
    isLineComment (marker head label) = false := by
  simp [isLineComment, marker]

include hhead

/-- What is written around a label ends no comment. -/
theorem infix_marker_iff (label : String) :
    [';', ')'] <:+: (head ++ " " ++ label ++ " hoisted to top").toList ↔
      [';', ')'] <:+: label.toList := by
  have hfront : throughCommentEnd? (head ++ " ").toList = none ∧
      (head ++ " ").toList.getLast? ≠ some ';' := by
    rcases hhead with rfl | rfl <;> decide
  have hback : throughCommentEnd? " hoisted to top".toList = none := by decide
  rw [← not_iff_not, ← throughCommentEnd?_eq_none_iff, ← throughCommentEnd?_eq_none_iff,
    String.toList_append, String.toList_append,
    throughCommentEnd?_append_eq_none_iff fun _ => by decide,
    throughCommentEnd?_append_eq_none_iff fun hlast => absurd hlast hfront.2,
    and_iff_right hfront.1, and_iff_left hback]

/-- The comment in the place of a declaration is one token exactly if the label does not end it. -/
theorem tokenize_marker_iff (label : String) :
    tokenize (marker head label) = .ok [marker head label] ↔ ¬[';', ')'] <:+: label.toList := by
  rw [marker_eq, tokenize_comment_iff, infix_marker_iff hhead]

theorem lexical_marker {label : String} (h : ¬[';', ')'] <:+: label.toList) :
    (Token.atom .trivia (marker head label)).Lexical := by
  rw [marker_eq]
  exact lexical_commented fun hends => h ((infix_marker_iff hhead label).mp hends)

/-- If a comment ends in the label, the rest of the label stands after the comment. -/
theorem lexeme?_marker {label : String} {inside rest : List Char}
    (h : throughCommentEnd? label.toList = some (inside, rest)) :
    lexeme? (marker head label).toList =
      some (("(; " ++ head ++ " ").toList ++ inside, rest ++ " hoisted to top ;)".toList) := by
  have hfront : throughCommentEnd? (" " ++ head ++ " ").toList = none ∧
      (" " ++ head ++ " ").toList.getLast? ≠ some ';' := by
    rcases hhead with rfl | rfl <;> decide
  have hinside : throughCommentEnd?
      ((" " ++ head ++ " ").toList ++ (label.toList ++ " hoisted to top ;)".toList)) =
      some ((" " ++ head ++ " ").toList ++ inside, rest ++ " hoisted to top ;)".toList) := by
    rw [throughCommentEnd?_append_of_none hfront.1 fun hlast => absurd hlast hfront.2,
      throughCommentEnd?_append_more h]
    rfl
  have hchars : (marker head label).toList = '(' :: ';' ::
      ((" " ++ head ++ " ").toList ++ (label.toList ++ " hoisted to top ;)".toList)) := by
    simp [marker]
  rw [hchars, lexeme?_eq, run?_eq_none rfl, blockComment?, hinside]
  simp

end

end WatMacro.Form
