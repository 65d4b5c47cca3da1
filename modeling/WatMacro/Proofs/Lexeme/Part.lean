import WatMacro.Proofs.Lexeme.Tiling

/-!
# Parts of a row of tokens

Some lexemes look far ahead: a literal takes all that is left if nothing closes it, and a
parenthesis stands alone before a semicolon only because no `;)` follows anywhere. A text that ends
earlier shows less of this, but never changes a lexeme that stands in it: what a comment or a
literal took is there as a whole, and a `;)` that did not follow does not follow in a part either.
On the left, a lexeme does not depend on what was read before it. So tokens that stand side by side
in a source are the tokens of the text that they make up.

Results:

* `Lexeme.lexemes_part`: lexemes that stand side by side fall back into themselves.
* `tokenize_join_of_infix`: the same of the tokens of a source.
* `tokenize_part`: wherever a source is cut between tokens, each piece keeps its own.
-/

namespace WatMacro

open Text Lexeme

namespace Lexeme

/-- The lexemes after a cut do not depend on what stands before it. -/
theorem lexemes_back {front back : List (List Char)} {cs stuck : List Char}
    (h : lexemes (front.flatten ++ cs) = (front ++ back, stuck)) : lexemes cs = (back, stuck) := by
  induction front with
  | nil => exact h
  | cons l front ih =>
    rw [List.flatten_cons, List.append_assoc] at h
    exact ih (lexemes_cons h).2

/-- Lexemes that stand side by side in a text fall back into themselves. -/
theorem lexemes_part {cs stuck : List Char} {front part back : List (List Char)}
    (h : lexemes cs = (front ++ part ++ back, stuck)) : lexemes part.flatten = (part, []) := by
  have hflatten := lexemes_flatten cs
  rw [h, List.flatten_append, List.flatten_append, List.append_assoc, List.append_assoc] at hflatten
  rw [← hflatten, List.append_assoc] at h
  have hback := lexemes_back h
  rw [← List.nil_append (back.flatten ++ stuck)] at hback
  have hfront := lexemes_front hback
  rwa [lexemes_nil, List.append_nil, List.append_nil] at hfront

end Lexeme

/-- Tokens that stand side by side in a source are the tokens of the text that they make up. -/
theorem tokenize_join_of_infix {source : String} {texts part : List String}
    (h : tokenize source = .ok texts) (hpart : part <:+: texts) :
    tokenize (String.join part) = .ok part := by
  obtain ⟨front, back, rfl⟩ := hpart
  rw [tokenize_eq_ok_iff, List.map_append, List.map_append] at h
  rw [tokenize_eq_ok_iff, String.toList_join, List.flatMap_def]
  exact lexemes_part h

theorem tokenize_of_mem {source text : String} {texts : List String}
    (h : tokenize source = .ok texts) (hmem : text ∈ texts) : tokenize text = .ok [text] := by
  obtain ⟨front, back, rfl⟩ := List.append_of_mem hmem
  have hinfix : [text] <:+: front ++ text :: back := ⟨front, back, by simp⟩
  have hpart := tokenize_join_of_infix h hinfix
  rwa [String.join_cons, String.join_nil, String.append_empty] at hpart

/-- Tokens that stand side by side in a source are the tokens of the text that they make up. In
particular each token is the only one of its own text; and however a source is cut between its
tokens, the pieces make it up, and each has the tokens that it was given. -/
theorem tokenize_part {source : String} {texts : List String} (h : tokenize source = .ok texts) :
    (∀ part, part <:+: texts → tokenize (String.join part) = .ok part) ∧
      (∀ text ∈ texts, tokenize text = .ok [text]) ∧
      ∀ pieces : List (List String), pieces.flatten = texts →
        String.join (pieces.map String.join) = source ∧
          ∀ piece ∈ pieces, tokenize (String.join piece) = .ok piece := by
  refine ⟨fun part => tokenize_join_of_infix h, fun text => tokenize_of_mem h,
    fun pieces hpieces => ⟨?_, fun piece hpiece => ?_⟩⟩
  · rw [← join_of_tokenize h, ← hpieces, ← String.toList_inj]
    simp [String.toList_join, List.flatMap_def, Function.comp_def, List.flatten_flatten]
  · exact tokenize_join_of_infix h (hpieces ▸ List.infix_of_mem_flatten hpiece)

/-- A parenthesis that is no comment because nothing ends it, and a literal that nothing closes,
which leaves a backslash at the very end: each piece keeps its tokens, though less follows. -/
theorem tokenize_part_open :
    tokenize "(;; a\n(\"b)\\" = .ok ["(", ";; a", "\n", "(", "\"b)", "\\"] ∧
      tokenize (String.join ["(", ";; a"]) = .ok ["(", ";; a"] ∧
      tokenize "\"b)" = .ok ["\"b)"] ∧
      String.join ([["(", ";; a"], ["\n", "(", "\"b)"], ["\\"]].map String.join) =
        "(;; a\n(\"b)\\" ∧
      tokenize (String.join ["\n", "(", "\"b)"]) = .ok ["\n", "(", "\"b)"] := by
  have htexts : tokenize "(;; a\n(\"b)\\" = .ok ["(", ";; a", "\n", "(", "\"b)", "\\"] := by
    decide +kernel
  obtain ⟨hpart, hself, hcut⟩ := tokenize_part htexts
  obtain ⟨hjoin, hpieces⟩ := hcut [["(", ";; a"], ["\n", "(", "\"b)"], ["\\"]] rfl
  exact ⟨htexts, hpart _ ⟨[], ["\n", "(", "\"b)", "\\"], rfl⟩, hself _ (by simp), hjoin,
    hpieces _ (by simp)⟩

end WatMacro
