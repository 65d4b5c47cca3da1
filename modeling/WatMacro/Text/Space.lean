/-!
# White space

The characters that Unicode calls `White_Space`. They are the only layout characters of a source
text; `Char.isWhitespace` knows four of them only.

Results:

* `trimEnd_append_dropped`: trimming removes an end of the text that is white space throughout.
* `trimEnd_eq_self`: a text that does not end in white space stays as it is.
-/

namespace WatMacro.Text

/-- The ranges of code points with the property `White_Space`, both ends included. -/
def spaceRanges : List (Nat × Nat) :=
  [(0x0009, 0x000D), (0x0020, 0x0020), (0x0085, 0x0085), (0x00A0, 0x00A0), (0x1680, 0x1680),
   (0x2000, 0x200A), (0x2028, 0x2029), (0x202F, 0x202F), (0x205F, 0x205F), (0x3000, 0x3000)]

/-- A character is white space if its code point lies in one of the ranges. -/
def isSpace (c : Char) : Bool :=
  spaceRanges.any fun (first, last) => first ≤ c.toNat && c.toNat ≤ last

/-- The table holds 25 code points. -/
example :
    (spaceRanges.flatMap fun (first, last) => List.range' first (last + 1 - first)).length = 25 :=
  rfl

/-- Drops the white space at the end of a list of characters. -/
def trimEndChars (cs : List Char) : List Char :=
  (cs.reverse.dropWhile isSpace).reverse

/-- Drops the white space at the end of a text. -/
def trimEnd (text : String) : String :=
  String.ofList (trimEndChars text.toList)

theorem trimEnd_append_dropped (cs : List Char) :
    ∃ gap, cs = trimEndChars cs ++ gap ∧ ∀ c ∈ gap, isSpace c = true := by
  refine ⟨(cs.reverse.takeWhile isSpace).reverse, ?_, fun c hc => ?_⟩
  · rw [trimEndChars, ← List.reverse_append, List.takeWhile_append_dropWhile, List.reverse_reverse]
  · exact (List.all_eq_true.1 (List.all_takeWhile (l := cs.reverse) (p := isSpace))) c
      (List.mem_reverse.1 hc)

theorem trimEnd_eq_self {text : String} (h : ∀ c ∈ text.toList.getLast?, isSpace c = false) :
    trimEnd text = text := by
  obtain ⟨gap, hgap, hspace⟩ := trimEnd_append_dropped text.toList
  have hnil : gap = [] := by
    cases hlast : gap.getLast? with
    | none => exact List.getLast?_eq_none_iff.mp hlast
    | some last =>
      have hother := h last (by rw [hgap, List.getLast?_append, hlast]; rfl)
      rw [hspace last (List.mem_of_getLast? hlast)] at hother
      cases hother
  rw [trimEnd, ← String.toList_inj, String.toList_ofList]
  rw [hnil, List.append_nil] at hgap
  exact hgap.symm

end WatMacro.Text
