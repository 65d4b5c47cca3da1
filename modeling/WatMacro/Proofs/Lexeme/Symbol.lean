import WatMacro.Proofs.Context.Consistency
import WatMacro.Proofs.Lexeme.Boundary

/-!
# Numbers and symbols as lexemes

Results:

* `isPlainRun_toString`: the decimal digits of a number are a single word.
* `Content.isPlainRun_symbol`: so is the symbol of a literal, at whatever position.
-/

namespace WatMacro

open Lexeme

theorem isPlain_of_isDigit {c : Char} (h : c.isDigit = true) :
    isPlain c = true ∧ isMark c = false := by
  have hrange : 48 ≤ c.toNat ∧ c.toNat ≤ 57 := by
    rw [Char.isDigit, Bool.and_eq_true, decide_eq_true_eq, decide_eq_true_eq] at h
    exact h
  have hne : ∀ d : Char, d.toNat < 48 ∨ 57 < d.toNat → c ≠ d := by
    rintro d hd rfl
    omega
  have hspace : Text.isSpace c = false := by
    simp [Text.isSpace, Text.spaceRanges]
    omega
  refine ⟨isPlain_iff.mpr ⟨hspace, ?_, ?_⟩, ?_⟩
  · rw [← Bool.not_eq_true, isQuote_iff]
    exact fun h => h.elim (hne _ (by decide)) (hne _ (by decide))
  · simp only [List.mem_cons, List.not_mem_nil, or_false, not_or]
    refine ⟨hne _ ?_, hne _ ?_, hne _ ?_, hne _ ?_, hne _ ?_, hne _ ?_, hne _ ?_, hne _ ?_,
      hne _ ?_, hne _ ?_⟩ <;> decide
  · rw [← Bool.not_eq_true, isMark_iff]
    simp only [not_or]
    refine ⟨hne _ ?_, hne _ ?_, hne _ ?_, hne _ ?_, hne _ ?_, hne _ ?_, hne _ ?_, hne _ ?_,
      hne _ ?_, hne _ ?_⟩ <;> decide

theorem isPlain_of_mem_toString {n : Nat} {c : Char} (h : c ∈ (toString n).toList) :
    isPlain c = true ∧ isMark c = false := by
  rw [Nat.toString_eq_repr, Nat.toList_repr] at h
  exact isPlain_of_isDigit (Nat.isDigit_of_mem_toDigits (by decide) (by decide) h)

theorem isPlainRun_toString (n : Nat) : isPlainRun (toString n).toList = true := by
  cases hdigits : (toString n).toList with
  | nil =>
    rw [Nat.toString_eq_repr, Nat.toList_repr] at hdigits
    exact absurd hdigits Nat.toDigits_ne_nil
  | cons c cs =>
    have hall : ∀ d ∈ c :: cs, isPlain d = true ∧ isMark d = false := fun d hd =>
      isPlain_of_mem_toString (hdigits ▸ hd)
    rw [isPlainRun, (hall c List.mem_cons_self).2, List.all_eq_true.mpr fun d hd => (hall d hd).1]
    rfl

/-- The symbol of a literal is a single word. -/
theorem Content.isPlainRun_symbol (content : Content) (position : Nat) :
    isPlainRun (content.symbol position).toList = true := by
  cases content <;> rw [symbol, String.toList_append] <;>
    exact isPlainRun_append (by decide) fun d hd => (isPlain_of_mem_toString hd).1

theorem StaticData.Consistent.isPlainRun_symbol {data : StaticData} (h : data.Consistent)
    {literal : Literal} (hmem : literal ∈ data.literals) :
    isPlainRun literal.symbol.toList = true := by
  obtain ⟨i, hi, rfl⟩ := List.mem_iff_getElem.mp hmem
  rw [h.symbol_eq i _ (List.getElem?_eq_getElem hi)]
  exact Content.isPlainRun_symbol _ _

end WatMacro
