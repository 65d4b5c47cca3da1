import WatMacro.Proofs.Lexeme.Boundary
import WatMacro.Text.DataString

/-!
# Reading data strings back

A data string stands for bytes. An escape stands for one byte, and every other character for the
bytes of its UTF-8 form.

Results:

* `bytes?_encode_append`: an encoded text stands for its UTF-8 form, whatever follows it.
* `closes_encode_append`: the first quote after an encoded text that is not a part of an escape is
  the one that closes its string.
-/

namespace WatMacro.Text.DataString

/-- The bytes that the inside of a data string stands for; `none` if a backslash opens no escape. -/
def bytes? : List Char → Option (List UInt8)
  | [] => some []
  | '\\' :: '\\' :: cs => (bytes? cs).map (0x5C :: ·)
  | '\\' :: '\x22' :: cs => (bytes? cs).map (0x22 :: ·)
  | '\\' :: 'n' :: cs => (bytes? cs).map (0x0A :: ·)
  | '\\' :: high :: low :: cs =>
    match digitValue? high, digitValue? low with
    | some h, some l => (bytes? cs).map (UInt8.ofNat (16 * h + l) :: ·)
    | _, _ => none
  | '\\' :: _ => none
  | c :: cs => (bytes? cs).map (String.utf8EncodeChar c ++ ·)

/-! ## Hexadecimal escapes -/

theorem digitValue?_digitChar {n : Nat} (h : n < 16) : digitValue? n.digitChar = some n := by
  have hall : ∀ m < 16, digitValue? m.digitChar = some m := by decide
  exact hall n h

theorem bytes?_hexByte {n : Nat} (h : n < 128) (cs : List Char) :
    bytes? ('\\' :: hexByte n ++ cs) = (bytes? cs).map (UInt8.ofNat n :: ·) := by
  have hhigh := digitValue?_digitChar (n := n / 16) (by omega)
  have hlow := digitValue?_digitChar (n := n % 16) (by omega)
  -- the first digit is at most seven, so it is no escape of its own
  have hother : ∀ m < 8, m.digitChar ≠ '\\' ∧ m.digitChar ≠ '\x22' ∧ m.digitChar ≠ 'n' := by
    decide
  obtain ⟨hslash, hquote, hn⟩ := hother (n / 16) (by omega)
  rw [hexByte, List.cons_append, List.cons_append, List.cons_append, List.nil_append,
    bytes?.eq_5 _ _ _ hslash hquote hn, hhigh, hlow]
  simp only [Nat.div_add_mod]

theorem utf8EncodeChar_ascii {c : Char} (h : c.toNat < 128) :
    String.utf8EncodeChar c = [UInt8.ofNat c.toNat] := by
  exact if_pos (Nat.le_of_lt_succ h)

/-- One escaped character stands for its UTF-8 form. -/
theorem bytes?_escape_append (c : Char) (cs : List Char) :
    bytes? (escape c ++ cs) = (bytes? cs).map (String.utf8EncodeChar c ++ ·) := by
  unfold escape
  split
  · rename_i hc
    subst hc
    rfl
  · rename_i hslash
    split
    · rename_i hc
      subst hc
      rfl
    · split
      · rename_i hc
        subst hc
        rfl
      · split
        · rename_i hcontrol
          have hlt : c.toNat < 128 := by omega
          rw [bytes?_hexByte hlt, utf8EncodeChar_ascii hlt]
          rfl
        · exact bytes?.eq_7 c cs (fun _ h _ => hslash h) (fun _ h _ => hslash h)
            (fun _ h _ => hslash h) (fun _ _ _ h _ => hslash h) hslash

/-- An encoded text stands for its UTF-8 form. -/
theorem bytes?_encode_append (value cs : List Char) :
    bytes? (encode value ++ cs) =
      (bytes? cs).map (value.flatMap String.utf8EncodeChar ++ ·) := by
  induction value with
  | nil => simp [encode]
  | cons c value ih =>
    rw [encode, List.flatMap_cons, ← encode, List.append_assoc, bytes?_escape_append, ih,
      Option.map_map, List.flatMap_cons]
    simp [Function.comp_def]

theorem bytes?_zeros_append (count : Nat) (cs : List Char) :
    bytes? (zeros count ++ cs) = (bytes? cs).map (List.replicate count 0 ++ ·) := by
  induction count with
  | zero => simp [zeros]
  | succ count ih =>
    have hzero : ∀ ds, bytes? (zeroByte ++ ds) = (bytes? ds).map (0 :: ·) :=
      bytes?_hexByte (n := 0) (by decide)
    rw [zeros, List.replicate_succ, List.flatten_cons, ← zeros, List.append_assoc, hzero, ih,
      Option.map_map]
    simp [Function.comp_def, List.replicate_succ]

/-! ## The closing quote -/

open Lexeme

theorem closes_hexByte (n : Nat) {cs : List Char} (hcs : Closes '\x22' cs) :
    Closes '\x22' ('\\' :: hexByte n ++ cs) := by
  have hother : ∀ m < 16, m.digitChar ≠ '\\' ∧ m.digitChar ≠ '\x22' := by decide
  obtain ⟨hslash, hquote⟩ := hother (n % 16) (by omega)
  exact .escape _ (.char hslash hquote hcs)

theorem closes_escape_append (c : Char) {cs : List Char} (hcs : Closes '\x22' cs) :
    Closes '\x22' (escape c ++ cs) := by
  unfold escape
  split
  · exact .escape _ hcs
  · rename_i hslash
    split
    · exact .escape _ hcs
    · rename_i hquote
      split
      · exact .escape _ hcs
      · split
        · exact closes_hexByte _ hcs
        · exact .char hslash hquote hcs

/-- An encoded text keeps its string open. -/
theorem closes_encode_append (value : List Char) {cs : List Char} (hcs : Closes '\x22' cs) :
    Closes '\x22' (encode value ++ cs) := by
  induction value with
  | nil => exact hcs
  | cons c value ih =>
    rw [encode, List.flatMap_cons, ← encode, List.append_assoc]
    exact closes_escape_append c ih

theorem closes_zeros_append (count : Nat) {cs : List Char} (hcs : Closes '\x22' cs) :
    Closes '\x22' (zeros count ++ cs) := by
  induction count with
  | zero => exact hcs
  | succ count ih =>
    rw [zeros, List.replicate_succ, List.flatten_cons, ← zeros, List.append_assoc]
    exact closes_hexByte 0 ih

end WatMacro.Text.DataString
