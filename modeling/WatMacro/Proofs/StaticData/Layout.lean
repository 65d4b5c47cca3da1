import WatMacro.StaticData

/-!
# The layout of the static data

The bytes of the static data are those of its literals in order, a zero byte after each. The sizes
of the table are 64-bit words: the total stops at the largest word, the offsets wrap around. Both
are exact for a table whose bytes are fewer than the words.

Results:

* `StaticData.toNat_size`: the size of the table is the number of its bytes, up to the largest word.
* `StaticData.map_offset_place`: the offsets of the table are the places of its literals.
* `StaticData.image_literal`: at its place a literal has its own bytes, and a zero byte follows.
-/

namespace WatMacro

namespace Content

/-- The bytes of an entry, without the zero byte that follows. -/
def bytes : Content → List UInt8
  | text value => value.toUTF8.data.toList
  | zeroed length => List.replicate length.toNat 0

theorem bytes_text (value : String) :
    (text value).bytes = value.toList.flatMap String.utf8EncodeChar := by
  rw [bytes, String.toUTF8_eq_toByteArray, ← String.utf8Encode_toList, List.utf8Encode]
  simp

/-- The size of an entry is the number of its bytes, up to the largest word. -/
theorem toNat_size (content : Content) :
    content.size.toNat = min content.bytes.length (UInt64.size - 1) := by
  cases content with
  | text value =>
    have hlength : (text value).bytes.length = value.utf8ByteSize := by
      rw [bytes, Array.length_toList]
      rfl
    rw [hlength, size]
    rcases Nat.lt_or_ge value.utf8ByteSize UInt64.size with h | h
    · rw [UInt64.toNat_ofNatClamp_of_lt h, Nat.min_eq_left (Nat.le_sub_one_of_lt h)]
    · rw [UInt64.toNat_ofNatClamp_of_le h, Nat.min_eq_right (Nat.le_trans (Nat.sub_le _ _) h)]
  | zeroed length =>
    have := length.toNat_lt_size
    rw [bytes, List.length_replicate, size]
    omega

end Content

namespace StaticData

/-- The number of bytes of literals with their zero bytes. -/
def extent : List Literal → Nat
  | [] => 0
  | literal :: literals => literal.content.bytes.length + 1 + extent literals

/-- The bytes of literals with their zero bytes. -/
def image (literals : List Literal) : List UInt8 :=
  literals.flatMap fun literal => literal.content.bytes ++ [0]

@[simp] theorem extent_nil : extent [] = 0 :=
  rfl

@[simp] theorem extent_cons (literal : Literal) (literals : List Literal) :
    extent (literal :: literals) = literal.content.bytes.length + 1 + extent literals :=
  rfl

theorem extent_append (front back : List Literal) :
    extent (front ++ back) = extent front + extent back := by
  induction front with
  | nil => simp
  | cons literal front ih =>
    simp only [List.cons_append, extent_cons, ih]
    omega

theorem length_image (literals : List Literal) : (image literals).length = extent literals := by
  induction literals with
  | nil => rfl
  | cons literal literals ih =>
    simp only [image, List.flatMap_cons, List.length_append, List.length_singleton,
      extent_cons] at ih ⊢
    omega

/-! ## Sizes -/

theorem toNat_foldl_size (literals : List Literal) (total : UInt64) :
    (literals.foldl (fun total literal =>
        addSaturating (addSaturating total literal.content.size) 1) total).toNat =
      min (total.toNat + extent literals) (UInt64.size - 1) := by
  induction literals generalizing total with
  | nil =>
    have := total.toNat_lt_size
    rw [List.foldl_nil, extent_nil]
    omega
  | cons literal literals ih =>
    rw [List.foldl_cons, ih, extent_cons, toNat_addSaturating, toNat_addSaturating,
      Content.toNat_size, show (1 : UInt64).toNat = 1 from rfl]
    omega

/-- The size of the table is the number of its bytes, up to the largest word. -/
theorem toNat_size (data : StaticData) :
    data.size.toNat = min (extent data.literals) (UInt64.size - 1) := by
  rw [size, toNat_foldl_size, show (0 : UInt64).toNat = 0 from rfl, Nat.zero_add]

/-- A table that is smaller than the largest word has its size in bytes. -/
theorem toNat_size_of_lt {data : StaticData} (h : data.size.toNat < UInt64.size - 1) :
    data.size.toNat = extent data.literals := by
  have := data.toNat_size
  omega

/-! ## Offsets -/

/-- The place of a literal: the number of bytes before it. -/
def start (literals : List Literal) (position : Nat) : Nat :=
  extent (literals.take position)

theorem start_zero (literals : List Literal) : start literals 0 = 0 := by
  rw [start, List.take_zero, extent_nil]

theorem start_cons_succ (literal : Literal) (literals : List Literal) (position : Nat) :
    start (literal :: literals) (position + 1) =
      literal.content.bytes.length + 1 + start literals position := by
  rw [start, List.take_succ_cons, extent_cons, start]

theorem start_succ {literals : List Literal} {position : Nat} {literal : Literal}
    (h : literals[position]? = some literal) :
    start literals (position + 1) =
      start literals position + literal.content.bytes.length + 1 := by
  rw [start, List.take_add_one, h, extent_append]
  simp [start, Nat.add_assoc]

/-- The offsets of the table are the places of its literals, as long as they are words. -/
theorem map_offset_place {literals : List Literal} {offset : UInt64}
    (h : offset.toNat + extent literals < UInt64.size) :
    (place offset literals).map (fun entry => (entry.toLiteral, entry.offset.toNat)) =
      literals.mapIdx fun position literal =>
        (literal, offset.toNat + start literals position) := by
  induction literals generalizing offset with
  | nil => rfl
  | cons literal literals ih =>
    rw [extent_cons] at h
    have hsize : literal.content.size.toNat = literal.content.bytes.length := by
      rw [Content.toNat_size]
      omega
    have hnext : (offset + literal.content.size + 1).toNat =
        offset.toNat + literal.content.bytes.length + 1 := by
      rw [UInt64.toNat_add, UInt64.toNat_add, hsize, show (1 : UInt64).toNat = 1 from rfl]
      have : UInt64.size = 2 ^ 64 := rfl
      omega
    rw [place, List.map_cons, ih (by omega), List.mapIdx_cons, hnext, start_zero]
    simp only [start_cons_succ, Nat.add_zero, Nat.add_assoc]

/-! ## Bytes -/

/-- At its place a literal has its own bytes, and a zero byte follows them. -/
theorem image_literal {literals : List Literal} {position : Nat} {literal : Literal}
    (h : literals[position]? = some literal) :
    ((image literals).drop (start literals position)).take literal.content.bytes.length =
        literal.content.bytes ∧
      (image literals)[start literals position + literal.content.bytes.length]? = some 0 := by
  induction literals generalizing position with
  | nil => simp at h
  | cons first literals ih =>
    rw [image, List.flatMap_cons, ← image]
    cases position with
    | zero =>
      obtain rfl : first = literal := by simpa using h
      rw [start_zero]
      refine ⟨by simp, ?_⟩
      rw [List.append_assoc, Nat.zero_add, List.getElem?_append_right (Nat.le_refl _)]
      simp
    | succ position =>
      obtain ⟨hbytes, hzero⟩ := ih (by simpa using h)
      have hlength : (first.content.bytes ++ [0]).length = first.content.bytes.length + 1 := by
        simp
      rw [start_cons_succ, ← hlength, List.drop_length_add_append, Nat.add_assoc,
        List.getElem?_append_right (Nat.le_add_right _ _), Nat.add_sub_cancel_left]
      exact ⟨hbytes, hzero⟩

end StaticData

end WatMacro
