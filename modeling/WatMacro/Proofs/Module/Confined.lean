import Mathlib.Data.List.Forall2
import WatMacro.Proofs.Module.Capacity
import WatMacro.Proofs.Node.Depth

/-!
# Literals stay inside their strings

Whatever the texts of the static data hold, none of it gets out of its data string. The words of the
part for the static data are those of its globals and one string for each literal. So they are
determined by the symbols and the lengths of the literals, up to what is inside of the strings.

Results:

* `Module.wordsOf_staticData`: the words of the part for the static data.
* `Module.staticData_confined`: the same of data that fits into a memory, and what two tables with
  the same symbols and lengths have in common.
-/

namespace WatMacro

open Lexeme Reading

namespace Module

/-! ## Words -/

/-- The words of a segment with the given strings; none if there is no string. -/
def segmentWords (strings : List String) : List String :=
  if strings = [] then []
  else ["(", "data", "(", "get_global", "$memoryBase", ")"] ++ strings ++ [")"]

/-- The words of the part for the static data, given its globals, its size and its strings. -/
def sectionWords (globals : List (String × Nat)) (size : Nat) (strings : List String) :
    List String :=
  globals.flatMap (fun (symbol, offset) => globalTokens symbol offset)
    ++ globalTokens "$S_STRING_END" size ++ segmentWords strings

theorem not_isTrivia_dataString (content : Content) :
    Atom.isTrivia (String.ofList (dataString content)) = false := by
  rw [Atom.isTrivia, String.toList_ofList, dataString, List.cons_append]
  rfl

/-- The comment of a data line is trivia. -/
theorem isTrivia_comment (offset : Nat) : Atom.isTrivia (";; " ++ toString offset) = true := by
  have hchars : (";; " ++ toString offset).toList = ';' :: ';' :: ' ' :: (toString offset).toList :=
    String.toList_append
  rw [Atom.isTrivia, hchars, Atom.isTriviaChars, List.all_cons, List.all_eq_true.mpr]
  · rfl
  · intro c hc
    rw [bne_iff_ne]
    rintro rfl
    exact absurd (isPlain_of_mem_toString hc).1 (by decide)

theorem wordsOf_globalTokens {symbol : String} (h : isPlainRun symbol.toList = true)
    (value : Nat) : wordsOf (globalTokens symbol value) = globalTokens symbol value := by
  have hsymbol := not_isTrivia_of_isPlainRun h
  have hvalue := not_isTrivia_of_isPlainRun (isPlainRun_toString value)
  simp only [wordsOf, globalTokens, List.filter_cons, hsymbol, hvalue]
  rfl

theorem wordsOf_flatMap_globalTokens {globals : List (String × Nat)}
    (h : ∀ entry ∈ globals, isPlainRun entry.1.toList = true) :
    wordsOf (globals.flatMap fun (symbol, offset) => globalTokens symbol offset) =
      globals.flatMap fun (symbol, offset) => globalTokens symbol offset := by
  induction globals with
  | nil => rfl
  | cons entry globals ih =>
    rw [List.flatMap_cons, wordsOf_append, wordsOf_globalTokens (h entry List.mem_cons_self),
      ih fun other hother => h other (List.mem_cons_of_mem entry hother)]

theorem wordsOf_lineTokens {string : String} (h : Atom.isTrivia string = false) (offset : Nat) :
    wordsOf (lineTokens string offset) = [string] := by
  have hcomment := isTrivia_comment offset
  simp only [lineTokens, wordsOf, List.filter_cons, h, hcomment]
  rfl

theorem wordsOf_flatMap_lineTokens {lines : List (String × Nat)}
    (h : ∀ line ∈ lines, Atom.isTrivia line.1 = false) :
    wordsOf (lines.flatMap fun (string, offset) => lineTokens string offset) =
      lines.map (·.1) := by
  induction lines with
  | nil => rfl
  | cons line lines ih =>
    rw [List.flatMap_cons, wordsOf_append, wordsOf_lineTokens (h line List.mem_cons_self),
      ih fun other hother => h other (List.mem_cons_of_mem line hother), List.map_cons]
    rfl

/-- In a segment only the comments are trivia. -/
theorem wordsOf_segmentTokens {lines : List (String × Nat)}
    (h : ∀ line ∈ lines, Atom.isTrivia line.1 = false) :
    wordsOf (segmentTokens lines) = segmentWords (lines.map (·.1)) := by
  simp only [segmentTokens, segmentWords, List.isEmpty_iff, List.map_eq_nil_iff]
  split
  · rfl
  · rw [wordsOf_append, wordsOf_append, wordsOf_flatMap_lineTokens h]
    rfl

/-- The data strings of a table. -/
def strings (data : StaticData) : List String :=
  data.literals.map fun literal => String.ofList (dataString literal.content)

/-- The globals of a table: the symbols of its literals with their places. -/
def globals (data : StaticData) : List (String × Nat) :=
  data.literals.mapIdx fun k literal => (literal.symbol, StaticData.start data.literals k)

/-- The words of the part for the static data, if the offsets are words. -/
theorem wordsOf_staticData {data : StaticData} (hdata : data.Consistent)
    (hsize : StaticData.extent data.literals < UInt64.size) :
    ∃ tokens, tokenize (staticData data) = .ok tokens ∧
      wordsOf tokens =
        sectionWords (globals data) (StaticData.extent data.literals) (strings data) := by
  obtain ⟨tokens, htokens, hsignificant⟩ := tokenize_staticData hdata hsize
  have htotal : data.size.toNat = StaticData.extent data.literals := by
    have hstop := data.toNat_size
    omega
  have hsymbols : ∀ entry ∈ globals data, isPlainRun entry.1.toList = true := by
    intro entry hmem
    obtain ⟨k, hk, rfl⟩ := List.mem_mapIdx.mp hmem
    exact hdata.isPlainRun_symbol (List.getElem_mem hk)
  have hlines : ∀ line ∈ data.literals.mapIdx fun position literal =>
      (String.ofList (dataString literal.content), StaticData.start data.literals position),
      Atom.isTrivia line.1 = false := by
    intro line hmem
    obtain ⟨k, hk, rfl⟩ := List.mem_mapIdx.mp hmem
    exact not_isTrivia_dataString _
  have hglobals : (data.literals.mapIdx fun position literal =>
      globalTokens literal.symbol (StaticData.start data.literals position)).flatten =
        (globals data).flatMap fun (symbol, offset) => globalTokens symbol offset := by
    rw [globals, List.flatMap_def, map_mapIdx]
  have hstrings : (data.literals.mapIdx fun position literal =>
      (String.ofList (dataString literal.content),
        StaticData.start data.literals position)).map (·.1) = strings data := by
    rw [map_mapIdx, strings]
    exact List.ext_getElem (by simp) fun k _ _ => by simp
  have hwords : wordsOf tokens = wordsOf (significant tokens) :=
    (filter_isSpaceRun_filter_isTrivia fun _ h => ne_empty_of_mem_tokenize htokens h).symm
  refine ⟨tokens, htokens, ?_⟩
  rw [hwords, hsignificant, wordsOf_append, wordsOf_append, hglobals,
    wordsOf_flatMap_globalTokens hsymbols, wordsOf_globalTokens rfl, wordsOf_segmentTokens hlines,
    hstrings, htotal, sectionWords]

/-! ## Tables with the same symbols and lengths -/

/-- Words that are equal, or are both strings. -/
def SameOutside (word word' : String) : Prop :=
  word = word' ∨ (stringBytes? word).isSome = true ∧ (stringBytes? word').isSome = true

theorem forall₂_sameOutside_refl (words : List String) : List.Forall₂ SameOutside words words :=
  List.forall₂_same.mpr fun _ _ => .inl rfl

theorem isSome_of_mem_strings {data : StaticData} {string : String} (h : string ∈ strings data) :
    (stringBytes? string).isSome = true := by
  obtain ⟨literal, -, rfl⟩ := List.mem_map.mp h
  rw [stringBytes?_dataString]
  rfl

/-- Segments with equally many strings have the same words outside of them. -/
theorem sameOutside_segmentWords {data data' : StaticData}
    (h : (strings data).length = (strings data').length) :
    List.Forall₂ SameOutside (segmentWords (strings data)) (segmentWords (strings data')) := by
  have hstrings : List.Forall₂ SameOutside (strings data) (strings data') := by
    refine List.forall₂_iff_get.mpr ⟨h, fun k hk hk' => .inr ⟨?_, ?_⟩⟩
    · exact isSome_of_mem_strings (List.get_mem _ _)
    · exact isSome_of_mem_strings (List.get_mem _ _)
  have hempty : strings data = [] ↔ strings data' = [] := by
    rw [← List.length_eq_zero_iff, h, List.length_eq_zero_iff]
  simp only [segmentWords, hempty]
  split
  · exact .nil
  · exact List.rel_append (List.rel_append (forall₂_sameOutside_refl _) hstrings)
      (forall₂_sameOutside_refl _)

/-- The symbol of each literal of a table, and its length in bytes. -/
def shape (data : StaticData) : List (String × Nat) :=
  data.literals.map fun literal => (literal.symbol, literal.content.bytes.length)

theorem extent_take_eq_shape (data : StaticData) (k : Nat) :
    StaticData.extent (data.literals.take k) = (((shape data).take k).map (·.2 + 1)).sum := by
  rw [StaticData.extent_eq_sum, shape, ← List.map_take, List.map_map]
  rfl

theorem extent_eq_shape (data : StaticData) :
    StaticData.extent data.literals = ((shape data).map (·.2 + 1)).sum := by
  rw [StaticData.extent_eq_sum, shape, List.map_map]
  rfl

/-- The shape of a table tells its globals. -/
theorem globals_eq_shape (data : StaticData) :
    globals data = (shape data).mapIdx fun k entry =>
      (entry.1, (((shape data).take k).map (·.2 + 1)).sum) := by
  rw [globals, shape, mapIdx_map, ← shape]
  simp only [StaticData.start, extent_take_eq_shape]

theorem length_strings (data : StaticData) : (strings data).length = (shape data).length := by
  rw [strings, shape, List.length_map, List.length_map]

/-- Two tables of one shape have the same words outside of their strings. -/
theorem sameOutside_sectionWords {data data' : StaticData} (h : shape data' = shape data) :
    List.Forall₂ SameOutside
      (sectionWords (globals data) (StaticData.extent data.literals) (strings data))
      (sectionWords (globals data') (StaticData.extent data'.literals) (strings data')) := by
  have hlength : (strings data).length = (strings data').length := by
    rw [length_strings, length_strings, h]
  rw [sectionWords, sectionWords, globals_eq_shape, globals_eq_shape, extent_eq_shape,
    extent_eq_shape, h]
  exact List.rel_append (forall₂_sameOutside_refl _) (sameOutside_segmentWords hlength)

/-- The text for the static data, in a context that actions have made and whose data fits into the
memory. It falls into tokens. Its words are those of a global for each literal, with the place of
the literal, those of the global for the number of all bytes, and in the segment one string for each
literal, which stands for the bytes of the literal and a zero byte. So whatever another table holds
in literals of the same symbols and lengths, its words differ from these only where both are
strings. -/
theorem staticData_confined (actions : List Context.Action) (pages : UInt32)
    (hfits : (Context.after actions).data.size ≤ pages.toUInt64 * pageSize) :
    let data := (Context.after actions).data
    ∃ tokens strings, tokenize (staticData data) = .ok tokens ∧
      wordsOf tokens =
        (data.literals.mapIdx fun k literal =>
            globalTokens literal.symbol (StaticData.start data.literals k)).flatten
          ++ globalTokens "$S_STRING_END" (StaticData.extent data.literals)
          ++ (if strings = [] then []
            else ["(", "data", "(", "get_global", "$memoryBase", ")"] ++ strings ++ [")"]) ∧
      strings.mapM stringBytes? =
        some (data.literals.map fun literal => literal.content.bytes ++ [0]) ∧
      ∀ actions' : List Context.Action,
        let data' := (Context.after actions').data
        (data'.literals.map fun literal => (literal.symbol, literal.content.bytes.length)) =
          (data.literals.map fun literal => (literal.symbol, literal.content.bytes.length)) →
        ∃ tokens', tokenize (staticData data') = .ok tokens' ∧
          List.Forall₂ SameOutside (wordsOf tokens) (wordsOf tokens') := by
  intro data
  have hdata : data.Consistent := Context.after_data_consistent actions
  have hsize : StaticData.extent data.literals < UInt64.size := by
    have hcapacity := (capacity_lt_size_iff data pages).not.mp (UInt64.not_lt.mpr hfits)
    have hpages := pages.toNat_lt_size
    have hsize32 : UInt32.size = 2 ^ 32 := rfl
    have hsize64 : UInt64.size = 2 ^ 64 := rfl
    omega
  obtain ⟨tokens, htokens, hwords⟩ := wordsOf_staticData hdata hsize
  refine ⟨tokens, strings data, htokens, ?_, mapM_stringBytes? data.literals, ?_⟩
  · rw [hwords, sectionWords, globals, List.flatMap_def, map_mapIdx, segmentWords]
  · intro actions' data' hshape
    have hdata' : data'.Consistent := Context.after_data_consistent actions'
    have hsize' : StaticData.extent data'.literals < UInt64.size := by
      rw [extent_eq_shape, show shape data' = shape data from hshape, ← extent_eq_shape]
      exact hsize
    obtain ⟨tokens', htokens', hwords'⟩ := wordsOf_staticData hdata' hsize'
    rw [hwords]
    refine ⟨tokens', htokens', ?_⟩
    rw [hwords']
    exact sameOutside_sectionWords hshape

/-- A text of characters that mean something elsewhere, beside one of plain letters. -/
theorem staticData_confined_marks :
    let marks := (Context.after [.intern "\"\\;)(\n", .allocate 2]).data
    let letters := (Context.after [.intern "simple", .allocate 2]).data
    ∃ tokens tokens', tokenize (staticData marks) = .ok tokens ∧
      tokenize (staticData letters) = .ok tokens' ∧
      List.Forall₂ SameOutside (wordsOf tokens) (wordsOf tokens') := by
  intro marks letters
  obtain ⟨tokens, -, htokens, -, -, hsame⟩ :=
    staticData_confined [.intern "\"\\;)(\n", .allocate 2] 1 (by decide +kernel)
  obtain ⟨tokens', htokens', hforall⟩ :=
    hsame [.intern "simple", .allocate 2] (by decide +kernel)
  exact ⟨tokens, tokens', htokens, htokens', hforall⟩

end Module

end WatMacro
