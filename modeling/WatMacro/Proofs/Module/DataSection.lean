import WatMacro.Module
import WatMacro.Proofs.Lexeme.Symbol
import WatMacro.Proofs.StaticData.Layout
import WatMacro.Proofs.Text.DataString

/-!
# The static data in the text of a module

The text of an assembled module is read back: its part for the static data falls into tokens, the
numbers in them are the offsets of the literals, and its strings stand for their bytes.

Results:

* `tokenize_staticData`: the tokens of the part for the static data.
* `stringBytes?_dataString`: the string of a literal stands for its bytes and a zero byte.
* `assemble_staticData`: the strings of an assembled module are the bytes of the static data, each
  literal at the offset that its global and its comment tell.
-/

namespace WatMacro

open Lexeme

namespace Module

/-! ## The tokens of the static data -/

/-- The tokens of a global with a constant value. -/
def globalTokens (symbol : String) (value : Nat) : List String :=
  ["(", "global", symbol, "i32", "(", "i32.const", toString value, ")", ")"]

/-- The tokens of a data line: its string, and the number in its comment. -/
def lineTokens (string : String) (offset : Nat) : List String :=
  [string, ";; " ++ toString offset]

/-- The tokens of a data segment with the given lines; none if there is no line. -/
def segmentTokens (lines : List (String × Nat)) : List String :=
  if lines.isEmpty then []
  else
    ["(", "data", "(", "get_global", "$memoryBase", ")"]
      ++ lines.flatMap (fun (string, offset) => lineTokens string offset) ++ [")"]

/-- The bytes that a token with double quotes stands for. -/
def stringBytes? (token : String) : Option (List UInt8) :=
  match token.toList with
  | '\x22' :: cs =>
    if cs.getLast? = some '\x22' then Text.DataString.bytes? cs.dropLast else none
  | _ => none

/-- The string of a literal stands for its bytes and a zero byte. -/
theorem stringBytes?_dataString (content : Content) :
    stringBytes? (String.ofList (dataString content)) = some (content.bytes ++ [0]) := by
  have hbytes : Text.DataString.bytes? content.dataChars = some (content.bytes ++ [0]) := by
    cases content with
    | text value =>
      rw [Content.dataChars, Text.DataString.bytes?_encode_append, Content.bytes_text]
      rfl
    | zeroed length =>
      rw [Content.dataChars, Text.DataString.bytes?_zeros_append]
      rfl
  rw [stringBytes?, String.toList_ofList, dataString, List.cons_append]
  simp [hbytes]

theorem closed_dataString (content : Content) : Closed (dataString content) := by
  rw [dataString, List.cons_append]
  refine .literal rfl ?_
  cases content with
  | text value =>
    rw [Content.dataChars, List.append_assoc]
    exact Text.DataString.closes_encode_append _ (Text.DataString.closes_hexByte 0 .quote)
  | zeroed length =>
    rw [Content.dataChars, List.append_assoc]
    exact Text.DataString.closes_zeros_append _ (Text.DataString.closes_hexByte 0 .quote)

/-! ## Lines as rows of lexemes -/

/-- Pieces of text that are whole lines: closed lexemes that fall back into themselves, with white
space at the end. -/
structure Lines (pieces : List String) : Prop where
  closed : ∀ p ∈ pieces, Closed p.toList
  chain : (pieces.map String.toList).IsChain LooselyApart
  ends : ∀ p ∈ pieces.getLast?, isSpaceRun p.toList = true

theorem Lines.nil : Lines [] :=
  ⟨by simp, .nil, by simp⟩

theorem Lines.append {front back : List String} (hfront : Lines front) (hback : Lines back) :
    Lines (front ++ back) where
  closed p hp := (List.mem_append.mp hp).elim (hfront.closed p) (hback.closed p)
  chain := by
    rw [List.map_append, List.isChain_append]
    refine ⟨hfront.chain, hback.chain, fun l hl next _ => ?_⟩
    rw [List.getLast?_map] at hl
    obtain ⟨p, hp, rfl⟩ := Option.map_eq_some_iff.mp hl
    exact .of_space (hfront.ends p hp) next
  ends p hp := by
    rw [List.getLast?_append] at hp
    cases hlast : back.getLast? with
    | some q =>
      rw [hlast] at hp
      exact hback.ends p (hlast ▸ hp)
    | none =>
      rw [hlast] at hp
      exact hfront.ends p hp

theorem Lines.flatMap {α : Type} {pieces : α → List String} {items : List α}
    (h : ∀ item ∈ items, Lines (pieces item)) : Lines (items.flatMap pieces) := by
  induction items with
  | nil => exact .nil
  | cons item items ih =>
    rw [List.flatMap_cons]
    exact (h item List.mem_cons_self).append
      (ih fun other hother => h other (List.mem_cons_of_mem item hother))

/-- The line of a global, in pieces. -/
def globalPieces (symbol : String) (value : Nat) : List String :=
  ["  ", "(", "global", " ", symbol, "  ", "i32", " ", "(", "i32.const", " ", toString value, ")",
    ")", "\n"]

/-- The line of a literal, in pieces. -/
def linePieces (content : Content) (offset : Nat) : List String :=
  ["    ", String.ofList (dataString content),
    String.ofList (List.replicate (dataColumn - (dataString content).length + 1) ' '),
    ";; " ++ toString offset, "\n"]

/-- The first line of the data segment, in pieces. -/
def segmentStart : List String :=
  ["  ", "(", "data", "\n    ", "(", "get_global", " ", "$memoryBase", ")", "\n"]

/-- The last line of the data segment, in pieces. -/
def segmentEnd : List String :=
  ["  ", ")", "\n\n"]

theorem closed_space {cs : List Char} (hne : cs ≠ []) (h : isSpaceRun cs = true) : Closed cs :=
  .space hne (List.all_eq_true.mp h)

theorem lines_globalPieces {symbol : String} (h : isPlainRun symbol.toList = true) (value : Nat) :
    Lines (globalPieces symbol value) where
  closed := by
    simp only [globalPieces, List.forall_mem_cons]
    refine ⟨closed_space (by decide) rfl, .mark rfl, .of_plainRun rfl, closed_space (by decide) rfl,
      .of_plainRun h, closed_space (by decide) rfl, .of_plainRun rfl, closed_space (by decide) rfl,
      .mark rfl, .of_plainRun rfl, closed_space (by decide) rfl,
      .of_plainRun (isPlainRun_toString value), .mark rfl, .mark rfl, closed_space (by decide) rfl,
      by simp⟩
  chain := by
    simp only [globalPieces, List.map_cons, List.map_nil, List.isChain_cons_cons]
    refine ⟨.of_space rfl _, (Apart.opening (by decide)).loosely,
      (Apart.of_plainRun rfl (by decide)).loosely, .of_space rfl _,
      (Apart.of_plainRun h (by decide)).loosely, .of_space rfl _,
      (Apart.of_plainRun rfl (by decide)).loosely, .of_space rfl _,
      (Apart.opening (by decide)).loosely, (Apart.of_plainRun rfl (by decide)).loosely,
      .of_space rfl _, (Apart.of_plainRun (isPlainRun_toString value) (by decide)).loosely,
      (Apart.closing _).loosely, (Apart.closing _).loosely, .singleton _⟩
  ends p hp := by
    obtain rfl : "\n" = p := by simpa [globalPieces] using hp
    rfl

theorem isSpaceRun_fill (width : Nat) : isSpaceRun (List.replicate (width + 1) ' ') = true := by
  rw [isSpaceRun, List.all_replicate]
  rfl

theorem lines_linePieces (content : Content) (offset : Nat) :
    Lines (linePieces content offset) := by
  have hfill := isSpaceRun_fill (dataColumn - (dataString content).length)
  have hchars : (";; " ++ toString offset).toList = ';' :: ';' :: ' ' :: (toString offset).toList :=
    String.toList_append
  have hcomment : Closed (";; " ++ toString offset).toList := by
    rw [hchars]
    refine .lineComment fun c hc => ?_
    rintro rfl
    rcases List.mem_cons.mp hc with hc | hc
    · exact absurd hc (by decide)
    · exact absurd (isPlain_of_mem_toString hc).1 (by decide)
  refine ⟨?_, ?_, fun p hp => ?_⟩
  · simp only [linePieces, List.forall_mem_cons, String.toList_ofList]
    exact ⟨closed_space (by decide) rfl, closed_dataString content,
      closed_space (by simp) hfill, hcomment, closed_space (by decide) rfl, by simp⟩
  · simp only [linePieces, List.map_cons, List.map_nil, List.isChain_cons_cons,
      String.toList_ofList, hchars]
    exact ⟨.of_space rfl _, (Apart.of_literal rfl _).loosely, .of_space hfill _,
      (Apart.lineComment (by decide)).loosely, .singleton _⟩
  · obtain rfl : "\n" = p := by simpa [linePieces] using hp
    rfl

theorem lines_segmentStart : Lines segmentStart := by
  refine ⟨?_, ?_, fun p hp => ?_⟩
  · simp only [segmentStart, List.forall_mem_cons]
    exact ⟨closed_space (by decide) rfl, .mark rfl, .of_plainRun rfl, closed_space (by decide) rfl,
      .mark rfl, .of_plainRun rfl, closed_space (by decide) rfl, .of_plainRun rfl, .mark rfl,
      closed_space (by decide) rfl, by simp⟩
  · simp only [segmentStart, List.map_cons, List.map_nil, List.isChain_cons_cons]
    exact ⟨.of_space rfl _, (Apart.opening (by decide)).loosely,
      (Apart.of_plainRun rfl (by decide)).loosely, .of_space rfl _,
      (Apart.opening (by decide)).loosely, (Apart.of_plainRun rfl (by decide)).loosely,
      .of_space rfl _, (Apart.of_plainRun rfl (by decide)).loosely, (Apart.closing _).loosely,
      .singleton _⟩
  · obtain rfl : "\n" = p := by simpa [segmentStart] using hp
    rfl

theorem lines_segmentEnd : Lines segmentEnd := by
  refine ⟨?_, ?_, fun p hp => ?_⟩
  · simp only [segmentEnd, List.forall_mem_cons]
    exact ⟨closed_space (by decide) rfl, .mark rfl, closed_space (by decide) rfl, by simp⟩
  · simp only [segmentEnd, List.map_cons, List.map_nil, List.isChain_cons_cons]
    exact ⟨.of_space rfl _, (Apart.closing _).loosely, .singleton _⟩
  · obtain rfl : "\n\n" = p := by simpa [segmentEnd] using hp
    rfl

/-- The part for the static data, in pieces: the globals of the given literals and of the size, and
a data line for each literal. -/
def sectionPieces (rows : List (Literal × Nat)) (size : Nat) : List String :=
  rows.flatMap (fun (literal, offset) => globalPieces literal.symbol offset)
    ++ globalPieces "$S_STRING_END" size ++ ["\n"]
    ++ if rows.isEmpty then []
      else
        segmentStart ++ rows.flatMap (fun (literal, offset) => linePieces literal.content offset)
          ++ segmentEnd

theorem lines_sectionPieces {rows : List (Literal × Nat)}
    (h : ∀ row ∈ rows, isPlainRun row.1.symbol.toList = true) (size : Nat) :
    Lines (sectionPieces rows size) := by
  have hbreak : Lines ["\n"] :=
    ⟨by simpa using closed_space (by decide) rfl, .singleton _, by rintro p ⟨⟩; rfl⟩
  have hglobals := Lines.flatMap fun row hrow => lines_globalPieces (h row hrow) row.2
  have hend : Lines (globalPieces "$S_STRING_END" size) := lines_globalPieces rfl size
  refine ((hglobals.append hend).append hbreak).append ?_
  split
  · exact .nil
  · have hlines := Lines.flatMap fun row (_ : row ∈ rows) => lines_linePieces row.1.content row.2
    exact (lines_segmentStart.append hlines).append lines_segmentEnd

/-- The literals of the table with their offsets as numbers. -/
def rows (data : StaticData) : List (Literal × Nat) :=
  data.entries.map fun entry => (entry.toLiteral, entry.offset.toNat)

theorem join_globalPieces (symbol : String) (value : UInt64) :
    String.join (globalPieces symbol value.toNat) = globalLine symbol value := by
  rw [← String.toList_inj]
  simp [globalPieces, globalLine]

theorem join_linePieces (entry : PlacedEntry) :
    String.join (linePieces entry.content entry.offset.toNat) = dataLine entry := by
  rw [← String.toList_inj]
  simp [linePieces, dataLine, List.replicate_succ']

theorem join_flatMap {α : Type} (pieces : α → List String) (items : List α) :
    String.join (items.flatMap pieces) =
      String.join (items.map fun item => String.join (pieces item)) := by
  induction items with
  | nil => rfl
  | cons item items ih => simp [List.flatMap_cons, String.join_append, ih, String.join_cons]

theorem join_sectionPieces (data : StaticData) :
    String.join (sectionPieces (rows data) data.size.toNat) = staticData data := by
  have hglobals : String.join ((rows data).flatMap fun (literal, offset) =>
      globalPieces literal.symbol offset) =
        String.join (data.entries.map fun entry => globalLine entry.symbol entry.offset) := by
    rw [join_flatMap, rows, List.map_map]
    exact congrArg _ (List.map_congr_left fun entry _ => join_globalPieces _ _)
  have hlines : String.join ((rows data).flatMap fun (literal, offset) =>
      linePieces literal.content offset) = String.join (data.entries.map dataLine) := by
    rw [join_flatMap, rows, List.map_map]
    exact congrArg _ (List.map_congr_left fun entry _ => join_linePieces entry)
  have hempty : (rows data).isEmpty = data.entries.isEmpty := by
    rw [rows, List.isEmpty_map]
  rw [sectionPieces, staticData, dataSegment, String.join_append, String.join_append,
    String.join_append, hglobals, join_globalPieces, hempty]
  split
  · rfl
  · rw [String.join_append, String.join_append, hlines]
    rfl

/-! ## Significant tokens -/

/-- The pieces other than white space. -/
def significant (pieces : List String) : List String :=
  pieces.filter fun piece => !isSpaceRun piece.toList

theorem significant_append (front back : List String) :
    significant (front ++ back) = significant front ++ significant back :=
  List.filter_append ..

theorem significant_flatMap {α : Type} (pieces : α → List String) (items : List α) :
    significant (items.flatMap pieces) = items.flatMap fun item => significant (pieces item) := by
  rw [significant, List.filter_flatMap]
  rfl

theorem not_isSpaceRun_of_isPlainRun {cs : List Char} (h : isPlainRun cs = true) :
    isSpaceRun cs = false := by
  cases cs with
  | nil => cases h
  | cons c cs =>
    rw [isPlainRun, Bool.and_eq_true] at h
    have hc := isPlain_iff.mp (List.all_eq_true.mp h.2 c List.mem_cons_self)
    rw [isSpaceRun, List.all_cons, hc.1]
    rfl

theorem significant_globalPieces {symbol : String} (h : isPlainRun symbol.toList = true)
    (value : Nat) : significant (globalPieces symbol value) = globalTokens symbol value := by
  have hsymbol := not_isSpaceRun_of_isPlainRun h
  have hvalue := not_isSpaceRun_of_isPlainRun (isPlainRun_toString value)
  simp only [significant, globalPieces, List.filter_cons, hsymbol, hvalue]
  rfl

theorem significant_linePieces (content : Content) (offset : Nat) :
    significant (linePieces content offset) =
      lineTokens (String.ofList (dataString content)) offset := by
  have hstring : isSpaceRun (dataString content) = false := rfl
  have hfill := isSpaceRun_fill (dataColumn - (dataString content).length)
  have hcomment : isSpaceRun (";; " ++ toString offset).toList = false := by
    rw [String.toList_append]
    rfl
  simp only [significant, linePieces, List.filter_cons, String.toList_ofList, hstring, hfill,
    hcomment]
  rfl

/-- The tokens of the part for the static data, given its literals with their offsets. -/
theorem significant_sectionPieces {rows : List (Literal × Nat)}
    (h : ∀ row ∈ rows, isPlainRun row.1.symbol.toList = true) (size : Nat) :
    significant (sectionPieces rows size) =
      rows.flatMap (fun (literal, offset) => globalTokens literal.symbol offset)
        ++ globalTokens "$S_STRING_END" size
        ++ segmentTokens
          (rows.map fun (literal, offset) =>
            (String.ofList (dataString literal.content), offset)) := by
  have hglobals : significant (rows.flatMap fun (literal, offset) =>
      globalPieces literal.symbol offset) =
        rows.flatMap fun (literal, offset) => globalTokens literal.symbol offset := by
    rw [significant_flatMap, List.flatMap_def, List.flatMap_def]
    exact congrArg _ (List.map_congr_left fun row hrow => significant_globalPieces (h row hrow) _)
  rw [sectionPieces, significant_append, significant_append, significant_append, hglobals,
    significant_globalPieces rfl, segmentTokens, List.isEmpty_map]
  split
  · rw [show significant ["\n"] = [] from rfl, List.append_nil]
    exact List.append_nil _
  · rw [significant_append, significant_append, significant_flatMap, List.flatMap_map,
      show significant ["\n"] = [] from rfl, List.append_nil]
    simp only [significant_linePieces]
    rfl

/-! ## Assembled modules -/

/-- The bytes of a memory are counted without overflow. -/
theorem toNat_capacity (pages : UInt32) :
    (pages.toUInt64 * pageSize).toNat = pages.toNat * 65536 := by
  have := pages.toNat_lt_size
  rw [UInt64.toNat_mul, UInt32.toNat_toUInt64, show pageSize.toNat = 65536 from rfl]
  have : UInt32.size = 2 ^ 32 := rfl
  omega

/-- A module is assembled if its data fits into the memory and all its parts can be written. -/
theorem assemble_eq_ok {items : List Node} {context : Context} {pages : UInt32} {text : String}
    (h : assemble items context pages = .ok text) :
    context.data.size.toNat ≤ pages.toNat * 65536 ∧
      ∃ body declarations, items.mapM Node.render = .ok body ∧
        context.hoisted.mapM Node.render = .ok declarations ∧
        text = header context.modules ++ imports pages ++ String.join declarations ++ "\n"
          ++ staticData context.data ++ "\n" ++ String.join body ++ "\n)" := by
  unfold assemble at h
  by_cases hfits : pages.toUInt64 * pageSize < context.data.size
  · rw [if_pos hfits] at h
    cases h
  · rw [if_neg hfits] at h
    rw [UInt64.lt_iff_toNat_lt, toNat_capacity] at hfits
    cases hbody : items.mapM Node.render with
    | error error =>
      rw [hbody] at h
      cases h
    | ok body =>
      cases hdeclarations : context.hoisted.mapM Node.render with
      | error error =>
        rw [hbody, hdeclarations] at h
        cases h
      | ok declarations =>
        rw [hbody, hdeclarations] at h
        cases h
        exact ⟨by omega, body, declarations, rfl, rfl, rfl⟩

theorem assemble_of_fits {items : List Node} {context : Context} {pages : UInt32}
    {body declarations : List String} (hfits : context.data.size.toNat ≤ pages.toNat * 65536)
    (hbody : items.mapM Node.render = .ok body)
    (hdeclarations : context.hoisted.mapM Node.render = .ok declarations) :
    assemble items context pages =
      .ok (header context.modules ++ imports pages ++ String.join declarations ++ "\n"
        ++ staticData context.data ++ "\n" ++ String.join body ++ "\n)") := by
  have hcapacity : ¬pages.toUInt64 * pageSize < context.data.size := by
    rw [UInt64.lt_iff_toNat_lt, toNat_capacity]
    exact Nat.not_lt.mpr hfits
  rw [assemble]
  simp only [if_neg hcapacity, hbody, hdeclarations]
  rfl

theorem map_mapIdx {α β γ : Type} (g : β → γ) (f : Nat → α → β) (items : List α) :
    (items.mapIdx f).map g = items.mapIdx fun k item => g (f k item) := by
  simp [List.mapIdx_eq_zipIdx_map]

theorem mapIdx_map {α β γ : Type} (f : Nat → β → γ) (g : α → β) (items : List α) :
    (items.map g).mapIdx f = items.mapIdx fun k item => f k (g item) := by
  simp [List.mapIdx_eq_zipIdx_map, List.zipIdx_map]

theorem mapM_stringBytes? (literals : List Literal) :
    (literals.map fun literal => String.ofList (dataString literal.content)).mapM stringBytes? =
      some (literals.map fun literal => literal.content.bytes ++ [0]) := by
  induction literals with
  | nil => rfl
  | cons literal literals ih =>
    rw [List.map_cons, List.mapM_cons, stringBytes?_dataString, ih]
    rfl

/-- The tokens of the part for the static data, if its offsets are words. -/
theorem tokenize_staticData {data : StaticData} (hdata : data.Consistent)
    (hsize : StaticData.extent data.literals < UInt64.size) :
    ∃ tokens, tokenize (staticData data) = .ok tokens ∧
      significant tokens =
        (data.literals.mapIdx fun position literal =>
            globalTokens literal.symbol (StaticData.start data.literals position)).flatten
          ++ globalTokens "$S_STRING_END" data.size.toNat
          ++ segmentTokens (data.literals.mapIdx fun position literal =>
            (String.ofList (dataString literal.content),
              StaticData.start data.literals position)) := by
  have hrows : rows data = data.literals.mapIdx fun position literal =>
      (literal, StaticData.start data.literals position) := by
    rw [rows, StaticData.entries, StaticData.map_offset_place (by simpa using hsize)]
    simp
  have hsymbols : ∀ row ∈ rows data, isPlainRun row.1.symbol.toList = true := by
    intro row hrow
    rw [hrows] at hrow
    obtain ⟨position, hposition, rfl⟩ := List.mem_mapIdx.mp hrow
    exact hdata.isPlainRun_symbol (List.getElem_mem hposition)
  have hlines := lines_sectionPieces hsymbols data.size.toNat
  obtain ⟨tokens, htokens, hsignificant⟩ := tokenize_join_of_loose hlines.closed hlines.chain
  rw [join_sectionPieces] at htokens
  refine ⟨tokens, htokens, ?_⟩
  rw [significant, hsignificant, ← significant, significant_sectionPieces hsymbols, hrows,
    map_mapIdx, List.flatMap_def, map_mapIdx]

/-- The strings of an assembled module are the bytes of the static data. Its globals and the
comments of its data lines tell the same offset of each literal: there the strings have the bytes of
the literal and a zero byte, and the next literal follows. The marker of the end tells the number of
all bytes. -/
theorem assemble_staticData (actions : List Context.Action) (items : List Node) (pages : UInt32)
    (text : String) (h : assemble items (Context.after actions) pages = .ok text) :
    let data := (Context.after actions).data
    ∃ (front back : String) (tokens strings : List String) (parts : List (List UInt8))
      (offset : Nat → Nat),
      text = front ++ staticData data ++ back ∧
      tokenize (staticData data) = .ok tokens ∧
      significant tokens =
        (data.literals.mapIdx fun k literal => globalTokens literal.symbol (offset k)).flatten
          ++ globalTokens "$S_STRING_END" parts.flatten.length
          ++ segmentTokens (strings.mapIdx fun k string => (string, offset k)) ∧
      strings.mapM stringBytes? = some parts ∧
      strings.length = data.literals.length ∧
      parts.flatten.length = data.size.toNat ∧
      offset 0 = 0 ∧
      ∀ (k : Nat) (literal : Literal), data.literals[k]? = some literal →
        (parts.flatten.drop (offset k)).take literal.content.bytes.length = literal.content.bytes ∧
        parts.flatten[offset k + literal.content.bytes.length]? = some 0 ∧
        offset (k + 1) = offset k + literal.content.bytes.length + 1 := by
  intro data
  obtain ⟨hfits, body, declarations, -, -, rfl⟩ := assemble_eq_ok h
  have hdata : data.Consistent := Context.after_data_consistent actions
  have hpages := pages.toNat_lt_size
  change data.size.toNat ≤ _ at hfits
  have hlt : data.size.toNat < UInt64.size - 1 := by
    have : UInt32.size = 2 ^ 32 := rfl
    have : UInt64.size = 2 ^ 64 := rfl
    omega
  have hextent := StaticData.toNat_size_of_lt hlt
  obtain ⟨tokens, htokens, hsignificant⟩ := tokenize_staticData hdata (by omega)
  have hparts : (data.literals.map fun literal => literal.content.bytes ++ [0]).flatten =
      StaticData.image data.literals := by
    rw [StaticData.image, List.flatMap_def]
  refine ⟨header (Context.after actions).modules ++ imports pages ++ String.join declarations
      ++ "\n",
    "\n" ++ String.join body ++ "\n)", tokens,
    data.literals.map fun literal => String.ofList (dataString literal.content),
    data.literals.map fun literal => literal.content.bytes ++ [0],
    StaticData.start data.literals, ?_, htokens, ?_, ?_, by simp, ?_, StaticData.start_zero _,
    fun k literal hk => ?_⟩
  · simp only [String.append_assoc]
    rfl
  · rw [hparts, StaticData.length_image, ← hextent, mapIdx_map]
    exact hsignificant
  · exact mapM_stringBytes? data.literals
  · rw [hparts, StaticData.length_image, hextent]
  · rw [hparts]
    obtain ⟨hbytes, hzero⟩ := StaticData.image_literal hk
    exact ⟨hbytes, hzero, StaticData.start_succ hk⟩

theorem assemble_staticData_text_array :
    ∃ (strings : List String) (parts : List (List UInt8)),
      strings.mapM stringBytes? = some parts ∧ strings.length = 2 ∧ parts.flatten.length = 7 ∧
        parts.flatten.take 3 = [0x22, 0x5c, 0x0a] ∧ parts.flatten[3]? = some 0 := by
  obtain ⟨-, -, -, strings, parts, offset, -, -, -, hparts, hstrings, hlength, hzero, hliteral⟩ :=
    assemble_staticData [.intern "\"\\\n", .allocate 2] [] 1 _ rfl
  have hfirst := hliteral 0 ⟨"$S_STRING_0", .text "\"\\\n"⟩ rfl
  rw [hzero, List.drop_zero] at hfirst
  exact ⟨strings, parts, hparts, hstrings, hlength, hfirst.1, hfirst.2.1⟩

end Module

end WatMacro
