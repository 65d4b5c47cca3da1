import Mathlib.Algebra.Group.Nat.Defs
import WatMacro.Proofs.Expand.Tabled
import WatMacro.Proofs.Program.InPlace
import WatMacro.Proofs.Program.Session

/-!
# Static data and the address space

The offsets of the static data are written as constants of 32 bits. The globals of a module tell the
places of its literals, and the last one the number of all bytes; these numbers grow from one
literal to the next, so all of them are below `2 ^ 32` if the last one is.

**Deviation.** They are meant to be in any case, and an array is refused if the data would end
behind the address space. But the data may end right at its end, and a text is entered without a
check. So the numbers are constants of 32 bits up to the end of the last array at best
(`preprocess_offsets_overflow`). Then only the check against the memory is left, which keeps the
data of fewer than 65536 pages in bounds.

Results:

* `StaticData.fits_iff`: the check of an array in terms of bytes.
* `Program.addAll_arraysFit`: in a program every array ends within the address space.
* `preprocess_offsets`: the numbers that a module tells, and their bounds.
-/

namespace WatMacro

namespace StaticData

/-! ## Places -/

theorem start_le_extent (literals : List Literal) (position : Nat) :
    start literals position ≤ extent literals := by
  have hsplit := extent_append (literals.take position) (literals.drop position)
  rw [List.take_append_drop] at hsplit
  rw [start, hsplit]
  exact Nat.le_add_right _ _

theorem start_length (literals : List Literal) :
    start literals literals.length = extent literals := by
  rw [start, List.take_length]

theorem start_append_of_le {front : List Literal} {position : Nat}
    (h : position ≤ front.length) (back : List Literal) :
    start (front ++ back) position = start front position := by
  rw [start, List.take_append_of_le_length h, start]

/-! ## Arrays -/

/-- Every array ends within the address space, the zero byte after it included. -/
def ArraysFit (data : StaticData) : Prop :=
  ∀ position symbol length, data.literals[position]? = some ⟨symbol, .zeroed length⟩ →
    start data.literals (position + 1) ≤ 2 ^ 32

/-- The check of an array counts the bytes that are there, those of the array, and a zero byte. -/
theorem fits_iff {data : StaticData} {length : UInt64} :
    data.Fits length ↔ extent data.literals + length.toNat + 1 ≤ 2 ^ 32 := by
  have hsize : UInt64.size = 2 ^ 64 := rfl
  rw [Fits, UInt64.le_iff_toNat_le, toNat_addSaturating, toNat_addSaturating, toNat_size,
    show (1 : UInt64).toNat = 1 from rfl, show Builtin.addressSpace.toNat = 2 ^ 32 from rfl]
  omega

theorem arraysFit_empty : ArraysFit .empty :=
  fun _ _ _ hposition => by cases hposition

/-- A new literal leaves the arrays in the address space, if it is no array that ends behind it. -/
theorem ArraysFit.add {data later : StaticData} {literal : Literal} (h : data.ArraysFit)
    (hlater : later.literals = data.literals ++ [literal])
    (hfits : ∀ length, literal.content = .zeroed length → data.Fits length) : later.ArraysFit := by
  intro position symbol length hposition
  rw [hlater] at hposition ⊢
  by_cases hold : position < data.literals.length
  · rw [List.getElem?_append_left hold] at hposition
    rw [start_append_of_le hold]
    exact h position symbol length hposition
  · obtain ⟨hbelow, hliteral⟩ := List.getElem?_eq_some_iff.mp hposition
    have hlast : position = data.literals.length := by
      rw [List.length_append, List.length_singleton] at hbelow
      omega
    subst hlast
    have hcontent : literal.content = .zeroed length := by
      simpa using congrArg (·.content) hliteral
    have hbound := fits_iff.mp (hfits length hcontent)
    rw [start_succ hposition, start_append_of_le (Nat.le_refl _), start_length]
    simpa [Content.bytes, Nat.add_assoc] using hbound

theorem ArraysFit.intern {data : StaticData} (h : data.ArraysFit) (value : String) :
    (data.intern value).2.ArraysFit := by
  cases hlookup : data.symbolOf? value with
  | some symbol => rwa [intern_of_some hlookup]
  | none =>
    rw [intern_of_none hlookup]
    exact h.add (literals_add data (.text value)) fun length hlength => by cases hlength

theorem ArraysFit.allocate {data : StaticData} {length : UInt64} (h : data.ArraysFit)
    (hfits : data.Fits length) : (data.allocate length).2.ArraysFit :=
  h.add (literals_allocate data length) fun length' hlength => by
    cases hlength
    exact hfits

end StaticData

/-- A link with an invariant of the static data that every literal preserves. -/
def Link.keeping {σ : Type} (link : Link σ) (P : StaticData → Prop)
    (htext : ∀ (data : StaticData) (value : String), P data → P (data.intern value).2)
    (harray : ∀ (data : StaticData) (length : UInt64), data.Fits length → P data →
      P (data.allocate length).2) : Link σ where
  entering := link.entering
  find := link.find
  agrees data state := link.agrees data state ∧ P data
  below := link.below
  faithful := link.faithful
  find_base := link.find_base
  below_of_prefix := link.below_of_prefix
  text value hdata hagrees hbelow := by
    obtain ⟨state', hrun, hagrees'⟩ := link.text value hdata hagrees.1 hbelow
    exact ⟨state', hrun, hagrees', htext _ value hagrees.2⟩
  array hdata hfits hagrees hbelow := by
    obtain ⟨state', hrun, hagrees'⟩ := link.array hdata hfits hagrees.1 hbelow
    exact ⟨state', hrun, hagrees', harray _ _ hfits hagrees.2⟩
  tooLarge hfaithful hfits hagrees := link.tooLarge hfaithful hfits hagrees.1

/-- In a program every array ends within the address space. -/
theorem Program.addAll_arraysFit {sources : List String} {program : Program}
    (h : Program.empty.addAll sources = .ok program) : program.context.data.ArraysFit := by
  let link : Link StaticData := Link.tabled.keeping StaticData.ArraysFit
    (fun _ value hfit => hfit.intern value) (fun _ _ hfits hfit => hfit.allocate hfits)
  have hempty : link.Agrees Program.empty.context ⟨[], .empty, []⟩ :=
    ⟨StaticData.empty_consistent, ⟨rfl, StaticData.arraysFit_empty⟩, rfl, rfl⟩
  obtain ⟨-, -, _, -, -, -, hagrees⟩ :=
    Program.addAll_simulates (fun _ _ _ _ _ _ => rfl) hempty h trivial
  exact hagrees.literals.2

namespace Module

/-! ## The numbers of a module -/

/-- The numbers that a module of sources tells as constants: the place of each literal, and at the
end of them the number of all bytes. They are constants of 32 bits exactly if the number of all
bytes is. It is if the memory has fewer than 65536 pages. Whatever the memory, no array ends behind
the address space, so only texts begin there. -/
theorem preprocess_offsets {sources : List String} {pages : UInt32} {module : String}
    (h : preprocess sources pages = .ok module) :
    ∃ program front back tokens, Program.empty.addAll sources = .ok program ∧
      let data := program.context.data
      let offset := StaticData.start data.literals
      module = front ++ staticData data ++ back ∧
      tokenize (staticData data) = .ok tokens ∧
      significant tokens =
        (data.literals.mapIdx fun k literal => globalTokens literal.symbol (offset k)).flatten
          ++ globalTokens "$S_STRING_END" (offset data.literals.length)
          ++ segmentTokens (data.literals.mapIdx fun k literal =>
            (String.ofList (dataString literal.content), offset k)) ∧
      ((∀ k ≤ data.literals.length, offset k < 2 ^ 32) ↔ offset data.literals.length < 2 ^ 32) ∧
      offset data.literals.length ≤ pages.toNat * 65536 ∧
      (pages.toNat < 65536 → ∀ k ≤ data.literals.length, offset k < 2 ^ 32) ∧
      (∀ k symbol length, data.literals[k]? = some ⟨symbol, .zeroed length⟩ →
        offset (k + 1) ≤ 2 ^ 32) ∧
      ∀ k literal, data.literals[k]? = some literal → 2 ^ 32 ≤ offset k →
        ∃ value, literal.content = .text value := by
  obtain ⟨program, body, declarations, hprogram, hfits, -, -, rfl⟩ := preprocess_eq_ok h
  have hdata : program.context.data.Consistent :=
    (Program.addAll_reaches hprogram).consistent StaticData.empty_consistent
  have hlt : program.context.data.size.toNat < UInt64.size - 1 := by
    have hpages := pages.toNat_lt_size
    have : UInt32.size = 2 ^ 32 := rfl
    have : UInt64.size = 2 ^ 64 := rfl
    omega
  have hextent := StaticData.toNat_size_of_lt hlt
  obtain ⟨tokens, htokens, hsignificant⟩ := tokenize_staticData hdata (by omega)
  rw [hextent, ← StaticData.start_length] at hsignificant hfits
  have harrays := Program.addAll_arraysFit hprogram
  have hbelow : StaticData.start program.context.data.literals program.context.data.literals.length
      < 2 ^ 32 → ∀ k ≤ program.context.data.literals.length,
        StaticData.start program.context.data.literals k < 2 ^ 32 := by
    intro hend k _
    rw [StaticData.start_length] at hend
    exact Nat.lt_of_le_of_lt (StaticData.start_le_extent _ k) hend
  refine ⟨program, header program.context.modules ++ imports pages ++ String.join declarations
      ++ "\n", "\n" ++ String.join body ++ "\n)", tokens, hprogram, ?_, htokens, hsignificant,
    ⟨fun hall => hall _ (Nat.le_refl _), hbelow⟩, hfits, fun hpages => ?_, harrays,
    fun k literal hliteral hbehind => ?_⟩
  · simp only [String.append_assoc]
  · exact hbelow (by omega)
  · obtain ⟨symbol, content⟩ := literal
    cases content with
    | text value => exact ⟨value, rfl⟩
    | zeroed length =>
      have hend := harrays k symbol length hliteral
      rw [StaticData.start_succ hliteral] at hend
      omega

/-- The numbers of a module with a text between two arrays. -/
theorem preprocess_offsets_three :
    let sources := ["(drop (STATIC_ARRAY 3) \"ab\")", "(drop (STATIC_ARRAY 0x10))"]
    ∃ module program, preprocess sources 1 = .ok module ∧
      Program.empty.addAll sources = .ok program ∧
      ((∀ k ≤ program.context.data.literals.length,
          StaticData.start program.context.data.literals k < 2 ^ 32) ↔
        StaticData.start program.context.data.literals program.context.data.literals.length
          < 2 ^ 32) ∧
      ∀ k ≤ program.context.data.literals.length,
        StaticData.start program.context.data.literals k < 2 ^ 32 := by
  intro sources
  have hok : (preprocess sources 1).toOption.isSome = true := by decide +kernel
  cases hmodule : preprocess sources 1 with
  | error error =>
    rw [hmodule] at hok
    cases hok
  | ok module =>
    obtain ⟨program, -, -, -, hprogram, -, -, -, hiff, -, hbelow, -, -⟩ :=
      preprocess_offsets hmodule
    exact ⟨module, program, rfl, hprogram, hiff, hbelow (by decide)⟩

/-- The numbers of a table with two literals. The literals are variables here, because an array of
the size of the address space is not to be unfolded. -/
theorem tokenize_staticData_pair {data : StaticData} (hdata : data.Consistent)
    {first second : Literal} (hliterals : data.literals = [first, second]) {m n : Nat}
    (hfirst : first.content.bytes.length = m) (hsecond : second.content.bytes.length = n)
    (hsize : m + n + 2 < UInt64.size - 1) :
    data.size.toNat = m + n + 2 ∧ ∃ tokens, tokenize (staticData data) = .ok tokens ∧
      globalTokens second.symbol (m + 1) ++ globalTokens "$S_STRING_END" (m + n + 2)
        <:+: significant tokens := by
  have hextent : StaticData.extent data.literals = m + n + 2 := by
    rw [hliterals, StaticData.extent_cons, StaticData.extent_cons, StaticData.extent_nil, hfirst,
      hsecond]
    omega
  have hstart : StaticData.start data.literals 1 = m + 1 := by
    rw [hliterals, StaticData.start_cons_succ, StaticData.start_zero, hfirst]
  have htotal : data.size.toNat = m + n + 2 := by
    rw [StaticData.toNat_size, hextent]
    omega
  obtain ⟨tokens, htokens, hsignificant⟩ := tokenize_staticData hdata (by omega)
  refine ⟨htotal, tokens, htokens, ?_⟩
  rw [hsignificant, htotal, ← hstart, hliterals]
  simp only [List.mapIdx_cons, List.mapIdx_nil, List.flatten_cons, List.flatten_nil,
    List.append_nil, Nat.zero_add]
  rw [List.append_assoc (globalTokens first.symbol _)]
  exact List.infix_append ..

/-- **Deviation.** A text behind an array that fills the address space: the module is made, and the
offset of the text and the number of all bytes are no constants of 32 bits. -/
theorem preprocess_offsets_overflow :
    let source := "(drop (STATIC_ARRAY 0xffffffff) \"x\")"
    ∃ module program front back tokens, preprocess [source] 65537 = .ok module ∧
      Program.empty.addAll [source] = .ok program ∧
      module = front ++ staticData program.context.data ++ back ∧
      tokenize (staticData program.context.data) = .ok tokens ∧
      globalTokens "$S_STRING_1" 4294967296 ++ globalTokens "$S_STRING_END" 4294967298
        <:+: significant tokens := by
  intro source
  have hrun : (Program.empty.addAll [source]).toOption.map (fun program =>
      (program.context.data.literals, program.context.hoisted.length,
        (program.items.mapM Node.render).toOption.isSome)) =
      some ([⟨"$S_STATIC_ARRAY_0", .zeroed 0xffffffff⟩, ⟨"$S_STRING_1", .text "x"⟩], 0, true) := by
    decide +kernel
  cases hprogram : Program.empty.addAll [source] with
  | error error =>
    rw [hprogram] at hrun
    cases hrun
  | ok program =>
    rw [hprogram] at hrun
    obtain ⟨hliterals, hrest⟩ := Prod.mk.inj (Option.some.inj hrun)
    obtain ⟨hhoisted, hbody⟩ := Prod.mk.inj hrest
    have hdata : program.context.data.Consistent :=
      (Program.addAll_reaches hprogram).consistent StaticData.empty_consistent
    have hlength : (Content.zeroed 0xffffffff).bytes.length = 4294967295 := by
      rw [Content.bytes, List.length_replicate]
      decide
    obtain ⟨hsize, tokens, htokens, hnumbers⟩ :=
      tokenize_staticData_pair hdata hliterals hlength (n := 1) (by decide) (by decide)
    simp only [Nat.reduceAdd] at hsize hnumbers
    cases hitems : program.items.mapM Node.render with
    | error error =>
      rw [hitems] at hbody
      cases hbody
    | ok body =>
      have hdeclarations : program.context.hoisted.mapM Node.render = .ok [] := by
        rw [List.eq_nil_of_length_eq_zero hhoisted]
        rfl
      have hfits : program.context.data.size.toNat ≤ (65537 : UInt32).toNat * 65536 := by
        rw [hsize]
        decide
      have hmodule := assemble_of_fits hfits hitems hdeclarations
      have hpreprocess : preprocess [source] 65537 =
          assemble program.items program.context 65537 := by
        rw [preprocess, hprogram]
        rfl
      refine ⟨_, program, header program.context.modules ++ imports 65537 ++ String.join [] ++ "\n",
        "\n" ++ String.join body ++ "\n)", tokens,
        hpreprocess.trans hmodule, rfl, ?_, htokens, hnumbers⟩
      simp only [String.append_assoc]

end Module

end WatMacro
