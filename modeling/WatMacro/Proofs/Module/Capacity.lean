import Mathlib.Algebra.BigOperators.Group.List.Basic
import WatMacro.Proofs.Expand.ArrayLength
import WatMacro.Proofs.Expand.Failure
import WatMacro.Proofs.Module.DataSection

/-!
# The sums of words behind a module

The number of bytes in the static data is compared with the memory and with the address space. It
is summed with words and stops at the largest one, while the offsets of the literals are plain sums,
which would wrap around. Neither is ever seen: the largest word is behind the address space and
behind every memory, and offsets are only summed for a table that fits into the memory.

Results:

* `Module.writeExact?_eq_some_iff`: the walk over a table with checked sums succeeds exactly if the
  number of its bytes is a word, and then it writes what the plain sums write.
* `Module.assemble_dataOverflow_iff`: the check against the memory in terms of bytes.
* `Module.assemble_exact`: for any table, what the sums of words decide and write is what exact sums
  would.
-/

namespace WatMacro

/-! ## Checked sums -/

/-- The sum of two words, if it is a word. -/
def addExact? (a b : UInt64) : Option UInt64 :=
  if a.toNat + b.toNat < UInt64.size then some (a + b) else none

theorem addExact?_eq_some_iff {a b sum : UInt64} :
    addExact? a b = some sum ↔ sum.toNat = a.toNat + b.toNat := by
  have hsum := sum.toNat_lt_size
  have hsize : UInt64.size = 2 ^ 64 := rfl
  rw [addExact?]
  split
  · rename_i hword
    have hadd : (a + b).toNat = a.toNat + b.toNat := by
      rw [UInt64.toNat_add, Nat.mod_eq_of_lt hword]
    rw [Option.some.injEq, ← UInt64.toNat_inj, hadd, eq_comm]
  · refine iff_of_false (fun hnone => nomatch hnone) ?_
    omega

/-- The checked size of an entry and its zero byte. -/
theorem addExact?_size_one {content : Content} {used : UInt64} :
    addExact? content.size 1 = some used ↔ used.toNat = content.bytes.length + 1 := by
  have hused := used.toNat_lt_size
  have hcontent := content.toNat_size
  rw [addExact?_eq_some_iff, show (1 : UInt64).toNat = 1 from rfl]
  omega

namespace StaticData

theorem extent_eq_sum (literals : List Literal) :
    extent literals = (literals.map fun literal => literal.content.bytes.length + 1).sum := by
  induction literals with
  | nil => rfl
  | cons literal literals ih => rw [extent_cons, ih, List.map_cons, List.sum_cons]

end StaticData

namespace Module

/-! ## The offsets of a table -/

/-- Writes a line for each literal with its offset, with checked sums: the size of the literal and
its zero byte, and the offset of the next literal. Gives the text and the offset at the end. -/
def writeExact? (line : Literal → UInt64 → String) (offset : UInt64) :
    List Literal → Option (String × UInt64)
  | [] => some ("", offset)
  | literal :: literals => do
    let used ← addExact? literal.content.size 1
    let next ← addExact? offset used
    let (text, last) ← writeExact? line next literals
    return (line literal offset ++ text, last)

/-- The lines of a table with plain sums. -/
def writePlain (line : Literal → UInt64 → String) (offset : UInt64) (literals : List Literal) :
    String :=
  String.join ((StaticData.place offset literals).map fun entry =>
    line entry.toLiteral entry.offset)

theorem writePlain_cons (line : Literal → UInt64 → String) (offset : UInt64) (literal : Literal)
    (literals : List Literal) : writePlain line offset (literal :: literals) =
      line literal offset ++ writePlain line (offset + literal.content.size + 1) literals := by
  rw [writePlain, StaticData.place, List.map_cons, String.join_cons, writePlain]

/-- Checked sums give the offset of the next literal, if its place is a word. -/
theorem next_eq {content : Content} {offset next : UInt64}
    (h : next.toNat = offset.toNat + (content.bytes.length + 1)) :
    next = offset + content.size + 1 := by
  have hnext := next.toNat_lt_size
  have hsize : UInt64.size = 2 ^ 64 := rfl
  have hcontent := content.toNat_size
  rw [← UInt64.toNat_inj, UInt64.toNat_add, UInt64.toNat_add, show (1 : UInt64).toNat = 1 from rfl]
  omega

/-- The walk with checked sums succeeds exactly if the place behind the table is a word. Then it
ends there, and has written what the walk with plain sums writes. -/
theorem writeExact?_eq_some_iff {line : Literal → UInt64 → String} {offset last : UInt64}
    {literals : List Literal} {text : String} :
    writeExact? line offset literals = some (text, last) ↔
      last.toNat = offset.toNat + StaticData.extent literals ∧
        text = writePlain line offset literals := by
  induction literals generalizing offset text with
  | nil =>
    rw [writeExact?, Option.some.injEq, Prod.mk.injEq, StaticData.extent_nil, Nat.add_zero,
      UInt64.toNat_inj, and_comm, eq_comm, eq_comm (a := "")]
    exact Iff.rfl
  | cons literal literals ih =>
    rw [writeExact?, StaticData.extent_cons, writePlain_cons]
    constructor
    · intro h
      obtain ⟨used, hused, h⟩ := Option.bind_eq_some_iff.mp h
      obtain ⟨next, hnext, h⟩ := Option.bind_eq_some_iff.mp h
      obtain ⟨⟨rest, final⟩, hrest, h⟩ := Option.bind_eq_some_iff.mp h
      cases h
      rw [addExact?_eq_some_iff, addExact?_size_one.mp hused] at hnext
      obtain ⟨hlast, rfl⟩ := ih.mp hrest
      rw [← next_eq hnext]
      exact ⟨by omega, rfl⟩
    · rintro ⟨hlast, rfl⟩
      -- the words that the checks yield, which are below the place behind the table
      have hbound := last.toNat_lt_size
      have hword : ∀ n ≤ last.toNat, (UInt64.ofNat n).toNat = n := fun n hn =>
        UInt64.toNat_ofNat_of_lt' (Nat.lt_of_le_of_lt hn hbound)
      have hused := hword (literal.content.bytes.length + 1) (by omega)
      have hnext := hword (offset.toNat + (literal.content.bytes.length + 1)) (by omega)
      refine Option.bind_eq_some_iff.mpr ⟨_, addExact?_size_one.mpr hused, ?_⟩
      refine Option.bind_eq_some_iff.mpr
        ⟨_, addExact?_eq_some_iff.mpr (hnext.trans (by rw [hused])), ?_⟩
      have hrest := ih.mpr ⟨hlast.trans (by rw [hnext]; omega), rfl⟩
      refine Option.bind_eq_some_iff.mpr ⟨_, hrest, ?_⟩
      rw [next_eq hnext]
      rfl

/-- The part for the static data consists of the lines that its walks write. -/
theorem staticData_eq_writePlain (data : StaticData) :
    staticData data =
      writePlain (fun literal offset => globalLine literal.symbol offset) 0 data.literals
        ++ globalLine "$S_STRING_END" data.size ++ "\n"
        ++ if data.literals = [] then ""
          else
            "  (data\n    (get_global $memoryBase)\n"
              ++ writePlain (fun literal offset => dataLine ⟨literal, offset⟩) 0 data.literals
              ++ "  )\n\n" := by
  have hempty : data.entries.isEmpty = true ↔ data.literals = [] := by
    rw [StaticData.entries]
    cases data.literals <;> simp [StaticData.place]
  rw [staticData, dataSegment]
  simp only [hempty]
  rfl

/-! ## The check against the memory -/

/-- The size of the data stops at the largest word, which is behind every memory. -/
theorem capacity_lt_size_iff (data : StaticData) (pages : UInt32) :
    pages.toUInt64 * pageSize < data.size ↔
      pages.toNat * 65536 < StaticData.extent data.literals := by
  have hpages := pages.toNat_lt_size
  have hsize32 : UInt32.size = 2 ^ 32 := rfl
  have hsize64 : UInt64.size = 2 ^ 64 := rfl
  rw [UInt64.lt_iff_toNat_lt, toNat_capacity, StaticData.toNat_size]
  omega

/-- Behind the check only a splice is a cause to fail. -/
theorem assemble_failsOnSplice {items : List Node} {context : Context} {pages : UInt32}
    (h : ¬pages.toUInt64 * pageSize < context.data.size) :
    FailsOnSplice (assemble items context pages) := by
  rw [assemble, if_neg h]
  exact (failsOnSplice_mapM fun node _ => node.render_failsOnSplice).bind fun _ =>
    (failsOnSplice_mapM fun node _ => node.render_failsOnSplice).bind fun _ => failsOnSplice_ok _

/-- A module is refused for its data exactly if the data has more bytes than the memory. -/
theorem assemble_dataOverflow_iff (items : List Node) (context : Context) (pages : UInt32) :
    (∃ needed capacity, assemble items context pages = .error (.dataOverflow needed capacity)) ↔
      pages.toNat * 65536 < StaticData.extent context.data.literals := by
  rw [← capacity_lt_size_iff]
  constructor
  · rintro ⟨needed, capacity, herror⟩
    by_contra hfits
    cases assemble_failsOnSplice hfits _ herror
  · intro hlarge
    rw [assemble, if_pos hlarge]
    exact ⟨_, _, rfl⟩

/-- Saturation and overflow are never seen, whatever the table. A module is refused for its data
exactly if the exact number of bytes is larger than the memory. If it is not refused, the size of
the data is that number, no sum of an offset overflows in the walk over the globals and in the walk
over the data lines, both walks end at that number, and what they write is what the module says
about the data. An array is allocated exactly if the exact number of bytes with it is within the
address space. -/
theorem assemble_exact (items : List Node) (context : Context) (pages : UInt32) :
    let literals := context.data.literals
    let total := (literals.map fun literal => literal.content.bytes.length + 1).sum
    ((∃ needed capacity, assemble items context pages = .error (.dataOverflow needed capacity)) ↔
      pages.toNat * 65536 < total) ∧
    ((∀ needed capacity, assemble items context pages ≠ .error (.dataOverflow needed capacity)) →
      context.data.size.toNat = total ∧
      ∃ globals lines last,
        writeExact? (fun literal offset => globalLine literal.symbol offset) 0 literals =
          some (globals, last) ∧
        writeExact? (fun literal offset => dataLine ⟨literal, offset⟩) 0 literals =
          some (lines, last) ∧
        last.toNat = total ∧
        staticData context.data =
          globals ++ globalLine "$S_STRING_END" context.data.size ++ "\n"
            ++ if literals = [] then ""
              else "  (data\n    (get_global $memoryBase)\n" ++ lines ++ "  )\n\n") ∧
    ∀ (length : UInt64) (argument : Node), Builtin.length? argument = some length →
      Builtin.arrayAddress argument context =
        if total + length.toNat + 1 ≤ 2 ^ 32 then
          (.ok (Builtin.addressForm (context.allocate length).1), (context.allocate length).2)
        else (.error (.argument .staticArray (.tooLarge length)), context) := by
  intro literals total
  have htotal : total = StaticData.extent literals := (StaticData.extent_eq_sum literals).symm
  rw [htotal]
  refine ⟨assemble_dataOverflow_iff items context pages, fun hfits => ?_,
    fun length argument hlength => ?_⟩
  · have hle : ¬pages.toNat * 65536 < StaticData.extent literals := by
      rw [← assemble_dataOverflow_iff items]
      rintro ⟨needed, capacity, herror⟩
      exact hfits needed capacity herror
    have hpages := pages.toNat_lt_size
    have hsize32 : UInt32.size = 2 ^ 32 := rfl
    have hsize64 : UInt64.size = 2 ^ 64 := rfl
    have hsize : context.data.size.toNat = StaticData.extent literals := by
      have hstop := context.data.toNat_size
      change _ = min (StaticData.extent literals) _ at hstop
      omega
    have hlast : context.data.size.toNat = (0 : UInt64).toNat + StaticData.extent literals := by
      rw [hsize, show (0 : UInt64).toNat = 0 from rfl, Nat.zero_add]
    exact ⟨hsize, _, _, context.data.size, writeExact?_eq_some_iff.mpr ⟨hlast, rfl⟩,
      writeExact?_eq_some_iff.mpr ⟨hlast, rfl⟩, hsize, staticData_eq_writePlain _⟩
  · split
    · rename_i hroom
      exact Builtin.arrayAddress_of_fits hlength (StaticData.fits_iff.mpr hroom)
    · rename_i hroom
      exact Builtin.arrayAddress_of_not_fits hlength (mt StaticData.fits_iff.mp hroom)

/-- A table that fills one page to the last byte, and one whose size is not a word. -/
theorem assemble_exact_boundary :
    let page := Context.after [.allocate 65530, .intern "abcd"]
    let huge := Context.after [.allocate 0xffffffffffffffff, .allocate 0xffffffffffffffff]
    (page.data.size.toNat = 65536 ∧ ∃ globals last,
      writeExact? (fun literal offset => globalLine literal.symbol offset) 0 page.data.literals =
        some (globals, last) ∧ last.toNat = 65536) ∧
    (∃ symbol, Builtin.arrayAddress (.integer "0xfffeffff") page =
      (.ok (Builtin.addressForm symbol), (page.allocate 0xfffeffff).2)) ∧
    ∃ needed capacity, assemble [] huge 0xffffffff = .error (.dataOverflow needed capacity) := by
  intro page huge
  obtain ⟨hpage, hfits, harray⟩ := assemble_exact [] page 1
  obtain ⟨hhuge, -, -⟩ := assemble_exact [] huge 0xffffffff
  have hzeroed : ∀ length : UInt64, (Content.zeroed length).bytes.length = length.toNat := by
    intro length
    rw [Content.bytes, List.length_replicate]
  have hpageTotal : (page.data.literals.map fun literal =>
      literal.content.bytes.length + 1).sum = 65536 := by
    have hliterals : page.data.literals =
        [⟨"$S_STATIC_ARRAY_0", .zeroed 65530⟩, ⟨"$S_STRING_1", .text "abcd"⟩] := by decide +kernel
    have htext : (Content.text "abcd").bytes.length = 4 := by decide +kernel
    simp only [hliterals, List.map_cons, List.map_nil, List.sum_cons, List.sum_nil, hzeroed, htext]
    rfl
  have hhugeTotal : (huge.data.literals.map fun literal =>
      literal.content.bytes.length + 1).sum = 2 ^ 65 := by
    have hliterals : huge.data.literals = [⟨"$S_STATIC_ARRAY_0", .zeroed 0xffffffffffffffff⟩,
        ⟨"$S_STATIC_ARRAY_1", .zeroed 0xffffffffffffffff⟩] := by decide +kernel
    simp only [hliterals, List.map_cons, List.map_nil, List.sum_cons, List.sum_nil, hzeroed]
    rfl
  rw [hpageTotal] at hpage hfits harray
  rw [hhugeTotal] at hhuge
  have hok : ∀ needed capacity, assemble [] page 1 ≠ .error (.dataOverflow needed capacity) :=
    fun needed capacity herror => absurd (hpage.mp ⟨needed, capacity, herror⟩) (by decide)
  obtain ⟨hsize, globals, -, last, hglobals, -, hlast, -⟩ := hfits hok
  have hroom := harray 0xfffeffff (.integer "0xfffeffff") (by decide +kernel)
  exact ⟨⟨hsize, globals, last, hglobals, hlast⟩, ⟨_, hroom⟩, hhuge.mpr (by decide)⟩

end Module

end WatMacro
