import Mathlib.Data.Nat.Digits.Defs
import WatMacro.Proofs.Expand.Positions
import WatMacro.Proofs.Program.AddressSpace

/-!
# Arrays and the lengths they are given

The length of an array is given as an integer: a sign or none, then decimal digits, or `0x` and
hexadecimal digits. It may have any number of digits, while a length is a 64-bit word. Nevertheless
one inequality on natural numbers decides about an integer without a minus sign: the data, the
array and its zero byte have to end within the address space.

Results:

* `Builtin.lengthOfChars?_eq_some_iff`: the lengths among the integers.
* `Builtin.arrayAddress_of_fits`, `Builtin.arrayAddress_of_not_fits`: the verdict on a length, in
  whatever context.
* `Node.expand_staticArray`: what a call of `STATIC_ARRAY` with an integer does.
-/

namespace WatMacro

open Text

/-! ## Digits -/

namespace Text

/-- The number that digits denote in the positional system. -/
def positional (base : Nat) (digits : List Char) : Nat :=
  Nat.ofDigits base (digits.reverse.map fun c => (digitValue? c).getD 0)

theorem ofDigits_eq_positional (base : Nat) (digits : List Char) :
    ofDigits base digits = positional base digits := by
  induction digits using List.reverseRecOn with
  | nil => rfl
  | append_singleton digits c ih =>
    rw [ofDigits_concat, ih, positional, positional, List.reverse_concat, List.map_cons,
      Nat.ofDigits_cons, Nat.add_comm]

variable {base : Nat} {cs : List Char}

theorem dropPlus_of_isDigits (h : Atom.isDigits base cs = true) : dropPlus cs = cs := by
  unfold dropPlus
  split
  · -- a plus sign is no digit, whatever the base
    cases h
  · rfl

theorem natural?_of_isDigits (h : Atom.isDigits base cs = true) :
    natural? base cs = some (ofDigits base cs) := by
  rw [Atom.isDigits, Bool.and_eq_true, Bool.not_eq_true', List.isEmpty_eq_false_iff] at h
  rw [natural?, if_pos h]

/-- Digits give a word exactly if it is the number that they denote. -/
theorem word64?_eq_some_iff (h : Atom.isDigits base cs = true) {word : UInt64} :
    word64? base cs = some word ↔ word.toNat = positional base cs := by
  have hword := word.toNat_lt_size
  rw [word64?, dropPlus_of_isDigits h, natural?_of_isDigits h, ofDigits_eq_positional,
    Option.bind_some]
  split
  · rw [Option.some.injEq, ← UInt64.toNat_inj, UInt64.toNat_ofNatLT, eq_comm]
  · refine iff_of_false (fun hnone => nomatch hnone) ?_
    omega

end Text

/-! ## Integers -/

namespace Atom

/-- What is made of digits in the base that they are written in. -/
def inBase {α : Type} (f : Nat → List Char → α) : List Char → α
  | '0' :: 'x' :: digits => f 16 digits
  | digits => f 10 digits

theorem isInteger_eq (cs : List Char) : isInteger cs = inBase isDigits (dropSign cs) :=
  rfl

/-- The number that an integer denotes, its sign left aside. -/
def magnitude (cs : List Char) : Nat :=
  inBase positional (dropSign cs)

theorem inBase_word64? {cs : List Char} (h : inBase isDigits cs = true) {word : UInt64} :
    inBase word64? cs = some word ↔ word.toNat = inBase positional cs := by
  fun_cases inBase isDigits cs with
  | case1 digits => exact word64?_eq_some_iff h
  | case2 _ hother =>
    rw [inBase.eq_2 _ _ hother] at h
    rw [inBase.eq_2 _ _ hother, inBase.eq_2 _ _ hother]
    exact word64?_eq_some_iff h

theorem isInteger_of_kindOf {text : String} (h : kindOf text = .integer) :
    isInteger text.toList = true := by
  rw [kindOf, kindOfChars] at h
  split_ifs at h with _ _ hinteger
  exact hinteger

end Atom

namespace Builtin

/-- A length is an integer without a minus sign that denotes a word. -/
theorem lengthOfChars?_eq_some_iff {cs : List Char} (h : Atom.isInteger cs = true)
    {length : UInt64} : lengthOfChars? cs = some length ↔
      cs.head? ≠ some '-' ∧ length.toNat = Atom.magnitude cs := by
  rw [Atom.isInteger_eq] at h
  change Atom.inBase word64? (dropPlus cs) = some length ↔ _
  rw [Atom.magnitude]
  fun_cases Atom.dropSign cs with
  | case1 digits => exact (Atom.inBase_word64? h).trans (and_iff_right (by simp)).symm
  | case2 digits => exact iff_of_false (fun hminus => nomatch hminus) fun hsign => hsign.1 rfl
  | case3 _ hplus hminus =>
    rw [Atom.dropSign.eq_3 _ hplus hminus] at h
    rw [dropPlus.eq_2 _ hplus, Atom.inBase_word64? h, and_iff_right]
    intro hhead
    obtain ⟨digits, rfl⟩ := List.head?_eq_some_iff.mp hhead
    exact hminus digits rfl

example : lengthOfChars? "+0x001F".toList = some 31 ∧ Atom.magnitude "+0x001F".toList = 31 := by
  decide +kernel

/-! ## Arrays -/

/-- The address of a literal is made whatever the context. -/
theorem address_symbol (content : Content) (position : Nat) (context : Context) :
    address (content.symbol position) context =
      (.ok (addressForm (content.symbol position)), context) := by
  have hname : (content.symbol position).toList.head? = some '$' := by
    cases content <;> rw [Content.symbol, String.toList_append] <;> rfl
  rw [address, read_addressSource (content.isPlainRun_symbol position) hname]
  rfl

variable {argument : Node} {length : UInt64} {context : Context}

theorem arrayAddress_of_none (h : length? argument = none) (context : Context) :
    arrayAddress argument context =
      (.error (.argument .staticArray (.notALength argument.describe)), context) := by
  rw [arrayAddress, h]
  rfl

/-- An array that fits is allocated, in whatever context. -/
theorem arrayAddress_of_fits (h : length? argument = some length)
    (hfits : context.data.Fits length) : arrayAddress argument context =
      (.ok (addressForm (context.allocate length).1), (context.allocate length).2) := by
  have hlook : Expand.look (·.data.size) context = (.ok context.data.size, context) := rfl
  rw [arrayAddress, h]
  refine (Expand.bind_ok hlook _).trans ?_
  rw [if_pos (show addSaturating _ _ ≤ _ from hfits)]
  exact address_symbol (.zeroed length) _ _

/-- An array that does not fit is refused, in whatever context. -/
theorem arrayAddress_of_not_fits (h : length? argument = some length)
    (hfits : ¬context.data.Fits length) : arrayAddress argument context =
      (.error (.argument .staticArray (.tooLarge length)), context) := by
  have hlook : Expand.look (·.data.size) context = (.ok context.data.size, context) := rfl
  rw [arrayAddress, h]
  refine (Expand.bind_ok hlook _).trans ?_
  rw [if_neg (show ¬addSaturating _ _ ≤ _ from hfits)]
  rfl

/-- Whether an integer has no minus sign, and the data ends within the address space with an array
of that length and its zero byte. -/
def Allocatable (data : StaticData) (token : String) : Prop :=
  token.toList.head? ≠ some '-' ∧
    data.size.toNat + Atom.magnitude token.toList + 1 ≤ 2 ^ 32

/-- The size of the data stops at the largest word, which is behind the address space. -/
theorem fits_iff_size (data : StaticData) (length : UInt64) :
    data.Fits length ↔ data.size.toNat + length.toNat + 1 ≤ 2 ^ 32 := by
  have hsize : UInt64.size = 2 ^ 64 := rfl
  have htotal := data.toNat_size
  rw [StaticData.fits_iff]
  omega

/-- An integer is given an array, or is refused and nothing changes. -/
theorem arrayAddress_integer {token : String} {b a : List Node}
    (htoken : Atom.kindOf token = .integer) (context : Context) :
    (Allocatable context.data token ∧ ∃ length, length.toNat = Atom.magnitude token.toList ∧
      arrayAddress (.atom .integer token b a) context =
        (.ok (addressForm (context.allocate length).1), (context.allocate length).2)) ∨
    (¬Allocatable context.data token ∧ ∃ fault,
      arrayAddress (.atom .integer token b a) context =
        (.error (.argument .staticArray fault), context)) := by
  have hinteger := Atom.isInteger_of_kindOf htoken
  cases hlength : lengthOfChars? token.toList with
  | none =>
    have hnone : length? (.atom .integer token b a) = none := hlength
    refine .inr ⟨?_, _, arrayAddress_of_none hnone context⟩
    rintro ⟨hsign, hfits⟩
    -- the number would be a word, and so a length
    have hword : (UInt64.ofNat (Atom.magnitude token.toList)).toNat =
        Atom.magnitude token.toList := by
      apply UInt64.toNat_ofNat_of_lt'
      have hsize : UInt64.size = 2 ^ 64 := rfl
      omega
    rw [(lengthOfChars?_eq_some_iff hinteger).mpr ⟨hsign, hword⟩] at hlength
    cases hlength
  | some length =>
    have hsome : length? (.atom .integer token b a) = some length := hlength
    obtain ⟨hsign, hmagnitude⟩ := (lengthOfChars?_eq_some_iff hinteger).mp hlength
    have hfits := fits_iff_size context.data length
    rw [hmagnitude] at hfits
    by_cases hroom : context.data.Fits length
    · exact .inl ⟨⟨hsign, hfits.mp hroom⟩, length, hmagnitude, arrayAddress_of_fits hsome hroom⟩
    · exact .inr ⟨fun h => hroom (hfits.mpr h.2), _, arrayAddress_of_not_fits hsome hroom⟩

end Builtin

/-! ## Calls -/

namespace StaticData

/-- An array is entered under a symbol that the table does not have. -/
theorem Consistent.symbol_allocate {data : StaticData} (h : data.Consistent) (length : UInt64) :
    ∀ literal ∈ data.literals, literal.symbol ≠ (data.allocate length).1 := by
  have hnodup := (h.allocate length).symbols_nodup
  rw [literals_allocate, List.map_append, List.nodup_append] at hnodup
  intro literal hliteral
  exact hnodup.2.2 _ (List.mem_map_of_mem hliteral) _ (List.mem_singleton.mpr rfl)

/-- An array that fits makes the data larger by its length and a zero byte. -/
theorem toNat_size_allocate {data : StaticData} {length : UInt64}
    (h : data.size.toNat + length.toNat + 1 ≤ 2 ^ 32) :
    (data.allocate length).2.size.toNat = data.size.toNat + length.toNat + 1 := by
  have hsize : UInt64.size = 2 ^ 64 := rfl
  have hold := data.toNat_size
  have hextent : extent (data.allocate length).2.literals =
      extent data.literals + length.toNat + 1 := by
    rw [literals_allocate, extent_append]
    simp [Content.bytes, Nat.add_assoc]
  rw [toNat_size, hextent]
  omega

end StaticData

namespace Node

open Builtin

/-- A call of `STATIC_ARRAY` with an integer, in a context that actions have made. It succeeds
exactly if the integer has no minus sign and the data ends within the address space with an array of
that length and its zero byte. Then it enters that array under a new symbol, and nothing else, and
the data grows by the length and the zero byte. Otherwise the argument is refused, and nothing
changes. -/
theorem expand_staticArray (actions : List Context.Action)
    {children before after b a b' a' : List Node} {token : String}
    (hwords : children.filter isWord =
      [atom .keyword "STATIC_ARRAY" b a, atom .integer token b' a'])
    (htoken : Atom.kindOf token = .integer) :
    let context := Context.after actions
    let data := context.data
    let count := Atom.magnitude token.toList
    let run := (list children before after).expand context
    ((∃ node next, run = (.ok node, next)) ↔
      token.toList.head? ≠ some '-' ∧ data.size.toNat + count + 1 ≤ 2 ^ 32) ∧
    (∀ node next, run = (.ok node, next) → ∃ symbol length, length.toNat = count ∧
      (∀ literal ∈ data.literals, literal.symbol ≠ symbol) ∧
      next = { context with
        data := { data with literals := data.literals ++ [⟨symbol, .zeroed length⟩] } } ∧
      next.data.size.toNat = data.size.toNat + count + 1 ∧
      node = (addressForm symbol).surround before after) ∧
    ∀ error next, run = (.error error, next) →
      (∃ fault, error = .argument .staticArray fault) ∧ next = context := by
  intro context data count run
  have hdata : data.Consistent := Context.after_data_consistent actions
  have hrun : run = (arrayAddress (atom .integer token b' a') >>= fun node =>
      pure (Form.attach before after node)) context := by
    change (list children before after).expand context = _
    rw [expand_builtin before after hwords rfl]
    rfl
  rcases arrayAddress_integer (b := b') (a := a') htoken context with
    ⟨hroom, length, hlength, haddress⟩ | ⟨hroom, fault, haddress⟩
  · have hok := hrun.trans (Expand.bind_ok haddress _)
    refine ⟨iff_of_true ⟨_, _, hok⟩ hroom, fun node next h => ?_, fun error next h => ?_⟩
    · cases hok.symm.trans h
      refine ⟨_, length, hlength, hdata.symbol_allocate length, rfl, ?_, rfl⟩
      have hroom' := hroom.2
      rw [← hlength] at hroom'
      exact (StaticData.toNat_size_allocate hroom').trans (by rw [hlength])
    · cases hok.symm.trans h
  · have herror := hrun.trans (Expand.bind_error haddress _)
    refine ⟨iff_of_false ?_ hroom, fun node next h => ?_, fun error next h => ?_⟩
    · rintro ⟨node, next, h⟩
      cases herror.symm.trans h
    · cases herror.symm.trans h
    · cases herror.symm.trans h
      exact ⟨⟨fault, rfl⟩, rfl⟩

/-- The largest array behind the three bytes of a text, and one that is larger by a byte. -/
theorem expand_staticArray_boundary :
    let context := Context.after [.intern "ab"]
    let call := fun token => form [keyword "STATIC_ARRAY", trivia " ", integer token]
    (∃ node next, (call "+0x00fffffffc").expand context = (.ok node, next) ∧
      next.data.size.toNat = 2 ^ 32) ∧
    ∃ fault, (call "4294967293").expand context =
      (.error (.argument .staticArray fault), context) := by
  intro context call
  have hsize : (Context.after [.intern "ab"]).data.size.toNat = 3 := by decide +kernel
  have hwords : ∀ token, (call token).children.filter isWord =
      [atom .keyword "STATIC_ARRAY" [] [], atom .integer token [] []] := fun _ => rfl
  refine ⟨?_, ?_⟩
  · obtain ⟨hverdict, hresult, -⟩ := @expand_staticArray [.intern "ab"] _ [] [] _ _ _ _ _
      (hwords "+0x00fffffffc") (by decide +kernel)
    have hcount : Atom.magnitude "+0x00fffffffc".toList = 0xfffffffc := by decide +kernel
    rw [hcount, hsize] at hverdict hresult
    obtain ⟨node, next, hok⟩ := hverdict.mpr ⟨by decide, by decide⟩
    obtain ⟨-, -, -, -, -, hgrown, -⟩ := hresult node next hok
    exact ⟨node, next, hok, hgrown⟩
  · obtain ⟨hverdict, -, hrefused⟩ := @expand_staticArray [.intern "ab"] _ [] [] _ _ _ _ _
      (hwords "4294967293") (by decide +kernel)
    have hcount : Atom.magnitude "4294967293".toList = 0xfffffffd := by decide +kernel
    rw [hcount, hsize] at hverdict
    cases hrun : (call "4294967293").expand context with
    | mk outcome next =>
      cases outcome with
      | ok node =>
        obtain ⟨-, hroom⟩ := hverdict.mp ⟨node, next, hrun⟩
        omega
      | error error =>
        obtain ⟨⟨fault, rfl⟩, rfl⟩ := hrefused error next hrun
        exact ⟨fault, rfl⟩

end Node

end WatMacro
