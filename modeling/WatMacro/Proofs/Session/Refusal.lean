import WatMacro.Proofs.Session.Waiting

/-!
# What is refused as incomplete

Reading and expansion fail for different causes. An expansion reads as well, namely the address of
each literal that it enters; but that address can be read whatever the symbol of the literal is. So
nobody but the reader of the source says of it that it is incomplete, and a form that is complete is
never waited for.

Results:

* `StaticData.Consistent.read_address`: the address of a literal of the table can be read.
* `expandText_incomplete_iff`, `Program.add_incomplete_iff`: a source is refused as incomplete
  exactly if it is read so.
* `Context.after_refuses`: what may go wrong in a context that actions have made.
-/

namespace WatMacro

open Builtin Session

variable {context : Context} {source : String} {error : Error}

/-- The address of a literal of the table can be read. -/
theorem StaticData.Consistent.read_address {data : StaticData} (h : data.Consistent)
    {symbol : String} {content : Content} (hmem : ⟨symbol, content⟩ ∈ data.literals) :
    Node.read (addressSource symbol) = .ok (addressForm symbol) :=
  read_addressSource (h.isPlainRun_symbol hmem) (h.head?_symbol hmem)

/-- A cause that asks for more input is found by the reader. -/
theorem read_of_incomplete (hmore : error.isIncomplete = true)
    (h : Node.read source = .error error ∨
      (∃ form, Node.read source = .ok form) ∧ error.isExpansion = true) :
    Node.read source = .error error := by
  refine h.resolve_right ?_
  rintro ⟨-, hexpansion⟩
  rw [Error.not_isIncomplete_of_isExpansion hexpansion] at hmore
  cases hmore

theorem expandText_incomplete_iff (hdata : context.data.Consistent)
    (hmore : error.isIncomplete = true) :
    (expandText source context).1 = .error error ↔ Node.read source = .error error := by
  constructor
  · intro h
    exact read_of_incomplete hmore (expandText_eq_error hdata (Prod.ext h rfl)).2
  · intro h
    rw [expandText_of_read_error h]

theorem Program.add_incomplete_iff {items : List Node} (hdata : context.data.Consistent)
    (hmore : error.isIncomplete = true) :
    (Program.add ⟨context, items⟩ source).1 = .error error ↔ Node.read source = .error error := by
  constructor
  · intro h
    unfold Program.add at h
    split at h
    · rename_i cause next hrun
      cases h
      exact read_of_incomplete hmore (expandSource_eq_error hdata hrun)
    · cases h
  · intro h
    rw [Program.add, expandSource_of_read_error h]

/-- A session waits exactly for lines that are read as incomplete. -/
theorem Session.take_eq_more_iff {session : Session} (hdata : session.context.data.Consistent)
    (line : String) :
    (session.take line).1 = .more ↔ isWaiting (session.pending ++ [line]) = true := by
  rw [take_eq hdata]
  split
  · rename_i hwaiting
    exact iff_of_true rfl hwaiting
  · rename_i hdone
    exact iff_of_false (Reply.ofResult_ne_more _) hdone

namespace Context

/-- What may go wrong in a context that actions have made. The expansion of a node, whether or not
a source holds it, fails for a cause of expansion only, so for none that the reader has, nor for the
size of the data. The address of a literal can be read, of those in the table and of those that
are entered. A source is refused as incomplete, on its own or in a program, exactly if it is read
as incomplete, and a session waits for more exactly if its lines are. -/
theorem after_refuses (actions : List Action) :
    let context := after actions
    (∀ (node : Node) (error : Error) (next : Context),
      node.expand context = (.error error, next) → error.isExpansion = true) ∧
    (∀ literal ∈ context.data.literals,
      Node.read (addressSource literal.symbol) = .ok (addressForm literal.symbol)) ∧
    (∀ value : String, Node.read (addressSource (context.intern value).1) =
      .ok (addressForm (context.intern value).1)) ∧
    (∀ length : UInt64, Node.read (addressSource (context.allocate length).1) =
      .ok (addressForm (context.allocate length).1)) ∧
    (∀ (source : String) (error : Error), error.isIncomplete = true →
      ((expandText source context).1 = .error error ↔ Node.read source = .error error) ∧
      ∀ items, (Program.add ⟨context, items⟩ source).1 = .error error ↔
        Node.read source = .error error) ∧
    ∀ (pending : List String) (line : String),
      (take ⟨pending, context⟩ line).1 = .more ↔
        ∃ error, Node.read (joinLines (pending ++ [line])) = .error error ∧
          error.isIncomplete = true := by
  intro context
  have hdata : context.data.Consistent := after_data_consistent actions
  refine ⟨fun node error next hrun => node.expand_raises.isExpansion hdata hrun,
    fun literal hmem => hdata.read_address hmem,
    fun value => (hdata.intern value).read_address (hdata.mem_intern value),
    fun length => (hdata.allocate length).read_address (StaticData.mem_allocate _ length),
    fun source error hmore => ⟨expandText_incomplete_iff hdata hmore, fun items =>
      Program.add_incomplete_iff hdata hmore⟩, fun pending line => ?_⟩
  rw [take_eq_more_iff hdata, isWaiting_iff]

/-- After a text and an array: a declaration that no source holds, whose label cannot be written,
the address of the array, and lines that end inside of a literal. -/
theorem after_refuses_array :
    let context := after [.intern "a", .allocate 3]
    let declaration := Node.form [.keyword "table", .form [.splice [] [] []]]
    let array : Literal := ⟨"$S_STATIC_ARRAY_1", .zeroed 3⟩
    let source := "(f\n\"b"
    (∃ error next, declaration.expand context = (.error error, next) ∧
      error.isExpansion = true) ∧
    (array ∈ context.data.literals ∧
      Node.read (addressSource array.symbol) = .ok (addressForm array.symbol)) ∧
    (∃ error, error.isIncomplete = true ∧ Node.read source = .error error ∧
      (expandText source context).1 = .error error) ∧
    (take ⟨["(f"], context⟩ "\"b").1 = .more := by
  intro context declaration array source
  obtain ⟨hexpand, hliterals, -, -, hsource, hsession⟩ :=
    after_refuses [.intern "a", .allocate 3]
  have hrun : declaration.expand context = (.error .strandedSplice, context) := rfl
  have hmem : array ∈ context.data.literals := by decide +kernel
  have htexts : tokenize source = .ok ["(", "f", "\n", "\"b"] := by decide +kernel
  have hread : Node.read source = .error (.unexpectedEnd 2) := by
    rw [Node.read, tokens, htexts]
    rfl
  have hlines : joinLines (["(f"] ++ ["\"b"]) = source := by decide +kernel
  refine ⟨⟨_, _, hrun, hexpand _ _ _ hrun⟩, ⟨hmem, hliterals _ hmem⟩,
    ⟨_, rfl, hread, (hsource _ _ rfl).1.mpr hread⟩, (hsession _ _).mpr
      ⟨.unexpectedEnd 2, ?_, rfl⟩⟩
  rw [hlines]
  exact hread

end Context

end WatMacro
