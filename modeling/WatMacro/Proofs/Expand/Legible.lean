import Mathlib.Data.List.TakeWhile
import WatMacro.Proofs.Expand.Address
import WatMacro.Proofs.Expand.CodePoint
import WatMacro.Proofs.Expand.Marker
import WatMacro.Proofs.Expand.Positions

/-!
# Expansion keeps trees legible

An expansion leaves trivia alone, and puts words in the place of words or, for a declaration that it
hoists, a comment. The children of a form stay a legible row, with every line comment before the
newline that ends it, as long as these comments are tokens.

What is shown holds of expansions whose declarations have some property. If no declaration has it,
then nothing is hoisted.

Results:

* `Node.FormAsRead.expand_stands_of_quiet`: what a legible form expands to can stand in its place,
  if the labels of declarations end no comment.
* `Node.FormAsRead.expand_stands`: it can, if nothing is hoisted.
-/

namespace WatMacro

open Expand Node

/-! ## Computations and what they hoist -/

namespace Expand

/-- What a computation yields, if it succeeds from consistent data and each declaration that it
hoists is `quiet`. -/
def Yields {α : Type} (quiet : Node → Prop) (x : Expand α) (post : α → Prop) : Prop :=
  ∀ (context after : Context) (value : α) (declarations : List Node), context.data.Consistent →
    x context = (.ok value, after) → after.hoisted = context.hoisted ++ declarations →
    (∀ declaration ∈ declarations, quiet declaration) → post value

section

variable {α β : Type} {quiet : Node → Prop} {p : α → Prop} {q : β → Prop}

theorem yields_pure {value : α} (h : p value) : Yields quiet (pure value) p := by
  intro context after result _ _ hrun _ _
  cases hrun
  exact h

theorem yields_fail (error : Error) : Yields quiet (fail error) p := by
  intro context after result _ _ hrun _ _
  cases hrun

theorem Yields.mono {x : Expand α} {p' : α → Prop} (h : Yields quiet x p)
    (himp : ∀ value, p value → p' value) : Yields quiet x p' :=
  fun context after value declarations hdata hrun hhoisted hquiet =>
    himp value (h context after value declarations hdata hrun hhoisted hquiet)

theorem yields_true (x : Expand α) : Yields quiet x fun _ => True :=
  fun _ _ _ _ _ _ _ _ => trivial

/-- What a sequence of computations hoists is what the parts of it hoist. -/
theorem Yields.bind {x : Expand α} {next : α → Expand β} (hx : Yields quiet x p) (hxe : Enters x)
    (hne : ∀ value, Enters (next value))
    (hnext : ∀ value, p value → Yields quiet (next value) q) : Yields quiet (x >>= next) q := by
  intro context after result declarations hdata hrun hhoisted hquiet
  obtain ⟨value, middle, hfirst, hsecond⟩ := bind_eq_ok hrun
  have hreach : Context.Reaches context middle := by
    have := hxe context
    rwa [hfirst] at this
  have hreach' : Context.Reaches middle after := by
    have := hne value middle
    rwa [hsecond] at this
  obtain ⟨front, hfront⟩ := hreach.extends.hoisted
  obtain ⟨back, hback⟩ := hreach'.extends.hoisted
  obtain rfl : front ++ back = declarations := by
    rw [hhoisted, ← hfront, List.append_assoc] at hback
    exact List.append_cancel_left hback
  obtain ⟨hquietFront, hquietBack⟩ := List.forall_mem_append.mp hquiet
  exact hnext value (hx context middle value front hdata hfirst hfront.symm hquietFront) middle
    after result back (hreach.consistent hdata) hsecond hback.symm hquietBack

theorem Yields.map {x : Expand α} {f : α → β} (hx : Yields quiet x p)
    (h : ∀ value, p value → q (f value)) :
    Yields quiet (x >>= fun value => pure (f value)) q := by
  intro context after result declarations hdata hrun hhoisted hquiet
  obtain ⟨value, middle, hfirst, hsecond⟩ := bind_eq_ok hrun
  cases hsecond
  exact h value (hx context after value declarations hdata hfirst hhoisted hquiet)

/-- What a computation yields that hoists nothing. -/
theorem Yields.of_hoisted_eq {x : Expand α} (h : Yields (fun _ => False) x p)
    {context after : Context} {value : α} (hdata : context.data.Consistent)
    (hrun : x context = (.ok value, after)) (hhoisted : after.hoisted = context.hoisted) :
    p value :=
  h context after value [] hdata hrun (by rw [hhoisted, List.append_nil])
    fun _ hdeclaration => absurd hdeclaration List.not_mem_nil

end

end Expand

/-! ## Words in the place of words -/

namespace Node

/-- A child whose text can be read back, other than a line comment. -/
structure LegibleItem (node : Node) : Prop where
  legible : node.Legible
  seated : node.Seated
  comment : node.isLineComment = false

theorem isLineComment_surround (node : Node) (before after : List Node) :
    (node.surround before after).isLineComment = node.isLineComment := by
  cases node with
  | atom kind text => cases kind <;> rfl
  | _ => rfl

theorem LegibleItem.bare {node : Node} (h : LegibleItem node) :
    LegibleItem (node.surround [] []) := by
  have hlegible : (node.surround [] []).Legible := by
    cases h.legible with
    | atom hlexical => exact .atom hlexical
    | list hchildren hseated hends hopening => exact .list hchildren hseated hends hopening
    | marker hlexical hcomment => exact .marker hlexical hcomment
    | splice => exact .splice
  refine ⟨hlegible, ?_, (isLineComment_surround node [] []).trans h.comment⟩
  cases node <;> exact ⟨rfl, layout_nil⟩

theorem LegibleItem.form {children : List Node} (h : LegibleRow children) :
    LegibleItem (.form children) :=
  ⟨h.list [] [], seated_form children, rfl⟩

/-- What the expansion of a node may be: trivia itself, and for a word one or more nodes other than
line comments, with the same attachments. For a list these are lists and block comments. -/
structure Stands (node result : Node) : Prop where
  legible : result.Legible
  trivia : node.isTrivia = true → result = node
  word : node.isWord = true → result.spread ≠ [] ∧ ∀ item ∈ result.spread,
    item.Legible ∧ item.isLineComment = false ∧ item.before = node.before ∧
      item.after = node.after
  list : node.isList = true → ∀ item ∈ result.spread, item.isBracketed = true

theorem Stands.of_list {node : Node} {children : List Node} (hword : node.isWord = true)
    (h : LegibleRow children) : Stands node (.list children node.before node.after) where
  legible := h.list _ _
  trivia htrivia := by simp [isWord, htrivia] at hword
  word _ := by
    refine ⟨List.cons_ne_nil _ _, fun item hitem => ?_⟩
    cases List.mem_singleton.mp hitem
    exact ⟨h.list _ _, rfl, rfl, rfl⟩
  list _ item hitem := by
    cases List.mem_singleton.mp hitem
    rfl

/-- A result as a single child. A splice is no child that can be written, but it is not written at
all. -/
theorem Stands.single {node result : Node} (h : Stands node result) (hseated : node.Seated)
    (hword : node.isWord = true) : LegibleItem result := by
  have hitems := (h.word hword).2
  cases hresult : result with
  | splice items before after =>
    have hlegible := h.legible
    rw [hresult] at hlegible
    cases hlegible
    exact ⟨.splice, ⟨rfl, layout_nil⟩, rfl⟩
  | atom kind text before after =>
    rw [hresult] at hitems
    obtain ⟨hlegible, hcomment, hbefore, hafter⟩ := hitems _ (List.mem_singleton.mpr rfl)
    exact ⟨hlegible, ⟨hbefore.trans hseated.before, hafter ▸ hseated.after⟩, hcomment⟩
  | list children before after =>
    rw [hresult] at hitems
    obtain ⟨hlegible, hcomment, hbefore, hafter⟩ := hitems _ (List.mem_singleton.mpr rfl)
    exact ⟨hlegible, ⟨hbefore.trans hseated.before, hafter ▸ hseated.after⟩, hcomment⟩

/-- New children that stand in the place of old ones: trivia and some words as they were, and one or
more items for each other word. -/
inductive Respread : List Node → List Node → Prop
  | nil : Respread [] []
  | keep {old new : List Node} (node : Node) : Respread old new →
    Respread (node :: old) (node :: new)
  | word {node : Node} {items old new : List Node} : node.isWord = true → items ≠ [] →
    (∀ item ∈ items, LegibleItem item) → Respread old new → Respread (node :: old) (items ++ new)

theorem Respread.refl (nodes : List Node) : Respread nodes nodes := by
  induction nodes with
  | nil => exact .nil
  | cons node nodes ih => exact .keep node ih

theorem Respread.opensLine {old new : List Node} (h : Respread old new)
    (hold : ∃ next ∈ old.head?, next.opensLine = true) :
    ∃ next ∈ new.head?, next.opensLine = true := by
  obtain ⟨next, hnext, hopens⟩ := hold
  cases h with
  | nil => cases hnext
  | keep node _ => exact ⟨next, hnext, hopens⟩
  | word hword _ _ _ =>
    cases hnext
    rw [opensLine_of_isWord hword] at hopens
    cases hopens

theorem Respread.tail {old new : List Node} (h : Respread old new) (hold : LegibleTail old) :
    LegibleTail new := by
  induction h with
  | nil => exact hold
  | @keep old new node hrest ih =>
    have hnew := ih hold.of_cons
    refine ⟨fun other hother => ?_, fun other hother => ?_, fun hcomment => ?_, hnew.commentsEnd⟩
    · rcases List.mem_cons.mp hother with rfl | hother
      · exact hold.legible other List.mem_cons_self
      · exact hnew.legible other hother
    · rcases List.mem_cons.mp hother with rfl | hother
      · exact hold.seated other List.mem_cons_self
      · exact hnew.seated other hother
    · exact hrest.opensLine (hold.commentsEnd.1 hcomment)
  | word hword _ hitems _ ih =>
    exact (ih hold.of_cons).append fun item hitem =>
      ⟨(hitems item hitem).legible, (hitems item hitem).seated, (hitems item hitem).comment⟩

theorem Respread.row {old new : List Node} (h : Respread old new) (hold : LegibleRow old) :
    LegibleRow new := by
  refine ⟨h.tail hold.toLegibleTail, fun first hfirst => ?_⟩
  cases h with
  | nil => cases hfirst
  | keep node _ => exact hold.opening first hfirst
  | @word node items _ _ _ hne hitems _ =>
    cases items with
    | nil => exact absurd rfl hne
    | cons item items =>
      cases hfirst
      exact (hitems _ List.mem_cons_self).comment

end Node

variable {quiet : Node → Prop}

/-! ## Operands -/

namespace Operand

/-- An operand whose node can be read back, and whose expansion can stand in its place. -/
structure Sound (quiet : Node → Prop) (operand : Operand) : Prop where
  legible : operand.node.Legible
  seated : operand.node.Seated
  enters : Enters operand.expanded
  stands : Yields quiet operand.expanded (Stands operand.node)

/-- All operands are sound. -/
def AllSound (quiet : Node → Prop) (operands : List Operand) : Prop :=
  ∀ operand ∈ operands, operand.Sound quiet

theorem AllSound.head {operand : Operand} {operands : List Operand}
    (h : AllSound quiet (operand :: operands)) : operand.Sound quiet :=
  h operand List.mem_cons_self

theorem AllSound.tail {operand : Operand} {operands : List Operand}
    (h : AllSound quiet (operand :: operands)) : AllSound quiet operands :=
  fun o ho => h o (List.mem_cons_of_mem operand ho)

theorem AllSound.sublist {operands operands' : List Operand} (h : AllSound quiet operands)
    (hsub : operands'.Sublist operands) : AllSound quiet operands' :=
  fun o ho => h o (hsub.subset ho)

theorem AllSound.enter {operands : List Operand} (h : AllSound quiet operands) :
    AllEnter operands :=
  fun o ho => (h o ho).enters

/-- An expanded operand in front of new children. -/
theorem Sound.respread {operand : Operand} (h : operand.Sound quiet) {result : Node}
    (hresult : Stands operand.node result) {old new : List Node} (hrest : Respread old new) :
    Respread (operand.node :: old) (result.spread ++ new) := by
  cases htrivia : operand.node.isTrivia with
  | true =>
    rw [hresult.trivia htrivia]
    cases hnode : operand.node with
    | splice items before after =>
      rw [hnode] at htrivia
      cases htrivia
    | _ => exact .keep _ hrest
  | false =>
    have hword : operand.node.isWord = true := by simp [Node.isWord, htrivia]
    obtain ⟨hne, hitems⟩ := hresult.word hword
    refine .word hword hne (fun item hitem => ?_) hrest
    obtain ⟨hlegible, hcomment, hbefore, hafter⟩ := hitems item hitem
    exact ⟨hlegible, ⟨hbefore.trans h.seated.before, hafter ▸ h.seated.after⟩, hcomment⟩

theorem expandAll_respread {operands : List Operand} (h : AllSound quiet operands) :
    Yields quiet (expandAll operands) (Respread (nodes operands)) := by
  induction operands with
  | nil => exact yields_pure .nil
  | cons operand operands ih =>
    refine h.head.stands.bind h.head.enters (fun _ => ?_) fun result hresult => ?_
    · exact (expandAll_enters h.tail.enter).bind fun _ => enters_pure _
    · exact (ih h.tail).map fun new hnew => h.head.respread hresult hnew

theorem expandAfter_respread (count : Nat) {operands : List Operand} (h : AllSound quiet operands) :
    Yields quiet (expandAfter count operands) (Respread (nodes operands)) := by
  induction operands generalizing count with
  | nil => exact yields_pure .nil
  | cons operand operands ih =>
    unfold expandAfter
    split
    · cases count with
      | zero => exact expandAll_respread h
      | succ count => exact (ih count h.tail).map fun _ => .keep _
    · exact (ih count h.tail).map fun _ => .keep _

theorem expandLast_respread {operands : List Operand} (h : AllSound quiet operands) :
    Yields quiet (expandLast operands) (Respread (nodes operands)) := by
  induction operands with
  | nil => exact yields_pure .nil
  | cons operand operands ih =>
    unfold expandLast
    split
    · exact (ih h.tail).map fun _ => .keep _
    · split
      · exact h.head.stands.map fun result hresult => h.head.respread hresult (.refl _)
      · exact yields_pure (.refl _)

end Operand

/-! ## Macros -/

namespace Builtin

open Text

/-- A list without attachments that can be read back. -/
def LegibleList (result : Node) : Prop :=
  ∃ children, result = .form children ∧ LegibleRow children

theorem LegibleList.item {result : Node} (h : LegibleList result) : LegibleItem result := by
  obtain ⟨children, rfl, hrow⟩ := h
  exact .form hrow

theorem legibleItem_leaf {kind : AtomKind} {text : String} (h : (Token.atom kind text).Lexical)
    (hkind : kind ≠ .trivia) : LegibleItem (.leaf kind text) :=
  ⟨.atom h, seated_leaf kind text, isLineComment_of_isWord (isWord_leaf hkind text)⟩

theorem legibleList_of_items {items : List Node} (h : ∀ node ∈ items, LegibleItem node) :
    LegibleList (.form items) :=
  ⟨items, rfl, legibleRow_of_items fun node hnode =>
    ⟨(h node hnode).legible, (h node hnode).seated, (h node hnode).comment⟩⟩

/-- A text that is a run of plain characters is a token of its kind. -/
theorem lexical_of_isPlainRun {kind : AtomKind} {text : String}
    (hplain : Lexeme.isPlainRun text.toList = true) (hkind : Token.ofText text = .atom kind text) :
    (Token.atom kind text).Lexical :=
  ⟨.of_plainRun hplain, hkind⟩

theorem legibleItem_keyword {text : String} (hplain : Lexeme.isPlainRun text.toList = true)
    (hkind : Token.ofText text = .atom .keyword text) : LegibleItem (.keyword text) :=
  legibleItem_leaf (lexical_of_isPlainRun hplain hkind) (by decide)

theorem legibleItem_integer {text : String} (hplain : Lexeme.isPlainRun text.toList = true)
    (hkind : Token.ofText text = .atom .integer text) : LegibleItem (.integer text) :=
  legibleItem_leaf (lexical_of_isPlainRun hplain hkind) (by decide)

theorem LegibleTail.cons_space {nodes : List Node} (h : LegibleTail nodes) :
    LegibleTail (.trivia " " :: nodes) :=
  h.cons (.atom ⟨.space (by decide) (by decide), rfl⟩) (seated_leaf _ _) (by decide)

theorem legibleList_constant {value : String} (hplain : Lexeme.isPlainRun value.toList = true)
    (hkind : Token.ofText value = .atom .integer value) : LegibleList (constant value) := by
  refine legibleList_of_items ?_
  simp only [List.forall_mem_cons]
  exact ⟨legibleItem_keyword rfl rfl, legibleItem_integer hplain hkind, by simp⟩

theorem legibleList_conditional {test positive negative : Node} (htest : LegibleItem test)
    (hpositive : LegibleList positive) (hnegative : LegibleList negative) :
    LegibleList (conditional test positive negative) := by
  refine legibleList_of_items ?_
  simp only [List.forall_mem_cons]
  exact ⟨legibleItem_keyword rfl rfl, legibleItem_keyword rfl rfl, htest, hpositive.item,
    hnegative.item, by simp⟩

/-- The operands that are handed to a macro. -/
structure SoundArguments (quiet : Node → Prop) (operands : List Operand) : Prop where
  sound : Operand.AllSound quiet operands
  word : ∀ operand ∈ operands, operand.isWord = true

theorem SoundArguments.tail {operand : Operand} {operands : List Operand}
    (h : SoundArguments quiet (operand :: operands)) : SoundArguments quiet operands :=
  ⟨h.sound.tail, fun o ho => h.word o (List.mem_cons_of_mem operand ho)⟩

theorem SoundArguments.test {operand : Operand} {operands : List Operand}
    (h : SoundArguments quiet (operand :: operands)) : Yields quiet operand.expanded LegibleItem :=
  h.sound.head.stands.mono fun _ hresult =>
    hresult.single h.sound.head.seated (h.word operand List.mem_cons_self)

theorem conjunction_legible {operands : List Operand} (h : SoundArguments quiet operands) :
    Yields quiet (conjunction operands) LegibleList := by
  induction operands with
  | nil => exact yields_pure (legibleList_constant rfl rfl)
  | cons operand operands ih =>
    refine (ih h.tail).bind (conjunction_enters h.tail.sound.enter) (fun _ => ?_)
      fun rest hrest => ?_
    · exact h.sound.head.enters.bind fun _ => enters_pure _
    · exact h.test.map fun test htest =>
        legibleList_conditional htest hrest (legibleList_constant rfl rfl)

theorem disjunction_legible {operands : List Operand} (h : SoundArguments quiet operands) :
    Yields quiet (disjunction operands) LegibleList := by
  induction operands with
  | nil => exact yields_pure (legibleList_constant rfl rfl)
  | cons operand operands ih =>
    refine (ih h.tail).bind (disjunction_enters h.tail.sound.enter) (fun _ => ?_)
      fun rest hrest => ?_
    · exact h.sound.head.enters.bind fun _ => enters_pure _
    · exact h.test.map fun test htest =>
        legibleList_conditional htest (legibleList_constant rfl rfl) hrest

theorem literal_yields (builtin : Builtin) (argument : Node) :
    Yields quiet (literal builtin argument) fun value =>
      argument.text?.bind Quoted.decode? = some value := by
  intro context after value _ _ hrun _ _
  exact (literal_eq_ok hrun).1

theorem codePoint_legible (argument : Node) : Yields quiet (codePoint argument) LegibleList := by
  refine (literal_yields .chr argument).bind (literal_enters _ _) (fun value => ?_)
    fun value hvalue => ?_
  · split
    · exact enters_pure _
    · exact enters_fail _
  · split
    · rename_i c hc
      obtain ⟨text, htext, hdecode⟩ := Option.bind_eq_some_iff.mp hvalue
      obtain ⟨chars, hchars, heq⟩ := Option.map_eq_some_iff.mp hdecode
      have hc' : Quoted.decodeChars? text.toList = some [c] := by
        rw [hchars, ← hc, ← heq, String.toList_ofList]
      rw [htext]
      refine yields_pure ⟨_, rfl, LegibleTail.row ?_ rfl⟩
      have hcomment : (trivia ("(; " ++ text ++ " ;)")).isLineComment = false := by
        rw [trivia, leaf, Node.isLineComment, WatMacro.isLineComment, String.toList_append,
          String.toList_append]
        rfl
      have hhead : LegibleItem (.keyword "i32.const") := legibleItem_keyword rfl rfl
      have hlast := legibleTail_nil.cons (.atom (lexical_comment hc')) (seated_leaf _ _) hcomment
      have hnumeral := (LegibleTail.cons_space hlast).cons (.atom (lexical_numeral c.toNat))
        (seated_leaf _ _) rfl
      exact (LegibleTail.cons_space hnumeral).cons hhead.legible hhead.seated rfl
    · exact yields_fail _

/-- The address of a symbol of the table. -/
theorem legibleList_addressForm {data : StaticData} (h : data.Consistent) {literal : Literal}
    (hmem : literal ∈ data.literals) : LegibleList (addressForm literal.symbol) := by
  have hsymbol : LegibleItem (.name literal.symbol) :=
    legibleItem_leaf (lexical_of_isPlainRun (h.isPlainRun_symbol hmem)
      (ofText_name (h.head?_symbol hmem))) (by decide)
  have hname : LegibleItem (.name "$memoryBase") :=
    legibleItem_leaf (lexical_of_isPlainRun rfl rfl) (by decide)
  have hadd : LegibleItem (.keyword "i32.add") := legibleItem_keyword rfl rfl
  have hget : LegibleItem (.keyword "get_global") := legibleItem_keyword rfl rfl
  -- an operand of the sum: the global of a name
  have hglobal : ∀ name, LegibleItem name →
      LegibleRow [.keyword "get_global", .trivia " ", name] := by
    intro name hname
    have hlast := legibleTail_nil.cons hname.legible hname.seated
      hname.comment
    exact ((LegibleTail.cons_space hlast).cons hget.legible hget.seated rfl).row rfl
  have hspace : Layout [trivia " "] :=
    ⟨fun node hnode => ⟨" ", List.mem_singleton.mp hnode, .space (by decide) (by decide), rfl⟩,
      fun h => absurd h (by decide), trivial⟩
  have hlast := legibleTail_nil.cons ((hglobal _ hsymbol).list [] []) (seated_form _) rfl
  have hbase := hlast.cons ((hglobal _ hname).list [] [.trivia " "]) ⟨rfl, hspace⟩ rfl
  exact ⟨_, rfl, ((LegibleTail.cons_space hbase).cons hadd.legible hadd.seated rfl).row rfl⟩

theorem textAddress_legible (argument : Node) :
    Yields quiet (textAddress argument) LegibleList := by
  intro context after result _ hdata hrun _ _
  obtain ⟨value, -, rfl, -⟩ := textAddress_eq_ok hdata hrun
  exact legibleList_addressForm (hdata.intern value) (hdata.mem_intern value)

theorem arrayAddress_legible (argument : Node) :
    Yields quiet (arrayAddress argument) LegibleList := by
  intro context after result _ hdata hrun _ _
  obtain ⟨length, -, rfl, -⟩ := arrayAddress_eq_ok hdata hrun
  exact legibleList_addressForm (hdata.allocate length) (StaticData.mem_allocate _ length)

theorem bindings_legible {operands : List Operand} (h : SoundArguments quiet operands) :
    Yields quiet (bindings operands) fun bound => ∀ pair ∈ bound,
      LegibleItem pair.1 ∧ LegibleItem pair.2 := by
  fun_induction bindings operands with
  | case1 name value operands hname ih =>
    refine h.tail.test.bind h.sound.tail.head.enters (fun _ => ?_) fun result hresult => ?_
    · exact (bindings_enters h.tail.tail.sound.enter).bind fun _ => enters_pure _
    · refine (ih h.tail.tail).map fun rest hrest pair hpair => ?_
      rcases List.mem_cons.mp hpair with rfl | hpair
      · have hword : name.node.isWord = true := h.word name List.mem_cons_self
        exact ⟨⟨h.sound.head.legible, h.sound.head.seated, isLineComment_of_isWord hword⟩,
          hresult.bare⟩
      · exact hrest pair hpair
  | case2 => exact yields_fail _
  | case3 => exact yields_pure fun _ hpair => absurd hpair List.not_mem_nil

/-- What a macro yields: a form, or a splice of forms. -/
inductive MacroResult : Node → Prop
  | form {result : Node} : LegibleList result → MacroResult result
  | splice {items : List Node} : items ≠ [] → (∀ item ∈ items, LegibleList item) →
    MacroResult (.splice items [] [])

theorem assignments_legible {bound : List (Node × Node)}
    (h : ∀ pair ∈ bound, LegibleItem pair.1 ∧ LegibleItem pair.2) :
    MacroResult (assignments bound) := by
  refine .splice (List.cons_ne_nil _ _) fun item hitem => ?_
  rcases List.mem_cons.mp hitem with rfl | hitem
  · refine legibleList_of_items fun node hnode => ?_
    rcases List.mem_cons.mp hnode with rfl | hnode
    · exact legibleItem_keyword rfl rfl
    · obtain ⟨⟨name, value⟩, hpair, hnode⟩ := List.mem_flatMap.mp hnode
      simp only [List.mem_cons, List.not_mem_nil, or_false] at hnode
      rcases hnode with rfl | rfl
      · exact (h _ hpair).1
      · exact legibleItem_keyword rfl rfl
  · obtain ⟨⟨name, value⟩, hpair, rfl⟩ := List.mem_map.mp hitem
    refine legibleList_of_items ?_
    simp only [List.forall_mem_cons]
    exact ⟨legibleItem_keyword rfl rfl, (h _ hpair).1, (h _ hpair).2, by simp⟩

/-- Every macro but one yields a form. -/
theorem expand_legibleList {builtin : Builtin} (hbuiltin : builtin ≠ .bindLocals)
    {operands : List Operand} (h : SoundArguments quiet operands) :
    Yields quiet (builtin.expand operands) LegibleList := by
  unfold Builtin.expand
  split
  · exact yields_fail _
  · exact conjunction_legible h
  · exact yields_fail _
  · exact disjunction_legible h
  · exact codePoint_legible _
  · exact yields_fail _
  · exact textAddress_legible _
  · exact yields_fail _
  · exact arrayAddress_legible _
  · exact yields_fail _
  · exact absurd rfl hbuiltin

theorem expand_legible (builtin : Builtin) {operands : List Operand}
    (h : SoundArguments quiet operands) : Yields quiet (builtin.expand operands) MacroResult := by
  by_cases hbuiltin : builtin = .bindLocals
  · subst hbuiltin
    rw [Builtin.expand]
    split
    · exact yields_fail _
    · split
      · exact yields_fail _
      · exact (bindings_legible h).map fun _ => assignments_legible
  · exact (expand_legibleList hbuiltin h).mono fun _ => .form

end Builtin

/-! ## Forms -/

namespace Form

theorem stands_attach (children before after : List Node) {result : Node}
    (h : Builtin.MacroResult result) :
    Stands (.list children before after) (attach before after result) := by
  cases h with
  | form hform =>
    obtain ⟨inner, rfl, hrow⟩ := hform
    exact .of_list rfl hrow
  | @splice items hne hitems =>
    have hlist : (Node.list children before after).isTrivia ≠ true := by simp [isTrivia]
    refine ⟨.splice, fun htrivia => absurd htrivia hlist, fun _ => ⟨?_, fun item hitem => ?_⟩,
      fun _ item hitem => ?_⟩
    · simpa [attach, spread] using hne
    · obtain ⟨inner, hinner, rfl⟩ := List.mem_map.mp hitem
      obtain ⟨row, rfl, hrow⟩ := hitems inner hinner
      exact ⟨hrow.list _ _, rfl, rfl, rfl⟩
    · obtain ⟨inner, hinner, rfl⟩ := List.mem_map.mp hitem
      obtain ⟨row, rfl, -⟩ := hitems inner hinner
      rfl

/-- What a form that calls no macro becomes: a form, or the comment in the place of a
declaration. -/
inductive FormOrMarker (quiet : Node → Prop) : Node → Prop
  | form {result : Node} : Builtin.LegibleList result → FormOrMarker quiet result
  | comment {head label : String} {children before after : List Node} :
    head = "global" ∨ head = "table" → Labelled children label →
    quiet (.list children before after) → FormOrMarker quiet (.trivia (marker head label))

/-- A label that ends no comment leaves a comment that can be read. -/
theorem FormOrMarker.stands (hquiet : ∀ declaration, quiet declaration → PlainLabel declaration)
    {result : Node} (h : FormOrMarker quiet result) (children before after : List Node) :
    Stands (.list children before after) (result.surround before after) := by
  cases h with
  | form hform =>
    obtain ⟨new, rfl, hnew⟩ := hform
    exact .of_list rfl hnew
  | @comment head label _ _ _ hhead hlabelled hdeclaration =>
    have hno := not_isLineComment_marker head label
    have hlegible : ((Node.trivia (marker head label)).surround before after).Legible :=
      .marker (lexical_marker hhead (hquiet _ hdeclaration label hlabelled)) hno
    refine ⟨hlegible, fun htrivia => ?_, fun _ => ⟨List.cons_ne_nil _ _, fun item hitem => ?_⟩,
      fun _ item hitem => ?_⟩
    · cases htrivia
    · cases List.mem_singleton.mp hitem
      exact ⟨hlegible, hno, rfl, rfl⟩
    · cases List.mem_singleton.mp hitem
      exact decide_eq_true (head?_marker head label)

theorem hoist_settled {head : String} (hhead : head = "global" ∨ head = "table")
    (children : List Node) : Yields quiet (hoist head children) (FormOrMarker quiet) := by
  intro context after result declarations _ hrun hhoisted hquiet
  obtain ⟨label, hlabelled, rfl, rfl⟩ := hoist_eq_ok hrun
  have hdeclarations : [.list children [.trivia "  "] [.trivia "\n"]] = declarations :=
    List.append_cancel_left hhoisted
  subst hdeclarations
  exact .comment hhead hlabelled (hquiet _ List.mem_cons_self)

theorem expandAfterName_respread (head : String) {operands : List Operand}
    (h : Operand.AllSound quiet operands) :
    Yields quiet (expandAfterName head operands) (Respread (Operand.nodes operands)) := by
  unfold expandAfterName
  split
  · split
    · exact (yields_true _).bind (enters_addModule _)
        (fun _ => Operand.expandAfter_enters 2 h.enter) fun _ _ => Operand.expandAfter_respread 2 h
    · exact Operand.expandAfter_respread 2 h
  · exact Operand.expandAfter_respread 1 h

theorem expandByPolicy_settled (head : String) {operands : List Operand}
    (h : Operand.AllSound quiet operands) (hrow : LegibleRow (Operand.nodes operands)) :
    Yields quiet (expandByPolicy head operands) (FormOrMarker quiet) := by
  have hform : ∀ {new : List Node}, LegibleRow new → FormOrMarker quiet (.form new) :=
    fun hnew => .form ⟨_, rfl, hnew⟩
  unfold expandByPolicy
  split
  · rename_i hpolicy
    have hhead := (ofHead_hoist hpolicy).imp And.left And.left
    exact (yields_true _).bind (Operand.expandLast_enters h.enter) (fun _ => hoist_enters _ _)
      fun _ _ => hoist_settled hhead _
  · rename_i hpolicy
    exact hoist_settled ((ofHead_hoist hpolicy).imp And.left And.left) _
  · exact yields_pure (hform hrow)
  · exact (expandAfterName_respread head h).map fun _ hnew => hform (hnew.row hrow)
  · exact (Operand.expandLast_respread h).map fun _ hnew => hform (hnew.row hrow)
  · exact (Operand.expandAll_respread h).map fun _ hnew => hform (hnew.row hrow)

/-- The operands from the head on. -/
theorem sound_of_dropWhile {operands arguments : List Operand} {head : Operand}
    (h : Operand.AllSound quiet operands)
    (heq : (operands.dropWhile fun operand => !operand.isWord) = head :: arguments) :
    head :: arguments <:+ operands ∧ Operand.AllSound quiet (head :: arguments) ∧
      head.isWord = true ∧ Builtin.SoundArguments quiet (arguments.filter Operand.isWord) := by
  have hsuffix : head :: arguments <:+ operands := by
    rw [← heq]
    exact List.dropWhile_suffix _
  have hsound : Operand.AllSound quiet (head :: arguments) := h.sublist hsuffix.sublist
  refine ⟨hsuffix, hsound, ?_, hsound.tail.sublist List.filter_sublist,
    fun operand hoperand => (List.mem_filter.mp hoperand).2⟩
  have hhead := List.head?_dropWhile_not (fun operand : Operand => !operand.isWord) operands
  rw [heq] at hhead
  simpa using hhead

theorem expand_stands (hquiet : ∀ declaration, quiet declaration → PlainLabel declaration)
    (before after : List Node) {operands : List Operand}
    (h : Operand.AllSound quiet operands) (hrow : LegibleRow (Operand.nodes operands)) :
    Yields quiet (Form.expand before after operands)
      (Stands (.list (Operand.nodes operands) before after)) := by
  have hstands : ∀ {new : List Node}, LegibleRow new →
      Stands (.list (Operand.nodes operands) before after) (.list new before after) :=
    fun hnew => .of_list rfl hnew
  unfold Form.expand
  split
  · exact (Operand.expandAll_respread h).map fun _ hnew => hstands (hnew.row hrow)
  · rename_i head arguments heq
    obtain ⟨hsuffix, hsound, hword, harguments⟩ := sound_of_dropWhile h heq
    split
    · refine (Operand.expandAll_respread hsound.tail).map fun new hnew => hstands ?_
      have htail : LegibleTail (Operand.nodes (head :: arguments)) :=
        hrow.toLegibleTail.of_suffix (hsuffix.map Operand.node)
      have hnew' := (hnew.tail htail.of_cons).cons hsound.head.legible hsound.head.seated
        (isLineComment_of_isWord hword)
      have hcall : LegibleItem (.keyword "call") := Builtin.legibleItem_keyword rfl rfl
      exact (hnew'.cons hcall.legible hcall.seated rfl).row rfl
    · split
      · exact (Builtin.expand_legible _ harguments).map fun _ => stands_attach _ _ _
      · exact (expandByPolicy_settled _ h hrow).map fun _ hresult => hresult.stands hquiet _ _ _
    · exact (Operand.expandAll_respread h).map fun _ hnew => hstands (hnew.row hrow)

/-- A form that hoists nothing and declares no locals becomes a list. -/
theorem expand_isList (before after : List Node) {operands : List Operand}
    (h : Operand.AllSound (fun _ => False) operands) (hrow : LegibleRow (Operand.nodes operands))
    (hhead : ∀ head ∈ ((Operand.nodes operands).filter Node.isWord).head?,
      head.text? ≠ some Builtin.bindLocals.keyword) :
    Yields (fun _ => False) (Form.expand before after operands)
      fun result => result.isList = true := by
  unfold Form.expand
  split
  · exact (yields_true _).map fun _ _ => rfl
  · rename_i head arguments heq
    obtain ⟨-, hsound, hword, harguments⟩ := sound_of_dropWhile h heq
    have hfirst : ((Operand.nodes operands).filter Node.isWord).head? = some head.node := by
      rw [Operand.filter_nodes, Operand.nodes, List.head?_map, List.head?_filter,
        List.find?_eq_head?_dropWhile_not, heq]
      rfl
    split
    · exact (yields_true _).map fun _ _ => rfl
    · rename_i text _ _ hnode
      split
      · rename_i builtin hbuiltin
        have hne : builtin ≠ .bindLocals := by
          rintro rfl
          refine hhead head.node hfirst ?_
          rw [hnode, Builtin.keyword_of_ofKeyword? hbuiltin]
          rfl
        refine (Builtin.expand_legibleList hne harguments).map fun result hresult => ?_
        obtain ⟨children, rfl, -⟩ := hresult
        rfl
      · refine (expandByPolicy_settled _ h hrow).map fun result hresult => ?_
        cases hresult with
        | form hform =>
          obtain ⟨new, rfl, -⟩ := hform
          rfl
        | comment _ _ hquiet => exact hquiet.elim
    · exact (yields_true _).map fun _ _ => rfl

end Form

/-! ## Nodes -/

namespace Node

theorem expandAtom_stands {kind : AtomKind} {text : String}
    (h : (Token.atom kind text).Lexical) :
    Yields quiet (expandAtom kind text)
      fun result => Stands (leaf kind text) (result.surround [] []) := by
  have hatom : kind ≠ .trivia → LegibleItem (leaf kind text) := Builtin.legibleItem_leaf h
  have hform : ∀ {result : Node}, kind ≠ .trivia → Builtin.LegibleList result →
      Stands (leaf kind text) (result.surround [] []) := by
    rintro result hkind ⟨children, rfl, hrow⟩
    exact .of_list (isWord_leaf hkind text) hrow
  have hconstant : ∀ head, LegibleItem (.keyword head) → kind ≠ .trivia →
      Stands (leaf kind text) (.form [.keyword head, leaf kind text]) := by
    intro head hhead hkind
    refine hform hkind (Builtin.legibleList_of_items ?_)
    simpa using ⟨hhead, hatom hkind⟩
  unfold expandAtom
  split
  · exact yields_pure (hconstant _ (Builtin.legibleItem_keyword rfl rfl) (by decide))
  · exact yields_pure (hconstant _ (Builtin.legibleItem_keyword rfl rfl) (by decide))
  · exact yields_pure (hconstant _ (Builtin.legibleItem_keyword rfl rfl) (by decide))
  · exact (Builtin.textAddress_legible _).mono fun _ => hform (by decide)
  · refine yields_pure ⟨.atom h, fun _ => rfl,
      fun hword => ⟨List.cons_ne_nil _ _, fun item hitem => ?_⟩, fun hlist => nomatch hlist⟩
    cases List.mem_singleton.mp hitem
    exact ⟨.atom h, isLineComment_of_isWord hword, rfl, rfl⟩

/-- Children as operands, if their expansions can stand in their place. -/
theorem allSound_of_row {children : List Node} (hrow : LegibleRow children)
    (h : ∀ child ∈ children, child.Legible → Yields quiet child.expand (Stands child)) :
    Operand.AllSound quiet (children.map fun node => ⟨node, node.expand⟩) := by
  intro operand hoperand
  obtain ⟨child, hchild, rfl⟩ := List.mem_map.mp hoperand
  have hlegible := hrow.legible child hchild
  exact ⟨hlegible, hrow.seated child hchild, child.expand_enters, h child hchild hlegible⟩

theorem nodes_map_expand (children : List Node) :
    Operand.nodes (children.map fun node => ⟨node, node.expand⟩) = children := by
  simp [Operand.nodes, Function.comp_def]

section

variable (hquiet : ∀ declaration, quiet declaration → Form.PlainLabel declaration)

include hquiet

/-- What a legible node of a source expands to can stand in its place. -/
theorem AsRead.expand_stands {node : Node} (hread : node.AsRead) (h : node.Legible) :
    Yields quiet node.expand (Stands node) := by
  induction hread with
  | atom kind text =>
    cases h with
    | atom hlexical => exact (expandAtom_stands hlexical).map fun _ hresult => hresult
    | marker hlexical _ => exact (expandAtom_stands hlexical).map fun _ hresult => hresult
  | @list children after _ _ _ ih =>
    have hform := Form.expand_stands hquiet [] after (allSound_of_row h.row ih)
      (by rw [nodes_map_expand]; exact h.row)
    rwa [nodes_map_expand, ← expand_list] at hform

theorem FormAsRead.allSound {children before after : List Node}
    (hread : (Node.list children before after).FormAsRead)
    (h : (Node.list children before after).Legible) :
    Operand.AllSound quiet (children.map fun node => ⟨node, node.expand⟩) := by
  cases hread with
  | list hchildren _ _ =>
    exact allSound_of_row h.row fun child hchild =>
      (hchildren.asRead child hchild).expand_stands hquiet

/-- What a legible form expands to can stand in its place. -/
theorem FormAsRead.expand_stands_of_quiet {form : Node} (hread : form.FormAsRead)
    (h : form.Legible) : Yields quiet form.expand (Stands form) := by
  cases hform : form with
  | list children before after =>
    subst hform
    have hstands := Form.expand_stands hquiet before after (hread.allSound hquiet h)
      (by rw [nodes_map_expand]; exact h.row)
    rwa [nodes_map_expand, ← expand_list] at hstands
  | _ => subst hform; cases hread

end

/-- What a legible form expands to can stand in its place, if nothing is hoisted. -/
theorem FormAsRead.expand_stands {form : Node} (hread : form.FormAsRead) (h : form.Legible)
    (context after : Context) (result : Node) (hdata : context.data.Consistent)
    (hrun : form.expand context = (.ok result, after))
    (hhoisted : after.hoisted = context.hoisted) : Stands form result :=
  (hread.expand_stands_of_quiet (fun _ hfalse => hfalse.elim) h).of_hoisted_eq hdata hrun hhoisted

/-- A form that hoists nothing and declares no locals becomes a list. -/
theorem FormAsRead.expand_isList {form : Node} (hread : form.FormAsRead) (h : form.Legible)
    (hhead : ∀ head ∈ form.words.head?, head.text? ≠ some Builtin.bindLocals.keyword)
    (context after : Context) (result : Node) (hdata : context.data.Consistent)
    (hrun : form.expand context = (.ok result, after))
    (hhoisted : after.hoisted = context.hoisted) : result.isList = true := by
  cases hform : form with
  | list children before after =>
    subst hform
    rw [expand_list] at hrun
    exact (Form.expand_isList before after (hread.allSound (fun _ hfalse => hfalse.elim) h)
      (by rw [nodes_map_expand]; exact h.row)
      (by rw [nodes_map_expand]; exact hhead)).of_hoisted_eq hdata hrun hhoisted
  | _ => subst hform; cases hread

end Node

end WatMacro
