import WatMacro.Proofs.Expand.CodePoint
import WatMacro.Proofs.Expand.Steps
import WatMacro.Proofs.Lexeme.Part
import WatMacro.Proofs.Node.Inverse

/-!
# Characters of a literal

A call of `CHR` becomes a constant with the code point of its character. The number is made up of
hexadecimal digits and has to be read again as one integer; the literal is put in a comment as it
stands in the source, and the comment has to end after it and not before. Both hold for every
character and each of its spellings: the only literals with a semicolon before a parenthesis have
more than one character.

Results:

* `Node.read_of_mem_descendants`: every list in a form is read from its own tokens.
* `Builtin.codePoint_leaf`: what the macro makes of a literal.
* `Builtin.isInside_codePoint`: the tokens of the constant do not run together.
* `Node.expand_chr`: when a call succeeds, and that its result is written and read back as it is.
-/

namespace WatMacro

open Expand Lexeme Text

namespace Node

/-! ## Lists in a source -/

/-- The tokens of a node below stand side by side. -/
theorem listing_of_mem_descendants {node below : Node} (h : below ∈ node.descendants) :
    below.listing <:+: node.listing := by
  have hpart : ∀ nodes : List Node,
      (∀ child ∈ nodes, below ∈ child.descendants → below.listing <:+: child.listing) →
      below ∈ descendantsAll nodes → below.listing <:+: listingAll nodes := by
    intro nodes ih hbelow
    obtain ⟨child, hchild, hmem⟩ := exists_of_mem_descendantsAll hbelow
    exact (ih child hchild hmem).trans (listing_part hchild)
  induction node using Node.induction with
  | atom kind text before after _ _ =>
    rw [descendants, List.mem_singleton] at h
    exact h ▸ List.infix_rfl
  | list children before after ih _ _ =>
    rw [descendants] at h
    rcases List.mem_cons.mp h with rfl | h
    · exact List.infix_rfl
    · refine (hpart children (fun child hchild => ih child hchild) h).trans ?_
      exact ⟨listingAll before ++ [.opening], .closing :: listingAll after, by simp [listing]⟩
  | splice items before after ih _ _ =>
    rw [descendants] at h
    rcases List.mem_cons.mp h with rfl | h
    · exact List.infix_rfl
    · refine (hpart items (fun item hitem => ih item hitem) h).trans ?_
      exact ⟨listingAll before, listingAll after, by simp [listing]⟩

theorem AsRead.of_mem_descendants {node below : Node} (hnode : node.AsRead)
    (h : below ∈ node.descendants) : below.AsRead := by
  induction hnode with
  | atom kind text =>
    rw [leaf, descendants, List.mem_singleton] at h
    exact h ▸ .atom kind text
  | list hchildren hchain hafter ih =>
    rw [descendants] at h
    rcases List.mem_cons.mp h with rfl | h
    · exact .list hchildren hchain hafter
    · obtain ⟨child, hchild, hbelow⟩ := exists_of_mem_descendantsAll h
      exact ih child hchild hbelow

theorem FormAsRead.of_mem_descendants {form : Node} {children before after : List Node}
    (hform : form.FormAsRead) (h : Node.list children before after ∈ form.descendants) :
    (Node.list children before after).FormAsRead := by
  cases hform with
  | list hrow hbefore hafter =>
    rw [descendants] at h
    rcases List.mem_cons.mp h with heq | h
    · cases heq
      exact .list hrow hbefore hafter
    · obtain ⟨child, hchild, hbelow⟩ := exists_of_mem_descendantsAll h
      cases (hrow.asRead child hchild).of_mem_descendants hbelow with
      | list hchildren hchain hlayout => exact .list ⟨hchildren, hchain⟩ layoutAsRead_nil hlayout

/-- Every list in a form is read from its own tokens. -/
theorem read_of_mem_descendants {source : String} {form : Node}
    (hread : Node.read source = .ok form) {children before after : List Node}
    (h : list children before after ∈ form.descendants) :
    ∃ texts part, tokenize source = .ok texts ∧ part <:+: texts ∧
      Node.read (String.join part) = .ok (list children before after) := by
  obtain ⟨hform, texts, htexts, hlisting⟩ := read_eq_ok_iff.mp hread
  obtain ⟨front, back, hsplit⟩ := listing_of_mem_descendants h
  obtain ⟨most, last, rfl, hmost, -⟩ := List.map_eq_append_iff.mp (hsplit.trans hlisting).symm
  obtain ⟨first, part, rfl, -, hpart⟩ := List.map_eq_append_iff.mp hmost
  have hinfix : part <:+: first ++ part ++ last := ⟨first, last, rfl⟩
  refine ⟨_, part, htexts, hinfix, ?_⟩
  exact read_eq_ok_iff.mpr ⟨hform.of_mem_descendants h, part,
    tokenize_join_of_infix htexts hinfix, hpart.symm⟩

end Node

namespace Builtin

open Node

/-! ## The constant -/

/-- What the macro makes of a literal: a constant if it has exactly one character, and else it is
refused. Nothing changes in either case. -/
theorem codePoint_leaf (kind : AtomKind) (text : String) (context : Context) :
    (∃ c, Quoted.decode? text = some (String.singleton c) ∧
      codePoint (leaf kind text) context =
        (.ok (.form [Node.keyword "i32.const", trivia " ",
          integer ("0x" ++ String.ofList (hexadecimal c.toNat)), trivia " ",
          trivia ("(; " ++ text ++ " ;)")]), context)) ∨
    ((∀ c, Quoted.decode? text ≠ some (String.singleton c)) ∧
      ∃ fault, codePoint (leaf kind text) context = (.error (.argument .chr fault), context)) := by
  cases hvalue : Quoted.decode? text with
  | none =>
    refine .inr ⟨fun c h => (nomatch h), .notALiteral (leaf kind text).describe, bind_error ?_ _⟩
    rw [literal, leaf, text?, Option.bind_some, hvalue]
    rfl
  | some value =>
    have hliteral : literal .chr (leaf kind text) context = (.ok value, context) := by
      rw [literal, leaf, text?, Option.bind_some, hvalue]
      rfl
    have hsingle : ∀ c, some value = some (String.singleton c) → value.toList = [c] := by
      rintro c ⟨⟩
      exact String.toList_singleton c
    rw [codePoint, bind_ok hliteral]
    rcases hchars : value.toList with - | ⟨c, - | ⟨d, cs⟩⟩
    · refine .inr ⟨fun c h => ?_, _, rfl⟩
      cases hchars.symm.trans (hsingle c h)
    · refine .inl ⟨c, ?_, rfl⟩
      rw [Option.some.injEq, ← String.toList_inj, hchars, String.toList_singleton]
    · refine .inr ⟨fun c h => ?_, _, rfl⟩
      cases hchars.symm.trans (hsingle c h)

/-- The tokens of the constant do not run together. -/
theorem isInside_codePoint {text : String} {c : Char} (n : Nat)
    (h : Quoted.decodeChars? text.toList = some [c]) :
    IsInside ["i32.const", " ", "0x" ++ String.ofList (hexadecimal n), " ",
      "(; " ++ text ++ " ;)"] := by
  have hcomment := lexical_comment h
  have htrivia : Atom.isTrivia ("(; " ++ text ++ " ;)") = true := hcomment.isTrivia_iff.mp rfl
  have hspace : ∀ next : List Char, (∀ d ∈ next.head?, isSpace d = false) → Apart [' '] next := by
    intro next hnext d hd
    rw [continues, if_pos (by decide), hnext d hd]
  have hafter : ∀ text : List Char, isPlainRun text = true → Apart text [' '] :=
    fun text htext => .of_plainRun htext (by simp; decide)
  constructor
  · simp only [List.forall_mem_cons]
    exact ⟨.of_plainRun (by decide), .space (by decide) (by decide),
      .of_plainRun (isPlainRun_numeral n), .space (by decide) (by decide), hcomment.closed,
      fun _ hmem => absurd hmem List.not_mem_nil⟩
  · simp only [List.cons_append, List.nil_append, List.isChain_cons_cons]
    refine ⟨⟨.opening (by decide), fun hrun => hrun.2.2.1 rfl⟩,
      ⟨hafter _ (by decide), not_runTogether_of_isTrivia_right isTrivia_space⟩,
      ⟨hspace _ (by simp; decide), not_runTogether_of_isTrivia_left isTrivia_space⟩,
      ⟨hafter _ (isPlainRun_numeral n), not_runTogether_of_isTrivia_right isTrivia_space⟩,
      ⟨hspace _ (by simp; decide), not_runTogether_of_isTrivia_left isTrivia_space⟩,
      ⟨fun d hd => ?_, not_runTogether_of_isTrivia_left htrivia⟩, .singleton _⟩
    simp [continues, show isSpace '(' = false from rfl]

theorem listing_codePoint {text : String} {c : Char} (n : Nat)
    (h : Quoted.decodeChars? text.toList = some [c]) :
    listingAll [Node.keyword "i32.const", trivia " ",
        integer ("0x" ++ String.ofList (hexadecimal n)), trivia " ",
        trivia ("(; " ++ text ++ " ;)")] =
      ["i32.const", " ", "0x" ++ String.ofList (hexadecimal n), " ",
        "(; " ++ text ++ " ;)"].map Token.ofText := by
  have hkeyword : Token.ofText "i32.const" = .atom .keyword "i32.const" := by decide +kernel
  have hspace : Token.ofText " " = .atom .trivia " " := by decide +kernel
  have hnumeral : Token.ofText ("0x" ++ String.ofList (hexadecimal n)) = .atom .integer _ :=
    (lexical_numeral n).ofText
  have hcomment : Token.ofText ("(; " ++ text ++ " ;)") = .atom .trivia _ :=
    (lexical_comment h).ofText
  simp only [List.map_cons, List.map_nil, hkeyword, hspace, hnumeral, hcomment]
  rfl

end Builtin

namespace Node

open Builtin

/-! ## Calls -/

/-- A call of `CHR` with one word, anywhere in a source, and in any context, which never changes. It
succeeds exactly if the word is a literal of one character. Then the words of the result are
`i32.const` and one integer, the code point of the character in hexadecimal digits, and a comment
follows that is one token and holds the literal as it was spelled. The result is written as a text
that is read as it. -/
theorem expand_chr {source : String} {form : Node} (hread : Node.read source = .ok form)
    {children before after : List Node} (hmem : list children before after ∈ form.descendants)
    {kind : AtomKind} {text : String}
    (hwords : children.filter isWord = [keyword "CHR", leaf kind text]) (context : Context) :
    let run := (list children before after).expand context
    run.2 = context ∧
    ((∃ result, run.1 = .ok result) ↔ ∃ c, Quoted.decode? text = some (String.singleton c)) ∧
    ∀ result, run.1 = .ok result → ∃ c digits written,
      Quoted.decode? text = some (String.singleton c) ∧
      natural? 16 digits.toList = some c.toNat ∧
      tokenize ("(; " ++ text ++ " ;)") = .ok ["(; " ++ text ++ " ;)"] ∧
      result = list [keyword "i32.const", trivia " ", integer ("0x" ++ digits), trivia " ",
        trivia ("(; " ++ text ++ " ;)")] before after ∧
      result.render = .ok written ∧ Node.read written = .ok result := by
  intro run
  have hrun : run = (codePoint (leaf kind text) >>= fun node =>
      pure (Form.attach before after node)) context := by
    change (list children before after).expand context = _
    rw [expand_builtin before after hwords rfl]
    rfl
  rcases codePoint_leaf kind text context with ⟨c, hvalue, hok⟩ | ⟨hvalue, fault, herror⟩
  · have hresult := hrun.trans (bind_ok hok _)
    rw [hresult]
    refine ⟨rfl, iff_of_true ⟨_, rfl⟩ ⟨c, hvalue⟩, ?_⟩
    rintro result ⟨⟩
    have hchars : Quoted.decodeChars? text.toList = some [c] := by
      obtain ⟨cs, hcs, heq⟩ := Option.map_eq_some_iff.mp hvalue
      rw [hcs, ← String.toList_ofList (l := cs), heq, String.toList_singleton]
    obtain ⟨texts, part, -, -, hpart⟩ := read_of_mem_descendants hread hmem
    have hform := (codePoint_eq_ok hok).1
    cases hform with
    | list hrow =>
      obtain ⟨written, hwritten, hreread⟩ := render_read_inside hpart hrow
        (listing_codePoint c.toNat hchars) (isInside_codePoint c.toNat hchars) rfl
      exact ⟨c, _, written, hvalue, by rw [String.toList_ofList, natural?_hexadecimal],
        tokenize_of_closed (lexical_comment hchars).closed, rfl, hwritten, hreread⟩
  · have hresult := hrun.trans (bind_error herror _)
    rw [hresult]
    refine ⟨rfl, iff_of_false ?_ (fun ⟨c, hc⟩ => hvalue c hc), ?_⟩
    · rintro ⟨result, h⟩
      cases h
    · intro result h
      cases h

/-- A semicolon, spelled as it is, right before the end of the comment; and two characters, which
are refused. -/
theorem expand_chr_semicolon :
    let source := "(drop (CHR (; d ;) \";\" ) ;; c\n)"
    let call := list [keyword "CHR", trivia " ", trivia "(; d ;)", trivia " ", leaf .string "\";\"",
      trivia " "] [] [trivia " ", trivia ";; c", trivia "\n"]
    let pair := form [keyword "CHR", trivia " ", leaf .string "\"ab\""]
    (∃ outer, Node.read source = .ok outer ∧ call ∈ outer.descendants ∧
      ∃ result written, (call.expand .empty).1 = .ok result ∧ result.render = .ok written ∧
        Node.read written = .ok result) ∧
    Node.read "(CHR \"ab\")" = .ok pair ∧ ¬∃ result, (pair.expand .empty).1 = .ok result := by
  intro source call pair
  constructor
  · have htexts : tokenize source = .ok ["(", "drop", " ", "(", "CHR", " ", "(; d ;)", " ", "\";\"",
        " ", ")", " ", ";; c", "\n", ")"] := by
      decide +kernel
    have hread : Node.read source = .ok (form [keyword "drop", trivia " ", call]) :=
      read_eq_ok.mpr ⟨_, htexts, rfl⟩
    have hmem : call ∈ (form [keyword "drop", trivia " ", call]).descendants :=
      mem_descendants_list (by simp) (mem_descendants_self call)
    obtain ⟨-, hverdict, hresult⟩ := expand_chr hread hmem rfl .empty
    obtain ⟨result, hok⟩ := hverdict.mpr ⟨';', by decide +kernel⟩
    obtain ⟨c, digits, written, -, -, -, -, hwritten, hreread⟩ := hresult result hok
    exact ⟨_, hread, hmem, result, written, hok, hwritten, hreread⟩
  · have htexts : tokenize "(CHR \"ab\")" = .ok ["(", "CHR", " ", "\"ab\"", ")"] := by
      decide +kernel
    have hread : Node.read "(CHR \"ab\")" = .ok pair := read_eq_ok.mpr ⟨_, htexts, rfl⟩
    refine ⟨hread, fun hok => ?_⟩
    obtain ⟨-, hverdict, -⟩ := expand_chr hread (mem_descendants_self pair) rfl .empty
    obtain ⟨c, hc⟩ := hverdict.mp hok
    have hvalue : Text.Quoted.decode? "\"ab\"" = some "ab" := by decide +kernel
    have hlength := congrArg (fun value => value.map fun text => text.toList.length)
      (hvalue.symm.trans hc)
    simp at hlength

end Node

end WatMacro
