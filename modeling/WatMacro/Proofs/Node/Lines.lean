import WatMacro.Proofs.Lexeme.Tiling
import WatMacro.Proofs.Node.Depth

/-!
# The lines that errors name

A source that is refused is refused for a part of it: a stretch in which no lexeme begins, a word
where a form should begin, the first word after the form. A source whose form does not end is
refused at its end. The error names a line, and the line should be the one on which that part
begins: one more than the number of newlines before it, wherever these stand, between tokens or
inside of them.

**Deviation.** For a word where a form should begin, the newlines inside the word are counted too,
as if the word had been taken already. So a literal that is spread over several lines, or runs to
the end of the source because nothing closes it, is said to be on the line where it ends. All other
errors name the line on which their part begins.

Results:

* `Reading.run_eq_error`: reading fails at one token, on the line where that token begins.
* `Node.explains_of_tokenize`, `Node.explains_of_read`: what is refused, and the line that is named.
* `Node.read_error_line`: which line every error names, and when it is the right one.
-/

namespace WatMacro

open Text Lexeme

/-- The line on which the text after a front part of a source begins. -/
def lineAfter (front : String) : Nat :=
  1 + newlines front.toList

namespace Error

/-- The line that the refusal of a source names. -/
def line? : Error → Option Nat
  | stray line _ => some line
  | unexpectedClose line => some line
  | expectedOpen line _ => some line
  | unexpectedEnd line => some line
  | trailing line _ => some line
  | _ => none

/-- Whether the line is counted when the part at fault has been passed. -/
def isLate : Error → Bool
  | expectedOpen _ _ => true
  | _ => false

/-- The part of a source that is at fault, between what stands before it and after it. -/
inductive IsAbout : Error → String → String → String → Prop
  /-- A stretch in which no lexeme begins, to which the lexemes of the source lead. -/
  | stray {line : Nat} {front text back : String} {ls : List (List Char)} :
    Reads (front ++ text ++ back).toList ls (text ++ back).toList → text ≠ "" →
    IsStretch text.toList back.toList → IsAbout (.stray line text) front text back
  /-- The first word is a closing parenthesis. -/
  | unexpectedClose {line : Nat} {front back : List String} :
    tokenize (String.join (front ++ ")" :: back)) = .ok (front ++ ")" :: back) →
    front.filter (!Atom.isTrivia ·) = [] →
    IsAbout (.unexpectedClose line) (String.join front) ")" (String.join back)
  /-- The first word is no parenthesis. -/
  | expectedOpen {line : Nat} {front back : List String} {found : String} :
    tokenize (String.join (front ++ found :: back)) = .ok (front ++ found :: back) →
    front.filter (!Atom.isTrivia ·) = [] → found ≠ "(" → found ≠ ")" →
    Atom.isTrivia found = false →
    IsAbout (.expectedOpen line found) (String.join front) found (String.join back)
  /-- The first word after the form. -/
  | trailing {line : Nat} {front back : List String} {found : String} :
    tokenize (String.join (front ++ found :: back)) = .ok (front ++ found :: back) →
    (front.filter (!Atom.isTrivia ·)).head? = some "(" →
    ClosesAt 0 (front.filter (!Atom.isTrivia ·)) → Atom.isTrivia found = false →
    IsAbout (.trailing line found) (String.join front) found (String.join back)
  /-- The end of a source whose form does not end. -/
  | unexpectedEnd {line : Nat} {source : String} {texts : List String} :
    tokenize source = .ok texts → (texts.filter (!Atom.isTrivia ·)).head? = some "(" →
    StaysOpen 0 (texts.filter (!Atom.isTrivia ·)) → IsAbout (.unexpectedEnd line) source "" ""

end Error

/-! ## Lines and newlines -/

/-- The newlines of tokens are those of the text that they make up. -/
theorem newlinesAll_ofText (texts : List String) :
    Token.newlinesAll (texts.map Token.ofText) = newlines (String.join texts).toList := by
  induction texts with
  | nil => rfl
  | cons text texts ih =>
    rw [List.map_cons, Token.newlinesAll, Token.newlines, Token.text_ofText, ih, String.join_cons,
      String.toList_append, newlines_append]

theorem lineAfter_append (front fault : String) :
    lineAfter (front ++ fault) = lineAfter front + newlines fault.toList := by
  rw [lineAfter, lineAfter, String.toList_append, newlines_append, Nat.add_assoc]

/-- A part begins and ends on one line if no newline stands in it. -/
theorem lineAfter_append_eq_iff {front fault : String} :
    lineAfter (front ++ fault) = lineAfter front ↔ '\n' ∉ fault.toList := by
  rw [lineAfter_append, Nat.add_eq_left, newlines, List.count_eq_zero]

/-! ## Where reading fails -/

namespace Reading

/-- Reading fails at one token, on the line where that token begins. -/
theorem run_eq_error {line : Nat} {reading : Reading} {tokens : List Token} {error : Error}
    (h : reading.run line tokens = .error error) :
    ∃ front token back next, tokens = front ++ token :: back ∧ reading.run line front = .ok next ∧
      next.step (line + Token.newlinesAll front) token = .error error := by
  induction tokens generalizing line reading with
  | nil => cases h
  | cons token tokens ih =>
    cases hstep : reading.step line token with
    | error failure =>
      rw [run_cons_error hstep] at h
      cases h
      exact ⟨[], token, tokens, reading, rfl, rfl, hstep⟩
    | ok next =>
      rw [run_cons_ok hstep] at h
      obtain ⟨front, found, back, last, rfl, hfront, hfound⟩ := ih h
      refine ⟨token :: front, found, back, last, rfl, ?_, ?_⟩
      · rw [run_cons_ok hstep, hfront]
      · rwa [Token.newlinesAll, ← Nat.add_assoc]

/-- A text is refused before the form unless it opens one, and after the form, unless it is
trivia. -/
theorem step_eq_error {line : Nat} {reading : Reading} {text : String} {error : Error}
    (h : reading.step line (Token.ofText text) = .error error) :
    (∃ before, reading = start before ∧
      (text = ")" ∧ error = .unexpectedClose line ∨
        text ≠ "(" ∧ text ≠ ")" ∧ Atom.isTrivia text = false ∧
          error = .expectedOpen (line + newlines text.toList) text)) ∨
      ∃ form, reading = complete form ∧ Atom.isTrivia text = false ∧
        error = .trailing line text := by
  cases reading with
  | start before =>
    refine .inl ⟨before, rfl, ?_⟩
    rcases Token.ofText_cases text with
      ⟨rfl, htoken⟩ | ⟨rfl, htoken⟩ | ⟨-, htoken⟩ |
      ⟨hopening, hclosing, htrivia, kind, hkind, htoken⟩
    · rw [htoken] at h
      cases h
    · rw [htoken] at h
      exact .inl ⟨rfl, (Except.error.inj h).symm⟩
    · rw [htoken] at h
      cases h
    · rw [htoken] at h
      refine .inr ⟨hopening, hclosing, htrivia, ?_⟩
      cases kind with
      | trivia => exact absurd rfl hkind
      | _ => exact (Except.error.inj h).symm
  | inside before outer children =>
    -- inside of a form every token is taken
    rcases Token.ofText_cases text with
      ⟨-, htoken⟩ | ⟨-, htoken⟩ | ⟨-, htoken⟩ | ⟨-, -, -, kind, hkind, htoken⟩
    · rw [htoken, step_inside_opening] at h
      cases h
    · rw [htoken] at h
      cases outer <;> cases h
    · rw [htoken, step_inside_trivia] at h
      cases h
    · rw [htoken, step_inside_atom line before outer children hkind] at h
      cases h
  | complete form =>
    refine .inr ⟨form, rfl, ?_⟩
    rcases Token.ofText_cases text with
      ⟨rfl, htoken⟩ | ⟨rfl, htoken⟩ | ⟨-, htoken⟩ | ⟨-, -, htrivia, kind, hkind, htoken⟩
    · rw [htoken] at h
      exact ⟨rfl, (Except.error.inj h).symm⟩
    · rw [htoken] at h
      exact ⟨rfl, (Except.error.inj h).symm⟩
    · rw [htoken] at h
      cases h
    · rw [htoken] at h
      refine ⟨htrivia, ?_⟩
      cases kind with
      | trivia => exact absurd rfl hkind
      | _ => exact (Except.error.inj h).symm

/-- How far a row of texts has been read is told by its words. -/
theorem decidedBy_finish {line : Nat} {texts : List String} {reading : Reading}
    (h : (start []).run line (texts.map Token.ofText) = .ok reading) (last : Nat) :
    Node.DecidedBy (wordsOf texts) (reading.finish last) := by
  have htells := run_start line last [] texts
  rw [h] at htells
  exact Node.decidedBy_of_tells htells

end Reading

/-! ## What errors are about -/

namespace Node

open Reading

/-- An error is about a part of the source, and names the line on which that part begins, or, if it
is late, the one on which it ends. -/
def Explains (error : Error) (source : String) : Prop :=
  ∃ front fault back, source = front ++ fault ++ back ∧ error.IsAbout front fault back ∧
    error.line? = some (if error.isLate then lineAfter (front ++ fault) else lineAfter front)

theorem explains_of_tokenize {source : String} {error : Error}
    (h : tokenize source = .error error) : Explains error source := by
  obtain ⟨ls, stretch, back, hreads, hne, hstretch, rfl⟩ := exists_reads_of_tokenize h
  have hsource : source =
      String.ofList ls.flatten ++ String.ofList stretch ++ String.ofList back := by
    rw [← String.toList_inj, ← hreads.flatten_append]
    simp
  have hfront : Reads (String.ofList ls.flatten ++ String.ofList stretch ++
      String.ofList back).toList ls (String.ofList stretch ++ String.ofList back).toList := by
    rw [← hsource, ← String.ofList_append, String.toList_ofList]
    exact hreads
  refine ⟨_, _, _, hsource, .stray hfront ?_ ?_, ?_⟩
  · rwa [ne_eq, ← String.toList_inj, String.toList_ofList]
  · rwa [String.toList_ofList, String.toList_ofList]
  · simp [Error.line?, Error.isLate, lineAfter]

/-- The token at which reading fails is what the error is about. -/
theorem explains_of_step {front back : List String} {found : String} {reading : Reading}
    {error : Error}
    (htexts : tokenize (String.join (front ++ found :: back)) = .ok (front ++ found :: back))
    (hfront : (start []).run 1 (front.map Token.ofText) = .ok reading)
    (hfound : reading.step (lineAfter (String.join front)) (Token.ofText found) = .error error) :
    Explains error (String.join (front ++ found :: back)) := by
  have hwords := decidedBy_finish hfront 0
  have hjoin : String.join (front ++ found :: back) =
      String.join front ++ found ++ String.join back := by
    rw [String.join_append, String.join_cons, String.append_assoc]
  refine ⟨_, _, _, hjoin, ?_⟩
  rcases step_eq_error hfound with
    ⟨before, rfl, ⟨rfl, rfl⟩ | ⟨hopening, hclosing, htrivia, rfl⟩⟩ | ⟨form, rfl, htrivia, rfl⟩
  · exact ⟨.unexpectedClose htexts (hwords.blank.mp rfl), rfl⟩
  · refine ⟨.expectedOpen htexts (hwords.blank.mp rfl) hopening hclosing htrivia, ?_⟩
    rw [Error.line?, Error.isLate, if_pos rfl, lineAfter_append]
  · obtain ⟨hhead, hcloses⟩ := hwords.form.mp ⟨form, rfl⟩
    exact ⟨.trailing htexts hhead hcloses htrivia, rfl⟩

theorem explains_of_ofTokens {texts : List String} {error : Error}
    (htexts : tokenize (String.join texts) = .ok texts)
    (h : ofTokens (texts.map Token.ofText) = .error error) :
    error = .blank ∨ Explains error (String.join texts) := by
  cases hrun : (start []).run 1 (texts.map Token.ofText) with
  | error failure =>
    rw [ofTokens, hrun] at h
    obtain rfl : failure = error := Except.error.inj h
    obtain ⟨front, token, back, reading, hsplit, hfront, hstep⟩ := run_eq_error hrun
    obtain ⟨front, rest, rfl, rfl, hrest⟩ := List.map_eq_append_iff.mp hsplit
    obtain ⟨found, back, rfl, rfl, rfl⟩ := List.map_eq_cons_iff.mp hrest
    rw [newlinesAll_ofText] at hstep
    exact .inr (explains_of_step htexts hfront hstep)
  | ok reading =>
    have hwords := decidedBy_finish hrun (1 + Token.newlinesAll (texts.map Token.ofText))
    rw [ofTokens, hrun] at h
    cases reading with
    | start before => exact .inl (Except.error.inj h).symm
    | inside before outer children =>
      obtain ⟨hhead, hopen⟩ := hwords.unexpectedEnd.mp ⟨_, rfl⟩
      obtain rfl := Except.error.inj h
      refine .inr ⟨String.join texts, "", "", by simp, .unexpectedEnd htexts hhead hopen, ?_⟩
      rw [newlinesAll_ofText]
      rfl
    | complete form => cases h

theorem explains_of_read {source : String} {error : Error} (h : Node.read source = .error error) :
    error = .blank ∨ Explains error source := by
  cases htexts : tokenize source with
  | error failure =>
    rw [Node.read, WatMacro.tokens, htexts] at h
    obtain rfl : failure = error := Except.error.inj h
    exact .inr (explains_of_tokenize htexts)
  | ok texts =>
    rw [Node.read, WatMacro.tokens, htexts] at h
    obtain rfl := join_of_tokenize htexts
    exact explains_of_ofTokens htexts h

/-- A source that is refused, unless it is blank, is refused for a part of it, and the error names
the line on which that part begins; only where a form should begin and something else does, it names
the line on which that ends, which is another one exactly if a newline stands in it. -/
theorem read_error_line {source : String} {error : Error}
    (h : tokenize source = .error error ∨ Node.read source = .error error) :
    error = .blank ∨ ∃ front fault back, source = front ++ fault ++ back ∧
      error.IsAbout front fault back ∧
      error.line? = some (if error.isLate then lineAfter (front ++ fault) else lineAfter front) ∧
      (error.line? = some (lineAfter front) ↔ (error.isLate = true → '\n' ∉ fault.toList)) := by
  have hexplains : error = .blank ∨ Explains error source := by
    rcases h with h | h
    · exact .inr (explains_of_tokenize h)
    · exact explains_of_read h
  refine hexplains.imp_right ?_
  rintro ⟨front, fault, back, hsource, habout, hline⟩
  refine ⟨front, fault, back, hsource, habout, hline, ?_⟩
  rw [hline, Option.some.injEq]
  cases hlate : error.isLate with
  | false => simp
  | true => simp [lineAfter_append_eq_iff]

/-- Newlines in white space, in a literal, and in a comment stand before the word that should not be
there. -/
theorem read_error_line_trailing :
    let source := "\n(a \"b\nc\") (; d\n ;)\n)"
    Node.read source = .error (.trailing 5 ")") ∧
      ∃ front fault back, source = front ++ fault ++ back ∧
        (Error.trailing 5 ")").IsAbout front fault back ∧ lineAfter front = 5 := by
  intro source
  have htexts : tokenize source =
      .ok ["\n", "(", "a", " ", "\"b\nc\"", ")", " ", "(; d\n ;)", "\n", ")"] := by
    decide +kernel
  have hread : Node.read source = .error (.trailing 5 ")") := by
    rw [Node.read, WatMacro.tokens, htexts]
    rfl
  refine ⟨hread, ?_⟩
  obtain hblank | ⟨front, fault, back, hsource, habout, hline, -⟩ := read_error_line (.inr hread)
  · cases hblank
  · exact ⟨front, fault, back, hsource, habout, (Option.some.inj hline).symm⟩

/-- **Deviation.** A literal that begins on the first line is said to be on the second one, because
a newline stands in it. -/
theorem read_error_line_literal :
    let source := "\"a\nb\""
    Node.read source = .error (.expectedOpen 2 source) ∧
      (Error.expectedOpen 2 source).IsAbout "" source "" ∧ lineAfter "" = 1 := by
  intro source
  have htexts : tokenize source = .ok [source] := by decide +kernel
  refine ⟨?_, ?_, rfl⟩
  · have htoken : Token.ofText source = .atom .string source := by decide +kernel
    have hlines : newlines source.toList = 1 := by decide +kernel
    rw [Node.read, WatMacro.tokens, htexts]
    change ofTokens [Token.ofText source] = _
    rw [htoken]
    change Except.error (Error.expectedOpen (1 + newlines source.toList) source) = _
    rw [hlines]
  · exact @Error.IsAbout.expectedOpen 2 [] [] source htexts rfl (by decide) (by decide) (by decide)

end Node

end WatMacro
