import WatMacro.Proofs.Context.Entries
import WatMacro.Proofs.Lexeme.Tiling
import WatMacro.Proofs.Node.Depth
import WatMacro.Session

/-!
# Sources cut at a newline

A source that is typed line by line is read again after each line, every time a front part of the
whole that ends before a newline. The lexemes before the cut are those of the whole source. White
space that is cut stays white space, and a literal that is cut is a literal without a closing quote;
in either case the words of the part are a front part of the words of the form, so the part is
blank, or asks for more, or is complete already.

**Deviation.** Asking for more is meant to be the answer whenever more input could complete the
form, and a block comment may span lines. But a block comment that is cut is no lexeme: its
parenthesis opens a list, and no lexeme begins at the semicolon after it. The part is refused, and
what was typed is lost (`Session.feed_cut_comment`). Only a comment that begins with two semicolons
hides that: there the parenthesis is followed by a line comment.

Results:

* `cut_cases`: a closed lexeme that holds a newline is white space, a block comment or a literal.
* `Session.feed_cut`: what a session answers to a source cut at a newline.
-/

namespace WatMacro

open Text Lexeme

namespace Lexeme

/-! ## The lexeme that is cut -/

/-- The lexeme that holds a given character of a text. -/
theorem flatten_eq_append_cons {ls : List (List Char)} {front back : List Char} {c : Char}
    (h : ls.flatten = front ++ c :: back) :
    ∃ before left right after, ls = before ++ (left ++ c :: right) :: after ∧
      front = before.flatten ++ left ∧ back = right ++ after.flatten := by
  rcases List.flatten_eq_append_iff.mp h with
    ⟨before, rest, rfl, rfl, hrest⟩ | ⟨before, left, d, right, after, rfl, rfl, hrest⟩
  · obtain ⟨empty, right, after, rfl, hempty, rfl⟩ := List.flatten_eq_cons_iff.mp hrest.symm
    have hnil : empty.flatten = [] := List.flatten_eq_nil_iff.mpr hempty
    exact ⟨before ++ empty, [], right, after, by simp, by simp [hnil], rfl⟩
  · obtain ⟨rfl, rfl⟩ := List.cons.inj hrest
    exact ⟨before, left, right, after, rfl, rfl, rfl⟩

/-- A closed lexeme that holds a newline is white space, a block comment or a literal, and its part
before the newline is of that kind without its end. -/
theorem cut_cases {left right : List Char} (h : Closed (left ++ '\n' :: right)) :
    (∀ c ∈ left, isSpace c = true) ∨
      (∃ inside, left = '(' :: ';' :: inside ∧ throughCommentEnd? inside = none) ∨
      ∃ quote inside, isQuote quote = true ∧ left = quote :: inside ∧
        Closes quote (inside ++ '\n' :: right) := by
  have hmem : '\n' ∈ left ++ '\n' :: right := by simp
  generalize hl : left ++ '\n' :: right = l at h hmem
  cases h with
  | space hne hspace =>
    exact .inl fun c hc => hspace c (hl ▸ List.mem_append_left _ hc)
  | @blockComment comment hcomment =>
    -- the newline is neither of the two characters that open the comment
    obtain ⟨inside, rfl, rfl⟩ : ∃ inside, left = '(' :: ';' :: inside ∧
        comment = inside ++ '\n' :: right := by
      rcases left with _ | ⟨a, _ | ⟨b, inside⟩⟩ <;> simp_all
    refine .inr (.inl ⟨inside, rfl, ?_⟩)
    rw [Option.eq_none_iff_forall_ne_some]
    rintro ⟨front, rest⟩ hsome
    rw [throughCommentEnd?_append_more hsome] at hcomment
    simp at hcomment
  | mark hmark =>
    obtain rfl := List.mem_singleton.mp hmem
    exact absurd hmark (by decide)
  | @literal quote inside hquote hcloses =>
    have hne : '\n' ≠ quote := by
      rintro rfl
      exact absurd hquote (by decide)
    obtain ⟨inside, rfl, rfl⟩ : ∃ part, left = quote :: part ∧
        inside = part ++ '\n' :: right := by
      rcases left with _ | ⟨a, part⟩ <;> simp_all
    exact .inr (.inr ⟨quote, inside, hquote, rfl, hcloses⟩)
  | @lineComment comment hline =>
    have hcomment : '\n' ∈ comment := by simpa using hmem
    exact absurd rfl (hline _ hcomment)
  | plain hmark hplain => exact absurd (hplain _ hmem) (by decide)

/-- White space that is cut is white space. -/
theorem lexemes_space {cs : List Char} (h : ∀ c ∈ cs, isSpace c = true) :
    (lexemes cs).2 = [] ∧ ∀ l ∈ (lexemes cs).1, l = cs := by
  cases cs with
  | nil => simp [lexemes_nil]
  | cons c cs =>
    have hread : lexeme? (c :: cs ++ []) = some (c :: cs, []) :=
      lexeme?_append (.space (List.cons_ne_nil c cs) h) (by simp)
    rw [List.append_nil] at hread
    simp [lexemes_of_some hread, lexemes_nil]

/-- A literal that is cut has no closing quote, and only a backslash can be left after it. -/
theorem lexemes_cut_literal {quote : Char} {inside rest : List Char} (hquote : isQuote quote = true)
    (hcloses : Closes quote (inside ++ rest)) (hrest : rest ≠ []) :
    (lexemes (quote :: inside)).2 = [] ∧ (lexemes (quote :: inside)).1 ≠ [] ∧
      ∀ l ∈ (lexemes (quote :: inside)).1, l = ['\\'] ∨ ∃ part, l = quote :: part := by
  have hslash : quote ≠ '\\' := by
    rintro rfl
    exact absurd hquote (by decide)
  have hopen : (throughQuote quote inside).2 = [] ∨ (throughQuote quote inside).2 = ['\\'] := by
    refine (throughQuote_closes quote inside).resolve_left fun hends => ?_
    -- the literal would end in the part, and so would the whole one
    have hwhole := throughQuote_of_closes hcloses hslash []
    have hpart := throughQuote_of_closes hends hslash
      ((throughQuote quote inside).2 ++ rest)
    rw [← List.append_assoc, throughQuote_append, ← List.append_nil (inside ++ rest), hwhole]
      at hpart
    simp_all
  rw [lexemes_of_some (lexeme?_quote hquote inside)]
  rcases hopen with hopen | hopen
  · simp [hopen, lexemes_nil]
  · simp [hopen, lexemes_backslash]

/-- A block comment that is cut leaves its parenthesis, and no lexeme after it. -/
theorem lexemes_cut_comment {inside : List Char} (h : throughCommentEnd? inside = none)
    (hsemi : inside.head? ≠ some ';') :
    lexemes ('(' :: ';' :: inside) = ([['(']], ';' :: inside) := by
  have hstray : isStray (';' :: inside) = true := by simpa [isStray] using hsemi
  have hopening : lexeme? ('(' :: ';' :: inside) = some (['('], ';' :: inside) := by
    rw [lexeme?_opening_iff, blockComment?_eq_none_iff]
    rintro rest ⟨⟩
    exact h
  rw [lexemes_of_some hopening, lexemes_of_none (lexeme?_of_isStray hstray)]

end Lexeme

/-! ## The tokens of a part -/

/-- The newline between two parts of a source stands in a block comment, of which the first part
holds what is inside up to there. -/
def CutsComment (front back inside : String) : Prop :=
  ∃ texts before rest after, tokenize (front ++ "\n" ++ back) = .ok texts ∧
    texts = before ++ ("(;" ++ inside ++ "\n" ++ rest) :: after ∧
    front = String.join before ++ "(;" ++ inside

/-- The token of a source that holds the newline at which it is cut. -/
theorem tokenize_cut {front back : String} {texts : List String}
    (h : tokenize (front ++ "\n" ++ back) = .ok texts) :
    ∃ before cut after left right, texts = before ++ cut :: after ∧
      cut.toList = left ++ '\n' :: right ∧ front = String.join before ++ String.ofList left := by
  have hchars : (front ++ "\n" ++ back).toList = front.toList ++ '\n' :: back.toList := by simp
  have hflatten := lexemes_flatten (front ++ "\n" ++ back).toList
  rw [tokenize_eq_ok_iff.mp h, List.append_nil, hchars] at hflatten
  obtain ⟨before, left, right, after, htexts, hfront, -⟩ := flatten_eq_append_cons hflatten
  obtain ⟨before, rest, rfl, rfl, hrest⟩ := List.map_eq_append_iff.mp htexts
  obtain ⟨cut, after, rfl, hcut, rfl⟩ := List.map_eq_cons_iff.mp hrest
  refine ⟨before, cut, after, left, right, rfl, hcut, ?_⟩
  rw [← String.toList_inj, hfront]
  simp [List.flatMap_def]

/-- The token of a form that is cut is a closed lexeme, and the tokens before it are lexemes of the
part. -/
theorem lexemes_cut {front back : String} {texts before after : List String} {cut : String}
    {left right : List Char} (h : tokenize (front ++ "\n" ++ back) = .ok texts)
    (hlast : ∀ last ∈ texts.getLast?, last = ")" ∨ Atom.isTrivia last = true)
    (htexts : texts = before ++ cut :: after) (hcut : cut.toList = left ++ '\n' :: right)
    (hfront : front = String.join before ++ String.ofList left) :
    Closed (left ++ '\n' :: right) ∧
      lexemes front.toList = (before.map String.toList ++ (lexemes left).1, (lexemes left).2) := by
  have hclosed : Closed cut.toList := (tokenize_closed h hlast htexts).1
  have hchars : front.toList = (before.map String.toList).flatten ++ left := by
    rw [hfront]
    simp [List.flatMap_def]
  have hwhole := tokenize_eq_ok_iff.mp h
  rw [show (front ++ "\n" ++ back).toList = front.toList ++ '\n' :: back.toList by simp, hchars,
    htexts, List.map_append, List.append_assoc] at hwhole
  refine ⟨hcut ▸ hclosed, ?_⟩
  rw [hchars]
  exact lexemes_front hwhole

/-! ## What reading a part answers -/

/-- An answer to a part of a source that more lines may complete: the part is a form, or blank, or
the answer asks for more. -/
def Completable (answer : Except Error Node) : Prop :=
  (∃ form, answer = .ok form) ∨ answer = .error .blank ∨
    ∃ error, answer = .error error ∧ error.isIncomplete = true

theorem Verdict.Tells.completable {verdict : Verdict} {answer : Except Error Node}
    (h : verdict.Tells answer)
    (hverdict : verdict = .blank ∨ verdict = .unexpectedEnd ∨ verdict = .form) :
    Completable answer := by
  rcases hverdict with rfl | rfl | rfl
  · exact .inr (.inl h)
  · obtain ⟨line, hanswer⟩ := h
    exact .inr (.inr ⟨_, hanswer, rfl⟩)
  · exact .inl h

namespace Node

open Reading

/-- A part of the form is completable if the newline after it stands in white space. -/
theorem read_cut_space {front : String} {before after : List String} {left : List Char}
    {cut : String} (hspace : ∀ c ∈ left, isSpace c = true)
    (hlexemes : lexemes front.toList =
      (before.map String.toList ++ (lexemes left).1, (lexemes left).2))
    (hform : Verdict.ofWords (wordsOf (before ++ cut :: after)) = .form) :
    Completable (Node.read front) := by
  obtain ⟨hstuck, hleft⟩ := lexemes_space hspace
  have hnonempty : ∀ l ∈ (lexemes left).1, l ≠ [] := fun l hl => ne_nil_of_mem_lexemes hl
  have htexts : tokenize front = .ok (before ++ (lexemes left).1.map String.ofList) := by
    rw [tokenize_eq_ok_iff, hlexemes, hstuck]
    simp [Function.comp_def]
  have hgap : wordsOf ((lexemes left).1.map String.ofList) = [] := by
    rw [wordsOf, List.filter_eq_nil_iff]
    intro text htext
    obtain ⟨l, hl, rfl⟩ := List.mem_map.mp htext
    have htrivia : Atom.isTrivia (String.ofList l) = true := by
      rw [Atom.isTrivia, String.toList_ofList]
      refine isTriviaChars_of_isSpaceRun (hnonempty l hl) ?_
      rw [hleft l hl]
      exact List.all_eq_true.mpr hspace
    simp [htrivia]
  have htells := tells_read htexts
  rw [wordsOf_append] at hform htells
  rw [hgap, List.append_nil] at htells
  exact htells.completable (Verdict.ofWords_front hform)

/-- A literal is a word and no parenthesis, with or without its closing quote. -/
theorem turn_of_isQuote {text : String} {quote : Char} {inside : List Char}
    (hquote : isQuote quote = true) (htext : text.toList = quote :: inside) :
    Atom.isTrivia text = false ∧ turn text = 0 := by
  have hne : ∀ paren : String, (∀ c ∈ paren.toList.head?, isQuote c = false) → text ≠ paren := by
    rintro paren hparen rfl
    rw [htext] at hparen
    rw [hparen quote rfl] at hquote
    cases hquote
  constructor
  · rw [← Bool.not_eq_true, Atom.isTrivia, htext]
    intro htrivia
    obtain ⟨c, rest, heq, hc⟩ := isTriviaChars_opens htrivia
    cases heq
    rcases isQuote_iff.mp hquote with rfl | rfl <;> cases hc
  · rw [turn, if_neg (hne "(" (by decide)), if_neg (hne ")" (by decide))]

/-- A part of the form asks for more if the newline after it stands in a literal. -/
theorem read_cut_literal {front : String} {before after : List String} {quote : Char}
    {inside rest : List Char} {cut : String} (hquote : isQuote quote = true)
    (hcloses : Closes quote (inside ++ rest)) (hrest : rest ≠ [])
    (hcut : cut.toList = quote :: (inside ++ rest))
    (hlexemes : lexemes front.toList = (before.map String.toList ++ (lexemes (quote :: inside)).1,
      (lexemes (quote :: inside)).2))
    (hform : Verdict.ofWords (wordsOf (before ++ cut :: after)) = .form) :
    Completable (Node.read front) := by
  obtain ⟨hstuck, -, hparts⟩ := lexemes_cut_literal hquote hcloses hrest
  have htexts :
      tokenize front = .ok (before ++ (lexemes (quote :: inside)).1.map String.ofList) := by
    rw [tokenize_eq_ok_iff, hlexemes, hstuck]
    simp [Function.comp_def]
  obtain ⟨hword, hturn⟩ := turn_of_isQuote hquote hcut
  have hwords : wordsOf (before ++ cut :: after) = wordsOf before ++ cut :: wordsOf after := by
    rw [wordsOf_append, wordsOf_cons_word hword]
  rw [hwords] at hform
  -- the form has begun before the literal
  have hbefore : wordsOf before ≠ [] := by
    intro hnil
    rw [hnil] at hform
    have hhead := (Verdict.ofWords_eq_form_iff.mp hform).1
    obtain rfl : cut = "(" := Option.some.inj hhead
    exact absurd hturn (by decide)
  have hstill : ∀ text ∈ wordsOf ((lexemes (quote :: inside)).1.map String.ofList),
      turn text = 0 := by
    intro text htext
    obtain ⟨l, hl, rfl⟩ := List.mem_map.mp (List.mem_of_mem_filter htext)
    rcases hparts l hl with rfl | ⟨part, rfl⟩
    · decide
    · exact (turn_of_isQuote hquote (String.toList_ofList)).2
  have htells := tells_read htexts
  rw [wordsOf_append] at htells
  exact htells.completable
    (.inr (.inl (Verdict.ofWords_front_append hform hbefore (List.cons_ne_nil _ _) hstill)))

/-- A part of the form is refused if the newline after it stands in a block comment that does not
begin with two semicolons. -/
theorem read_cut_comment {front : String} {before : List String} {inside : List Char}
    (hinside : throughCommentEnd? inside = none) (hsemi : inside.head? ≠ some ';')
    (hlexemes : lexemes front.toList = (before.map String.toList ++
      (lexemes ('(' :: ';' :: inside)).1, (lexemes ('(' :: ';' :: inside)).2)) :
    ∃ line text, Node.read front = .error (.stray line text) := by
  rw [lexemes_cut_comment hinside hsemi] at hlexemes
  refine ⟨1 + newlines (before.map String.toList ++ [['(']]).flatten,
    String.ofList (stray (';' :: inside)), ?_⟩
  rw [Node.read, tokens, tokenize, hlexemes]
  rfl

/-- A part of a form is completable, unless the newline after it stands in a block comment. -/
theorem read_cut {front back : String} {form : Node}
    (h : Node.read (front ++ "\n" ++ back) = .ok form)
    (hcomment : ¬∃ inside, CutsComment front back inside) : Completable (Node.read front) := by
  obtain ⟨texts, htexts, hlisting⟩ := read_listing h
  have hlast := (read_asRead h).getLast?_texts hlisting
  have hverdict : Verdict.ofWords (wordsOf texts) = .form :=
    (tells_read htexts).unique ⟨form, h⟩
  obtain ⟨before, cut, after, left, right, rfl, hcut, hfront⟩ := tokenize_cut htexts
  obtain ⟨hclosed, hlexemes⟩ := lexemes_cut htexts hlast rfl hcut hfront
  rcases cut_cases hclosed with hspace | ⟨inside, rfl, -⟩ | ⟨quote, inside, hquote, rfl, hcloses⟩
  · exact read_cut_space hspace hlexemes hverdict
  · have hcut' : cut = "(;" ++ String.ofList inside ++ "\n" ++ String.ofList right := by
      rw [← String.toList_inj, hcut]
      simp
    have hfront' : front = String.join before ++ "(;" ++ String.ofList inside := by
      rw [hfront, ← String.toList_inj]
      simp
    exact absurd ⟨_, _, before, _, after, htexts, by rw [hcut'], hfront'⟩ hcomment
  · exact read_cut_literal hquote hcloses (List.cons_ne_nil _ _) hcut hlexemes hverdict

/-- A part of a form is refused if the newline after it stands in a block comment that does not
begin with two semicolons. -/
theorem read_cut_of_comment {front back inside : String} {form : Node}
    (h : Node.read (front ++ "\n" ++ back) = .ok form) (hcomment : CutsComment front back inside)
    (hsemi : inside.toList.head? ≠ some ';') :
    ∃ line text, Node.read front = .error (.stray line text) := by
  obtain ⟨texts, htexts, hlisting⟩ := read_listing h
  have hlast := (read_asRead h).getLast?_texts hlisting
  obtain ⟨texts', before, rest, after, htexts', rfl, hfront⟩ := hcomment
  cases htexts'.symm.trans htexts
  have hcut : ("(;" ++ inside ++ "\n" ++ rest).toList =
      '(' :: ';' :: inside.toList ++ '\n' :: rest.toList := by simp
  have hfront' : front = String.join before ++ String.ofList ('(' :: ';' :: inside.toList) := by
    rw [hfront, ← String.toList_inj]
    simp
  obtain ⟨hclosed, hlexemes⟩ := lexemes_cut htexts hlast rfl hcut hfront'
  have hinside : throughCommentEnd? inside.toList = none := by
    rcases cut_cases hclosed with hspace | ⟨_, heq, hnone⟩ | ⟨quote, _, hquote, heq, -⟩
    · exact absurd (hspace '(' List.mem_cons_self) (by decide)
    · cases heq
      exact hnone
    · cases heq
      exact absurd hquote (by decide)
  exact read_cut_comment hinside hsemi hlexemes

end Node

/-! ## What a session answers -/

namespace Session

/-- The lines of a session with the next one, as they are read. -/
def joined (session : Session) (line : String) : String :=
  String.intercalate "\n" (session.pending ++ [Text.trimEnd line])

/-- A session goes on from an error of reading with the same context. It keeps its lines exactly if
the error asks for more. -/
theorem take_of_read_error {session : Session} {line : String} {error : Error}
    (h : Node.read (String.intercalate "\n" (session.pending ++ [line])) = .error error) :
    session.take line =
      if error = .blank then (.expanded "", ⟨[], session.context⟩)
      else if error.isIncomplete = true then (.more, ⟨session.pending ++ [line], session.context⟩)
      else (.refused error, ⟨[], session.context⟩) := by
  rw [take, expandText_of_read_error h]
  cases error <;> rfl

theorem feed_of_read_error {session : Session} {line : String} {error : Error}
    (h : Node.read (session.joined line) = .error error) :
    session.feed line =
      if error = .blank then (.expanded "", ⟨[], session.context⟩)
      else if error.isIncomplete = true then
        (.more, ⟨session.pending ++ [Text.trimEnd line], session.context⟩)
      else (.refused error, ⟨[], session.context⟩) :=
  take_of_read_error h

/-- What a session answers to lines that are a source in part, cut at a newline: it completes a
form, takes nothing for a form, or waits for more, unless the newline stands in a block comment. A
comment that is cut is refused, with all that was typed, if it does not begin with two
semicolons. -/
theorem feed_cut {front back : String} {form : Node}
    (h : Node.read (front ++ "\n" ++ back) = .ok form) :
    ((¬∃ inside, CutsComment front back inside) → Completable (Node.read front) ∧
      ∀ (session : Session) (line : String), session.joined line = front →
        (∃ form, Node.read front = .ok form) ∨
          session.feed line = (.expanded "", ⟨[], session.context⟩) ∨
          session.feed line =
            (.more, ⟨session.pending ++ [Text.trimEnd line], session.context⟩)) ∧
    ∀ inside, CutsComment front back inside → inside.toList.head? ≠ some ';' →
      ∃ number text, Node.read front = .error (.stray number text) ∧
        ∀ (session : Session) (line : String), session.joined line = front →
          session.feed line = (.refused (.stray number text), ⟨[], session.context⟩) := by
  constructor
  · intro hcomment
    have hanswer := Node.read_cut h hcomment
    refine ⟨hanswer, fun session line hjoined => ?_⟩
    subst hjoined
    rcases hanswer with hform | hblank | ⟨error, herror, hmore⟩
    · exact .inl hform
    · exact .inr (.inl (feed_of_read_error hblank))
    · refine .inr (.inr ?_)
      rw [feed_of_read_error herror, if_neg (by rintro rfl; cases hmore), if_pos hmore]
  · intro inside hcomment hsemi
    obtain ⟨number, text, hstray⟩ := Node.read_cut_of_comment h hcomment hsemi
    refine ⟨number, text, hstray, fun session line hjoined => ?_⟩
    subst hjoined
    exact feed_of_read_error hstray

/-- A form with a literal of two lines is waited for, one with a comment of two lines is not. -/
theorem feed_cut_literal_and_comment :
    (let front := "(f (; a ;) \"x"
      let back := "y\")"
      (∃ form, Node.read (front ++ "\n" ++ back) = .ok form) ∧
        (¬∃ inside, CutsComment front back inside) ∧ Completable (Node.read front)) ∧
    (let front := "(f (; a"
      let back := "b ;))"
      (∃ form, Node.read (front ++ "\n" ++ back) = .ok form) ∧ CutsComment front back " a" ∧
        ∃ number text, empty.feed front = (.refused (.stray number text), empty)) := by
  constructor
  · intro front back
    have htexts : tokenize (front ++ "\n" ++ back) =
        .ok ["(", "f", " ", "(; a ;)", " ", "\"x\ny\"", ")"] := by
      decide +kernel
    have hread : ∃ form, Node.read (front ++ "\n" ++ back) = .ok form :=
      ⟨_, Node.read_eq_ok.mpr ⟨_, htexts, rfl⟩⟩
    -- the only block comment is on one line
    have hcomments : ∀ text ∈ ["(", "f", " ", "(; a ;)", " ", "\"x\ny\"", ")"],
        text.toList.take 2 = ['(', ';'] → '\n' ∉ text.toList := by
      decide +kernel
    have hcomment : ¬∃ inside, CutsComment front back inside := by
      rintro ⟨inside, texts, before, rest, after, htexts', hsplit, -⟩
      have hmem : "(;" ++ inside ++ "\n" ++ rest ∈ texts := hsplit ▸ by simp
      rw [← Except.ok.inj (htexts.symm.trans htexts')] at hmem
      exact hcomments _ hmem (by simp) (by simp)
    exact ⟨hread, hcomment, hread.elim fun form hform => ((feed_cut hform).1 hcomment).1⟩
  · intro front back
    have htexts : tokenize (front ++ "\n" ++ back) =
        .ok ["(", "f", " ", "(; a\nb ;)", ")"] := by
      decide +kernel
    have hread : ∃ form, Node.read (front ++ "\n" ++ back) = .ok form :=
      ⟨_, Node.read_eq_ok.mpr ⟨_, htexts, rfl⟩⟩
    have hcomment : CutsComment front back " a" :=
      ⟨_, ["(", "f", " "], "b ;)", [")"], htexts, rfl, by decide +kernel⟩
    obtain ⟨form, hform⟩ := hread
    obtain ⟨number, text, -, hfeed⟩ := (feed_cut hform).2 " a" hcomment (by decide)
    exact ⟨⟨form, hform⟩, hcomment, number, text, hfeed empty front (by decide +kernel)⟩

/-- **Deviation.** A form with a block comment of two lines can be read, and cannot be typed: the
first line is refused and thrown away, and the second line is no form. -/
theorem feed_cut_comment :
    let front := "(f (; a"
    let back := "b ;))"
    (∃ form, Node.read (front ++ "\n" ++ back) = .ok form) ∧ ¬Completable (Node.read front) ∧
      empty.feed front = (.refused (.stray 1 ";"), empty) := by
  intro front back
  have htexts : tokenize (front ++ "\n" ++ back) = .ok ["(", "f", " ", "(; a\nb ;)", ")"] := by
    decide +kernel
  have hstray : tokenize front = .error (.stray 1 ";") := by decide +kernel
  have hread : Node.read front = .error (.stray 1 ";") := by
    rw [Node.read, tokens, hstray]
    rfl
  refine ⟨⟨_, Node.read_eq_ok.mpr ⟨_, htexts, rfl⟩⟩, ?_, ?_⟩
  · rintro (⟨form, hform⟩ | hblank | ⟨error, herror, hmore⟩)
    · cases hform.symm.trans hread
    · cases hblank.symm.trans hread
    · cases herror.symm.trans hread
      cases hmore
  · have hjoined : empty.joined front = front := by decide +kernel
    exact feed_of_read_error (hjoined.symm ▸ hread)

end Session

end WatMacro
