import WatMacro.Node.Printer
import WatMacro.Proofs.Lexeme.Boundary

/-!
# Trivia among lexemes

Which lexemes are trivia, and what stands next to them. A line comment ends before a newline, so in
a source only white space that begins with one can follow it.

Results:

* `Atom.kindOf_eq_trivia_iff`: the kind of an atom is trivia if its text is judged as trivia.
* `tokenize_lexical`, `tokenize_follows`: the tokens of a source are closed lexemes, and each may
  follow the one before it.
* `looselyApart_of_follows`: lexemes that may follow each other need a space between them only where
  one is written.
-/

namespace WatMacro

open Text Lexeme

/-! ## Trivia -/

theorem isDigitOf_range {base : Nat} {c : Char} (h : isDigitOf base c = true) :
    48 ≤ c.toNat ∧ c.toNat ≤ 57 ∨ 97 ≤ c.toNat ∧ c.toNat ≤ 102 ∨
      65 ≤ c.toNat ∧ c.toNat ≤ 70 := by
  unfold isDigitOf digitValue? at h
  split at h
  · rename_i hrange
    exact .inl hrange
  · split at h
    · rename_i hrange
      exact .inr (.inl hrange)
    · split at h
      · rename_i hrange
        exact .inr (.inr hrange)
      · cases h

theorem toNat_of_isSpace {c : Char} (h : isSpace c = true) :
    c.toNat ≤ 32 ∨ 133 ≤ c.toNat := by
  simp [isSpace, spaceRanges] at h
  omega

/-- A character at the front of trivia. -/
def opensTrivia (c : Char) : Bool :=
  c = ';' || c = '(' || isSpace c

theorem toNat_of_opensTrivia {c : Char} (h : opensTrivia c = true) :
    c.toNat = 59 ∨ c.toNat = 40 ∨ c.toNat ≤ 32 ∨ 133 ≤ c.toNat := by
  rw [opensTrivia, Bool.or_eq_true, Bool.or_eq_true, decide_eq_true_eq, decide_eq_true_eq] at h
  rcases h with (rfl | rfl) | h
  · exact .inl rfl
  · exact .inr (.inl rfl)
  · exact .inr (.inr (toNat_of_isSpace h))

theorem not_isDigitOf_of_opensTrivia {base : Nat} {c : Char} (h : opensTrivia c = true) :
    isDigitOf base c = false := by
  rw [← Bool.not_eq_true]
  intro hdigit
  have hrange := isDigitOf_range hdigit
  have htrivia := toNat_of_opensTrivia h
  omega

theorem ne_of_opensTrivia {c d : Char} (h : opensTrivia c = true) (hd : opensTrivia d = false) :
    c ≠ d := by
  rintro rfl
  rw [h] at hd
  cases hd

theorem dropSign_of_opensTrivia {c : Char} (h : opensTrivia c = true) (cs : List Char) :
    Atom.dropSign (c :: cs) = c :: cs := by
  unfold Atom.dropSign
  split
  · rename_i heq
    exact absurd (List.cons.inj heq).1 (ne_of_opensTrivia h (by decide))
  · rename_i heq
    exact absurd (List.cons.inj heq).1 (ne_of_opensTrivia h (by decide))
  · rfl

theorem isTriviaChars_opens {cs : List Char} (h : Atom.isTriviaChars cs = true) :
    ∃ c rest, cs = c :: rest ∧ opensTrivia c = true := by
  unfold Atom.isTriviaChars at h
  split at h
  · exact ⟨_, _, rfl, by decide⟩
  · exact ⟨_, _, rfl, by decide⟩
  · cases cs with
    | nil => cases h
    | cons c rest =>
      simp only [List.isEmpty_cons, Bool.not_false, Bool.true_and, List.all_cons,
        Bool.and_eq_true] at h
      exact ⟨c, rest, rfl, by simp [opensTrivia, h.1]⟩

theorem kindOfChars_of_opensTrivia {c : Char} (h : opensTrivia c = true) (cs : List Char) :
    Atom.kindOfChars (c :: cs) =
      if Atom.isTriviaChars (c :: cs) then .trivia else .keyword := by
  have hname : c ≠ '$' := ne_of_opensTrivia h (by decide)
  have hquote : c ≠ '\x22' := ne_of_opensTrivia h (by decide)
  have hzero : c ≠ '0' := ne_of_opensTrivia h (by decide)
  have hdigit : ∀ base, isDigitOf base c = false := fun _ => not_isDigitOf_of_opensTrivia h
  have hinteger : Atom.isInteger (c :: cs) = false := by
    rw [Atom.isInteger, dropSign_of_opensTrivia h]
    split
    · rename_i heq
      exact absurd (List.cons.inj heq).1 hzero
    · simp [Atom.isDigits, hdigit]
  have hfloat : Atom.isFloat (c :: cs) = false := by
    rw [Atom.isFloat, dropSign_of_opensTrivia h]
    simp [hdigit]
  simp [Atom.kindOfChars, hname, hquote, hinteger, hfloat]

theorem Atom.kindOf_eq_trivia_iff {text : String} :
    Atom.kindOf text = .trivia ↔ Atom.isTrivia text = true := by
  rw [Atom.kindOf, Atom.isTrivia]
  constructor
  · intro h
    by_contra htrivia
    simp only [Atom.kindOfChars, htrivia] at h
    split at h <;> try cases h
    split at h <;> try cases h
    split at h <;> try cases h
    split at h <;> cases h
  · intro h
    obtain ⟨c, rest, heq, hc⟩ := isTriviaChars_opens h
    rw [heq] at h ⊢
    rw [kindOfChars_of_opensTrivia hc, if_pos h]

/-- A text that begins like a line comment. -/
def isLineComment (text : String) : Bool :=
  match text.toList with
  | ';' :: ';' :: _ => true
  | _ => false

theorem isLineComment_of_toList {text : String} {cs : List Char}
    (h : text.toList = ';' :: ';' :: cs) : isLineComment text = true := by
  unfold isLineComment
  rw [h]
  rfl

theorem isLineComment_eq_true {text : String} (h : isLineComment text = true) :
    ∃ cs, text.toList = ';' :: ';' :: cs := by
  unfold isLineComment at h
  split at h
  · exact ⟨_, by assumption⟩
  · cases h

/-- A closed lexeme begins with a semicolon only if it is a line comment. -/
theorem isLineComment_of_closed {text : String} (h : Closed text.toList)
    (hhead : text.toList.head? = some ';') : isLineComment text = true := by
  obtain ⟨cs, hcs⟩ := List.head?_eq_some_iff.mp hhead
  rw [hcs] at h
  obtain ⟨inside, rfl, -⟩ := h.of_semicolon
  rw [isLineComment, hcs]
  rfl

/-- A closed line comment is trivia. -/
theorem isTrivia_of_isLineComment {text : String} (h : Closed text.toList)
    (hcomment : isLineComment text = true) : Atom.isTrivia text = true := by
  obtain ⟨cs, hcs⟩ := isLineComment_eq_true hcomment
  rw [Atom.isTrivia, hcs]
  rw [hcs] at h
  obtain ⟨inside, hinside, hline⟩ := h.of_semicolon
  obtain rfl : cs = inside := (List.cons.inj hinside).2
  rw [Atom.isTriviaChars, List.all_eq_true]
  simpa using hline

/-! ## Neighbours in a source -/

/-- The text of a token of a source: a closed lexeme, of which the token follows. -/
structure Token.Lexical (token : Token) : Prop where
  closed : Closed token.text.toList
  ofText : Token.ofText token.text = token

/-- The text on the right may follow the one on the left: a line comment ends before a newline, and
does not stand right after an opening parenthesis. -/
structure Follows (left right : String) : Prop where
  comment : isLineComment left = true → right.toList.head? = some '\n'
  opening : left = "(" → isLineComment right = false

theorem lexemes_backslash : lexemes ['\\'] = ([['\\']], []) := by
  have hclosed : Closed ['\\'] := .of_plainRun (by decide)
  have hread : lexeme? (['\\'] ++ []) = some (['\\'], []) := lexeme?_append hclosed (by simp)
  rw [List.append_nil] at hread
  rw [lexemes_of_some hread, lexemes_nil]

/-- A token that is neither a closing parenthesis nor trivia does not end a source. So no token of
the source is a literal without a closing quote. -/
theorem tokenize_closed {source : String} {texts : List String} (h : tokenize source = .ok texts)
    (hlast : ∀ last ∈ texts.getLast?, last = ")" ∨ Atom.isTrivia last = true)
    {front back : List String} {text : String} (hsplit : texts = front ++ text :: back) :
    Closed text.toList ∧ ∀ next ∈ back.head?, ∀ d ∈ next.toList.head?,
      continues text.toList d = true → text = "(" := by
  have hlexemes := tokenize_eq_ok_iff.mp h
  have htexts : texts.map String.toList =
      front.map String.toList ++ text.toList :: back.map String.toList := by simp [hsplit]
  obtain ⟨rest, hread, hrest⟩ := lexemes_split hlexemes htexts
  have hunclosed : ∀ quote inside, isQuote quote = true → text.toList = quote :: inside →
      text ≠ ")" ∧ Atom.isTrivia text = false := by
    intro quote inside hquote htext
    constructor
    · rintro rfl
      cases htext
      exact absurd hquote (by decide)
    · rw [Atom.isTrivia, htext, ← Bool.not_eq_true]
      intro htrivia
      obtain ⟨c, rest, heq, hc⟩ := isTriviaChars_opens htrivia
      cases heq
      rcases isQuote_iff.mp hquote with rfl | rfl <;> cases hc
  rcases lexeme?_closed hread with ⟨hclosed, hnext⟩ | ⟨⟨quote, inside, hquote, htext⟩, hend⟩
  · refine ⟨hclosed, fun next hback d hd hcont => ?_⟩
    have htext : text.toList = "(".toList := by
      refine hnext d ?_ hcont
      have hflatten := lexemes_flatten rest
      rw [hrest, List.append_nil] at hflatten
      cases back with
      | nil => cases hback
      | cons other back =>
        cases hback
        rw [← hflatten, List.map_cons, List.flatten_cons, List.head?_append, Option.mem_def.mp hd]
        rfl
    exact String.toList_inj.mp htext
  · obtain ⟨hne, htrivia⟩ := hunclosed quote inside hquote htext
    rcases hend with rfl | rfl
    · have hback : back = [] := by simpa [lexemes_nil] using hrest.symm
      rcases hlast text (by simp [hsplit, hback]) with hparen | hparen
      · exact absurd hparen hne
      · rw [htrivia] at hparen
        cases hparen
    · have hback : back.map String.toList = [['\\']] := by
        rw [lexemes_backslash] at hrest
        exact (Prod.mk.inj hrest).1.symm
      obtain ⟨last, rfl, hchars⟩ := List.map_eq_singleton_iff.mp hback
      rcases hlast last (by simp [hsplit]) with hparen | hparen
      · rw [hparen] at hchars
        cases hchars
      · rw [Atom.isTrivia, hchars] at hparen
        cases hparen

/-- The tokens of a source are closed lexemes. -/
theorem tokenize_lexical {source : String} {texts : List String}
    (h : tokenize source = .ok texts)
    (hlast : ∀ last ∈ texts.getLast?, last = ")" ∨ Atom.isTrivia last = true) :
    ∀ token ∈ texts.map Token.ofText, token.Lexical := by
  intro token htoken
  obtain ⟨text, htext, rfl⟩ := List.mem_map.mp htoken
  obtain ⟨front, back, hsplit⟩ := List.append_of_mem htext
  refine ⟨?_, by rw [Token.text_ofText]⟩
  rw [Token.text_ofText]
  exact (tokenize_closed h hlast hsplit).1

/-- Each token of a source may follow the one before it, if no line comment stands right after an
opening parenthesis. -/
theorem tokenize_follows {source : String} {texts : List String}
    (h : tokenize source = .ok texts)
    (hlast : ∀ last ∈ texts.getLast?, last = ")" ∨ Atom.isTrivia last = true)
    (hopening : texts.IsChain fun left right => left = "(" → isLineComment right = false) :
    texts.IsChain Follows := by
  rw [List.isChain_iff_forall_rel_of_append_cons_cons] at hopening ⊢
  intro left right front back hsplit
  refine ⟨fun hcomment => ?_, hopening hsplit⟩
  obtain ⟨cs, hcs⟩ := isLineComment_eq_true hcomment
  have hsplit' : texts = (front ++ [left]) ++ right :: back := by simp [hsplit]
  have hright := (tokenize_closed h hlast hsplit').1
  obtain ⟨d, ds, hds⟩ := List.exists_cons_of_ne_nil hright.ne_nil
  have hnext := (tokenize_closed h hlast hsplit).2 right rfl d (by rw [hds]; rfl)
  rw [hds, List.head?_cons]
  by_contra hd
  have hparen : left = "(" := by
    apply hnext
    rw [hcs, continues, if_neg (by decide), if_neg (by decide), if_pos rfl]
    simpa using hd
  rw [hparen] at hcs
  cases hcs

/-! ## Neighbours in a written text -/

theorem not_isPlain_of_opensTrivia {c : Char} (h : opensTrivia c = true) : isPlain c = false := by
  rw [← Bool.not_eq_true]
  intro hplain
  obtain ⟨hspace, -, hnone⟩ := isPlain_iff.mp hplain
  rw [opensTrivia, Bool.or_eq_true, Bool.or_eq_true, decide_eq_true_eq, decide_eq_true_eq] at h
  rcases h with (rfl | rfl) | h
  · exact hnone (by decide)
  · exact hnone (by decide)
  · rw [hspace] at h
    cases h

/-- What has to be known of a closed lexeme for a text that begins with a given character not to run
into it. -/
theorem looselyApart_of_closed {left right : List Char} (h : Closed left)
    (hcomment : ∀ cs, left = ';' :: ';' :: cs → right.head? = some '\n')
    (hopening : left = ['('] → right.head? ≠ some ';')
    (hplain : isPlainRun left = true → ∀ d ∈ right.head?, isPlain d = false) :
    LooselyApart left right := by
  cases h with
  | space hne hspace => exact .of_space (List.all_eq_true.mpr hspace) right
  | blockComment hinside =>
    refine Apart.loosely fun d _ => ?_
    simp [continues, show isSpace '(' = false from rfl]
  | @mark c hmark =>
    by_cases hparen : c = '('
    · subst hparen
      exact (Apart.opening (hopening rfl)).loosely
    · have hsemi : c ≠ ';' := by rintro rfl; exact absurd hmark (by decide)
      refine Apart.loosely fun d _ => ?_
      simp [continues, not_isSpace_of_isMark hmark, hparen, hsemi, hmark]
  | literal hquote hcloses => exact (Apart.of_literal hquote right).loosely
  | lineComment hline =>
    refine (Apart.lineComment fun d hd => ?_).loosely
    rw [hcomment _ rfl] at hd
    exact (Option.some.inj hd).symm
  | @plain c cs hmark hall =>
    have hrun : isPlainRun (c :: cs) = true := by
      rw [isPlainRun, hmark, List.all_eq_true.mpr hall]
      rfl
    exact (Apart.of_plainRun hrun (hplain hrun)).loosely

theorem not_isTrivia_of_isPlainRun {text : String} (h : isPlainRun text.toList = true) :
    Atom.isTrivia text = false := by
  rw [← Bool.not_eq_true]
  intro htrivia
  obtain ⟨c, rest, heq, hc⟩ := isTriviaChars_opens htrivia
  rw [heq, isPlainRun, Bool.and_eq_true, List.all_cons, Bool.and_eq_true,
    not_isPlain_of_opensTrivia hc] at h
  cases h.2.1

/-- Lexemes that may follow each other need a space between them only where one is written. -/
theorem looselyApart_of_follows {left right : String} (hleft : Closed left.toList)
    (hright : Closed right.toList) (hfollows : Follows left right)
    (hspace : Node.needsSpace left right = false) : LooselyApart left.toList right.toList := by
  refine looselyApart_of_closed hleft (fun cs hcs => ?_) (fun hparen => ?_) fun hplain => ?_
  · exact hfollows.comment (isLineComment_of_toList hcs)
  · intro hhead
    have hno := hfollows.opening (String.toList_inj.mp hparen)
    rw [isLineComment_of_closed hright hhead] at hno
    cases hno
  · have hne : left ≠ "(" := by
      rintro rfl
      cases hplain
    have htrivia : Atom.isTrivia right = true := by
      simpa [Node.needsSpace, hne, not_isTrivia_of_isPlainRun hplain] using hspace
    obtain ⟨c, rest, heq, hc⟩ := isTriviaChars_opens htrivia
    rw [heq]
    rintro d ⟨⟩
    exact not_isPlain_of_opensTrivia hc

/-- A closed lexeme other than a line comment and an opening parenthesis does not run into a text
that begins with a character that is not plain. -/
theorem looselyApart_of_not_isPlain {left right : String} (hleft : Closed left.toList)
    (hcomment : isLineComment left = false)
    (hright : ∀ d ∈ right.toList.head?, isPlain d = false ∧ d ≠ ';') :
    LooselyApart left.toList right.toList := by
  refine looselyApart_of_closed hleft (fun cs hcs => ?_) (fun _ hhead => ?_) fun _ d hd =>
    (hright d hd).1
  · rw [isLineComment_of_toList hcs] at hcomment
    cases hcomment
  · exact (hright ';' hhead).2 rfl

end WatMacro
