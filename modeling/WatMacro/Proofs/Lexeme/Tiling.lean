import WatMacro.Proofs.Lexeme.Comment

/-!
# How lexemes tile a text

The lexemes of a text stand one after the other without a gap. What stops them is a comma, or a
semicolon that no other follows; every other character begins a lexeme wherever one may begin. So a
text is refused for such a stretch of characters and for nothing else, and what stands before the
stretch is a text that is split by itself.

Results:

* `Lexeme.lexeme?_eq_none_iff`: where no lexeme begins.
* `Lexeme.lexemes_front`: the lexemes before a cut do not depend on what follows it.
* `Lexeme.isTriviaChars_iff`: which lexemes are trivia.
* `tokenize_tiles`: what the tokens of a source are, and when it has none.
-/

namespace WatMacro

open Text Lexeme

namespace Lexeme

/-! ## Where no lexeme begins -/

/-- The first character is a comma, or a semicolon that no other follows. -/
def isStray : List Char → Bool
  | ',' :: _ => true
  | ';' :: cs => cs.head? != some ';'
  | _ => false

theorem lineComment?_eq_none {cs : List Char} (h : cs.head? ≠ some ';') :
    lineComment? (';' :: cs) = none := by
  unfold lineComment?
  split
  · rename_i rest heq
    obtain rfl := (List.cons.inj heq).2
    exact absurd rfl h
  · rfl

theorem lexeme?_of_isStray {cs : List Char} (h : isStray cs = true) : lexeme? cs = none := by
  unfold isStray at h
  split at h
  · rfl
  · rename_i rest
    rw [lexeme?_eq, run?_eq_none rfl, lineComment?_eq_none (by simpa using h), run?_eq_none rfl]
    rfl
  · cases h

/-- Every other character begins a lexeme. -/
theorem isStray_of_lexeme? {c : Char} {cs : List Char} (h : lexeme? (c :: cs) = none) :
    isStray (c :: cs) = true := by
  rw [lexeme?_eq] at h
  simp only [Option.or_eq_none_iff] at h
  obtain ⟨⟨⟨⟨⟨hspace, -⟩, hmark⟩, hquote⟩, hline⟩, hplain⟩ := h
  have hspace' : isSpace c = false := by simpa [run?] using hspace
  have hmark' : isMark c = false := by simpa [mark?] using hmark
  have hquote' : isQuote c = false := by simpa [literal?] using hquote
  have hplain' : isPlain c = false := by simpa [run?] using hplain
  have hc : c = ',' ∨ c = ';' := by
    by_contra hother
    have hnone : c ∉ ['[', ']', '{', '}', '(', ')', '\x60', '@', ',', ';'] := by
      rw [← Bool.not_eq_true, isMark_iff] at hmark'
      simp only [List.mem_cons, List.not_mem_nil]
      tauto
    rw [isPlain_iff.mpr ⟨hspace', hquote', hnone⟩] at hplain'
    cases hplain'
  rcases hc with rfl | rfl
  · rfl
  · cases cs with
    | nil => rfl
    | cons d cs =>
      have hd : d ≠ ';' := by
        rintro rfl
        cases hline
      simp [isStray, hd]

theorem lexeme?_eq_none_iff {cs : List Char} :
    lexeme? cs = none ↔ cs = [] ∨ isStray cs = true := by
  constructor
  · intro h
    cases cs with
    | nil => exact .inl rfl
    | cons c cs => exact .inr (isStray_of_lexeme? h)
  · rintro (rfl | h)
    · rfl
    · exact lexeme?_of_isStray h

/-- A stretch in front of a text in which no lexeme begins, as long as possible. -/
structure IsStretch (stretch rest : List Char) : Prop where
  isStray : ∀ part, part <:+ stretch → part ≠ [] → isStray (part ++ rest) = true
  longest : Lexeme.isStray rest = false

theorem IsStretch.cons {c : Char} {stretch rest : List Char} (h : IsStretch stretch rest)
    (hc : Lexeme.isStray (c :: (stretch ++ rest)) = true) : IsStretch (c :: stretch) rest := by
  refine ⟨fun part hpart hne => ?_, h.longest⟩
  rcases List.suffix_cons_iff.mp hpart with rfl | hpart
  · exact hc
  · exact h.isStray part hpart hne

theorem exists_isStretch (cs : List Char) : ∃ rest, stray cs ++ rest = cs ∧
    IsStretch (stray cs) rest := by
  have hnil : ∀ {rest : List Char}, Lexeme.isStray rest = false → IsStretch [] rest :=
    fun hrest => ⟨fun part hpart hne => absurd (List.suffix_nil.mp hpart) hne, hrest⟩
  fun_induction stray cs with
  | case1 cs ih =>
    obtain ⟨rest, hrest, hstretch⟩ := ih
    exact ⟨rest, by rw [List.cons_append, hrest], hstretch.cons rfl⟩
  | case2 cs hhead => exact ⟨_, rfl, hnil (by simp [Lexeme.isStray, hhead])⟩
  | case3 cs hhead ih =>
    obtain ⟨rest, hrest, hstretch⟩ := ih
    refine ⟨rest, by rw [List.cons_append, hrest], hstretch.cons ?_⟩
    rw [hrest]
    simp [Lexeme.isStray, hhead]
  | case4 cs hcomma hsemi =>
    refine ⟨cs, rfl, hnil ?_⟩
    unfold Lexeme.isStray
    split
    · exact absurd rfl (hcomma _)
    · exact absurd rfl (hsemi _)
    · rfl

theorem stray_ne_nil {cs : List Char} (h : isStray cs = true) : stray cs ≠ [] := by
  unfold isStray at h
  split at h
  · simp [stray]
  · simpa [stray] using h
  · cases h

/-! ## Reading from the front -/

/-- Lexemes that are read off the front of a text, and what is left of it. -/
inductive Reads : List Char → List (List Char) → List Char → Prop
  | nil (cs : List Char) : Reads cs [] cs
  | cons {cs l rest : List Char} {ls : List (List Char)} {stuck : List Char} :
    lexeme? cs = some (l, rest) → Reads rest ls stuck → Reads cs (l :: ls) stuck

theorem lexemes_of_none {cs : List Char} (h : lexeme? cs = none) : lexemes cs = ([], cs) := by
  rw [lexemes.eq_def]
  split
  · rfl
  · rename_i hsome
    rw [h] at hsome
    cases hsome

theorem Reads.lexemes_eq {cs rest : List Char} {ls : List (List Char)} (h : Reads cs ls rest) :
    lexemes cs = (ls ++ (lexemes rest).1, (lexemes rest).2) := by
  induction h with
  | nil => rfl
  | cons hread _ ih => rw [lexemes_of_some hread, ih, List.cons_append]

theorem Reads.concat {cs l rest more : List Char} {ls : List (List Char)} (h : Reads cs ls rest)
    (hread : lexeme? rest = some (l, more)) : Reads cs (ls ++ [l]) more := by
  induction h with
  | nil => exact .cons hread (.nil more)
  | cons hfirst _ ih => exact .cons hfirst (ih hread)

/-- The lexemes of a text are read off its front, up to where none begins. -/
theorem reads_lexemes (cs : List Char) :
    Reads cs (lexemes cs).1 (lexemes cs).2 ∧ lexeme? (lexemes cs).2 = none := by
  fun_induction lexemes cs with
  | case1 cs hnone => exact ⟨.nil cs, hnone⟩
  | case2 cs l rest hsome more stuck heq ih =>
    rw [heq] at ih
    exact ⟨.cons hsome ih.1, ih.2⟩

/-! ## Lexemes before a cut -/

/-- What is taken of a literal takes all of itself. -/
theorem throughQuote_self (quote : Char) (cs : List Char) :
    throughQuote quote (throughQuote quote cs).1 = ((throughQuote quote cs).1, []) := by
  fun_induction throughQuote quote cs with
  | case1 => rfl
  | case2 => rfl
  | case3 c hslash => rw [throughQuote, if_neg hslash]
  | case4 d cs inside rest heq ih =>
    rw [heq] at ih
    rw [throughQuote, if_pos rfl, ih]
  | case5 d cs hslash => rw [throughQuote, if_neg hslash]
  | case6 c d cs hslash hquote inside rest heq ih =>
    rw [heq] at ih
    cases inside with
    | nil => rw [throughQuote, if_neg hslash]
    | cons e inside => rw [throughQuote, if_neg hslash, if_neg hquote, ih]

/-- A lexeme is read off a front part of the text as it is read off the whole. -/
theorem lexeme?_front {lexeme rest more : List Char}
    (h : lexeme? (lexeme ++ (rest ++ more)) = some (lexeme, rest ++ more)) :
    lexeme? (lexeme ++ rest) = some (lexeme, rest) := by
  rcases lexeme?_closed h with ⟨hclosed, -⟩ | ⟨⟨quote, inside, hquote, rfl⟩, hend⟩
  · by_cases hcontinues : ∃ d ∈ rest.head?, continues lexeme d = true
    · obtain ⟨d, hd, hcontinues⟩ := hcontinues
      obtain ⟨rest, rfl⟩ := List.head?_eq_some_iff.mp hd
      obtain ⟨rfl, rfl⟩ := opening_semicolon_of_continues h hcontinues
      rw [List.singleton_append, lexeme?_opening_iff, blockComment?_eq_none_iff] at h ⊢
      rintro rest' ⟨⟩
      exact throughCommentEnd?_eq_none_of_append (h _ rfl)
    · refine lexeme?_append hclosed fun d hd => ?_
      simpa using fun hcontinue => hcontinues ⟨d, hd, hcontinue⟩
  · -- at most a backslash follows, and stands on one side of the cut
    have hcut : rest = [] ∨ more = [] := by
      rcases hend with hend | hend
      · exact .inl (List.append_eq_nil_iff.mp hend).1
      · exact (List.append_eq_singleton_iff.mp hend).imp And.left And.right
    rcases hcut with rfl | rfl
    · rw [List.cons_append, lexeme?_quote hquote, Option.some.injEq, Prod.mk.injEq,
        List.cons.injEq, and_iff_right rfl] at h
      have hself := throughQuote_self quote (inside ++ ([] ++ more))
      rw [h.1] at hself
      rw [List.append_nil, lexeme?_quote hquote, hself]
    · rwa [List.append_nil] at h

theorem lexemes_cons {l cs stuck : List Char} {ls : List (List Char)}
    (h : lexemes (l ++ cs) = (l :: ls, stuck)) :
    lexeme? (l ++ cs) = some (l, cs) ∧ lexemes cs = (ls, stuck) := by
  rw [lexemes.eq_def] at h
  split at h
  · cases h
  · rename_i lexeme rest hread
    cases h
    obtain rfl : rest = cs := List.append_cancel_left (lexeme?_takesFront hread).1
    exact ⟨hread, rfl⟩

/-- The lexemes before a cut do not depend on what follows it. -/
theorem lexemes_front {front back : List (List Char)} {rest more stuck : List Char}
    (h : lexemes (front.flatten ++ (rest ++ more)) = (front ++ back, stuck)) :
    lexemes (front.flatten ++ rest) = (front ++ (lexemes rest).1, (lexemes rest).2) := by
  induction front with
  | nil => rfl
  | cons l front ih =>
    rw [List.flatten_cons, List.append_assoc] at h
    obtain ⟨hread, hmore⟩ := lexemes_cons h
    rw [← List.append_assoc front.flatten] at hread
    rw [List.flatten_cons, List.append_assoc, lexemes_of_some (lexeme?_front hread), ih hmore]
    rfl

theorem Reads.flatten_append {cs rest : List Char} {ls : List (List Char)} (h : Reads cs ls rest) :
    ls.flatten ++ rest = cs := by
  induction h with
  | nil => rfl
  | cons hread _ ih => rw [List.flatten_cons, List.append_assoc, ih, (lexeme?_takesFront hread).1]

/-- Lexemes that are read off the front of a text are all lexemes of the part that they make up. -/
theorem Reads.lexemes_flatten {cs rest : List Char} {ls : List (List Char)} (h : Reads cs ls rest) :
    lexemes ls.flatten = (ls, []) := by
  have hcut := h.lexemes_eq
  rw [← h.flatten_append, ← List.nil_append rest] at hcut
  have hfront := lexemes_front hcut
  rwa [lexemes_nil, List.append_nil, List.append_nil] at hfront

/-! ## Trivia -/

/-- A lexeme is trivia if it is white space or begins like a comment. -/
theorem isTriviaChars_iff {l rest : List Char} (h : lexeme? (l ++ rest) = some (l, rest)) :
    Atom.isTriviaChars l = true ↔
      isSpaceRun l = true ∨ [';', ';'] <+: l ∨ ['(', ';'] <+: l := by
  unfold Atom.isTriviaChars
  split
  · rename_i cs
    have hline : ∀ c ∈ cs, c ≠ '\n' := by
      rcases lexeme?_closed h with ⟨hclosed, -⟩ | ⟨⟨quote, inside, hquote, heq⟩, -⟩
      · obtain ⟨inside, heq, hinside⟩ := hclosed.of_semicolon
        obtain rfl := (List.cons.inj heq).2
        exact hinside
      · obtain rfl := (List.cons.inj heq).1
        exact absurd hquote (by decide)
    refine iff_of_true ?_ (.inr (.inl (by simp)))
    simpa using hline
  · exact iff_of_true rfl (.inr (.inr (by simp)))
  · rename_i hsemi hparen
    have hne : l ≠ [] := (lexeme?_takesFront h).2
    have hline : ¬[';', ';'] <+: l := by
      rintro ⟨cs, rfl⟩
      exact hsemi cs rfl
    have hblock : ¬['(', ';'] <+: l := by
      rintro ⟨cs, rfl⟩
      exact hparen cs rfl
    rw [isSpaceRun, or_iff_left (not_or.mpr ⟨hline, hblock⟩)]
    simp [hne]

/-- What is taken up to the end of a comment ends with its first `;)`. -/
theorem throughCommentEnd?_eq_some {cs taken rest : List Char}
    (h : throughCommentEnd? cs = some (taken, rest)) :
    ∃ inside, taken = inside ++ [';', ')'] ∧ ¬[';', ')'] <:+: inside ++ [';'] := by
  fun_induction throughCommentEnd? cs generalizing taken with
  | case1 => cases h
  | case2 =>
    cases h
    exact ⟨[], rfl, by decide⟩
  | case3 c cs hopen ih =>
    obtain ⟨⟨more, rest'⟩, htail, heq⟩ := Option.map_eq_some_iff.mp h
    cases heq
    obtain ⟨inside, rfl, hinside⟩ := ih htail
    refine ⟨c :: inside, rfl, ?_⟩
    rw [← throughCommentEnd?_eq_none_iff] at hinside ⊢
    rw [List.cons_append, throughCommentEnd?_cons_eq_none_iff]
    refine ⟨?_, hinside⟩
    rintro ⟨rfl, hhead⟩
    -- the parenthesis would stand in the text as well, and end the comment here
    cases inside with
    | nil => cases hhead
    | cons d inside =>
      cases hhead
      exact hopen _ rfl (throughCommentEnd?_append htail).symm

/-- A lexeme that begins like a block comment is one: it ends with the first `;)` after its
opening. -/
theorem exists_comment {l rest : List Char} (h : lexeme? (l ++ rest) = some (l, rest))
    (hopening : ['(', ';'] <+: l) :
    ∃ inside, l = '(' :: ';' :: (inside ++ [';', ')']) ∧ ¬[';', ')'] <:+: inside ++ [';'] := by
  obtain ⟨tail, rfl⟩ := hopening
  rcases lexeme?_closed h with ⟨hclosed, -⟩ | ⟨⟨quote, inside, hquote, heq⟩, -⟩
  · have htaken : throughCommentEnd? tail = some (tail, []) := closed_comment_iff.mp hclosed
    obtain ⟨inside, rfl, hinside⟩ := throughCommentEnd?_eq_some htaken
    exact ⟨inside, rfl, hinside⟩
  · obtain rfl := (List.cons.inj heq).1
    exact absurd hquote (by decide)

end Lexeme

/-! ## Tokens of a source -/

/-- A token of a source is a lexeme that is read off what is left of the source there. -/
theorem lexeme?_of_mem_tokenize {source text : String} {texts : List String}
    (h : tokenize source = .ok texts) (hmem : text ∈ texts) :
    ∃ rest, lexeme? (text.toList ++ rest) = some (text.toList, rest) := by
  obtain ⟨front, back, rfl⟩ := List.append_of_mem hmem
  have hsplit : (front ++ text :: back).map String.toList =
      front.map String.toList ++ text.toList :: back.map String.toList := by simp
  obtain ⟨rest, hread, -⟩ := lexemes_split (tokenize_eq_ok_iff.mp h) hsplit
  exact ⟨rest, hread⟩

/-- A source is refused where its lexemes lead to a stretch of characters in which none begins. -/
theorem exists_reads_of_tokenize {source : String} {error : Error}
    (h : tokenize source = .error error) :
    ∃ ls stretch back, Reads source.toList ls (stretch ++ back) ∧ stretch ≠ [] ∧
      IsStretch stretch back ∧
      error = .stray (1 + newlines ls.flatten) (String.ofList stretch) := by
  obtain ⟨hreads, hnone⟩ := reads_lexemes source.toList
  cases hlexemes : lexemes source.toList with
  | mk found stuck =>
    rw [hlexemes] at hreads hnone
    have hstuck : stuck ≠ [] := by
      rintro rfl
      rw [tokenize, hlexemes] at h
      cases h
    have herror : error = .stray (1 + newlines found.flatten) (String.ofList (stray stuck)) := by
      unfold tokenize at h
      rw [hlexemes] at h
      split at h
      · cases h
      · rename_i heq
        cases heq
        exact (Except.error.inj h).symm
    obtain ⟨back, hback, hstretch⟩ := exists_isStretch stuck
    exact ⟨found, stray stuck, back, by rwa [hback],
      stray_ne_nil ((lexeme?_eq_none_iff.mp hnone).resolve_left hstuck), hstretch, herror⟩

/-- A source is refused for the first stretch of characters in which no lexeme begins. -/
theorem tokenize_eq_error {source : String} {error : Error} (h : tokenize source = .error error) :
    ∃ front stretch back texts, source = front ++ stretch ++ back ∧ tokenize front = .ok texts ∧
      stretch ≠ "" ∧ IsStretch stretch.toList back.toList ∧
      error = .stray (1 + newlines front.toList) stretch := by
  obtain ⟨ls, stretch, back, hreads, hne, hstretch, rfl⟩ := exists_reads_of_tokenize h
  refine ⟨String.ofList ls.flatten, String.ofList stretch, String.ofList back,
    ls.map String.ofList, ?_, ?_, ?_, ?_, ?_⟩
  · rw [← String.toList_inj, ← hreads.flatten_append]
    simp
  · rw [tokenize_eq_ok_iff, String.toList_ofList, hreads.lexemes_flatten]
    simp [Function.comp_def]
  · rwa [ne_eq, ← String.toList_inj, String.toList_ofList]
  · rwa [String.toList_ofList, String.toList_ofList]
  · rw [String.toList_ofList]

/-- A source is refused exactly if no lexeme begins at a place to which its lexemes lead. -/
theorem tokenize_fails_iff {source : String} : (∃ error, tokenize source = .error error) ↔
    ∃ ls rest, Reads source.toList ls rest ∧ isStray rest = true := by
  constructor
  · rintro ⟨error, h⟩
    obtain ⟨hreads, hnone⟩ := reads_lexemes source.toList
    refine ⟨_, _, hreads, (lexeme?_eq_none_iff.mp hnone).resolve_left fun hend => ?_⟩
    have hok : tokenize source = .ok ((lexemes source.toList).1.map String.ofList) := by
      rw [tokenize_eq_ok_iff]
      exact Prod.ext (by simp [Function.comp_def]) hend
    cases h.symm.trans hok
  · rintro ⟨ls, rest, hreads, hstray⟩
    cases h : tokenize source with
    | error error => exact ⟨error, rfl⟩
    | ok texts =>
      have hlexemes := hreads.lexemes_eq
      rw [tokenize_eq_ok_iff.mp h, lexemes_of_none (lexeme?_of_isStray hstray)] at hlexemes
      obtain rfl : rest = [] := (Prod.mk.inj hlexemes).2.symm
      cases hstray

/-- What the tokens of a source are, and when it has none. They are not empty and make up the
source; those that are trivia are the runs of white space, and what begins with `;;` or `(;`, of
which the latter ends with the first `;)` after its opening. Otherwise the source is refused at the
end of a front part that has tokens, for the longest stretch there in which no lexeme begins. That
is so exactly if the lexemes lead to a comma, or to a semicolon that no other follows: anything else
begins a lexeme wherever they lead. -/
theorem tokenize_tiles (source : String) :
    (∀ texts, tokenize source = .ok texts →
      (∀ text ∈ texts, text ≠ "") ∧ String.join texts = source ∧
      Reads source.toList (texts.map String.toList) [] ∧
      ∀ text ∈ texts,
        (Atom.isTrivia text = true ↔ isSpaceRun text.toList = true ∨
          [';', ';'] <+: text.toList ∨ ['(', ';'] <+: text.toList) ∧
        (['(', ';'] <+: text.toList → ∃ inside, text = "(;" ++ inside ++ ";)" ∧
          ¬[';', ')'] <:+: inside.toList ++ [';'])) ∧
    (∀ error, tokenize source = .error error →
      ∃ front stretch back texts, source = front ++ stretch ++ back ∧
        tokenize front = .ok texts ∧ stretch ≠ "" ∧ IsStretch stretch.toList back.toList ∧
        error = .stray (1 + newlines front.toList) stretch) ∧
    ((∃ error, tokenize source = .error error) ↔
      ∃ ls rest, Reads source.toList ls rest ∧ isStray rest = true) ∧
    ∀ ls rest, Reads source.toList ls rest → rest ≠ [] → isStray rest = false →
      ∃ l more, l ≠ [] ∧ rest = l ++ more ∧ Reads source.toList (ls ++ [l]) more := by
  refine ⟨fun texts h => ⟨fun text hmem => ne_empty_of_mem_tokenize h hmem, join_of_tokenize h,
    ?_, fun text hmem => ?_⟩, fun error h => tokenize_eq_error h, tokenize_fails_iff,
    fun ls rest hreads hne hstray => ?_⟩
  · have hreads := (reads_lexemes source.toList).1
    rwa [tokenize_eq_ok_iff.mp h] at hreads
  · obtain ⟨rest, hread⟩ := lexeme?_of_mem_tokenize h hmem
    refine ⟨isTriviaChars_iff hread, fun hopening => ?_⟩
    obtain ⟨inside, htext, hinside⟩ := exists_comment hread hopening
    refine ⟨String.ofList inside, ?_, by rwa [String.toList_ofList]⟩
    rw [← String.toList_inj, htext]
    simp
  · cases hread : lexeme? rest with
    | none =>
      rcases lexeme?_eq_none_iff.mp hread with rfl | hstray'
      · exact absurd rfl hne
      · rw [hstray] at hstray'
        cases hstray'
    | some found =>
      obtain ⟨happend, hnonempty⟩ := lexeme?_takesFront hread
      exact ⟨_, _, hnonempty, happend.symm, hreads.concat hread⟩

/-- A source with a block comment that ends with its second semicolon, and one that is refused on
its second line, for a stretch before two semicolons that begin a comment. -/
theorem tokenize_tiles_comment :
    (tokenize ";; a\n(; b;;)\"c;)" = .ok [";; a", "\n", "(; b;;)", "\"c;)"] ∧
      String.join [";; a", "\n", "(; b;;)", "\"c;)"] = ";; a\n(; b;;)\"c;)" ∧
      Atom.isTrivia "(; b;;)" = true ∧
      ∃ inside, "(; b;;)" = "(;" ++ inside ++ ";)" ∧ ¬[';', ')'] <:+: inside.toList ++ [';']) ∧
    (tokenize "(\n,;,;;;a" = .error (.stray 2 ",;,") ∧
      ∃ front stretch back texts, "(\n,;,;;;a" = front ++ stretch ++ back ∧
        tokenize front = .ok texts ∧ stretch ≠ "" ∧ IsStretch stretch.toList back.toList ∧
        Error.stray 2 ",;," = .stray (1 + newlines front.toList) stretch) := by
  constructor
  · have htexts : tokenize ";; a\n(; b;;)\"c;)" = .ok [";; a", "\n", "(; b;;)", "\"c;)"] := by
      decide +kernel
    obtain ⟨-, hjoin, -, htrivia⟩ := (tokenize_tiles _).1 _ htexts
    obtain ⟨hiff, hcomment⟩ := htrivia "(; b;;)" (by simp)
    have hopening : ['(', ';'] <+: "(; b;;)".toList := by decide +kernel
    exact ⟨htexts, hjoin, hiff.mpr (.inr (.inr hopening)), hcomment hopening⟩
  · have hstray : tokenize "(\n,;,;;;a" = .error (.stray 2 ",;,") := by decide +kernel
    exact ⟨hstray, (tokenize_tiles _).2.1 _ hstray⟩

end WatMacro
