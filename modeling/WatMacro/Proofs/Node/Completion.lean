import WatMacro.Proofs.Node.LineCut

/-!
# Completing a source

A source that ends inside of a form is no dead end: one more line completes it. The line closes the
literal at the end of the source, if that has no closing quote, and then every list that is open.

The line stands after a newline, where white space and such a literal go on and every other lexeme
has ended. It holds no semicolon, so it does not end a block comment, and an opening parenthesis
before two semicolons stays one.

Results:

* `lexemes_extend`: a further line leaves the lexemes before it, if no comment ends in it.
* `Verdict.ofWords_closers`: what a form that is open lacks.
* `Node.exists_completing_line`: the line that completes a source.
-/

namespace WatMacro

open Text Lexeme

namespace Lexeme

/-! ## Lexemes before a further line -/

variable {stuck more : List Char}

/-- A lexeme other than white space does not go on after a newline. An opening parenthesis before a
semicolon remains one if no comment ends after the newline. -/
theorem lexeme?_extend {lexeme rest : List Char} (hclosed : Closed lexeme)
    (hspace : isSpaceRun lexeme = false)
    (h : lexeme? (lexeme ++ rest) = some (lexeme, rest))
    (hmore : throughCommentEnd? ('\n' :: more) = none) :
    lexeme? (lexeme ++ (rest ++ '\n' :: more)) = some (lexeme, rest ++ '\n' :: more) := by
  by_cases hcontinues : ∃ d ∈ rest.head?, continues lexeme d = true
  · obtain ⟨d, hd, hcontinues⟩ := hcontinues
    obtain ⟨rest, rfl⟩ := List.head?_eq_some_iff.mp hd
    obtain ⟨rfl, rfl⟩ := opening_semicolon_of_continues h hcontinues
    rw [List.singleton_append, lexeme?_opening_iff, blockComment?_eq_none_iff] at h ⊢
    rintro inside hinside
    obtain rfl := (List.cons.inj hinside).2
    exact (throughCommentEnd?_append_eq_none_iff (by simp)).mpr ⟨h rest rfl, hmore⟩
  · refine lexeme?_append hclosed ?_
    cases rest with
    | nil =>
      have hloose : LooselyApart lexeme ('\n' :: more) := by
        refine looselyApart_of_closed hclosed (fun _ _ => rfl) (fun _ => by simp) fun _ d hd => ?_
        cases hd
        decide
      intro d hd
      simpa [hspace] using hloose d hd
    | cons c rest =>
      intro d hd
      simpa using fun hcontinue => hcontinues ⟨d, hd, hcontinue⟩

/-- A further line leaves the closed lexemes at the front of a text, apart from white space, if no
comment ends in the line. -/
theorem lexemes_extend {front back : List (List Char)} {tail : List Char}
    (hclosed : ∀ l ∈ front, Closed l)
    (h : lexemes (front.flatten ++ tail) = (front ++ back, stuck))
    (hmore : throughCommentEnd? ('\n' :: more) = none) :
    (lexemes (front.flatten ++ (tail ++ '\n' :: more))).2 =
        (lexemes (tail ++ '\n' :: more)).2 ∧
      (lexemes (front.flatten ++ (tail ++ '\n' :: more))).1.filter (!isSpaceRun ·) =
        front.filter (!isSpaceRun ·) ++
          (lexemes (tail ++ '\n' :: more)).1.filter (!isSpaceRun ·) := by
  induction front with
  | nil => exact ⟨rfl, rfl⟩
  | cons l front ih =>
    rw [List.flatten_cons, List.append_assoc] at h
    obtain ⟨hread, hrest⟩ := lexemes_cons h
    obtain ⟨hstuck, hwords⟩ := ih (fun l' hl' => hclosed l' (List.mem_cons_of_mem l hl')) hrest
    rw [List.flatten_cons, List.append_assoc]
    cases hspace : isSpaceRun l with
    | true =>
      obtain ⟨hstuck', hwords'⟩ := lexemes_space_append (front.flatten ++ (tail ++ '\n' :: more))
        (List.all_eq_true.mp hspace)
      rw [hstuck', hwords', hstuck, hwords, List.filter_cons_of_neg (by simp [hspace])]
      exact ⟨rfl, rfl⟩
    | false =>
      have hlong := lexeme?_extend (hclosed l List.mem_cons_self) hspace hread hmore
      rw [List.append_assoc] at hlong
      rw [lexemes_of_some hlong, hstuck, List.filter_cons_of_pos (by simp [hspace]),
        List.filter_cons_of_pos (by simp [hspace]), hwords]
      exact ⟨rfl, rfl⟩

/-! ## Literals without an end -/

/-- A literal ends in a text, or a quote on the next line ends it. -/
theorem throughQuote_completes {quote : Char} (hquote : isQuote quote = true) (cs : List Char) :
    Closes quote (throughQuote quote cs).1 ∨ Closes quote (cs ++ ['\n', quote]) := by
  have hnewline : '\n' ≠ quote := by
    rintro rfl
    exact absurd hquote (by decide)
  have hline : Closes quote ['\n', quote] := .char (by decide) hnewline .quote
  fun_induction throughQuote quote cs with
  | case1 => exact .inr hline
  | case2 => exact .inr (.escape '\n' .quote)
  | case3 c hc =>
    by_cases hq : c = quote
    · subst hq
      exact .inl .quote
    · exact .inr (.char hc hq hline)
  | case4 d cs inside rest heq ih =>
    rw [heq] at ih
    exact ih.imp (.escape d) (.escape d)
  | case5 => exact .inl .quote
  | case6 c d cs hc hq inside rest heq ih =>
    rw [heq] at ih
    exact ih.imp (.char hc hq) (.char hc hq)

/-- The lexemes of a text are closed, or end with a literal that a quote on the next line closes.
A backslash at the end of the text may be left after that literal. -/
theorem lexemes_unclosed {cs : List Char} {ls : List (List Char)} (h : lexemes cs = (ls, [])) :
    (∀ l ∈ ls, Closed l) ∨ ∃ front back quote inside, ls = front ++ back ∧
      (∀ l ∈ front, Closed l) ∧ cs = front.flatten ++ quote :: inside ∧ isQuote quote = true ∧
      Closes quote (inside ++ ['\n', quote]) ∧
      ∀ l ∈ back, l = ['\\'] ∨ ∃ part, l = quote :: part := by
  fun_induction lexemes cs generalizing ls with
  | case1 =>
    cases h
    exact .inl fun l hl => absurd hl List.not_mem_nil
  | case2 cs lexeme rest hsome more stuck heq ih =>
    cases h
    have happend := (lexeme?_takesFront hsome).1
    by_cases hclosed : Closed lexeme
    · rcases ih heq with hall | ⟨front, back, quote, inside, rfl, hfront, rfl, hrest⟩
      · exact .inl (List.forall_mem_cons.mpr ⟨hclosed, hall⟩)
      · refine .inr ⟨lexeme :: front, back, quote, inside, rfl,
          List.forall_mem_cons.mpr ⟨hclosed, hfront⟩, ?_, hrest⟩
        rw [← happend, List.flatten_cons, List.append_assoc]
    · rcases lexeme?_closed hsome with ⟨hclosed', -⟩ | ⟨⟨quote, inside, hquote, rfl⟩, hend⟩
      · exact absurd hclosed' hclosed
      · -- the literal takes all that is left, but for a backslash
        rw [← happend, List.cons_append, lexeme?_quote hquote] at hsome
        have hinside : (throughQuote quote (inside ++ rest)).1 = inside :=
          (List.cons.inj (Prod.mk.inj (Option.some.inj hsome)).1).2
        have hcloses := (throughQuote_completes hquote (inside ++ rest)).resolve_left fun hcloses =>
          hclosed (.literal hquote (hinside ▸ hcloses))
        refine .inr ⟨[], _, quote, inside ++ rest, rfl, fun l hl => absurd hl List.not_mem_nil,
          happend.symm, hquote, hcloses, List.forall_mem_cons.mpr ⟨.inr ⟨inside, rfl⟩, ?_⟩⟩
        rcases hend with rfl | rfl
        · rw [lexemes_nil] at heq
          cases heq
          exact fun l hl => absurd hl List.not_mem_nil
        · rw [lexemes_backslash] at heq
          cases heq
          exact fun l hl => .inl (List.mem_singleton.mp hl)

/-! ## The further line -/

theorem lexemes_closers (count : Nat) :
    lexemes (List.replicate count ')') = (List.replicate count [')'], []) := by
  induction count with
  | zero => exact lexemes_nil
  | succ count ih =>
    have hread : lexeme? ([')'] ++ List.replicate count ')') =
        some ([')'], List.replicate count ')') :=
      lexeme?_append (.mark rfl) fun d _ => rfl
    rw [List.replicate_succ, ← List.singleton_append, lexemes_of_some hread, ih]
    rfl

/-- Without a semicolon there is no end of a comment. -/
theorem throughCommentEnd?_of_not_mem {cs : List Char} (h : ';' ∉ cs) :
    throughCommentEnd? cs = none :=
  throughCommentEnd?_eq_none_iff.mpr fun hinside =>
    h (List.IsInfix.subset hinside List.mem_cons_self)

end Lexeme

/-! ## Words that are lacking -/

theorem StaysOpen.left {level : Int} {front back : List String}
    (h : StaysOpen level (front ++ back)) : StaysOpen level front :=
  fun part hpart hne => h part (hpart.trans (List.prefix_append front back)) hne

/-- Where the depth never comes back to zero, it stays above. -/
theorem StaysOpen.depth_pos {level : Int} {words : List String} (h : StaysOpen level words)
    (hlevel : 0 < level) : 0 < level + depth words := by
  induction words generalizing level with
  | nil => simpa using hlevel
  | cons text words ih =>
    obtain ⟨hnext, hrest⟩ := staysOpen_cons.mp h
    have hturn : -1 ≤ turn text := by
      unfold turn
      split
      · omega
      · split <;> omega
    have hdepth := ih hrest (by omega)
    rw [depth_cons]
    omega

theorem closesAt_closers (count : Nat) (h : count ≠ 0) :
    ClosesAt count (List.replicate count ")") := by
  induction count with
  | zero => exact absurd rfl h
  | succ count ih =>
    have hturn : turn ")" = -1 := rfl
    rw [List.replicate_succ, closesAt_cons, hturn]
    by_cases hzero : count = 0
    · subst hzero
      exact .inl ⟨rfl, rfl⟩
    · refine .inr ⟨by omega, ?_⟩
      have hlevel : ((count + 1 : Nat) : Int) + -1 = count := by omega
      rw [hlevel]
      exact ih hzero

/-- What stays open is closed by what closes the level that it ends at. -/
theorem StaysOpen.closesAt_append {level : Int} {words back : List String}
    (h : StaysOpen level words) (hback : ClosesAt (level + depth words) back) :
    ClosesAt level (words ++ back) := by
  induction words generalizing level with
  | nil => simpa using hback
  | cons text words ih =>
    obtain ⟨hnext, hrest⟩ := staysOpen_cons.mp h
    rw [depth_cons, ← Int.add_assoc] at hback
    exact closesAt_cons.mpr (.inr ⟨hnext, ih hrest hback⟩)

namespace Verdict

/-- The words of a source that ends inside of a form are those of a form once all open lists are
closed. Words that are no parentheses may be put in the place of others at the end. -/
theorem ofWords_closers {words back still : List String}
    (h : ofWords (words ++ back) = unexpectedEnd) (hback : ∀ text ∈ back, turn text = 0)
    (hstill : ∀ text ∈ still, turn text = 0) :
    0 < depth words ∧
      ofWords (words ++ still ++ List.replicate (depth words).toNat ")") = form := by
  obtain ⟨hhead, hopen⟩ := ofWords_eq_unexpectedEnd_iff.mp h
  cases words with
  | nil =>
    -- the form has begun before the words that are no parentheses
    obtain ⟨rest, rfl⟩ := List.head?_eq_some_iff.mp hhead
    exact absurd (hback "(" List.mem_cons_self) (by decide)
  | cons text words =>
    obtain rfl : text = "(" := Option.some.inj hhead
    have hfront : StaysOpen 0 ("(" :: words) := hopen.left
    have hdepth : depth ("(" :: words) = 1 + depth words := rfl
    have hpos := (staysOpen_cons.mp hfront).2.depth_pos (by decide)
    have hlevel : 0 + turn "(" = 1 := rfl
    rw [hlevel] at hpos
    refine ⟨by omega, ofWords_eq_form_iff.mpr ⟨rfl, ?_⟩⟩
    refine (hfront.append (by omega) hstill).closesAt_append ?_
    rw [depth_append, depth_eq_zero hstill, Int.add_zero, Int.zero_add]
    have hcount : (((depth ("(" :: words)).toNat : Nat) : Int) = depth ("(" :: words) :=
      Int.toNat_of_nonneg (by omega)
    have hcloses := closesAt_closers (depth ("(" :: words)).toNat (by omega)
    rwa [hcount] at hcloses

end Verdict

namespace Node

open Reading

/-! ## The line that completes a source -/

/-- A source that is refused as incomplete falls into tokens. -/
theorem tokenize_of_isIncomplete {source : String} {error : Error}
    (h : Node.read source = .error error) (hmore : error.isIncomplete = true) :
    ∃ texts, tokenize source = .ok texts := by
  cases htexts : tokenize source with
  | ok texts => exact ⟨texts, rfl⟩
  | error cause =>
    have hread : Node.read source = .error cause := by
      rw [Node.read, tokens, htexts]
      rfl
    cases hread.symm.trans h
    unfold tokenize at htexts
    split at htexts
    · cases htexts
    · cases htexts
      cases hmore

/-- Lexemes that are the same but for white space have the same words. -/
theorem wordsOf_congr {ls ls' : List (List Char)} (hne : ∀ l ∈ ls, l ≠ [])
    (hne' : ∀ l ∈ ls', l ≠ []) (h : ls.filter (!isSpaceRun ·) = ls'.filter (!isSpaceRun ·)) :
    wordsOf (ls.map String.ofList) = wordsOf (ls'.map String.ofList) := by
  have hwords : ∀ {ls : List (List Char)}, (∀ l ∈ ls, l ≠ []) → wordsOf (ls.map String.ofList) =
      wordsOf ((ls.filter (!isSpaceRun ·)).map String.ofList) := by
    intro ls hne
    have hnonempty : ∀ text ∈ ls.map String.ofList, text ≠ "" := by
      intro text htext hempty
      obtain ⟨l, hl, rfl⟩ := List.mem_map.mp htext
      exact hne l hl (by simpa using congrArg String.toList hempty)
    rw [wordsOf, ← filter_isSpaceRun_filter_isTrivia hnonempty, List.filter_map]
    simp [Function.comp_def]
  rw [hwords hne, hwords hne', h]

/-- A further line completes a source if the words before it and those of the line, from the lexeme
on that goes on in the line, are the words of a form. -/
theorem read_further_line {source line : String} {front back : List (List Char)}
    (last : List (List Char)) {tail : List Char} (hsource : source.toList = front.flatten ++ tail)
    (hlexemes : lexemes source.toList = (front ++ back, [])) (hclosed : ∀ l ∈ front, Closed l)
    (hline : ';' ∉ line.toList) (hlast : lexemes (tail ++ '\n' :: line.toList) = (last, []))
    (hform : Verdict.ofWords (wordsOf ((front ++ last).map String.ofList)) = .form) :
    ∃ form, Node.read (source ++ "\n" ++ line) = .ok form := by
  have hmore : throughCommentEnd? ('\n' :: line.toList) = none :=
    throughCommentEnd?_of_not_mem (by simpa using hline)
  have hchars : (source ++ "\n" ++ line).toList =
      front.flatten ++ (tail ++ '\n' :: line.toList) := by
    simp [hsource]
  rw [hsource] at hlexemes
  obtain ⟨hstuck, hsame⟩ := lexemes_extend hclosed hlexemes hmore
  rw [← hchars, hlast] at hstuck hsame
  rw [← List.filter_append] at hsame
  have htexts : tokenize (source ++ "\n" ++ line) =
      .ok ((lexemes (source ++ "\n" ++ line).toList).1.map String.ofList) := by
    rw [tokenize_eq_ok_iff]
    exact Prod.ext (by simp [Function.comp_def]) hstuck
  have hnonempty : ∀ l ∈ front ++ last, l ≠ [] := by
    intro l hl
    rcases List.mem_append.mp hl with hl | hl
    · exact (hclosed l hl).ne_nil
    · have hmem : l ∈ (lexemes (tail ++ '\n' :: line.toList)).1 := by rwa [hlast]
      exact ne_nil_of_mem_lexemes hmem
  have htells := tells_read htexts
  rw [wordsOf_congr (fun l hl => ne_nil_of_mem_lexemes hl) hnonempty hsame, hform] at htells
  exact htells

theorem wordsOf_closers (count : Nat) :
    wordsOf ((List.replicate count [')']).map String.ofList) = List.replicate count ")" := by
  rw [List.map_replicate, wordsOf, List.filter_replicate]
  rfl

/-- Words among lexemes that are no parentheses. -/
theorem turn_wordsOf {ls : List (List Char)} (h : ∀ l ∈ ls, turn (String.ofList l) = 0) :
    ∀ text ∈ wordsOf (ls.map String.ofList), turn text = 0 := by
  intro text htext
  obtain ⟨l, hl, rfl⟩ := List.mem_map.mp (List.mem_of_mem_filter htext)
  exact h l hl

/-- A source is completed by a line of parentheses after what ends its last literal, if it lacks an
end: `tail` is that literal and `still` what becomes of it. -/
theorem exists_closing_line {source : String} (front back still : List (List Char))
    (tail quote : List Char) (hsource : source.toList = front.flatten ++ tail)
    (hlexemes : lexemes source.toList = (front ++ back, [])) (hclosed : ∀ l ∈ front, Closed l)
    (hverdict : Verdict.ofWords (wordsOf ((front ++ back).map String.ofList)) = .unexpectedEnd)
    (hback : ∀ l ∈ back, turn (String.ofList l) = 0)
    (hquote : ∀ c ∈ quote, isQuote c = true)
    (htail : ∀ count, lexemes (tail ++ '\n' :: (quote ++ List.replicate count ')')) =
      (still ++ List.replicate count [')'], []))
    (hstill : ∀ l ∈ still, turn (String.ofList l) = 0) :
    ∃ line, '\n' ∉ line.toList ∧ Text.trimEnd line = line ∧
      ∃ form, Node.read (source ++ "\n" ++ line) = .ok form := by
  rw [List.map_append, wordsOf_append] at hverdict
  obtain ⟨hpos, hform⟩ :=
    Verdict.ofWords_closers hverdict (turn_wordsOf hback) (turn_wordsOf hstill)
  obtain ⟨count, hcount⟩ : ∃ count, (depth (wordsOf (front.map String.ofList))).toNat = count + 1 :=
    ⟨_, (Nat.succ_pred_eq_of_pos (by omega)).symm⟩
  rw [hcount] at hform
  have hchars : ∀ c, isQuote c = false → c ≠ ')' →
      c ∉ quote ++ List.replicate (count + 1) ')' := by
    intro c hc hne hmem
    rcases List.mem_append.mp hmem with hmem | hmem
    · rw [hquote c hmem] at hc
      cases hc
    · exact hne (List.eq_of_mem_replicate hmem)
  refine ⟨String.ofList (quote ++ List.replicate (count + 1) ')'), ?_, ?_, ?_⟩
  · rw [String.toList_ofList]
    exact hchars '\n' (by decide) (by decide)
  · refine Text.trimEnd_eq_self ?_
    rw [String.toList_ofList, List.replicate_succ', ← List.append_assoc, List.getLast?_concat]
    decide
  · refine read_further_line (still ++ List.replicate (count + 1) [')']) hsource hlexemes hclosed
      ?_ ?_ ?_
    · rw [String.toList_ofList]
      exact hchars ';' (by decide) (by decide)
    · rw [String.toList_ofList, htail]
    · rw [List.map_append, List.map_append, wordsOf_append, wordsOf_append, wordsOf_closers,
        ← List.append_assoc]
      exact hform

/-- A source that is refused as incomplete is completed by one more line. -/
theorem exists_completing_line {source : String} {error : Error}
    (h : Node.read source = .error error) (hmore : error.isIncomplete = true) :
    ∃ line, '\n' ∉ line.toList ∧ Text.trimEnd line = line ∧
      ∃ form, Node.read (source ++ "\n" ++ line) = .ok form := by
  obtain ⟨texts, htexts⟩ := tokenize_of_isIncomplete h hmore
  have hlexemes := tokenize_eq_ok_iff.mp htexts
  have hverdict : Verdict.ofWords (wordsOf texts) = .unexpectedEnd := by
    cases error with
    | unexpectedEnd line => exact (tells_read htexts).unique ⟨line, h⟩
    | _ => cases hmore
  have hofList : (texts.map String.toList).map String.ofList = texts := by simp [Function.comp_def]
  rcases lexemes_unclosed hlexemes with
    hclosed | ⟨front, back, quote, inside, hsplit, hclosed, hsource, hquote, hcloses, hback⟩
  · -- every lexeme has ended: the newline is white space
    have hsource := lexemes_flatten source.toList
    rw [hlexemes, List.append_nil] at hsource
    refine exists_closing_line _ [] [['\n']] [] [] (by rw [hsource, List.append_nil])
      (by rw [hlexemes, List.append_nil]) hclosed (by rwa [List.append_nil, hofList]) (by simp)
      (by simp) (fun count => ?_) (by decide)
    have hread : lexeme? (['\n'] ++ List.replicate count ')') =
        some (['\n'], List.replicate count ')') := by
      refine lexeme?_append (.space (by simp) (by decide)) fun d hd => ?_
      obtain rfl := List.eq_of_mem_replicate (List.mem_of_head? hd)
      rfl
    rw [List.nil_append, List.nil_append, ← List.singleton_append, lexemes_of_some hread,
      lexemes_closers]
    rfl
  · -- the newline goes into the literal, which the quote ends
    refine exists_closing_line front back [quote :: (inside ++ ['\n', quote])] (quote :: inside)
      [quote] hsource (by rw [hlexemes, hsplit]) hclosed (by rwa [← hsplit, hofList])
      (fun l hl => ?_) (by simpa using hquote) (fun count => ?_) ?_
    · rcases hback l hl with rfl | ⟨part, rfl⟩
      · decide
      · exact (turn_of_isQuote hquote String.toList_ofList).2
    · have hread : lexeme? (quote :: (inside ++ ['\n', quote]) ++ List.replicate count ')') =
          some (quote :: (inside ++ ['\n', quote]), List.replicate count ')') :=
        lexeme?_append (.literal hquote hcloses) (Apart.of_literal hquote _)
      have hchars : quote :: inside ++ '\n' :: ([quote] ++ List.replicate count ')') =
          quote :: (inside ++ ['\n', quote]) ++ List.replicate count ')' := by simp
      rw [hchars, lexemes_of_some hread, lexemes_closers]
      rfl
    · intro l hl
      obtain rfl := List.mem_singleton.mp hl
      exact (turn_of_isQuote hquote String.toList_ofList).2

end Node

end WatMacro
