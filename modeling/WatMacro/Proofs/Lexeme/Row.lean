import WatMacro.Proofs.Lexeme.Trivia

/-!
# Texts that stand for themselves

A text that falls into closed lexemes and ends neither with a line comment nor with an opening
parenthesis stands for itself: whatever is written after it, nothing of that is swallowed, and at
most the runs of plain characters on either side of the border become one.

Results:

* `SelfContained.append`: two such texts make up another one.
* `SelfContained.comment`: so do a line comment and such a text that begins with a newline.
* `SelfContained.parenthesized`: so does such a text between parentheses, if it begins with no
  semicolon.
-/

namespace WatMacro.Lexeme

/-! ## Rows -/

/-- Closed lexemes in a row, none of which the next one continues unless both are white space. -/
structure IsRow (row : List (List Char)) : Prop where
  closed : ∀ l ∈ row, Closed l
  apart : row.IsChain LooselyApart

theorem isRow_nil : IsRow [] :=
  ⟨fun _ h => absurd h List.not_mem_nil, .nil⟩

theorem IsRow.cons {l : List Char} {row : List (List Char)} (h : IsRow row) (hclosed : Closed l)
    (hapart : LooselyApart l row.flatten) : IsRow (l :: row) := by
  refine ⟨List.forall_mem_cons.mpr ⟨hclosed, h.closed⟩, ?_⟩
  cases row with
  | nil => exact .singleton l
  | cons next row =>
    refine List.isChain_cons_cons.mpr ⟨?_, h.apart⟩
    rwa [LooselyApart, head?_flatten_of_closed (h.closed next List.mem_cons_self)] at hapart

theorem IsRow.tail {l : List Char} {row : List (List Char)} (h : IsRow (l :: row)) : IsRow row :=
  ⟨fun other hother => h.closed other (List.mem_cons_of_mem l hother), h.apart.tail⟩

/-- Two rows with a border between them that keeps them apart. -/
theorem IsRow.append {front back : List (List Char)} (hfront : IsRow front) (hback : IsRow back)
    (hborder : ∀ last ∈ front.getLast?, LooselyApart last back.flatten) :
    IsRow (front ++ back) := by
  refine ⟨fun l hl => (List.mem_append.mp hl).elim (hfront.closed l) (hback.closed l), ?_⟩
  refine List.isChain_append.mpr ⟨hfront.apart, hback.apart, fun last hlast next hnext => ?_⟩
  have hapart := hborder last hlast
  cases back with
  | nil => cases hnext
  | cons other back =>
    cases hnext
    rwa [LooselyApart, head?_flatten_of_closed (hback.closed next List.mem_cons_self)] at hapart

theorem IsRow.left {front back : List (List Char)} (h : IsRow (front ++ back)) : IsRow front :=
  ⟨fun l hl => h.closed l (List.mem_append_left back hl), (List.isChain_append.mp h.apart).1⟩

/-! ## What may end a text -/

/-- Lexemes that can take in what is written after them, whatever it is: an opening parenthesis
becomes a block comment before a semicolon, and a line comment goes on up to the end of the line. -/
def isEager : List Char → Bool
  | ['('] => true
  | ';' :: ';' :: _ => true
  | _ => false

theorem isEager_of_isPlainRun {l : List Char} (h : isPlainRun l = true) : isEager l = false := by
  unfold isEager
  split
  · cases h
  · rw [isPlainRun, Bool.and_eq_true, List.all_cons, Bool.and_eq_true] at h
    exact absurd h.2.1 (by decide)
  · rfl

/-- A lexeme that is not eager is kept apart from any text, unless both of them are plain. -/
theorem looselyApart_of_not_isEager {l : List Char} (h : Closed l) (heager : isEager l = false)
    {next : List Char} (hplain : isPlainRun l = true → ∀ d ∈ next.head?, isPlain d = false) :
    LooselyApart l next := by
  refine looselyApart_of_closed h ?_ ?_ hplain
  · rintro cs rfl
    cases heager
  · rintro rfl
    cases heager

/-- A text that falls into closed lexemes, the last of which is not eager. -/
def SelfContained (cs : List Char) : Prop :=
  ∃ row, IsRow row ∧ row.flatten = cs ∧ ∀ last ∈ row.getLast?, isEager last = false

theorem selfContained_nil : SelfContained [] :=
  ⟨[], isRow_nil, rfl, fun _ h => by cases h⟩

theorem SelfContained.of_closed {l : List Char} (h : Closed l) (heager : isEager l = false) :
    SelfContained l := by
  have hrow : IsRow [l] := isRow_nil.cons h fun _ hd => by simp at hd
  refine ⟨[l], hrow, List.flatten_singleton, ?_⟩
  rintro _ ⟨⟩
  exact heager

/-! ## Joining texts -/

/-- A lexeme that begins with a plain character consists of plain characters. -/
theorem all_isPlain_of_closed {c : Char} {cs : List Char} (h : Closed (c :: cs))
    (hc : isPlain c = true) : ∀ d ∈ c :: cs, isPlain d = true := by
  have hplain := isPlain_iff.mp hc
  cases h with
  | space _ hspace =>
    have := hspace c List.mem_cons_self
    rw [hplain.1] at this
    cases this
  | blockComment _ => exact absurd hc (by decide)
  | mark _ =>
    rintro d hd
    rw [List.mem_singleton.mp hd]
    exact hc
  | literal hquote _ =>
    rw [hplain.2.1] at hquote
    cases hquote
  | lineComment _ => exact absurd hc (by decide)
  | plain _ hall => exact hall

/-- A run of plain characters before a text takes in the lexemes of plain characters that the text
begins with, and nothing else. -/
theorem SelfContained.absorb {run cs : List Char} (h : SelfContained cs)
    (hrun : isPlainRun run = true) : SelfContained (run ++ cs) := by
  obtain ⟨row, hrow, rfl, hlast⟩ := h
  induction row generalizing run with
  | nil =>
    rw [List.flatten_nil, List.append_nil]
    exact .of_closed (.of_plainRun hrun) (isEager_of_isPlainRun hrun)
  | cons l row ih =>
    obtain ⟨c, cs, rfl⟩ := List.exists_cons_of_ne_nil (hrow.closed l List.mem_cons_self).ne_nil
    cases hc : isPlain c with
    | true =>
      have hall := all_isPlain_of_closed (hrow.closed _ List.mem_cons_self) hc
      rw [List.flatten_cons, ← List.append_assoc]
      refine ih (isPlainRun_append hrun hall) hrow.tail fun last hmem => hlast last ?_
      rw [List.getLast?_cons, Option.mem_def.mp hmem]
      rfl
    | false =>
      refine ⟨run :: (c :: cs) :: row, hrow.cons (.of_plainRun hrun) ?_, rfl, ?_⟩
      · refine (Apart.of_plainRun hrun fun d hd => ?_).loosely
        cases hd
        exact hc
      · rwa [List.getLast?_cons_cons]

/-- A row in front of a text from which it is kept apart. -/
theorem SelfContained.after_row {row : List (List Char)} {cs : List Char} (h : SelfContained cs)
    (hne : cs ≠ []) (hrow : IsRow row) (hborder : ∀ last ∈ row.getLast?, LooselyApart last cs) :
    SelfContained (row.flatten ++ cs) := by
  obtain ⟨back, hback, rfl, hlast⟩ := h
  refine ⟨row ++ back, hrow.append hback hborder, List.flatten_append, ?_⟩
  have hback' : back ≠ [] := by
    rintro rfl
    exact hne rfl
  rwa [List.getLast?_append_of_ne_nil _ hback']

/-- A closed lexeme in front of a text. -/
theorem SelfContained.cons {l cs : List Char} (h : SelfContained cs) (hclosed : Closed l)
    (heager : isEager l = false) : SelfContained (l ++ cs) := by
  by_cases hplain : isPlainRun l = true
  · exact h.absorb hplain
  by_cases hne : cs = []
  · rw [hne, List.append_nil]
    exact .of_closed hclosed heager
  have hrow : IsRow [l] := isRow_nil.cons hclosed fun _ hd => by simp at hd
  rw [← List.flatten_singleton (l := l)]
  refine h.after_row hne hrow ?_
  rintro _ ⟨⟩
  exact looselyApart_of_not_isEager hclosed heager fun hyes => absurd hyes hplain

theorem SelfContained.append {front back : List Char} (hfront : SelfContained front)
    (hback : SelfContained back) : SelfContained (front ++ back) := by
  obtain ⟨row, hrow, rfl, hlast⟩ := hfront
  rcases List.eq_nil_or_concat row with rfl | ⟨init, last, rfl⟩
  · exact hback
  have hclosed : Closed last := hrow.closed last (by simp)
  have hend : SelfContained (last ++ back) := hback.cons hclosed (hlast last (by simp))
  rw [List.concat_eq_append, List.flatten_append, List.flatten_singleton, List.append_assoc]
  rw [List.concat_eq_append] at hrow
  refine hend.after_row (by simp [hclosed.ne_nil]) hrow.left fun other hother => ?_
  -- the lexeme before the last one sees the same character after it
  have hapart : LooselyApart other last :=
    (List.isChain_append.mp hrow.apart).2.2 other hother last rfl
  obtain ⟨c, cs, rfl⟩ := List.exists_cons_of_ne_nil hclosed.ne_nil
  exact hapart

/-- A line comment and the next line. -/
theorem SelfContained.comment {inside cs : List Char} (h : SelfContained cs)
    (hclosed : Closed (';' :: ';' :: inside)) (hhead : cs.head? = some '\n') :
    SelfContained (';' :: ';' :: inside ++ cs) := by
  have hrow : IsRow [';' :: ';' :: inside] := isRow_nil.cons hclosed fun _ hd => by simp at hd
  rw [← List.flatten_singleton (l := ';' :: ';' :: inside)]
  refine h.after_row (by rintro rfl; cases hhead) hrow ?_
  rintro _ ⟨⟩
  refine (Apart.lineComment fun d hd => ?_).loosely
  rw [hhead] at hd
  exact (Option.some.inj hd).symm

/-- A text between parentheses. -/
theorem SelfContained.parenthesized {cs : List Char} (h : SelfContained cs)
    (hhead : cs.head? ≠ some ';') : SelfContained ('(' :: (cs ++ [')'])) := by
  have hrow : IsRow [['(']] := isRow_nil.cons (.mark rfl) fun _ hd => by simp at hd
  have hclosing : SelfContained [')'] := .of_closed (.mark rfl) rfl
  refine (h.append hclosing).after_row (by simp) hrow ?_
  rintro _ ⟨⟩
  refine (Apart.opening ?_).loosely
  cases cs with
  | nil => decide
  | cons c cs => exact hhead

/-! ## Texts one after the other -/

/-- The lexemes of a text that can stand between others: it begins with no plain character, and does
not end with an opening parenthesis. -/
structure IsPassage (row : List (List Char)) : Prop extends IsRow row where
  nonempty : row ≠ []
  begins : ∀ c ∈ row.flatten.head?, isPlain c = false
  ends : ∀ last ∈ row.getLast?, last ≠ ['(']

/-- If the first text ends with a line comment, the second one begins with a newline. -/
def EndsLine (row next : List (List Char)) : Prop :=
  ∀ last ∈ row.getLast?, isEager last = true → next.flatten.head? = some '\n'

theorem IsPassage.looselyApart {row next : List (List Char)} (h : IsPassage row)
    (hnext : IsPassage next) (hline : EndsLine row next) :
    ∀ last ∈ row.getLast?, LooselyApart last next.flatten := by
  intro last hlast
  have hclosed : Closed last := h.closed last (List.mem_of_getLast? hlast)
  refine looselyApart_of_closed hclosed ?_ (fun hopening => ?_) fun _ => hnext.begins
  · rintro cs rfl
    exact hline _ hlast rfl
  · exact absurd hopening (h.ends last hlast)

theorem IsPassage.flatten_eq_cons {row : List (List Char)} (h : IsPassage row) :
    ∃ c cs, row.flatten = c :: cs := by
  obtain ⟨l, row, rfl⟩ := List.exists_cons_of_ne_nil h.nonempty
  obtain ⟨c, cs, rfl⟩ := List.exists_cons_of_ne_nil (h.closed l List.mem_cons_self).ne_nil
  exact ⟨c, cs ++ row.flatten, rfl⟩

theorem isEager_eq_true {l : List Char} (h : isEager l = true) (hopening : l ≠ ['(']) :
    ∃ inside, l = ';' :: ';' :: inside := by
  unfold isEager at h
  split at h
  · exact absurd rfl hopening
  · exact ⟨_, rfl⟩
  · cases h

/-- A line comment takes in what stands on the rest of its line. -/
theorem lexemes_lineComment {inside : List Char} (h : Closed (';' :: ';' :: inside))
    (rest : List Char) :
    ∃ more, (lexemes (';' :: ';' :: inside ++ rest)).1 =
      (';' :: ';' :: inside ++ rest.takeWhile (· != '\n')) :: more := by
  obtain ⟨_, ⟨⟩, hinside⟩ := h.of_semicolon
  have hclosed : Closed (';' :: ';' :: (inside ++ rest.takeWhile (· != '\n'))) := by
    refine .lineComment fun c hc => ?_
    rcases List.mem_append.mp hc with hc | hc
    · exact hinside c hc
    · simpa using List.all_eq_true.mp List.all_takeWhile c hc
  have hstop : ∀ d ∈ (rest.dropWhile (· != '\n')).head?,
      continues (';' :: ';' :: (inside ++ rest.takeWhile (· != '\n'))) d = false := by
    intro d hd
    have hnewline := head?_dropWhile rest d hd
    simp_all [continues, show Text.isSpace ';' = false from rfl]
  have hsplit : ';' :: ';' :: inside ++ rest =
      ';' :: ';' :: (inside ++ rest.takeWhile (· != '\n')) ++ rest.dropWhile (· != '\n') := by
    simp
  exact ⟨_, by rw [hsplit, lexemes_of_some (lexeme?_append hclosed hstop), List.cons_append,
    List.cons_append]⟩

/-- A line comment at the end of a row does not stay as it is before other characters of its
line. -/
theorem lexemes_swallowed {front : List (List Char)} {inside rest : List Char}
    (h : IsRow (front ++ [';' :: ';' :: inside])) (hne : rest ≠ [])
    (hhead : rest.head? ≠ some '\n') (more : List (List Char)) :
    (lexemes ((front ++ [';' :: ';' :: inside]).flatten ++ rest)).1.filter (!isSpaceRun ·) ≠
      (front ++ [';' :: ';' :: inside]).filter (!isSpaceRun ·) ++ more := by
  intro heq
  obtain ⟨c, rest, rfl⟩ := List.exists_cons_of_ne_nil hne
  have hc : (c != '\n') = true := bne_iff_ne.mpr fun hc => hhead (by rw [hc, List.head?_cons])
  have hborder : ∀ last ∈ front.getLast?, LooselyApart last (';' :: ';' :: inside ++ c :: rest) :=
    fun last hlast d hd => (List.isChain_append.mp h.apart).2.2 last hlast _ rfl d hd
  obtain ⟨-, hfilter⟩ := lexemes_flatten_append h.left.closed h.left.apart hborder
  obtain ⟨lexemes', hlexemes⟩ :=
    lexemes_lineComment (h.closed (';' :: ';' :: inside) (by simp)) (c :: rest)
  have htake : (c :: rest).takeWhile (· != '\n') = c :: rest.takeWhile (· != '\n') :=
    List.takeWhile_cons_of_pos hc
  have hcomment : ∀ tail, isSpaceRun (';' :: tail) = false := fun _ => rfl
  rw [List.flatten_append, List.flatten_singleton, List.append_assoc, hfilter, hlexemes,
    List.filter_append, List.append_assoc, List.append_cancel_left_eq, htake, List.cons_append,
    List.cons_append,
    List.filter_cons_of_pos (by simp [hcomment]), List.filter_cons_of_pos (by simp [hcomment])]
    at heq
  have hlength := congrArg List.length (List.cons.inj heq).1
  simp at hlength

/-- Texts that are put in a row keep their lexemes other than white space exactly if each that ends
with a line comment stands before one that begins with a newline. -/
theorem lexemes_flatten_iff {rows : List (List (List Char))} (h : ∀ row ∈ rows, IsPassage row) :
    (lexemes rows.flatten.flatten).2 = [] ∧
        (lexemes rows.flatten.flatten).1.filter (!isSpaceRun ·) =
          rows.flatten.filter (!isSpaceRun ·) ↔
      rows.IsChain EndsLine := by
  induction rows with
  | nil => simp [lexemes_nil]
  | cons row rows ih =>
    obtain ⟨hrow, hrows⟩ := List.forall_mem_cons.mp h
    have ih := ih hrows
    rw [List.flatten_cons, List.flatten_append, List.filter_append]
    -- what stands after the row
    cases rows with
    | nil =>
      have hborder : ∀ last ∈ row.getLast?, LooselyApart last [] := fun _ _ _ hd => by
        simp at hd
      obtain ⟨hstuck, hfilter⟩ := lexemes_flatten_append hrow.closed hrow.apart hborder
      rw [List.flatten_nil, List.flatten_nil, hstuck, hfilter, lexemes_nil]
      simp
    | cons next rows =>
      have hnext := hrows next List.mem_cons_self
      obtain ⟨c, cs, hfirst⟩ := hnext.flatten_eq_cons
      have hrest : (next :: rows).flatten.flatten = c :: (cs ++ rows.flatten.flatten) := by
        rw [List.flatten_cons, List.flatten_append, hfirst, List.cons_append]
      have hhead : (next :: rows).flatten.flatten.head? = next.flatten.head? := by
        rw [hrest, hfirst, List.head?_cons, List.head?_cons]
      rw [List.isChain_cons_cons, ← ih]
      by_cases hline : EndsLine row next
      · have hborder : ∀ last ∈ row.getLast?, LooselyApart last (next :: rows).flatten.flatten := by
          intro last hlast
          rw [LooselyApart, hhead]
          exact hrow.looselyApart hnext hline last hlast
        obtain ⟨hstuck, hfilter⟩ := lexemes_flatten_append hrow.closed hrow.apart hborder
        rw [hstuck, hfilter, List.append_cancel_left_eq]
        simp [hline]
      · refine iff_of_false (fun hall => ?_) fun hchain => hline hchain.1
        simp only [EndsLine, not_forall] at hline
        obtain ⟨last, hlast, heager, hnewline⟩ := hline
        obtain ⟨front, rfl⟩ := List.getLast?_eq_some_iff.mp hlast
        obtain ⟨inside, rfl⟩ := isEager_eq_true heager (hrow.ends last hlast)
        refine lexemes_swallowed hrow.toIsRow ?_ ?_ _ hall.2
        · rw [hrest]
          exact List.cons_ne_nil _ _
        · rwa [hhead]

end WatMacro.Lexeme
