import Mathlib.Data.List.Chain
import WatMacro.Token

/-!
# Where lexemes end

A closed lexeme ends where its own characters say so, whatever text it came from: all lexemes are
closed but a literal without a closing quote. What may follow a closed lexeme is decided by the next
character alone.

Results:

* `lexeme?_append`: a closed lexeme is read off the front of a text whose next character does not
  continue it.
* `lexeme?_closed`: a lexeme that is read is closed, or takes all that is left.
* `lexemes_flatten_of_row`: a row of closed lexemes, none of which the next one continues, falls
  back into the same lexemes.
* `lexemes_flatten_append`: if white space may meet white space, the other lexemes are the same, and
  so are those of the text after the row.
-/

namespace WatMacro.Lexeme

open Text

/-! ## Deciding about texts

What is said of the characters of a text is decided by looking at them, not by going through all
characters there are. -/

instance decidableForallFirst {p : Char → Prop} [DecidablePred p] (first : Option Char) :
    Decidable (∀ d ∈ first, p d) :=
  Option.decidableForallMem first

instance decidableForallChars {p : Char → Prop} [DecidablePred p] (cs : List Char) :
    Decidable (∀ c ∈ cs, p c) :=
  List.decidableBAll p cs

/-! ## Closed lexemes -/

/-- The inside of a literal up to and with its closing `quote`. -/
inductive Closes (quote : Char) : List Char → Prop
  | quote : Closes quote [quote]
  | escape {cs : List Char} (c : Char) : Closes quote cs → Closes quote ('\\' :: c :: cs)
  | char {c : Char} {cs : List Char} : c ≠ '\\' → c ≠ quote → Closes quote cs →
    Closes quote (c :: cs)

/-- A lexeme that shows its own end. -/
inductive Closed : List Char → Prop
  | space {cs : List Char} : cs ≠ [] → (∀ c ∈ cs, isSpace c = true) → Closed cs
  | blockComment {inside : List Char} : throughCommentEnd? inside = some (inside, []) →
    Closed ('(' :: ';' :: inside)
  | mark {c : Char} : isMark c = true → Closed [c]
  | literal {quote : Char} {inside : List Char} : isQuote quote = true → Closes quote inside →
    Closed (quote :: inside)
  | lineComment {cs : List Char} : (∀ c ∈ cs, c ≠ '\n') → Closed (';' :: ';' :: cs)
  | plain {c : Char} {cs : List Char} : isMark c = false →
    (∀ d ∈ c :: cs, isPlain d = true) → Closed (c :: cs)

/-- White space throughout. -/
def isSpaceRun (cs : List Char) : Bool :=
  cs.all isSpace

/-- Whether a character right after a closed lexeme would be read as a part of it, or would make
another lexeme of it. -/
def continues (lexeme : List Char) (next : Char) : Bool :=
  match lexeme with
  | [] => false
  | c :: cs =>
    if isSpace c then isSpace next
    else if c = '(' then cs.isEmpty && next == ';'
    else if c = ';' then next != '\n'
    else if isMark c || isQuote c then false
    else isPlain next

/-- A run of plain characters that is no mark. -/
def isPlainRun : List Char → Bool
  | [] => false
  | c :: cs => !isMark c && (c :: cs).all isPlain

theorem isPlainRun_append {run cs : List Char} (hrun : isPlainRun run = true)
    (hcs : ∀ d ∈ cs, isPlain d = true) : isPlainRun (run ++ cs) = true := by
  cases run with
  | nil => cases hrun
  | cons first run =>
    rw [isPlainRun, Bool.and_eq_true] at hrun
    rw [List.cons_append, isPlainRun, hrun.1, Bool.true_and, ← List.cons_append, List.all_append,
      hrun.2, List.all_eq_true.mpr hcs]
    rfl

theorem Closed.of_plainRun {cs : List Char} (h : isPlainRun cs = true) : Closed cs := by
  cases cs with
  | nil => cases h
  | cons c cs =>
    rw [isPlainRun, Bool.and_eq_true, Bool.not_eq_true'] at h
    exact .plain h.1 (List.all_eq_true.mp h.2)

theorem Closed.ne_nil {lexeme : List Char} (h : Closed lexeme) : lexeme ≠ [] := by
  cases h with
  | space hne _ => exact hne
  | _ => exact List.cons_ne_nil _ _

/-- A closed lexeme that begins with a semicolon is a line comment. -/
theorem Closed.of_semicolon {cs : List Char} (h : Closed (';' :: cs)) :
    ∃ inside, cs = ';' :: inside ∧ ∀ c ∈ inside, c ≠ '\n' := by
  cases h with
  | space _ hspace => exact absurd (hspace ';' List.mem_cons_self) (by decide)
  | mark hmark => exact absurd hmark (by decide)
  | literal hquote _ => exact absurd hquote (by decide)
  | lineComment hline => exact ⟨_, rfl, hline⟩
  | plain _ hplain => exact absurd (hplain ';' List.mem_cons_self) (by decide)

/-! ## Classes of characters -/

theorem isMark_iff {c : Char} : isMark c = true ↔
    c = '[' ∨ c = ']' ∨ c = '{' ∨ c = '}' ∨ c = '(' ∨ c = ')' ∨ c = '\x60' ∨ c = '~' ∨ c = '^' ∨
      c = '@' := by
  simp [isMark]

theorem isQuote_iff {c : Char} : isQuote c = true ↔ c = '\x22' ∨ c = '\x27' := by
  rw [isQuote, Bool.or_eq_true, decide_eq_true_eq, decide_eq_true_eq]
  rfl

theorem not_isSpace_of_isMark {c : Char} (h : isMark c = true) : isSpace c = false := by
  rcases isMark_iff.mp h with rfl | rfl | rfl | rfl | rfl | rfl | rfl | rfl | rfl | rfl <;> rfl

theorem not_isSpace_of_isQuote {c : Char} (h : isQuote c = true) : isSpace c = false := by
  rcases isQuote_iff.mp h with rfl | rfl <;> rfl

theorem not_isMark_of_isQuote {c : Char} (h : isQuote c = true) : isMark c = false := by
  rcases isQuote_iff.mp h with rfl | rfl <;> rfl

theorem isPlain_iff {c : Char} : isPlain c = true ↔
    isSpace c = false ∧ isQuote c = false ∧
      c ∉ ['[', ']', '{', '}', '(', ')', '\x60', '@', ',', ';'] := by
  simp only [isPlain, Bool.not_eq_true', Bool.or_eq_false_iff, decide_eq_false_iff_not, and_assoc]

/-! ## Reading a closed lexeme -/

theorem lexeme?_eq (cs : List Char) :
    lexeme? cs = ((((((run? isSpace cs).or (blockComment? cs)).or (mark? cs)).or
      (literal? cs)).or (lineComment? cs)).or (run? isPlain cs)) := by
  simp only [lexeme?, alternatives, List.findSome?_cons, List.findSome?_nil]
  cases run? isSpace cs <;> cases blockComment? cs <;> cases mark? cs <;> cases literal? cs <;>
    cases lineComment? cs <;> cases run? isPlain cs <;> rfl

theorem span_append {inClass : Char → Bool} {cs rest : List Char}
    (h : ∀ d ∈ cs, inClass d = true) (hrest : ∀ d ∈ rest.head?, inClass d = false) :
    (cs ++ rest).takeWhile inClass = cs ∧ (cs ++ rest).dropWhile inClass = rest := by
  rw [List.takeWhile_append_of_pos h, List.dropWhile_append_of_pos h]
  cases rest with
  | nil => simp
  | cons d rest => simp [hrest d rfl]

theorem run?_append {inClass : Char → Bool} {c : Char} {cs rest : List Char}
    (h : ∀ d ∈ c :: cs, inClass d = true) (hrest : ∀ d ∈ rest.head?, inClass d = false) :
    run? inClass (c :: cs ++ rest) = some (c :: cs, rest) := by
  obtain ⟨htake, hdrop⟩ := span_append (fun d hd => h d (List.mem_cons_of_mem c hd)) hrest
  rw [List.cons_append, run?, if_pos (h c List.mem_cons_self), htake, hdrop]

theorem run?_eq_none {inClass : Char → Bool} {c : Char} {cs : List Char}
    (h : inClass c = false) : run? inClass (c :: cs) = none := by
  rw [run?, h]
  rfl

theorem throughCommentEnd?_append_more {cs inside rest : List Char}
    (h : throughCommentEnd? cs = some (inside, rest)) (more : List Char) :
    throughCommentEnd? (cs ++ more) = some (inside, rest ++ more) := by
  fun_induction throughCommentEnd? cs generalizing inside with
  | case1 => cases h
  | case2 => cases h; rfl
  | case3 c cs hne ih =>
    obtain ⟨⟨inside', rest'⟩, htail, heq⟩ := Option.map_eq_some_iff.mp h
    cases heq
    have hlong : ∀ cs', c = ';' → cs ++ more = ')' :: cs' → False := by
      intro cs' hc happend
      cases cs with
      | nil => cases htail
      | cons d cs =>
        rw [List.cons_append] at happend
        exact hne cs hc (by rw [(List.cons.inj happend).1])
    rw [List.cons_append, throughCommentEnd?.eq_3 c (cs ++ more) hlong, ih htail]
    rfl

theorem throughQuote_of_closes {quote : Char} {inside : List Char} (h : Closes quote inside)
    (hquote : quote ≠ '\\') (rest : List Char) :
    throughQuote quote (inside ++ rest) = (inside, rest) := by
  induction h with
  | quote =>
    cases rest with
    | nil => simp [throughQuote, hquote]
    | cons d rest => simp [throughQuote, hquote]
  | escape c _ ih => simp [throughQuote, ih]
  | @char c cs hc hq hcs ih =>
    cases cs with
    | nil => cases hcs
    | cons d cs =>
      rw [List.cons_append] at ih
      simp [throughQuote, hc, hq, ih]

/-- A quote begins a literal, whether or not it has an end. -/
theorem lexeme?_quote {quote : Char} (h : isQuote quote = true) (cs : List Char) :
    lexeme? (quote :: cs) =
      some (quote :: (throughQuote quote cs).1, (throughQuote quote cs).2) := by
  have hblock : blockComment? (quote :: cs) = none := by
    rcases isQuote_iff.mp h with rfl | rfl <;> rfl
  rw [lexeme?_eq, run?_eq_none (not_isSpace_of_isQuote h), hblock, mark?,
    not_isMark_of_isQuote h, literal?, if_pos h]
  rfl

/-- A closed lexeme is read off the front of a text whose next character does not continue it. -/
theorem lexeme?_append {lexeme rest : List Char} (h : Closed lexeme)
    (hrest : ∀ d ∈ rest.head?, continues lexeme d = false) :
    lexeme? (lexeme ++ rest) = some (lexeme, rest) := by
  rw [lexeme?_eq]
  cases h with
  | space hne hspace =>
    obtain ⟨c, cs, rfl⟩ := List.exists_cons_of_ne_nil hne
    have hc := hspace c List.mem_cons_self
    rw [run?_append hspace fun d hd => by simpa [continues, hc] using hrest d hd]
    rfl
  | blockComment hinside =>
    rw [List.cons_append, List.cons_append, run?_eq_none rfl, blockComment?,
      throughCommentEnd?_append_more hinside]
    rfl
  | @mark c hmark =>
    have hblock : blockComment? (c :: rest) = none := by
      unfold blockComment?
      split
      · rename_i cs heq
        obtain ⟨rfl, rfl⟩ := List.cons.inj heq
        have := hrest ';' rfl
        simp [continues, show isSpace '(' = false from rfl] at this
      · rfl
    rw [List.singleton_append, run?_eq_none (not_isSpace_of_isMark hmark), hblock, mark?,
      if_pos hmark]
    rfl
  | @literal quote inside hquote hinside =>
    have hslash : quote ≠ '\\' := by
      rcases isQuote_iff.mp hquote with rfl | rfl <;> decide
    rw [← lexeme?_eq, List.cons_append, lexeme?_quote hquote, throughQuote_of_closes hinside hslash]
  | @lineComment cs hcs =>
    have hnext : ∀ d ∈ rest.head?, (d != '\n') = false := fun d hd => by
      simpa [continues, show isSpace ';' = false from rfl] using hrest d hd
    obtain ⟨htake, hdrop⟩ := span_append (fun d hd => by simpa using hcs d hd) hnext
    rw [List.cons_append, List.cons_append, run?_eq_none rfl, lineComment?, htake, hdrop]
    rfl
  | @plain c cs hmark hplain =>
    have hc := isPlain_iff.mp (hplain c List.mem_cons_self)
    have hparen : c ≠ '(' := by rintro rfl; exact absurd hmark (by decide)
    have hsemi : c ≠ ';' := by rintro rfl; exact hc.2.2 (by decide)
    have hblock : blockComment? (c :: (cs ++ rest)) = none := by
      unfold blockComment?
      split
      · rename_i heq
        exact absurd (List.cons.inj heq).1 hparen
      · rfl
    have hline : lineComment? (c :: (cs ++ rest)) = none := by
      unfold lineComment?
      split
      · rename_i heq
        exact absurd (List.cons.inj heq).1 hsemi
      · rfl
    have hstop : ∀ d ∈ rest.head?, isPlain d = false := fun d hd => by
      simpa [continues, hc.1, hc.2.1, hparen, hsemi, hmark] using hrest d hd
    have hrun := run?_append hplain hstop
    rw [List.cons_append] at hrun ⊢
    rw [run?_eq_none hc.1, hblock, mark?, hmark, literal?, hc.2.1, hline, hrun]
    rfl

/-! ## Lexemes that are read -/

theorem throughQuote_closes (quote : Char) (cs : List Char) :
    Closes quote (throughQuote quote cs).1 ∨
      (throughQuote quote cs).2 = [] ∨ (throughQuote quote cs).2 = ['\\'] := by
  fun_induction throughQuote quote cs with
  | case1 => exact .inr (.inl rfl)
  | case2 => exact .inr (.inr rfl)
  | case3 c hc => exact .inr (.inl rfl)
  | case4 d cs inside rest heq ih =>
    rw [heq] at ih
    exact ih.imp_left (.escape d)
  | case5 d cs hq => exact .inl .quote
  | case6 c d cs hc hq inside rest heq ih =>
    rw [heq] at ih
    exact ih.imp_left (.char hc hq)

theorem throughCommentEnd?_self {cs inside rest : List Char}
    (h : throughCommentEnd? cs = some (inside, rest)) :
    throughCommentEnd? inside = some (inside, []) := by
  fun_induction throughCommentEnd? cs generalizing inside with
  | case1 => cases h
  | case2 => cases h; rfl
  | case3 c cs hne ih =>
    obtain ⟨⟨inside', rest'⟩, htail, heq⟩ := Option.map_eq_some_iff.mp h
    cases heq
    have hshort : ∀ cs', c = ';' → inside' = ')' :: cs' → False := by
      rintro cs' rfl rfl
      exact hne (cs' ++ rest) rfl (throughCommentEnd?_append htail).symm
    rw [throughCommentEnd?.eq_3 c inside' hshort, ih htail]
    rfl

theorem head?_dropWhile {inClass : Char → Bool} (cs : List Char) :
    ∀ d ∈ (cs.dropWhile inClass).head?, inClass d = false := by
  intro d hd
  have hhead := List.head?_dropWhile_not inClass cs
  rwa [Option.mem_def.mp hd] at hhead

theorem run?_eq_some {inClass : Char → Bool} {cs front rest : List Char}
    (h : run? inClass cs = some (front, rest)) :
    ∃ c tail, front = c :: tail ∧ (∀ d ∈ front, inClass d = true) ∧
      ∀ d ∈ rest.head?, inClass d = false := by
  cases cs with
  | nil => cases h
  | cons c cs =>
    rw [run?] at h
    split at h
    · rename_i hc
      cases h
      refine ⟨c, _, rfl, fun d hd => ?_, head?_dropWhile cs⟩
      rcases List.mem_cons.mp hd with rfl | hd
      · exact hc
      · exact List.all_eq_true.mp List.all_takeWhile d hd
    · cases h

/-- A lexeme that is read is closed, and what follows continues it only if an opening parenthesis
stands before a semicolon; or it is a literal without a closing quote, which takes all that is left
but for a backslash at the very end. -/
theorem lexeme?_closed {cs lexeme rest : List Char} (h : lexeme? cs = some (lexeme, rest)) :
    (Closed lexeme ∧ ∀ d ∈ rest.head?, continues lexeme d = true → lexeme = ['(']) ∨
      ((∃ quote inside, isQuote quote = true ∧ lexeme = quote :: inside) ∧
        (rest = [] ∨ rest = ['\\'])) := by
  rw [lexeme?_eq] at h
  simp only [Option.or_eq_some_iff, Option.or_eq_none_iff] at h
  rcases h with ((((h | ⟨-, h⟩) | ⟨-, h⟩) | ⟨-, h⟩) | ⟨-, h⟩) | ⟨hbefore, h⟩
  · obtain ⟨c, tail, rfl, hall, hrest⟩ := run?_eq_some h
    refine .inl ⟨.space (List.cons_ne_nil _ _) hall, fun d hd hcont => ?_⟩
    simp [continues, hall c List.mem_cons_self, hrest d hd] at hcont
  · unfold blockComment? at h
    split at h
    · obtain ⟨⟨inside, _⟩, htail, heq⟩ := Option.map_eq_some_iff.mp h
      cases heq
      refine .inl ⟨.blockComment (throughCommentEnd?_self htail), fun d hd hcont => ?_⟩
      simp [continues, show isSpace '(' = false from rfl] at hcont
    · cases h
  · unfold mark? at h
    split at h
    · cases h
    · rename_i c cs
      split at h
      · rename_i hc
        cases h
        refine .inl ⟨.mark hc, fun d hd hcont => ?_⟩
        by_contra hparen
        have hparen' : c ≠ '(' := fun heq => hparen (by rw [heq])
        have hsemi : c ≠ ';' := by rintro rfl; exact absurd hc (by decide)
        simp [continues, not_isSpace_of_isMark hc, hparen', hsemi, hc] at hcont
      · cases h
  · unfold literal? at h
    split at h
    · cases h
    · rename_i c cs
      split at h
      · rename_i hc
        cases h
        rcases throughQuote_closes c cs with hcloses | hrest
        · refine .inl ⟨.literal hc hcloses, fun d hd hcont => ?_⟩
          have hparen : c ≠ '(' := by rintro rfl; exact absurd hc (by decide)
          have hsemi : c ≠ ';' := by rintro rfl; exact absurd hc (by decide)
          simp [continues, not_isSpace_of_isQuote hc, hparen, hsemi, hc] at hcont
        · exact .inr ⟨⟨c, _, hc, rfl⟩, hrest⟩
      · cases h
  · unfold lineComment? at h
    split at h
    · cases h
      refine .inl ⟨.lineComment fun d hd => ?_, fun d hd hcont => ?_⟩
      · simpa using List.all_eq_true.mp List.all_takeWhile d hd
      · have hnext := head?_dropWhile _ d hd
        simp_all [continues, show isSpace ';' = false from rfl]
    · cases h
  · obtain ⟨c, tail, rfl, hall, hrest⟩ := run?_eq_some h
    have hc := isPlain_iff.mp (hall c List.mem_cons_self)
    have hparen : c ≠ '(' := by rintro rfl; exact hc.2.2 (by decide)
    have hsemi : c ≠ ';' := by rintro rfl; exact hc.2.2 (by decide)
    have hmark : isMark c = false := by
      obtain ⟨⟨⟨⟨-, -⟩, hmark⟩, -⟩, -⟩ := hbefore
      cases cs with
      | nil => cases h
      | cons d cs =>
        rw [run?] at h
        split at h
        · cases h
          rw [mark?] at hmark
          simpa using hmark
        · cases h
    refine .inl ⟨.plain hmark hall, fun d hd hcont => ?_⟩
    simp [continues, hc.1, hc.2.1, hparen, hsemi, hmark, hrest d hd] at hcont

/-! ## Rows of lexemes -/

theorem lexemes_of_some {cs lexeme rest : List Char} (h : lexeme? cs = some (lexeme, rest)) :
    lexemes cs = (lexeme :: (lexemes rest).1, (lexemes rest).2) := by
  rw [lexemes.eq_def]
  split
  · rename_i hnone
    rw [h] at hnone
    cases hnone
  · rename_i lexeme' rest' hsome
    rw [h] at hsome
    cases hsome
    rfl

theorem lexemes_nil : lexemes [] = ([], []) := by
  rw [lexemes.eq_def]
  rfl

/-- A lexeme of a text is read off what is left of the text there. -/
theorem lexemes_split {cs stuck : List Char} {ls front back : List (List Char)} {l : List Char}
    (h : lexemes cs = (ls, stuck)) (hls : ls = front ++ l :: back) :
    ∃ rest, lexeme? (l ++ rest) = some (l, rest) ∧ lexemes rest = (back, stuck) := by
  fun_induction lexemes cs generalizing ls front with
  | case1 cs hnone =>
    cases h
    simp at hls
  | case2 cs lexeme rest hsome more stuck' heq ih =>
    cases h
    cases front with
    | nil =>
      obtain ⟨rfl, rfl⟩ := List.cons.inj hls
      obtain ⟨happend, -⟩ := lexeme?_takesFront hsome
      exact ⟨rest, by rwa [happend], heq⟩
    | cons first front => exact ih heq (List.cons.inj hls).2

theorem ne_nil_of_mem_lexemes {cs l : List Char} (h : l ∈ (lexemes cs).1) : l ≠ [] := by
  fun_induction lexemes cs with
  | case1 => cases h
  | case2 cs lexeme rest hsome more stuck heq ih =>
    rw [heq] at ih
    rcases List.mem_cons.mp h with rfl | h
    · exact (lexeme?_takesFront hsome).2
    · exact ih h

/-- The second lexeme does not continue the first one. -/
def Apart (l next : List Char) : Prop :=
  ∀ d ∈ next.head?, continues l d = false

/-- The second lexeme does not continue the first one, unless it is white space after white
space. -/
def LooselyApart (l next : List Char) : Prop :=
  ∀ d ∈ next.head?, continues l d = true → isSpaceRun l = true

theorem LooselyApart.of_space {l : List Char} (h : isSpaceRun l = true) (next : List Char) :
    LooselyApart l next :=
  fun _ _ _ => h

theorem Apart.loosely {l next : List Char} (h : Apart l next) : LooselyApart l next :=
  fun d hd hcont => absurd hcont (by simp [h d hd])

theorem Apart.of_plainRun {l next : List Char} (h : isPlainRun l = true)
    (hnext : ∀ d ∈ next.head?, isPlain d = false) : Apart l next := by
  cases l with
  | nil => cases h
  | cons c l =>
    rw [isPlainRun, Bool.and_eq_true, Bool.not_eq_true'] at h
    have hc := isPlain_iff.mp (List.all_eq_true.mp h.2 c List.mem_cons_self)
    have hparen : c ≠ '(' := by rintro rfl; exact hc.2.2 (by decide)
    have hsemi : c ≠ ';' := by rintro rfl; exact hc.2.2 (by decide)
    intro d hd
    simp [continues, hc.1, hc.2.1, hparen, hsemi, h.1, hnext d hd]

theorem Apart.of_literal {quote : Char} {inside : List Char} (h : isQuote quote = true)
    (next : List Char) : Apart (quote :: inside) next := by
  have hparen : quote ≠ '(' := by rintro rfl; exact absurd h (by decide)
  have hsemi : quote ≠ ';' := by rintro rfl; exact absurd h (by decide)
  intro d _
  simp [continues, not_isSpace_of_isQuote h, hparen, hsemi, h]

/-- What follows a lexeme that was read might have changed nothing but an opening parenthesis. -/
theorem eq_opening_of_continues {cs lexeme rest : List Char}
    (h : lexeme? cs = some (lexeme, rest)) :
    ∀ d ∈ rest.head?, continues lexeme d = true → lexeme = ['('] := by
  rcases lexeme?_closed h with ⟨-, hnext⟩ | ⟨⟨quote, inside, hquote, rfl⟩, -⟩
  · exact hnext
  · intro d hd hcontinues
    rw [Apart.of_literal hquote rest d hd] at hcontinues
    cases hcontinues

/-- Only a parenthesis that is read can be continued, by a semicolon. -/
theorem opening_semicolon_of_continues {lexeme rest : List Char} {d : Char}
    (h : lexeme? (lexeme ++ d :: rest) = some (lexeme, d :: rest))
    (hcontinues : continues lexeme d = true) : lexeme = ['('] ∧ d = ';' := by
  obtain rfl := eq_opening_of_continues h d rfl hcontinues
  exact ⟨rfl, by simpa [continues, show isSpace '(' = false from rfl] using hcontinues⟩

theorem Apart.closing (next : List Char) : Apart [')'] next :=
  fun _ _ => rfl

theorem Apart.opening {next : List Char} (h : next.head? ≠ some ';') : Apart ['('] next := by
  intro d hd
  have hne : d ≠ ';' := by rintro rfl; exact h hd
  simp [continues, show isSpace '(' = false from rfl, hne]

theorem Apart.lineComment {cs next : List Char} (h : ∀ d ∈ next.head?, d = '\n') :
    Apart (';' :: cs) next := by
  intro d hd
  simp [continues, show isSpace ';' = false from rfl, h d hd]

theorem head?_flatten_of_closed {p : List Char} {ps : List (List Char)}
    (h : Closed p) : (p :: ps).flatten.head? = p.head? := by
  obtain ⟨c, cs, rfl⟩ := List.exists_cons_of_ne_nil h.ne_nil
  rfl

/-- A relation between neighbours in a row of closed lexemes, as one between a lexeme and the text
after it. -/
theorem forall_head?_flatten {R : Char → Prop} {l : List Char} {S : List Char → List Char → Prop}
    (hS : ∀ next, S l next → ∀ d ∈ next.head?, R d) {ps : List (List Char)}
    (hclosed : ∀ p ∈ ps, Closed p) (hchain : (l :: ps).IsChain S) :
    ∀ d ∈ ps.flatten.head?, R d := by
  cases ps with
  | nil => simp
  | cons next ps =>
    rw [head?_flatten_of_closed (hclosed next List.mem_cons_self)]
    exact hS next (List.isChain_cons_cons.mp hchain).1

/-- A row of closed lexemes, none of which the next one continues, falls back into the same
lexemes. -/
theorem lexemes_flatten_of_row {ps : List (List Char)} (hclosed : ∀ p ∈ ps, Closed p)
    (hchain : ps.IsChain Apart) : lexemes ps.flatten = (ps, []) := by
  induction ps with
  | nil => exact lexemes_nil
  | cons p ps ih =>
    have hclosed' := fun q hq => hclosed q (List.mem_cons_of_mem p hq)
    have hnext := forall_head?_flatten (fun _ h => h) hclosed' hchain
    rw [List.flatten_cons,
      lexemes_of_some (lexeme?_append (hclosed p List.mem_cons_self) hnext),
      ih hclosed' hchain.tail]

/-- White space in front of a text joins the white space there, and leaves the other lexemes. -/
theorem lexemes_space_append {front : List Char} (rest : List Char)
    (hspace : ∀ c ∈ front, isSpace c = true) :
    (lexemes (front ++ rest)).2 = (lexemes rest).2 ∧
      (lexemes (front ++ rest)).1.filter (!isSpaceRun ·) =
        (lexemes rest).1.filter (!isSpaceRun ·) := by
  -- both texts are white space before the part of `rest` that begins with another character
  have hjoin : ∀ gap : List Char, (∀ c ∈ gap, isSpace c = true) →
      (lexemes (gap ++ rest.dropWhile isSpace)).2 = (lexemes (rest.dropWhile isSpace)).2 ∧
        (lexemes (gap ++ rest.dropWhile isSpace)).1.filter (!isSpaceRun ·) =
          (lexemes (rest.dropWhile isSpace)).1.filter (!isSpaceRun ·) := by
    intro gap hgap
    cases gap with
    | nil => exact ⟨rfl, rfl⟩
    | cons c gap =>
      have hstop : ∀ d ∈ (rest.dropWhile isSpace).head?, continues (c :: gap) d = false := by
        intro d hd
        simp [continues, hgap c List.mem_cons_self, head?_dropWhile rest d hd]
      have hread := lexeme?_append (.space (List.cons_ne_nil c gap) hgap) hstop
      rw [lexemes_of_some hread, List.filter_cons_of_neg]
      · exact ⟨rfl, rfl⟩
      · simpa [isSpaceRun] using hgap
  have hgap : ∀ c ∈ rest.takeWhile isSpace, isSpace c = true :=
    fun c hc => List.all_eq_true.mp List.all_takeWhile c hc
  have hlong := hjoin (front ++ rest.takeWhile isSpace) fun c hc =>
    (List.mem_append.mp hc).elim (hspace c) (hgap c)
  have hshort := hjoin (rest.takeWhile isSpace) hgap
  rw [List.append_assoc, List.takeWhile_append_dropWhile] at hlong
  rw [List.takeWhile_append_dropWhile] at hshort
  exact ⟨hlong.1.trans hshort.1.symm, hlong.2.trans hshort.2.symm⟩

/-- A row of closed lexemes, none of which the next one continues unless both are white space, falls
back into the same lexemes but for white space, and so does what follows it. -/
theorem lexemes_flatten_append {ps : List (List Char)} {rest : List Char}
    (hclosed : ∀ p ∈ ps, Closed p) (hchain : ps.IsChain LooselyApart)
    (hborder : ∀ last ∈ ps.getLast?, LooselyApart last rest) :
    (lexemes (ps.flatten ++ rest)).2 = (lexemes rest).2 ∧
      (lexemes (ps.flatten ++ rest)).1.filter (!isSpaceRun ·) =
        ps.filter (!isSpaceRun ·) ++ (lexemes rest).1.filter (!isSpaceRun ·) := by
  induction ps with
  | nil => exact ⟨rfl, rfl⟩
  | cons p ps ih =>
    have hclosed' := fun q hq => hclosed q (List.mem_cons_of_mem p hq)
    have hnext : LooselyApart p (ps.flatten ++ rest) := by
      cases ps with
      | nil => exact hborder p rfl
      | cons q ps =>
        obtain ⟨c, cs, rfl⟩ := List.exists_cons_of_ne_nil (hclosed' q List.mem_cons_self).ne_nil
        exact (List.isChain_cons_cons.mp hchain).1
    have hborder' : ∀ last ∈ ps.getLast?, LooselyApart last rest := by
      intro last hlast
      refine hborder last ?_
      rw [List.getLast?_cons, Option.mem_def.mp hlast]
      rfl
    obtain ⟨hstuck, hwords⟩ := ih hclosed' hchain.tail hborder'
    rw [List.flatten_cons, List.append_assoc]
    cases hspace : isSpaceRun p with
    | true =>
      obtain ⟨hstuck', hwords'⟩ :=
        lexemes_space_append (ps.flatten ++ rest) (List.all_eq_true.mp hspace)
      rw [hstuck', hwords', hstuck, hwords, List.filter_cons_of_neg (by simp [hspace])]
      exact ⟨rfl, rfl⟩
    | false =>
      have hstop : ∀ d ∈ (ps.flatten ++ rest).head?, continues p d = false := fun d hd => by
        simpa [hspace] using hnext d hd
      have hread := lexeme?_append (hclosed p List.mem_cons_self) hstop
      rw [lexemes_of_some hread, hstuck, List.filter_cons_of_pos (by simp [hspace]),
        List.filter_cons_of_pos (by simp [hspace]), hwords]
      exact ⟨rfl, rfl⟩

theorem lexemes_flatten_of_loose {ps : List (List Char)} (hclosed : ∀ p ∈ ps, Closed p)
    (hchain : ps.IsChain LooselyApart) :
    (lexemes ps.flatten).2 = [] ∧
      (lexemes ps.flatten).1.filter (!isSpaceRun ·) = ps.filter (!isSpaceRun ·) := by
  have hend : ∀ last ∈ ps.getLast?, LooselyApart last [] := fun _ _ _ hd => by simp at hd
  have h := lexemes_flatten_append hclosed hchain hend
  rwa [lexemes_nil, List.append_nil, List.filter_nil, List.append_nil] at h

end WatMacro.Lexeme

namespace WatMacro

/-- A source is split into tokens if its lexemes take all of it. -/
theorem tokenize_eq_ok_iff {source : String} {texts : List String} :
    tokenize source = .ok texts ↔ Lexeme.lexemes source.toList = (texts.map String.toList, []) := by
  unfold tokenize
  split
  · rename_i found hfound
    rw [hfound, Except.ok.injEq, Prod.mk.injEq, and_iff_left rfl]
    constructor
    · rintro rfl
      simp [Function.comp_def]
    · rintro rfl
      simp [Function.comp_def]
  · rename_i found stuck hstuck hfound
    rw [hfound]
    constructor
    · intro h
      cases h
    · intro h
      exact absurd (Prod.mk.inj h).2 hstuck

theorem ne_empty_of_mem_tokenize {source text : String} {texts : List String}
    (h : tokenize source = .ok texts) (hmem : text ∈ texts) : text ≠ "" := by
  rintro rfl
  have hlexeme : [] ∈ (Lexeme.lexemes source.toList).1 := by
    rw [tokenize_eq_ok_iff.mp h]
    exact List.mem_map.mpr ⟨"", hmem, rfl⟩
  exact Lexeme.ne_nil_of_mem_lexemes hlexeme rfl

/-- The tokens of a source make it up. -/
theorem join_of_tokenize {source : String} {texts : List String}
    (h : tokenize source = .ok texts) : String.join texts = source := by
  have hflatten := Lexeme.lexemes_flatten source.toList
  rw [tokenize_eq_ok_iff.mp h, List.append_nil, ← List.flatMap_def, ← String.toList_join]
    at hflatten
  exact String.toList_inj.mp hflatten

/-- A row of closed lexemes is split into the same tokens. -/
theorem tokenize_join_of_row {pieces : List String} (hclosed : ∀ p ∈ pieces, Lexeme.Closed p.toList)
    (hchain : (pieces.map String.toList).IsChain Lexeme.Apart) :
    tokenize (String.join pieces) = .ok pieces := by
  rw [tokenize_eq_ok_iff, String.toList_join, List.flatMap_def]
  exact Lexeme.lexemes_flatten_of_row (by simpa using hclosed) hchain

/-- A row of closed lexemes is split into the same tokens but for white space. -/
theorem tokenize_join_of_loose {pieces : List String}
    (hclosed : ∀ p ∈ pieces, Lexeme.Closed p.toList)
    (hchain : (pieces.map String.toList).IsChain Lexeme.LooselyApart) :
    ∃ texts, tokenize (String.join pieces) = .ok texts ∧
      texts.filter (fun text => !Lexeme.isSpaceRun text.toList) =
        pieces.filter fun text => !Lexeme.isSpaceRun text.toList := by
  obtain ⟨hstuck, hwords⟩ := Lexeme.lexemes_flatten_of_loose (by simpa using hclosed) hchain
  rw [← List.flatMap_def, ← String.toList_join] at hstuck hwords
  refine ⟨(Lexeme.lexemes (String.join pieces).toList).1.map String.ofList, ?_, ?_⟩
  · rw [tokenize_eq_ok_iff]
    exact Prod.ext (by simp [Function.comp_def]) hstuck
  · have htexts := congrArg (List.map String.ofList) hwords
    rw [List.filter_map, List.map_map] at htexts
    rw [List.filter_map]
    simpa [Function.comp_def] using htexts

end WatMacro
