import WatMacro.Text.Space
import WatMacro.Text.Quoted

/-!
# Lexemes

How a text falls into lexemes. The first alternative that fits at the front of the text is taken:

1. a run of white space, as long as possible;
2. a block comment, from `(;` to the first `;)` after it;
3. a bracket, a backtick, or one of `~ ^ @`, alone;
4. a literal between double quotes or apostrophes, where a backslash keeps the character after it
   inside; a literal without a closing quote takes all the rest, except a backslash at the very end;
5. a line comment, from `;;` to before the next newline;
6. a run, as long as possible, of characters other than white space, brackets, quotes, backticks
   and `@ , ;`.

So only a comma, or a semicolon that no other follows, begins no lexeme.

Results:

* `lexeme?_takesFront`: a lexeme is a front part of the text, and not an empty one.
* `lexemes_flatten`: all lexemes and the part that could not be read make up the text.
-/

namespace WatMacro.Lexeme

open Text

/-- The characters that are lexemes of their own. -/
def isMark (c : Char) : Bool :=
  c ∈ ['[', ']', '{', '}', '(', ')', '\x60', '~', '^', '@']

/-- A quote of either kind. -/
def isQuote (c : Char) : Bool :=
  c = Quoted.doubleQuote || c = Quoted.apostrophe

/-- The characters that a run of other characters may hold. -/
def isPlain (c : Char) : Bool :=
  !(isSpace c || isQuote c || c ∈ ['[', ']', '{', '}', '(', ')', '\x60', '@', ',', ';'])

/-- Splits after the first `;)`. -/
def throughCommentEnd? : List Char → Option (List Char × List Char)
  | [] => none
  | ';' :: ')' :: cs => some ([';', ')'], cs)
  | c :: cs => (throughCommentEnd? cs).map fun (inside, rest) => (c :: inside, rest)

/-- Splits the text after an opening `quote` where its literal ends. -/
def throughQuote (quote : Char) : List Char → List Char × List Char
  | [] => ([], [])
  | [c] => if c = '\\' then ([], [c]) else ([c], [])
  | c :: d :: cs =>
    if c = '\\' then
      let (inside, rest) := throughQuote quote cs
      (c :: d :: inside, rest)
    else if c = quote then ([c], d :: cs)
    else
      let (inside, rest) := throughQuote quote (d :: cs)
      (c :: inside, rest)

/-- A run, as long as possible, of characters in a class. -/
def run? (inClass : Char → Bool) : List Char → Option (List Char × List Char)
  | [] => none
  | c :: cs =>
    if inClass c then some (c :: cs.takeWhile inClass, cs.dropWhile inClass) else none

/-- A block comment. -/
def blockComment? : List Char → Option (List Char × List Char)
  | '(' :: ';' :: cs =>
    (throughCommentEnd? cs).map fun (inside, rest) => ('(' :: ';' :: inside, rest)
  | _ => none

/-- A character that stands alone. -/
def mark? : List Char → Option (List Char × List Char)
  | [] => none
  | c :: cs => if isMark c then some ([c], cs) else none

/-- A literal in quotes. -/
def literal? : List Char → Option (List Char × List Char)
  | [] => none
  | c :: cs =>
    if isQuote c then
      let (inside, rest) := throughQuote c cs
      some (c :: inside, rest)
    else none

/-- A line comment. -/
def lineComment? : List Char → Option (List Char × List Char)
  | ';' :: ';' :: cs =>
    some (';' :: ';' :: cs.takeWhile (· != '\n'), cs.dropWhile (· != '\n'))
  | _ => none

/-- The alternatives, in the order in which they are tried. -/
def alternatives : List (List Char → Option (List Char × List Char)) :=
  [run? isSpace, blockComment?, mark?, literal?, lineComment?, run? isPlain]

/-- The lexeme at the front of a text, and what follows it; `none` if none begins there. -/
def lexeme? (cs : List Char) : Option (List Char × List Char) :=
  alternatives.findSome? fun alternative => alternative cs

/-! ## Lexemes make up the text -/

/-- An alternative that takes a front part, and not an empty one. -/
def TakesFront (alternative : List Char → Option (List Char × List Char)) : Prop :=
  ∀ {cs lexeme rest}, alternative cs = some (lexeme, rest) → lexeme ++ rest = cs ∧ lexeme ≠ []

theorem throughCommentEnd?_append {cs inside rest : List Char}
    (h : throughCommentEnd? cs = some (inside, rest)) : inside ++ rest = cs := by
  fun_induction throughCommentEnd? cs generalizing inside with
  | case1 => cases h
  | case2 => cases h; rfl
  | case3 c cs _ ih =>
    obtain ⟨⟨inside', rest'⟩, htail, heq⟩ := Option.map_eq_some_iff.1 h
    cases heq
    rw [List.cons_append, ih htail]

theorem throughQuote_append (quote : Char) (cs : List Char) :
    (throughQuote quote cs).1 ++ (throughQuote quote cs).2 = cs := by
  fun_induction throughQuote quote cs <;> simp_all

theorem run?_takesFront (inClass : Char → Bool) : TakesFront (run? inClass) := by
  intro cs lexeme rest h
  unfold run? at h
  split at h
  · cases h
  · split at h
    · cases h; simp
    · cases h

theorem blockComment?_takesFront : TakesFront blockComment? := by
  intro cs lexeme rest h
  unfold blockComment? at h
  split at h
  · obtain ⟨⟨inside, _⟩, htail, heq⟩ := Option.map_eq_some_iff.1 h
    cases heq
    exact ⟨by simp [throughCommentEnd?_append htail], List.cons_ne_nil _ _⟩
  · cases h

theorem mark?_takesFront : TakesFront mark? := by
  intro cs lexeme rest h
  unfold mark? at h
  split at h
  · cases h
  · split at h
    · cases h; simp
    · cases h

theorem literal?_takesFront : TakesFront literal? := by
  intro cs lexeme rest h
  unfold literal? at h
  split at h
  · cases h
  · split at h
    · cases h; simp [throughQuote_append]
    · cases h

theorem lineComment?_takesFront : TakesFront lineComment? := by
  intro cs lexeme rest h
  unfold lineComment? at h
  split at h
  · cases h; simp
  · cases h

theorem lexeme?_takesFront : TakesFront lexeme? := by
  intro cs lexeme rest h
  obtain ⟨alternative, hmem, h⟩ := List.exists_of_findSome?_eq_some h
  simp only [alternatives, List.mem_cons, List.not_mem_nil, or_false] at hmem
  rcases hmem with rfl | rfl | rfl | rfl | rfl | rfl
  · exact run?_takesFront _ h
  · exact blockComment?_takesFront h
  · exact mark?_takesFront h
  · exact literal?_takesFront h
  · exact lineComment?_takesFront h
  · exact run?_takesFront _ h

theorem lexeme?_length {cs lexeme rest : List Char} (h : lexeme? cs = some (lexeme, rest)) :
    rest.length < cs.length := by
  obtain ⟨happend, hne⟩ := lexeme?_takesFront h
  rw [← happend, List.length_append]
  exact Nat.lt_add_of_pos_left (List.length_pos_iff.2 hne)

/-- Splits a text into lexemes up to the first place where none begins; the second part is what
stands from there on. -/
def lexemes (cs : List Char) : List (List Char) × List Char :=
  match _h : lexeme? cs with
  | none => ([], cs)
  | some (lexeme, rest) =>
    let (more, stuck) := lexemes rest
    (lexeme :: more, stuck)
termination_by cs.length
decreasing_by exact lexeme?_length ‹_›

theorem lexemes_flatten (cs : List Char) : (lexemes cs).1.flatten ++ (lexemes cs).2 = cs := by
  fun_induction lexemes cs with
  | case1 => rfl
  | case2 cs lexeme rest h more stuck heq ih =>
    rw [heq] at ih
    rw [List.flatten_cons, List.append_assoc, ih, (lexeme?_takesFront h).1]

/-- The longest stretch at the front of a text in which no lexeme begins. -/
def stray : List Char → List Char
  | ',' :: cs => ',' :: stray cs
  | ';' :: cs => if cs.head? = some ';' then [] else ';' :: stray cs
  | _ => []

end WatMacro.Lexeme
