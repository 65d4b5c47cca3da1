import WatMacro.Proofs.Lexeme.Trivia

/-!
# Block comments

A block comment ends with the first `;)` after its opening, so a text that is put into a comment
stays inside exactly if it holds no `;)`. An opening parenthesis before a semicolon begins a block
comment exactly if there is an end for it.

Results:

* `throughCommentEnd?_eq_none_iff`: where there is no end of a comment.
* `lexeme?_opening_iff`: when an opening parenthesis is a lexeme of its own.
* `tokenize_comment_iff`: when a text in a comment is one token.
-/

namespace WatMacro

open Text Lexeme

namespace Lexeme

/-! ## Ends of comments -/

theorem throughCommentEnd?_eq_none_of_append {cs more : List Char}
    (h : throughCommentEnd? (cs ++ more) = none) : throughCommentEnd? cs = none := by
  rw [Option.eq_none_iff_forall_ne_some]
  rintro ⟨inside, rest⟩ hsome
  rw [throughCommentEnd?_append_more hsome] at h
  cases h

theorem throughCommentEnd?_cons_eq_none_iff {c : Char} {cs : List Char} :
    throughCommentEnd? (c :: cs) = none ↔
      ¬(c = ';' ∧ cs.head? = some ')') ∧ throughCommentEnd? cs = none := by
  by_cases hend : c = ';' ∧ cs.head? = some ')'
  · obtain ⟨rfl, hhead⟩ := hend
    obtain ⟨rest, rfl⟩ := List.head?_eq_some_iff.mp hhead
    simp [throughCommentEnd?]
  · have hopen : ∀ rest, c = ';' → cs = ')' :: rest → False := by
      rintro rest rfl rfl
      exact hend ⟨rfl, rfl⟩
    rw [throughCommentEnd?.eq_3 c cs hopen, Option.map_eq_none_iff]
    exact (and_iff_right hend).symm

/-- There is no end of a comment where no semicolon stands before a closing parenthesis. -/
theorem throughCommentEnd?_eq_none_iff {cs : List Char} :
    throughCommentEnd? cs = none ↔ ¬[';', ')'] <:+: cs := by
  induction cs with
  | nil => simp [throughCommentEnd?]
  | cons c cs ih =>
    have hprefix : [';', ')'] <+: c :: cs ↔ c = ';' ∧ cs.head? = some ')' := by
      cases cs <;> simp [List.cons_prefix_cons, eq_comm]
    rw [throughCommentEnd?_cons_eq_none_iff, ih, List.infix_cons_iff, hprefix, not_or]

/-- No comment ends in a front part: the end in the rest is the first one, if the two parts do not
make one up between them. -/
theorem throughCommentEnd?_append_of_none {cs ds : List Char} (h : throughCommentEnd? cs = none)
    (hborder : cs.getLast? = some ';' → ds.head? ≠ some ')') :
    throughCommentEnd? (cs ++ ds) =
      (throughCommentEnd? ds).map fun (inside, rest) => (cs ++ inside, rest) := by
  induction cs with
  | nil =>
    rw [List.nil_append]
    cases throughCommentEnd? ds <;> rfl
  | cons c cs ih =>
    obtain ⟨hfirst, hrest⟩ := throughCommentEnd?_cons_eq_none_iff.mp h
    have hopen : ∀ tail, c = ';' → cs ++ ds = ')' :: tail → False := by
      rintro tail rfl htail
      cases cs with
      | nil =>
        rw [List.nil_append] at htail
        exact hborder rfl (by rw [htail]; rfl)
      | cons d cs => exact hfirst ⟨rfl, by rw [(List.cons.inj htail).1]; rfl⟩
    have hborder' : cs.getLast? = some ';' → ds.head? ≠ some ')' := by
      intro hlast
      apply hborder
      rw [List.getLast?_cons, hlast]
      rfl
    rw [List.cons_append, throughCommentEnd?.eq_3 c (cs ++ ds) hopen, ih hrest hborder']
    cases throughCommentEnd? ds <;> rfl

theorem throughCommentEnd?_append_eq_none_iff {cs ds : List Char}
    (hborder : cs.getLast? = some ';' → ds.head? ≠ some ')') :
    throughCommentEnd? (cs ++ ds) = none ↔
      throughCommentEnd? cs = none ∧ throughCommentEnd? ds = none := by
  constructor
  · intro h
    have hcs := throughCommentEnd?_eq_none_of_append h
    rw [throughCommentEnd?_append_of_none hcs hborder, Option.map_eq_none_iff] at h
    exact ⟨hcs, h⟩
  · rintro ⟨hcs, hds⟩
    rw [throughCommentEnd?_append_of_none hcs hborder, hds]
    rfl

/-! ## Openings of comments -/

theorem blockComment?_eq_none_iff {cs : List Char} : blockComment? ('(' :: cs) = none ↔
    ∀ rest, cs = ';' :: rest → throughCommentEnd? rest = none := by
  constructor
  · rintro h rest rfl
    rwa [blockComment?, Option.map_eq_none_iff] at h
  · intro h
    unfold blockComment?
    split
    · rename_i rest heq
      rw [Option.map_eq_none_iff]
      exact h rest (List.cons.inj heq).2
    · rfl

/-- An opening parenthesis is a lexeme unless it begins a block comment. -/
theorem lexeme?_opening_iff {cs : List Char} :
    lexeme? ('(' :: cs) = some (['('], cs) ↔ blockComment? ('(' :: cs) = none := by
  rw [lexeme?_eq, run?_eq_none rfl, Option.none_or]
  cases hcomment : blockComment? ('(' :: cs) with
  | none => exact iff_of_true rfl rfl
  | some comment =>
    refine iff_of_false (fun h => ?_) (Option.some_ne_none comment)
    obtain rfl : comment = (['('], cs) := Option.some.inj h
    unfold blockComment? at hcomment
    split at hcomment
    · obtain ⟨inside, -, hinside⟩ := Option.map_eq_some_iff.mp hcomment
      cases hinside
    · cases hcomment

/-! ## Texts in comments -/

/-- A comment ends with its last characters exactly if no comment ends in what it is about. -/
theorem throughCommentEnd?_close_iff {cs : List Char} :
    throughCommentEnd? (cs ++ [' ', ';', ')']) = some (cs ++ [' ', ';', ')'], []) ↔
      ¬[';', ')'] <:+: cs := by
  rw [← throughCommentEnd?_eq_none_iff]
  constructor
  · intro h
    rw [Option.eq_none_iff_forall_ne_some]
    rintro ⟨inside, rest⟩ hsome
    rw [throughCommentEnd?_append_more hsome] at h
    simp at h
  · intro h
    rw [throughCommentEnd?_append_of_none h (by simp)]
    rfl

theorem closed_comment_iff {inside : List Char} :
    Closed ('(' :: ';' :: inside) ↔ throughCommentEnd? inside = some (inside, []) := by
  constructor
  · intro h
    cases h with
    | space _ hspace => exact absurd (hspace '(' List.mem_cons_self) (by decide)
    | blockComment hinside => exact hinside
    | literal hquote _ => exact absurd hquote (by decide)
    | plain _ hplain => exact absurd (hplain '(' List.mem_cons_self) (by decide)
  · exact .blockComment

end Lexeme

/-- A closed lexeme is one token. -/
theorem tokenize_of_closed {text : String} (h : Closed text.toList) :
    tokenize text = .ok [text] := by
  have htexts : tokenize (String.join [text]) = .ok [text] :=
    tokenize_join_of_row (by simpa using h) (by simp)
  rwa [String.join_cons, String.join_nil, String.append_empty] at htexts

theorem toList_comment (text : String) :
    ("(; " ++ text ++ " ;)").toList = '(' :: ';' :: (' ' :: text.toList ++ [' ', ';', ')']) := by
  rw [String.toList_append, String.toList_append]
  rfl

theorem infix_space_cons {cs : List Char} :
    [';', ')'] <:+: ' ' :: cs ↔ [';', ')'] <:+: cs := by
  simp [List.infix_cons_iff]

theorem closed_commented {text : String} (h : ¬[';', ')'] <:+: text.toList) :
    Closed ("(; " ++ text ++ " ;)").toList := by
  rw [toList_comment, closed_comment_iff, throughCommentEnd?_close_iff, infix_space_cons]
  exact h

/-- A text in a comment is one token exactly if it does not end the comment. -/
theorem tokenize_comment_iff (text : String) :
    tokenize ("(; " ++ text ++ " ;)") = .ok ["(; " ++ text ++ " ;)"] ↔
      ¬[';', ')'] <:+: text.toList := by
  refine ⟨fun h => ?_, fun h => tokenize_of_closed (closed_commented h)⟩
  have htrivia : Atom.isTrivia ("(; " ++ text ++ " ;)") = true := by
    rw [Atom.isTrivia, toList_comment]
    rfl
  have hclosed := (tokenize_closed h (by simpa using .inr htrivia) (List.nil_append _).symm).1
  rwa [toList_comment, closed_comment_iff, throughCommentEnd?_close_iff, infix_space_cons]
    at hclosed

/-- A text in a comment is trivia. -/
theorem lexical_commented {text : String} (h : ¬[';', ')'] <:+: text.toList) :
    (Token.atom .trivia ("(; " ++ text ++ " ;)")).Lexical := by
  have hne : ∀ other : String, other.length < 3 → "(; " ++ text ++ " ;)" ≠ other := by
    rintro other hother heq
    rw [← heq, ← String.length_toList, toList_comment] at hother
    simp at hother
    omega
  refine ⟨closed_commented h, ?_⟩
  have hkind : Atom.kindOf ("(; " ++ text ++ " ;)") = .trivia := by
    rw [Atom.kindOf_eq_trivia_iff, Atom.isTrivia, toList_comment]
    rfl
  rw [Token.text, Token.ofText, if_neg (hne _ (by decide)), if_neg (hne _ (by decide)), hkind]

end WatMacro
