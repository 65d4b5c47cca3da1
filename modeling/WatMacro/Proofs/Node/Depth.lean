import WatMacro.Proofs.Node.Legible

/-!
# Reading by depth

Whether a source holds one form can be told by counting parentheses along its words: an opening one
goes one level down, a closing one goes one level up, and the form ends where the count comes back
to zero for the first time. What the reader answers is what the count says.

Results:

* `Verdict.ofWords_eq_unexpectedEnd_iff`, `Verdict.ofWords_eq_trailing_iff`,
  `Verdict.ofWords_eq_form_iff`: the verdict of the count in terms of front parts of the words.
* `Reading.run_inside`: from inside of any lists, the reader answers what the count says.
* `Node.read_decidedBy`: which answer reading gives, and what is in a form that is read.
-/

namespace WatMacro

/-! ## Depth -/

/-- The number of levels that a token goes down. -/
def turn (text : String) : Int :=
  if text = "(" then 1 else if text = ")" then -1 else 0

/-- The opening parentheses among tokens less the closing ones. -/
def depth : List String → Int
  | [] => 0
  | text :: texts => turn text + depth texts

@[simp] theorem depth_nil : depth [] = 0 := rfl

@[simp] theorem depth_cons (text : String) (texts : List String) :
    depth (text :: texts) = turn text + depth texts := rfl

theorem depth_append (front back : List String) :
    depth (front ++ back) = depth front + depth back := by
  induction front with
  | nil => simp
  | cons text front ih => rw [List.cons_append, depth_cons, depth_cons, ih, Int.add_assoc]

theorem depth_eq_zero {texts : List String} (h : ∀ text ∈ texts, turn text = 0) :
    depth texts = 0 := by
  induction texts with
  | nil => rfl
  | cons text texts ih =>
    rw [depth_cons, h text List.mem_cons_self, ih fun other hother =>
      h other (List.mem_cons_of_mem text hother), Int.add_zero]

/-- Counted from a level on, the depth is not zero after any of the tokens. -/
def StaysOpen (level : Int) (texts : List String) : Prop :=
  ∀ front, front <+: texts → front ≠ [] → level + depth front ≠ 0

/-- Counted from a level on, the depth is zero after the last of the tokens, and not after any
earlier one. -/
structure ClosesAt (level : Int) (texts : List String) : Prop where
  ne_nil : texts ≠ []
  depth_eq : level + depth texts = 0
  first : ∀ front, front <+: texts → front ≠ [] → front ≠ texts → level + depth front ≠ 0

/-- The front parts of a row, the empty one apart, are those of its rest with the head before
them. -/
theorem forall_front_cons {P : List String → Prop} {text : String} {texts : List String} :
    (∀ front, front <+: text :: texts → front ≠ [] → P front) ↔
      P [text] ∧ ∀ front, front <+: texts → front ≠ [] → P (text :: front) := by
  constructor
  · intro h
    refine ⟨h [text] (by simp) (by simp), fun front hfront _ => ?_⟩
    exact h (text :: front) (List.cons_prefix_cons.mpr ⟨rfl, hfront⟩) (by simp)
  · rintro ⟨hone, hmore⟩ front hfront hne
    rcases List.prefix_cons_iff.mp hfront with rfl | ⟨rest, rfl, hrest⟩
    · exact absurd rfl hne
    · by_cases hnil : rest = []
      · rwa [hnil]
      · exact hmore rest hrest hnil

theorem staysOpen_nil (level : Int) : StaysOpen level [] :=
  fun _ hfront hne => absurd (List.prefix_nil.mp hfront) hne

theorem not_closesAt_nil (level : Int) : ¬ClosesAt level [] :=
  fun h => h.ne_nil rfl

theorem staysOpen_cons {level : Int} {text : String} {texts : List String} :
    StaysOpen level (text :: texts) ↔
      level + turn text ≠ 0 ∧ StaysOpen (level + turn text) texts := by
  rw [StaysOpen, forall_front_cons]
  simp only [depth_cons, depth_nil, Int.add_zero, ← Int.add_assoc]
  rfl

theorem closesAt_cons {level : Int} {text : String} {texts : List String} :
    ClosesAt level (text :: texts) ↔ (level + turn text = 0 ∧ texts = []) ∨
      (level + turn text ≠ 0 ∧ ClosesAt (level + turn text) texts) := by
  have hfirst : (∀ front, front <+: text :: texts → front ≠ [] → front ≠ text :: texts →
      level + depth front ≠ 0) ↔ (texts ≠ [] → level + turn text ≠ 0) ∧
        ∀ front, front <+: texts → front ≠ [] → front ≠ texts →
          level + turn text + depth front ≠ 0 := by
    rw [forall_front_cons]
    simp [Int.add_assoc, eq_comm]
  have hdepth : level + depth (text :: texts) = level + turn text + depth texts := by
    rw [depth_cons, Int.add_assoc]
  constructor
  · rintro ⟨-, hzero, hbefore⟩
    rw [hdepth] at hzero
    obtain ⟨hone, hmore⟩ := hfirst.mp hbefore
    by_cases hnil : texts = []
    · subst hnil
      exact .inl ⟨by simpa using hzero, rfl⟩
    · exact .inr ⟨hone hnil, hnil, hzero, hmore⟩
  · rintro (⟨hzero, rfl⟩ | ⟨hnext, hrest⟩)
    · refine ⟨by simp, by simpa using hzero, hfirst.mpr ⟨by simp, fun front hfront hne => ?_⟩⟩
      exact absurd (List.prefix_nil.mp hfront) hne
    · exact ⟨by simp, hdepth.trans hrest.depth_eq, hfirst.mpr ⟨fun _ => hnext, hrest.first⟩⟩

/-- What closes stays open up to before its last token. -/
theorem ClosesAt.staysOpen {level : Int} {front back : List String}
    (h : ClosesAt level (front ++ back)) (hback : back ≠ []) : StaysOpen level front := by
  intro part hpart hne
  refine h.first part (hpart.trans (List.prefix_append front back)) hne ?_
  rintro rfl
  have hlength := hpart.length_le
  rw [List.length_append] at hlength
  exact hback (List.eq_nil_of_length_eq_zero (by omega))

/-- What is open stays open along tokens that are no parentheses. -/
theorem StaysOpen.append {level : Int} {front still : List String} (h : StaysOpen level front)
    (hopen : level + depth front ≠ 0) (hstill : ∀ text ∈ still, turn text = 0) :
    StaysOpen level (front ++ still) := by
  intro part hpart hne
  rcases List.prefix_or_prefix_of_prefix hpart (List.prefix_append front still) with hin | hin
  · exact h part hin hne
  · obtain ⟨more, rfl⟩ := hin
    have hmore := (List.prefix_append_right_inj front).mp hpart
    rw [depth_append, depth_eq_zero fun text htext => hstill text (hmore.subset htext),
      Int.add_zero]
    exact hopen

/-! ## Verdicts -/

/-- What can be answered to the words of a source. -/
inductive Verdict where
  | blank
  | unexpectedClose
  | expectedOpen (found : String)
  | unexpectedEnd
  | trailing (found : String)
  | form
  deriving DecidableEq, Repr

namespace Verdict

/-- A result of reading that gives the verdict, on whatever line. -/
def Tells : Verdict → Except Error Node → Prop
  | blank, result => result = .error .blank
  | unexpectedClose, result => ∃ line, result = .error (.unexpectedClose line)
  | expectedOpen found, result => ∃ line, result = .error (.expectedOpen line found)
  | unexpectedEnd, result => ∃ line, result = .error (.unexpectedEnd line)
  | trailing found, result => ∃ line, result = .error (.trailing line found)
  | form, result => ∃ form, result = .ok form

/-- A result gives one verdict. -/
theorem Tells.unique {verdict verdict' : Verdict} {result : Except Error Node}
    (h : verdict.Tells result) (h' : verdict'.Tells result) : verdict = verdict' := by
  cases verdict <;> cases verdict' <;> simp only [Tells] at h h' <;> grind

theorem Tells.iff {verdict : Verdict} {result : Except Error Node} (h : verdict.Tells result)
    (other : Verdict) : other.Tells result ↔ verdict = other :=
  ⟨fun hother => h.unique hother, fun heq => heq ▸ h⟩

/-- The verdict on the words after a form. -/
def afterForm : List String → Verdict
  | [] => form
  | found :: _ => trailing found

/-- The verdict on the words inside of a form, at a given level. -/
def inside (level : Int) : List String → Verdict
  | [] => unexpectedEnd
  | text :: texts =>
    if level + turn text = 0 then afterForm texts else inside (level + turn text) texts

/-- The verdict on all words of a source. -/
def ofWords : List String → Verdict
  | [] => blank
  | text :: texts =>
    if text = ")" then unexpectedClose
    else if text = "(" then inside 1 texts
    else expectedOpen text

/-! ### Verdicts and front parts -/

theorem inside_eq_unexpectedEnd_iff {level : Int} {words : List String} :
    inside level words = unexpectedEnd ↔ StaysOpen level words := by
  induction words generalizing level with
  | nil => simp [inside, staysOpen_nil]
  | cons text texts ih =>
    rw [inside, staysOpen_cons]
    split
    · rename_i hzero
      cases texts <;> simp [afterForm, hzero]
    · rename_i hnext
      rw [ih, and_iff_right hnext]

theorem inside_eq_form_iff {level : Int} {words : List String} :
    inside level words = form ↔ ClosesAt level words := by
  induction words generalizing level with
  | nil => simp [inside, not_closesAt_nil]
  | cons text texts ih =>
    rw [inside, closesAt_cons]
    split
    · rename_i hzero
      cases texts <;> simp [afterForm, hzero]
    · rename_i hnext
      simp [ih, hnext]

theorem inside_eq_trailing_iff {level : Int} {words : List String} {found : String} :
    inside level words = trailing found ↔
      ∃ front back, ClosesAt level front ∧ words = front ++ found :: back := by
  induction words generalizing level with
  | nil => simp [inside]
  | cons text texts ih =>
    -- the front part is not empty, so it begins with the first word
    have hsplit : (∃ front back, ClosesAt level front ∧ text :: texts = front ++ found :: back) ↔
        ∃ front back, ClosesAt level (text :: front) ∧ texts = front ++ found :: back := by
      constructor
      · rintro ⟨front, back, hfront, heq⟩
        obtain ⟨first, front, rfl⟩ := List.exists_cons_of_ne_nil hfront.ne_nil
        obtain ⟨rfl, rfl⟩ := List.cons.inj heq
        exact ⟨front, back, hfront, rfl⟩
      · rintro ⟨front, back, hfront, rfl⟩
        exact ⟨text :: front, back, hfront, rfl⟩
    rw [inside, hsplit]
    simp only [closesAt_cons]
    split
    · rename_i hzero
      cases texts <;> simp [afterForm, hzero, eq_comm]
    · rename_i hnext
      simp [ih, hnext]

/-- The verdicts that can be passed inside of a form. -/
def isInside : Verdict → Bool
  | unexpectedEnd | trailing _ | form => true
  | _ => false

theorem isInside_inside (level : Int) (words : List String) :
    (inside level words).isInside = true := by
  induction words generalizing level with
  | nil => rfl
  | cons text texts ih =>
    rw [inside]
    split
    · cases texts <;> rfl
    · exact ih _

theorem ofWords_cons_eq_iff {verdict : Verdict} {text : String} {texts : List String}
    (h : verdict.isInside = false) : ofWords (text :: texts) = verdict ↔
      text = ")" ∧ verdict = unexpectedClose ∨
        text ≠ "(" ∧ text ≠ ")" ∧ verdict = expectedOpen text := by
  rw [ofWords]
  split
  · rename_i hclosing
    simp [hclosing, eq_comm]
  · rename_i hclosing
    split
    · rename_i hopening
      have hne : inside 1 texts ≠ verdict := by
        rintro rfl
        rw [isInside_inside] at h
        cases h
      simp [hopening, hne]
    · rename_i hopening
      simp [hopening, hclosing, eq_comm]

/-- Only words that begin with an opening parenthesis are a form in part. -/
theorem ofWords_eq_iff_inside {verdict : Verdict} (h : verdict.isInside = true)
    {words : List String} :
    ofWords words = verdict ↔ words.head? = some "(" ∧ inside 0 words = verdict := by
  cases words with
  | nil =>
    have hne : blank ≠ verdict := by
      rintro rfl
      cases h
    simp [ofWords, hne]
  | cons text texts =>
    by_cases hopening : text = "("
    · subst hopening
      exact (and_iff_right rfl).symm
    · have hne : ofWords (text :: texts) ≠ verdict := by
        rintro rfl
        rw [ofWords, if_neg hopening] at h
        split at h <;> cases h
      simp [hopening, hne]

theorem ofWords_eq_blank_iff {words : List String} : ofWords words = blank ↔ words = [] := by
  cases words with
  | nil => exact iff_of_true rfl rfl
  | cons text texts =>
    have hinside : blank.isInside = false := rfl
    simp [ofWords_cons_eq_iff hinside]

theorem ofWords_eq_unexpectedClose_iff {words : List String} :
    ofWords words = unexpectedClose ↔ words.head? = some ")" := by
  cases words with
  | nil => simp [ofWords]
  | cons text texts =>
    have hinside : unexpectedClose.isInside = false := rfl
    simp [ofWords_cons_eq_iff hinside]

theorem ofWords_eq_expectedOpen_iff {words : List String} {found : String} :
    ofWords words = expectedOpen found ↔
      words.head? = some found ∧ found ≠ "(" ∧ found ≠ ")" := by
  cases words with
  | nil => simp [ofWords]
  | cons text texts =>
    have hinside : (expectedOpen found).isInside = false := rfl
    simp only [ofWords_cons_eq_iff hinside, reduceCtorEq, and_false, false_or, expectedOpen.injEq,
      List.head?_cons, Option.some.injEq]
    constructor
    · rintro ⟨hopening, hclosing, rfl⟩
      exact ⟨rfl, hopening, hclosing⟩
    · rintro ⟨rfl, hopening, hclosing⟩
      exact ⟨hopening, hclosing, rfl⟩

theorem ofWords_eq_unexpectedEnd_iff {words : List String} :
    ofWords words = unexpectedEnd ↔ words.head? = some "(" ∧ StaysOpen 0 words := by
  rw [ofWords_eq_iff_inside rfl, inside_eq_unexpectedEnd_iff]

theorem ofWords_eq_trailing_iff {words : List String} {found : String} :
    ofWords words = trailing found ↔ words.head? = some "(" ∧
      ∃ front back, ClosesAt 0 front ∧ words = front ++ found :: back := by
  rw [ofWords_eq_iff_inside rfl, inside_eq_trailing_iff]

theorem ofWords_eq_form_iff {words : List String} :
    ofWords words = form ↔ words.head? = some "(" ∧ ClosesAt 0 words := by
  rw [ofWords_eq_iff_inside rfl, inside_eq_form_iff]

/-- A front part of the words of a form is empty, or asks for more, or is all of them. -/
theorem ofWords_front {front back : List String} (h : ofWords (front ++ back) = form) :
    ofWords front = blank ∨ ofWords front = unexpectedEnd ∨ ofWords front = form := by
  obtain ⟨hhead, hcloses⟩ := ofWords_eq_form_iff.mp h
  by_cases hback : back = []
  · rw [hback, List.append_nil] at h
    exact .inr (.inr h)
  · cases front with
    | nil => exact .inl rfl
    | cons text front =>
      exact .inr (.inl (ofWords_eq_unexpectedEnd_iff.mpr ⟨hhead, hcloses.staysOpen hback⟩))

/-- Words that are no parentheses, after a front part of the words of a form, ask for more. -/
theorem ofWords_front_append {front back still : List String} (h : ofWords (front ++ back) = form)
    (hfront : front ≠ []) (hback : back ≠ []) (hstill : ∀ text ∈ still, turn text = 0) :
    ofWords (front ++ still) = unexpectedEnd := by
  obtain ⟨hhead, hcloses⟩ := ofWords_eq_form_iff.mp h
  have hopen := hcloses.staysOpen hback
  refine ofWords_eq_unexpectedEnd_iff.mpr ⟨?_, hopen.append ?_ hstill⟩
  · rwa [List.head?_append_of_ne_nil front hfront] at hhead ⊢
  · exact hopen front List.prefix_rfl hfront

end Verdict

/-! ## What the reader answers -/

namespace Reading

/-- The tokens other than trivia among texts. -/
abbrev wordsOf (texts : List String) : List String :=
  texts.filter (!Atom.isTrivia ·)

theorem wordsOf_append (front back : List String) :
    wordsOf (front ++ back) = wordsOf front ++ wordsOf back :=
  List.filter_append ..

theorem wordsOf_cons_trivia {text : String} (h : Atom.isTrivia text = true) (texts : List String) :
    wordsOf (text :: texts) = wordsOf texts :=
  List.filter_cons_of_neg (by simp [h])

theorem wordsOf_cons_word {text : String} (h : Atom.isTrivia text = false) (texts : List String) :
    wordsOf (text :: texts) = text :: wordsOf texts :=
  List.filter_cons_of_pos (by simp [h])

theorem step_inside_trivia (line : Nat) (before : List Node) (outer : List (List Node))
    (children : List Node) (text : String) :
    (inside before outer children).step line (.atom .trivia text) =
      .ok (inside before outer (addTrivia text children)) := by
  cases outer <;> rfl

theorem run_cons_ok {line : Nat} {reading next : Reading} {token : Token} {tokens : List Token}
    (h : reading.step line token = .ok next) :
    reading.run line (token :: tokens) = next.run (line + token.newlines) tokens := by
  rw [run, h]

theorem run_cons_error {line : Nat} {reading : Reading} {token : Token} {tokens : List Token}
    {error : Error} (h : reading.step line token = .error error) :
    reading.run line (token :: tokens) = .error error := by
  rw [run, h]

/-- After a form, the reader answers what its first word says. -/
theorem run_complete (line last : Nat) (form : Node) (texts : List String) :
    (Verdict.afterForm (wordsOf texts)).Tells
      (((complete form).run line (texts.map Token.ofText)).bind (finish last)) := by
  induction texts generalizing line form with
  | nil => exact ⟨form, rfl⟩
  | cons text texts ih =>
    rw [List.map_cons]
    rcases Token.ofText_cases text with
      ⟨rfl, htoken⟩ | ⟨rfl, htoken⟩ | ⟨htrivia, htoken⟩ | ⟨-, -, htrivia, kind, hkind, htoken⟩
    · rw [htoken, run_cons_error rfl]
      exact ⟨line, rfl⟩
    · rw [htoken, run_cons_error rfl]
      exact ⟨line, rfl⟩
    · rw [htoken, run_cons_ok rfl, wordsOf_cons_trivia htrivia]
      exact ih _ _
    · rw [htoken, wordsOf_cons_word htrivia]
      cases kind with
      | trivia => exact absurd rfl hkind
      | _ => exact ⟨line, rfl⟩

/-- From inside of any lists, the reader answers what the count says. -/
theorem run_inside (line last : Nat) (before : List Node) (outer : List (List Node))
    (children : List Node) (texts : List String) :
    (Verdict.inside (outer.length + 1) (wordsOf texts)).Tells
      (((inside before outer children).run line (texts.map Token.ofText)).bind (finish last)) := by
  induction texts generalizing line outer children with
  | nil => exact ⟨last, rfl⟩
  | cons text texts ih =>
    rw [List.map_cons]
    rcases Token.ofText_cases text with
      ⟨rfl, htoken⟩ | ⟨rfl, htoken⟩ | ⟨htrivia, htoken⟩ |
      ⟨hopening, hclosing, htrivia, kind, hkind, htoken⟩
    · have hturn : turn "(" = 1 := rfl
      rw [htoken, run_cons_ok (step_inside_opening line before outer children),
        wordsOf_cons_word rfl, Verdict.inside, hturn, if_neg (by omega)]
      have := ih (line + Token.opening.newlines) (children :: outer) []
      rwa [List.length_cons, Int.natCast_succ] at this
    · have hturn : turn ")" = -1 := rfl
      rw [htoken, wordsOf_cons_word rfl, Verdict.inside, hturn]
      cases outer with
      | nil =>
        -- the innermost open list is the form itself
        rw [run_cons_ok rfl, List.length_nil, if_pos (by omega)]
        exact run_complete _ last _ texts
      | cons parent outer =>
        rw [run_cons_ok rfl, List.length_cons, Int.natCast_succ, if_neg (by omega),
          Int.add_neg_cancel_right]
        exact ih _ outer _
    · rw [htoken, run_cons_ok (step_inside_trivia line before outer children text),
        wordsOf_cons_trivia htrivia]
      exact ih _ outer _
    · have hturn : turn text = 0 := by rw [turn, if_neg hopening, if_neg hclosing]
      rw [htoken, run_cons_ok (step_inside_atom line before outer children hkind text),
        wordsOf_cons_word htrivia, Verdict.inside, hturn, Int.add_zero, if_neg (by omega)]
      exact ih _ outer _

/-- From the start, the reader answers the verdict on the words. -/
theorem run_start (line last : Nat) (before : List Node) (texts : List String) :
    (Verdict.ofWords (wordsOf texts)).Tells
      (((start before).run line (texts.map Token.ofText)).bind (finish last)) := by
  induction texts generalizing line before with
  | nil => rfl
  | cons text texts ih =>
    rw [List.map_cons]
    rcases Token.ofText_cases text with
      ⟨rfl, htoken⟩ | ⟨rfl, htoken⟩ | ⟨htrivia, htoken⟩ |
      ⟨hopening, hclosing, htrivia, kind, hkind, htoken⟩
    · rw [htoken, run_cons_ok rfl]
      exact run_inside _ last before [] [] texts
    · rw [htoken, run_cons_error rfl]
      exact ⟨line, rfl⟩
    · rw [htoken, run_cons_ok rfl, wordsOf_cons_trivia htrivia]
      exact ih _ _
    · rw [htoken, wordsOf_cons_word htrivia, Verdict.ofWords, if_neg hclosing, if_neg hopening]
      cases kind with
      | trivia => exact absurd rfl hkind
      | _ => exact ⟨_, rfl⟩

end Reading

namespace Node

open Reading

/-- The answer to a source with the given words, by the depth along them. -/
structure DecidedBy (words : List String) (answer : Except Error Node) : Prop where
  blank : answer = .error .blank ↔ words = []
  unexpectedClose : (∃ line, answer = .error (.unexpectedClose line)) ↔ words.head? = some ")"
  expectedOpen : ∀ found, (∃ line, answer = .error (.expectedOpen line found)) ↔
    words.head? = some found ∧ found ≠ "(" ∧ found ≠ ")"
  /-- The form does not end. -/
  unexpectedEnd : (∃ line, answer = .error (.unexpectedEnd line)) ↔
    words.head? = some "(" ∧ StaysOpen 0 words
  /-- The form ends before the source does. -/
  trailing : ∀ found, (∃ line, answer = .error (.trailing line found)) ↔
    words.head? = some "(" ∧ ∃ front back, ClosesAt 0 front ∧ words = front ++ found :: back
  form : (∃ form, answer = .ok form) ↔ words.head? = some "(" ∧ ClosesAt 0 words

theorem decidedBy_of_tells {words : List String} {answer : Except Error Node}
    (h : (Verdict.ofWords words).Tells answer) : DecidedBy words answer where
  blank := (h.iff .blank).trans Verdict.ofWords_eq_blank_iff
  unexpectedClose := (h.iff .unexpectedClose).trans Verdict.ofWords_eq_unexpectedClose_iff
  expectedOpen found := (h.iff (.expectedOpen found)).trans Verdict.ofWords_eq_expectedOpen_iff
  unexpectedEnd := (h.iff .unexpectedEnd).trans Verdict.ofWords_eq_unexpectedEnd_iff
  trailing found := (h.iff (.trailing found)).trans Verdict.ofWords_eq_trailing_iff
  form := (h.iff .form).trans Verdict.ofWords_eq_form_iff

theorem tells_read {source : String} {texts : List String} (h : tokenize source = .ok texts) :
    (Verdict.ofWords (wordsOf texts)).Tells (Node.read source) := by
  rw [Node.read, WatMacro.tokens, h]
  exact run_start 1 _ [] texts

/-- Reading a source that splits into tokens answers what the depth along its words says; the
listing of a form that is read is all of the tokens, trivia included, and every atom in it has the
kind of its text. -/
theorem read_decidedBy {source : String} {texts : List String} (h : tokenize source = .ok texts) :
    DecidedBy (texts.filter (!Atom.isTrivia ·)) (Node.read source) ∧
      ∀ form, Node.read source = .ok form → form.FormAsRead ∧
        form.listing.map Token.text = texts ∧
        ∀ kind text, Token.atom kind text ∈ form.listing → kind = Atom.kindOf text := by
  refine ⟨decidedBy_of_tells (tells_read h), fun form hform => ?_⟩
  obtain ⟨texts', htexts', hlisting⟩ := read_listing hform
  cases h.symm.trans htexts'
  refine ⟨read_asRead hform, ?_, fun kind text hmem => ?_⟩
  · rw [hlisting, List.map_map]
    simp [Function.comp_def]
  · rw [hlisting] at hmem
    obtain ⟨other, -, hother⟩ := List.mem_map.mp hmem
    obtain rfl : other = text := by rw [← Token.text_ofText other, hother, Token.text]
    exact (Token.ofText_eq_atom hother).1

/-- The comment closes nothing, and the last parenthesis has nothing to close. -/
theorem read_decidedBy_comment :
    let source := "(a ;; )\n (\")\") $b)) c"
    ∃ texts, tokenize source = .ok texts ∧
      ∃ line, Node.read source = .error (.trailing line ")") := by
  intro source
  have htexts : tokenize source = .ok ["(", "a", " ", ";; )", "\n ", "(", "\")\"", ")", " ", "$b",
      ")", ")", " ", "c"] := by
    decide +kernel
  refine ⟨_, htexts, ((read_decidedBy htexts).1.trailing ")").mpr ?_⟩
  exact Verdict.ofWords_eq_trailing_iff.mp (by decide +kernel)

end Node

end WatMacro
