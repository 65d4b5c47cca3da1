import Mathlib.Tactic.SplitIfs
import WatMacro.Text.Quoted

/-!
# The grammar of literals

A literal is a quote, items, and the same quote again with nothing after it. An item is a character
that stands for itself, or a backslash with one of four escapes; it stands for one character. Octal
digits are taken as many as follow, up to three, and everything else ends by itself. So no text is a
literal in two ways.

Results:

* `escape?_eq_some_iff`, `content?_eq_some_iff`: what is read after a backslash and after a quote.
* `Items.unique`: a text falls into items in one way.
* `decode?_eq_some_iff_spells`: a text is decoded exactly if it is a literal, to the characters that
  its items stand for, and it is a literal in one way.
-/

namespace WatMacro.Text.Quoted

/-! ## The grammar -/

/-- The escapes of one letter, with what they stand for. -/
def letters : List (Char × Char) :=
  [('\\', '\\'), (doubleQuote, doubleQuote), (apostrophe, apostrophe), ('n', '\n'), ('t', '\t'),
    ('r', '\r'), ('a', '\x07'), ('b', '\x08'), ('f', '\x0c'), ('v', '\x0b')]

/-- Digits that denote the code point of a character. -/
structure Denotes (base : Nat) (digits : List Char) (c : Char) : Prop where
  isDigit : ∀ d ∈ digits, isDigitOf base d = true
  code : c.toNat = ofDigits base digits

theorem Denotes.of_all {base : Nat} {digits : List Char} {c : Char}
    (hdigits : digits.all (isDigitOf base) = true) (hcode : c.toNat = ofDigits base digits) :
    Denotes base digits c :=
  ⟨List.all_eq_true.mp hdigits, hcode⟩

/-- What may stand after a backslash, and the character that it gives. -/
inductive Escape : List Char → Char → Prop
  | letter {c d : Char} : (c, d) ∈ letters → Escape [c] d
  | short {digits : List Char} {c : Char} : digits.length = 2 → Denotes 16 digits c →
    Escape ('x' :: digits) c
  | long {digits : List Char} {c : Char} : digits.length = 4 → Denotes 16 digits c →
    Escape ('u' :: digits) c
  | octal {digits : List Char} {c : Char} : digits ≠ [] → digits.length ≤ 3 →
    Denotes 8 digits c → Escape digits c

/-- An item between two quotes, and the character that it stands for. -/
inductive Item (quote : Char) : List Char → Char → Prop
  | plain {c : Char} : c ≠ '\\' → c ≠ quote → Item quote [c] c
  | escape {used : List Char} {c : Char} : Escape used c → Item quote ('\\' :: used) c

/-- No octal digit follows an escape of fewer than three octal digits. -/
def Greedy (item next : List Char) : Prop :=
  ∀ digits, item = '\\' :: digits → (∀ d ∈ digits, isDigitOf 8 d = true) → digits.length < 3 →
    ∀ d ∈ next.head?, isDigitOf 8 d = false

/-- Items, each with its character, that make up a text with the closing quote at its end. -/
inductive Items (quote : Char) : List (List Char × Char) → List Char → Prop
  | nil : Items quote [] [quote]
  | cons {item rest : List Char} {c : Char} {items : List (List Char × Char)} :
    Item quote item c → Greedy item rest → Items quote items rest →
    Items quote ((item, c) :: items) (item ++ rest)

/-- A literal with its quote and its items. -/
inductive Spells : Char → List (List Char × Char) → List Char → Prop
  | literal {quote : Char} {items : List (List Char × Char)} {inside : List Char} :
    quote = doubleQuote ∨ quote = apostrophe → Items quote items inside →
    Spells quote items (quote :: inside)

/-! ## Digits -/

theorem character?_eq_some_iff {code : Nat} {c : Char} :
    character? code = some c ↔ c.toNat = code := by
  unfold character?
  constructor
  · intro h
    split at h
    · rename_i hvalid
      cases h
      rw [Char.ofNat, dif_pos hvalid]
      rfl
    · cases h
  · rintro rfl
    have hvalid : c.toNat.isValidChar := c.valid
    rw [if_pos hvalid, Char.ofNat_toNat]

theorem hexEscape?_eq_some_iff {count : Nat} {cs rest : List Char} {c : Char} :
    hexEscape? count cs = some (c, rest) ↔
      ∃ digits, cs = digits ++ rest ∧ digits.length = count ∧ Denotes 16 digits c := by
  simp only [hexEscape?]
  constructor
  · intro h
    split at h
    · rename_i hdigits
      obtain ⟨_, hc, heq⟩ := Option.map_eq_some_iff.mp h
      cases heq
      exact ⟨cs.take count, (List.take_append_drop count cs).symm, hdigits.1,
        .of_all hdigits.2 (character?_eq_some_iff.mp hc)⟩
    · cases h
  · rintro ⟨digits, rfl, rfl, hdigits⟩
    rw [List.take_left, List.drop_left,
      if_pos ⟨rfl, List.all_eq_true.mpr hdigits.isDigit⟩, Option.map_eq_some_iff]
    exact ⟨c, character?_eq_some_iff.mpr hdigits.code, rfl⟩

/-- The longest front part of at most `count` characters of a class. -/
theorem takeWhile_take_append {count : Nat} {p : Char → Bool} {front rest : List Char}
    (hfront : ∀ d ∈ front, p d = true) (hcount : front.length ≤ count)
    (hstop : front.length < count → ∀ d ∈ rest.head?, p d = false) :
    ((front ++ rest).take count).takeWhile p = front := by
  rw [List.take_append, List.take_of_length_le hcount, List.takeWhile_append_of_pos hfront,
    List.append_right_eq_self]
  cases rest with
  | nil => simp
  | cons d rest =>
    cases hmore : count - front.length with
    | zero => rfl
    | succ more => simp [hstop (by omega) d rfl]

theorem exists_takeWhile_take (count : Nat) (p : Char → Bool) (cs : List Char) :
    ∃ front rest, cs = front ++ rest ∧ (∀ d ∈ front, p d = true) ∧ front.length ≤ count ∧
      (front.length < count → ∀ d ∈ rest.head?, p d = false) := by
  induction cs generalizing count with
  | nil => exact ⟨[], [], rfl, by simp, by simp, by simp⟩
  | cons c cs ih =>
    cases count with
    | zero => exact ⟨[], c :: cs, rfl, by simp, by simp, by simp⟩
    | succ count =>
      cases hc : p c with
      | false => exact ⟨[], c :: cs, rfl, by simp, by simp, by simp [hc]⟩
      | true =>
        obtain ⟨front, rest, rfl, hfront, hcount, hstop⟩ := ih count
        refine ⟨c :: front, rest, rfl, ?_, by simpa using hcount, by simpa using hstop⟩
        simpa [hc] using hfront

theorem octalEscape?_eq_some_iff {cs rest : List Char} {c : Char} :
    octalEscape? cs = some (c, rest) ↔ ∃ digits, cs = digits ++ rest ∧ digits ≠ [] ∧
      digits.length ≤ 3 ∧ (digits.length < 3 → ∀ d ∈ rest.head?, isDigitOf 8 d = false) ∧
      Denotes 8 digits c := by
  obtain ⟨front, more, rfl, hfront, hcount, hstop⟩ := exists_takeWhile_take 3 (isDigitOf 8) cs
  simp only [octalEscape?, takeWhile_take_append hfront hcount hstop, List.drop_left]
  constructor
  · intro h
    split at h
    · cases h
    · rename_i hne
      obtain ⟨_, hc, heq⟩ := Option.map_eq_some_iff.mp h
      cases heq
      exact ⟨front, rfl, hne, hcount, hstop, hfront, character?_eq_some_iff.mp hc⟩
  · rintro ⟨digits, heq, hne, hcount', hstop', hdigits⟩
    -- there is only one longest front part
    obtain rfl : front = digits := by
      rw [← takeWhile_take_append hfront hcount hstop, heq,
        takeWhile_take_append hdigits.isDigit hcount' hstop']
    obtain rfl := List.append_cancel_left heq
    rw [if_neg hne, character?_eq_some_iff.mpr hdigits.code]
    rfl

/-! ## Escapes -/

theorem simpleEscape?_eq_some_iff {c d : Char} :
    simpleEscape? c = some d ↔ (c, d) ∈ letters := by
  simp only [letters, List.mem_cons, Prod.mk.injEq, List.not_mem_nil, or_false]
  constructor
  · intro h
    unfold simpleEscape? at h
    split_ifs at h <;> grind
  · rintro (⟨rfl, rfl⟩ | ⟨rfl, rfl⟩ | ⟨rfl, rfl⟩ | ⟨rfl, rfl⟩ | ⟨rfl, rfl⟩ | ⟨rfl, rfl⟩ |
      ⟨rfl, rfl⟩ | ⟨rfl, rfl⟩ | ⟨rfl, rfl⟩ | ⟨rfl, rfl⟩) <;> rfl

theorem not_octal_of_mem_letters {c d : Char} (h : (c, d) ∈ letters) : isDigitOf 8 c = false := by
  have hall : ∀ letter ∈ letters, isDigitOf 8 letter.1 = false := by decide
  exact hall (c, d) h

theorem Greedy.of_plain {c : Char} {next : List Char} (h : c ≠ '\\') : Greedy [c] next := by
  rintro digits ⟨⟩
  exact absurd rfl h

/-- Only octal digits can want more octal digits. -/
theorem Greedy.of_not_octal {c : Char} {used next : List Char} (h : isDigitOf 8 c = false) :
    Greedy ('\\' :: c :: used) next := by
  rintro digits ⟨⟩ hdigits
  rw [hdigits c List.mem_cons_self] at h
  cases h

/-- No other escape begins with an octal digit. -/
theorem escape?_octal {c : Char} (h : isDigitOf 8 c = true) (cs : List Char) :
    escape? (c :: cs) = octalEscape? (c :: cs) := by
  have hx : c ≠ 'x' := by rintro rfl; exact absurd h (by decide)
  have hu : c ≠ 'u' := by rintro rfl; exact absurd h (by decide)
  cases hsimple : simpleEscape? c with
  | none => rw [escape?, hsimple, if_neg hx, if_neg hu]
  | some d =>
    rw [not_octal_of_mem_letters (simpleEscape?_eq_some_iff.mp hsimple)] at h
    cases h

/-- What is read after a backslash is an escape, with all the octal digits that belong to it. -/
theorem escape?_eq_some_iff {cs rest : List Char} {c : Char} :
    escape? cs = some (c, rest) ↔
      ∃ used, cs = used ++ rest ∧ Escape used c ∧ Greedy ('\\' :: used) rest := by
  constructor
  · intro h
    unfold escape? at h
    split at h
    · cases h
    · rename_i d ds
      split at h
      · rename_i e hsimple
        cases h
        have hletter := simpleEscape?_eq_some_iff.mp hsimple
        exact ⟨[d], rfl, .letter hletter, .of_not_octal (not_octal_of_mem_letters hletter)⟩
      · split at h
        · rename_i hx
          obtain ⟨digits, rfl, hcount, hdigits⟩ := hexEscape?_eq_some_iff.mp h
          exact ⟨d :: digits, rfl, hx ▸ .short hcount hdigits, .of_not_octal (by rw [hx]; rfl)⟩
        · split at h
          · rename_i hu
            obtain ⟨digits, rfl, hcount, hdigits⟩ := hexEscape?_eq_some_iff.mp h
            exact ⟨d :: digits, rfl, hu ▸ .long hcount hdigits, .of_not_octal (by rw [hu]; rfl)⟩
          · obtain ⟨digits, heq, hne, hcount, hstop, hdigits⟩ := octalEscape?_eq_some_iff.mp h
            refine ⟨digits, heq, .octal hne hcount hdigits, ?_⟩
            rintro _ ⟨⟩ - hshort
            exact hstop hshort
  · rintro ⟨used, rfl, hescape, hgreedy⟩
    cases hescape with
    | letter hletter =>
      rw [List.singleton_append, escape?, simpleEscape?_eq_some_iff.mpr hletter]
    | short hcount hdigits =>
      exact hexEscape?_eq_some_iff.mpr ⟨_, rfl, hcount, hdigits⟩
    | long hcount hdigits =>
      exact hexEscape?_eq_some_iff.mpr ⟨_, rfl, hcount, hdigits⟩
    | octal hne hcount hdigits =>
      obtain ⟨d, digits, rfl⟩ := List.exists_cons_of_ne_nil hne
      rw [List.cons_append, escape?_octal (hdigits.isDigit d List.mem_cons_self)]
      exact octalEscape?_eq_some_iff.mpr ⟨d :: digits, rfl, hne, hcount,
        hgreedy _ rfl hdigits.isDigit, hdigits⟩

example : escape? ['x', '4', '1', '2'] = some ('A', ['2']) := by
  decide +kernel

/-! ## Items -/

/-- Where an item ends, and what it stands for, is decided by the text. -/
theorem Item.unique {quote c c' : Char} {item item' rest rest' : List Char}
    (h : Item quote item c) (hgreedy : Greedy item rest) (h' : Item quote item' c')
    (hgreedy' : Greedy item' rest') (heq : item ++ rest = item' ++ rest') :
    item = item' ∧ c = c' ∧ rest = rest' := by
  cases h with
  | plain hslash _ =>
    cases h' with
    | plain =>
      obtain ⟨rfl, rfl⟩ := List.cons.inj heq
      exact ⟨rfl, rfl, rfl⟩
    | escape => exact absurd (List.cons.inj heq).1 hslash
  | escape hescape =>
    cases h' with
    | plain hslash' _ => exact absurd (List.cons.inj heq).1.symm hslash'
    | escape hescape' =>
      rw [List.cons_append, List.cons_append] at heq
      have hused := (List.cons.inj heq).2
      -- both are what `escape?` reads from the same text
      have hread := escape?_eq_some_iff.mpr ⟨_, rfl, hescape, hgreedy⟩
      rw [hused, escape?_eq_some_iff.mpr ⟨_, rfl, hescape', hgreedy'⟩] at hread
      obtain ⟨rfl, rfl⟩ := Prod.mk.inj (Option.some.inj hread)
      obtain rfl := List.append_cancel_right hused
      exact ⟨rfl, rfl, rfl⟩

theorem Item.head_ne {quote c : Char} {item : List Char} (h : Item quote item c)
    (hquote : quote ≠ '\\') : ∃ d ds, item = d :: ds ∧ d ≠ quote := by
  cases h with
  | plain _ hne => exact ⟨_, _, rfl, hne⟩
  | escape => exact ⟨_, _, rfl, hquote.symm⟩

/-- A text falls into items in one way. -/
theorem Items.unique {quote : Char} {items items' : List (List Char × Char)} {text : List Char}
    (hquote : quote ≠ '\\') (h : Items quote items text) (h' : Items quote items' text) :
    items = items' := by
  induction h generalizing items' with
  | nil =>
    generalize htext : [quote] = text at h'
    cases h' with
    | nil => rfl
    | cons hitem _ _ =>
      -- the closing quote begins no item
      obtain ⟨d, ds, rfl, hne⟩ := hitem.head_ne hquote
      exact absurd (List.cons.inj htext).1.symm hne
  | @cons item rest c items hitem hgreedy _ ih =>
    generalize htext : item ++ rest = text at h'
    cases h' with
    | nil =>
      obtain ⟨d, ds, rfl, hne⟩ := hitem.head_ne hquote
      exact absurd (List.cons.inj htext).1 hne
    | cons hitem' hgreedy' hrest' =>
      obtain ⟨rfl, rfl, rfl⟩ := hitem.unique hgreedy hitem' hgreedy' htext
      rw [ih hrest']

/-- What is read after a quote is items, each taken for its character. -/
theorem content?_eq_some_iff {quote : Char} {cs value : List Char} (hquote : quote ≠ '\\') :
    content? quote cs = some value ↔
      ∃ items, Items quote items cs ∧ value = items.map Prod.snd := by
  constructor
  · intro h
    fun_induction content? quote cs generalizing value with
    | case1 => cases h
    | case2 => cases h
    | case3 cs d rest hescape ih =>
      obtain ⟨more, hmore, rfl⟩ := Option.map_eq_some_iff.mp h
      obtain ⟨items, hitems, rfl⟩ := ih hmore
      obtain ⟨used, rfl, hescape, hgreedy⟩ := escape?_eq_some_iff.mp hescape
      exact ⟨('\\' :: used, d) :: items, .cons (.escape hescape) hgreedy hitems, rfl⟩
    | case4 =>
      cases h
      exact ⟨[], .nil, rfl⟩
    | case5 => cases h
    | case6 c cs hslash hne ih =>
      obtain ⟨more, hmore, rfl⟩ := Option.map_eq_some_iff.mp h
      obtain ⟨items, hitems, rfl⟩ := ih hmore
      exact ⟨([c], c) :: items, .cons (.plain hslash hne) (.of_plain hslash) hitems, rfl⟩
  · rintro ⟨items, hitems, rfl⟩
    induction hitems with
    | nil =>
      rw [content?, if_neg hquote, if_pos rfl, if_pos rfl]
      rfl
    | cons hitem hgreedy _ ih =>
      cases hitem with
      | plain hslash hne =>
        rw [List.singleton_append, content?, if_neg hslash, if_neg hne, ih]
        rfl
      | escape hescape =>
        have hread := escape?_eq_some_iff.mpr ⟨_, rfl, hescape, hgreedy⟩
        rw [List.cons_append, content?, if_pos rfl]
        split
        · rename_i hnone
          rw [hread] at hnone
          cases hnone
        · rename_i hsome
          rw [hread] at hsome
          cases hsome
          rw [ih]
          rfl

/-! ## Literals -/

theorem ne_backslash_of_quote {quote : Char} (h : quote = doubleQuote ∨ quote = apostrophe) :
    quote ≠ '\\' := by
  rcases h with rfl | rfl <;> decide

theorem decodeChars?_eq_some_iff {cs value : List Char} :
    decodeChars? cs = some value ↔
      ∃ quote items, Spells quote items cs ∧ value = items.map Prod.snd := by
  constructor
  · intro h
    unfold decodeChars? at h
    split at h
    · cases h
    · split at h
      · rename_i quote inside hquote
        obtain ⟨items, hitems, rfl⟩ :=
          (content?_eq_some_iff (ne_backslash_of_quote hquote)).mp h
        exact ⟨quote, items, .literal hquote hitems, rfl⟩
      · cases h
  · rintro ⟨quote, items, ⟨hquote, hitems⟩, rfl⟩
    rw [decodeChars?, if_pos hquote]
    exact (content?_eq_some_iff (ne_backslash_of_quote hquote)).mpr ⟨items, hitems, rfl⟩

/-- A text is a literal in one way. -/
theorem Spells.unique {quote quote' : Char} {items items' : List (List Char × Char)}
    {cs : List Char} (h : Spells quote items cs) (h' : Spells quote' items' cs) :
    quote = quote' ∧ items = items' := by
  obtain ⟨hquote, hitems⟩ := h
  obtain ⟨-, hitems'⟩ := h'
  exact ⟨rfl, hitems.unique (ne_backslash_of_quote hquote) hitems'⟩

theorem decode?_eq_some_iff {literal value : String} : decode? literal = some value ↔
    ∃ quote items, Spells quote items literal.toList ∧
      value = String.ofList (items.map Prod.snd) := by
  rw [decode?, Option.map_eq_some_iff]
  constructor
  · rintro ⟨chars, hchars, rfl⟩
    obtain ⟨quote, items, hspells, rfl⟩ := decodeChars?_eq_some_iff.mp hchars
    exact ⟨quote, items, hspells, rfl⟩
  · rintro ⟨quote, items, hspells, rfl⟩
    exact ⟨_, decodeChars?_eq_some_iff.mpr ⟨quote, items, hspells, rfl⟩, rfl⟩

/-- A text is decoded exactly if it is a literal, to the characters that its items stand for, and it
is a literal in one way only. -/
theorem decode?_eq_some_iff_spells (literal : String) :
    (∀ value, decode? literal = some value ↔ ∃ quote items,
      Spells quote items literal.toList ∧ value = String.ofList (items.map Prod.snd)) ∧
    (decode? literal = none ↔ ¬∃ quote items, Spells quote items literal.toList) ∧
    ∀ quote quote' items items', Spells quote items literal.toList →
      Spells quote' items' literal.toList → quote = quote' ∧ items = items' := by
  refine ⟨fun value => decode?_eq_some_iff, ?_, fun quote quote' items items' h h' => h.unique h'⟩
  rw [Option.eq_none_iff_forall_ne_some]
  constructor
  · rintro hnone ⟨quote, items, hspells⟩
    exact hnone _ (decode?_eq_some_iff.mpr ⟨quote, items, hspells, rfl⟩)
  · rintro hnone value hvalue
    obtain ⟨quote, items, hspells, -⟩ := decode?_eq_some_iff.mp hvalue
    exact hnone ⟨quote, items, hspells⟩

/-- A literal between apostrophes with an item of each kind, where an eight ends octal digits and
stands for itself; and a text that is no literal, for want of a hexadecimal digit. -/
theorem decode?_eq_some_iff_spells_eight :
    (∃ items, Spells apostrophe items "'\"\\n\\x41\\u00e9\\1018\\78'".toList ∧
      items.map Prod.fst = [['"'], ['\\', 'n'], ['\\', 'x', '4', '1'],
        ['\\', 'u', '0', '0', 'e', '9'], ['\\', '1', '0', '1'], ['8'], ['\\', '7'], ['8']] ∧
      decode? "'\"\\n\\x41\\u00e9\\1018\\78'" = some "\"\nAéA8\x078" ∧
      ∀ quote items', Spells quote items' "'\"\\n\\x41\\u00e9\\1018\\78'".toList →
        apostrophe = quote ∧ items = items') ∧
    ¬∃ quote items, Spells quote items "'\\x4'".toList := by
  constructor
  · have hspells : Spells apostrophe [(['"'], '"'), (['\\', 'n'], '\n'),
        (['\\', 'x', '4', '1'], 'A'), (['\\', 'u', '0', '0', 'e', '9'], 'é'),
        (['\\', '1', '0', '1'], 'A'), (['8'], '8'), (['\\', '7'], '\x07'), (['8'], '8')]
        "'\"\\n\\x41\\u00e9\\1018\\78'".toList := by
      refine .literal (.inr rfl) (.cons (.plain (by decide) (by decide)) (.of_plain (by decide))
        (.cons (.escape (.letter (by decide))) (.of_not_octal rfl)
        (.cons (.escape (.short rfl (.of_all rfl rfl))) (.of_not_octal rfl)
        (.cons (.escape (.long rfl (.of_all rfl rfl))) (.of_not_octal rfl)
        (.cons (.escape (.octal (by decide) (by decide) (.of_all rfl rfl))) ?_
        (.cons (.plain (by decide) (by decide)) (.of_plain (by decide))
        (.cons (.escape (.octal (by decide) (by decide) (.of_all rfl rfl))) ?_
        (.cons (.plain (by decide) (by decide)) (.of_plain (by decide)) .nil))))))))
      · rintro digits ⟨⟩ - hshort
        exact absurd hshort (by decide)
      · rintro digits ⟨⟩ - - d ⟨⟩
        rfl
    exact ⟨_, hspells, rfl, ((decode?_eq_some_iff_spells _).1 _).mpr ⟨_, _, hspells, by decide⟩,
      fun quote items' => (decode?_eq_some_iff_spells _).2.2 _ quote _ items' hspells⟩
  · exact (decode?_eq_some_iff_spells _).2.1.mp (by decide +kernel)

end WatMacro.Text.Quoted
