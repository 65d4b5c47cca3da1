import WatMacro.Proofs.Expand.Positions
import WatMacro.Proofs.Outline.Expand

/-!
# Expressions that may be interchanged

A form looks at what its expressions expand to, and hardly at how they are written: it tells a name
from all else right after some heads, and keywords and names from all else at its own head. So an
expression other than a keyword may be interchanged for a list that expands in the same way.

Results:

* `Branch.Interchange.expandForm_eq`: a form expands in the same way after its expressions have been
  interchanged.
* `Branch.expandForm_call`: a form headed by a name is short for a call of that name.
* `Outline.expand_long`: an atom is short for a form.
-/

namespace WatMacro

theorem Outline.isName_eq_true {outline : Outline} (h : outline.isName = true) :
    ∃ text, outline = .word .name text := by
  unfold isName at h
  split at h
  · exact ⟨_, rfl⟩
  · cases h

namespace Branch

variable {σ : Type}

theorem expandLast_cons_cons (first second : Branch σ) (rest : List (Branch σ)) :
    expandLast (first :: second :: rest) = do
      let back ← expandLast (second :: rest)
      return first.outline :: back :=
  rfl

theorem expandAfterName_of_isName (head : String) (first second : Branch σ)
    (rest : List (Branch σ)) {text : String} (h : second.outline = .word .name text) :
    expandAfterName head (first :: second :: rest) =
      (do
        if head = "module" then
          Run.addModule (Form.moduleName text)
        expandAfter 2 (first :: second :: rest)) := by
  rw [expandAfterName, outlines, List.map_cons, List.map_cons, h]

theorem expandAfterName_of_not_isName {head : String} {first : Branch σ} {rest : List (Branch σ)}
    (h : ∀ branch ∈ rest.head?, branch.outline.isName = false) :
    expandAfterName head (first :: rest) = expandAfter 1 (first :: rest) := by
  unfold expandAfterName
  split
  · rename_i text _ houtlines
    cases rest with
    | nil => cases houtlines
    | cons second rest =>
      have hname := h second rfl
      have houtline : second.outline = .word .name text :=
        (List.cons.inj (List.cons.inj houtlines).2).1
      rw [houtline] at hname
      cases hname
  · rfl

theorem expandForm_of_plain (entering : Entering σ) {head : Branch σ}
    {arguments : List (Branch σ)} (hname : ∀ text, head.outline ≠ .word .name text)
    (hkeyword : ∀ text, head.outline ≠ .keyword text) :
    expandForm entering (head :: arguments) =
      (do
        let children ← expandAll (head :: arguments)
        return [.list children]) := by
  unfold expandForm
  dsimp only
  split
  · exact absurd ‹_› (hname _)
  · exact absurd ‹_› (hkeyword _)
  · rfl

/-! ## Interchange -/

/-- The second words are the first ones, except that lists with the same expansions may stand for
expressions other than keywords. Positions count from the one that the first word has. -/
inductive Interchange (expression : Nat → Bool) : Nat → List (Branch σ) → List (Branch σ) → Prop
  | nil (position : Nat) : Interchange expression position [] []
  | keep {position : Nat} {branches branches' : List (Branch σ)} (branch : Branch σ) :
    Interchange expression (position + 1) branches branches' →
    Interchange expression position (branch :: branches) (branch :: branches')
  | swap {position : Nat} {branches branches' : List (Branch σ)} {outline : Outline}
    (words : List Outline) (expanded : Run σ (List Outline)) : expression position = true →
    (∀ text, outline ≠ .keyword text) →
    Interchange expression (position + 1) branches branches' →
    Interchange expression position (⟨outline, expanded⟩ :: branches)
      (⟨.list words, expanded⟩ :: branches')

namespace Interchange

variable {expression : Nat → Bool} {position : Nat} {branches branches' : List (Branch σ)}

theorem length_eq (h : Interchange expression position branches branches') :
    branches'.length = branches.length := by
  induction h with
  | nil => rfl
  | keep _ _ ih => rw [List.length_cons, List.length_cons, ih]
  | swap _ _ _ _ _ ih => rw [List.length_cons, List.length_cons, ih]

/-- Words that are no expressions stay. -/
theorem eq_of_none (h : Interchange expression position branches branches')
    (hnone : ∀ i, position ≤ i → expression i = false) : branches' = branches := by
  induction h with
  | nil => rfl
  | keep _ _ ih => rw [ih fun i hi => hnone i (Nat.le_of_succ_le hi)]
  | swap _ _ hexpression => simp [hnone _ le_rfl] at hexpression

theorem expandAll_eq (h : Interchange expression position branches branches') :
    expandAll branches' = expandAll branches := by
  induction h with
  | nil => rfl
  | keep _ _ ih => rw [expandAll, expandAll, ih]
  | swap _ _ _ _ _ ih => rw [expandAll, expandAll, ih]

theorem expandLast_eq (h : Interchange expression position branches branches')
    (hlast : ∀ i, position ≤ i → expression i = true → i + 1 = position + branches.length) :
    expandLast branches' = expandLast branches := by
  induction h with
  | nil => rfl
  | keep branch h ih =>
    have hrest := ih fun i hi hexpression => by
      have := hlast i (by omega) hexpression
      rw [List.length_cons] at this
      omega
    cases h with
    | nil => rfl
    | _ => rw [expandLast_cons_cons, expandLast_cons_cons, hrest]
  | swap _ _ hexpression _ h =>
    have hlength := hlast _ le_rfl hexpression
    cases h with
    | nil => rfl
    | _ =>
      simp only [List.length_cons] at hlength
      omega

/-! ### Macros -/

theorem conjunction_eq (h : Interchange expression position branches branches') :
    conjunction branches' = conjunction branches := by
  induction h with
  | nil => rfl
  | keep _ _ ih => rw [conjunction, conjunction, ih]
  | swap _ _ _ _ _ ih => rw [conjunction, conjunction, ih]

theorem disjunction_eq (h : Interchange expression position branches branches') :
    disjunction branches' = disjunction branches := by
  induction h with
  | nil => rfl
  | keep _ _ ih => rw [disjunction, disjunction, ih]
  | swap _ _ _ _ _ ih => rw [disjunction, disjunction, ih]

/-- The names have odd positions, the values even ones. -/
theorem bindings_eq (h : Interchange expression position branches branches')
    (hposition : position % 2 = 1) (hnames : ∀ i, i % 2 = 1 → expression i = false) :
    bindings branches' = bindings branches := by
  induction branches using bindings.induct generalizing position branches' with
  | case1 name value branches hname ih =>
    cases h with
    | swap _ _ hexpression => simp [hnames _ hposition] at hexpression
    | keep _ h =>
      cases h with
      | keep _ h => rw [bindings, bindings, ih h (by omega)]
      | swap _ _ _ _ h => rw [bindings, bindings, ih h (by omega)]
  | case2 name value branches hname =>
    cases h with
    | swap _ _ hexpression => simp [hnames _ hposition] at hexpression
    | keep _ h =>
      cases h with
      | keep => simp only [bindings, hname, Bool.false_eq_true, if_false]
      | swap => simp only [bindings, hname, Bool.false_eq_true, if_false]
  | case3 branches hshort =>
    cases h with
    | nil => rfl
    | keep name h =>
      cases h with
      | nil => rfl
      | _ => exact absurd rfl (hshort _ _ _)
    | swap _ _ _ _ h =>
      cases h with
      | nil => rfl
      | _ => exact absurd rfl (hshort _ _ _)

/-! ### Forms -/

/-- A macro makes the same of arguments whose expressions have been interchanged. -/
theorem expandMacro_eq {text : String} {builtin : Builtin} {b a arguments : List Node}
    (entering : Entering σ) (hbuiltin : Builtin.ofKeyword? text = some builtin)
    (h : Interchange (Form.isExpression (.atom .keyword text b a :: arguments)) 1 branches
      branches') :
    expandMacro entering builtin branches' = expandMacro entering builtin branches := by
  have hlength := h.length_eq
  have hkept : (∀ i, Form.isExpression (.atom .keyword text b a :: arguments) i = false) →
      expandMacro entering builtin branches' = expandMacro entering builtin branches := by
    intro hnone
    rw [h.eq_of_none fun i _ => hnone i]
  cases builtin with
  | and =>
    have hconjunction := h.conjunction_eq
    cases h with
    | nil => rfl
    | _ => exact hconjunction
  | or =>
    have hdisjunction := h.disjunction_eq
    cases h with
    | nil => rfl
    | _ => exact hdisjunction
  | chr => exact hkept fun i => by simp only [Form.isExpression, hbuiltin]
  | string => exact hkept fun i => by simp only [Form.isExpression, hbuiltin]
  | staticArray => exact hkept fun i => by simp only [Form.isExpression, hbuiltin]
  | bindLocals =>
    have hbindings := h.bindings_eq rfl fun i hodd => by
      simp [Form.isExpression, hbuiltin, hodd]
    rw [expandMacro, expandMacro, hlength, hbindings]

theorem expandAfterName_eq {text : String} {b a arguments : List Node} (head : Branch σ)
    (houtlined : List.Forall₂ Outlined arguments (outlines branches))
    (hbuiltin : Builtin.ofKeyword? text = none) (hpolicy : Policy.ofHead text = .afterName)
    (h : Interchange (Form.isExpression (.atom .keyword text b a :: arguments)) 1 branches
      branches') :
    expandAfterName text (head :: branches') = expandAfterName text (head :: branches) := by
  have hplain : (∀ branch ∈ branches.head?, branch.outline.isName = false) →
      (∀ branch ∈ branches'.head?, branch.outline.isName = false) →
      expandAfterName text (head :: branches') = expandAfterName text (head :: branches) := by
    intro hfirst hfirst'
    rw [expandAfterName_of_not_isName hfirst, expandAfterName_of_not_isName hfirst', expandAfter,
      expandAfter, expandAfter, expandAfter, h.expandAll_eq]
  cases h with
  | nil => rfl
  | keep second hrest =>
    cases hname : second.outline.isName with
    | true =>
      obtain ⟨name, houtline⟩ := Outline.isName_eq_true hname
      rw [expandAfterName_of_isName text head second _ houtline,
        expandAfterName_of_isName text head second _ houtline, expandAfter, expandAfter,
        expandAfter, expandAfter, expandAfter, expandAfter, hrest.expandAll_eq]
    | false =>
      exact hplain (fun _ hmem => Option.mem_some.mp hmem ▸ hname)
        fun _ hmem => Option.mem_some.mp hmem ▸ hname
  | @swap _ _ _ outline words expanded hexpression _ _ =>
    -- were the second word a name, it would be no expression
    have hname : outline.isName = false := by
      cases houtlined with
      | cons hsecond =>
        cases hsecond with
        | @atom kind text' _ _ _ =>
          cases kind with
          | name => simp [Form.isExpression, hbuiltin, hpolicy, Node.isName] at hexpression
          | _ => rfl
        | _ => rfl
    exact hplain (fun _ hmem => Option.mem_some.mp hmem ▸ hname)
      fun _ hmem => Option.mem_some.mp hmem ▸ rfl

theorem expandByPolicy_eq {text : String} {b a arguments : List Node} (head : Branch σ)
    (houtlined : List.Forall₂ Outlined arguments (outlines branches))
    (hbuiltin : Builtin.ofKeyword? text = none)
    (h : Interchange (Form.isExpression (.atom .keyword text b a :: arguments)) 1 branches
      branches') :
    expandByPolicy text (head :: branches') = expandByPolicy text (head :: branches) := by
  have hrow : Interchange (Form.isExpression (.atom .keyword text b a :: arguments)) 0
      (head :: branches) (head :: branches') :=
    h.keep head
  have hlength : arguments.length = branches.length := by
    rw [houtlined.length_eq, outlines, List.length_map]
  have hkept : (∀ i, Form.isExpression (.atom .keyword text b a :: arguments) i = false) →
      outlines (head :: branches') = outlines (head :: branches) := by
    intro hnone
    rw [h.eq_of_none fun i _ => hnone i]
  have hlast : (∀ i, Form.isExpression (.atom .keyword text b a :: arguments) i =
        decide (i + 1 = (.atom .keyword text b a :: arguments : List Node).length)) →
      expandLast (head :: branches') = expandLast (head :: branches) := by
    intro hexpression
    refine hrow.expandLast_eq fun i _ hi => ?_
    rw [hexpression, decide_eq_true_eq, List.length_cons, hlength] at hi
    rw [hi, List.length_cons, Nat.zero_add]
  unfold expandByPolicy
  cases hpolicy : Policy.ofHead text with
  | hoist last =>
    cases last with
    | true => rw [hlast fun i => by simp only [Form.isExpression, hbuiltin, hpolicy]]
    | false => rw [hkept fun i => by simp only [Form.isExpression, hbuiltin, hpolicy]]
  | verbatim => rw [hkept fun i => by simp only [Form.isExpression, hbuiltin, hpolicy]]
  | afterName => rw [h.expandAfterName_eq head houtlined hbuiltin hpolicy]
  | lastOnly => rw [hlast fun i => by simp only [Form.isExpression, hbuiltin, hpolicy]]
  | all => rw [hrow.expandAll_eq]

/-- A form expands in the same way after its expressions have been interchanged. -/
theorem expandForm_eq (entering : Entering σ) {words : List Node}
    (houtlined : List.Forall₂ Outlined words (outlines branches))
    (h : Interchange (Form.isExpression words) 0 branches branches') :
    expandForm entering branches' = expandForm entering branches := by
  have hall := h.expandAll_eq
  cases h with
  | nil => rfl
  | @keep _ branches branches' head h =>
    cases houtlined with
    | @cons node _ rest _ hhead hrest =>
      have hplain : (∀ text, head.outline ≠ .word .name text) →
          (∀ text, head.outline ≠ .keyword text) →
          expandForm entering (head :: branches') = expandForm entering (head :: branches) := by
        intro hname hkeyword
        rw [expandForm_of_plain entering hname hkeyword,
          expandForm_of_plain entering hname hkeyword, hall]
      generalize houtline : head.outline = outline at hhead hplain
      cases hhead with
      | @atom kind text b a hkind =>
        cases kind with
        | name => simp only [expandForm, houtline, h.expandAll_eq]
        | keyword =>
          cases hbuiltin : Builtin.ofKeyword? text with
          | some builtin =>
            simp only [expandForm, houtline, hbuiltin, h.expandMacro_eq entering hbuiltin]
          | none =>
            simp only [expandForm, houtline, hbuiltin, h.expandByPolicy_eq head hrest hbuiltin]
        | _ => exact hplain (by simp) (by simp [Outline.keyword])
      | _ => exact hplain (by simp) (by simp [Outline.keyword])
  | @swap _ branches branches' outline words expanded hexpression hkeyword h =>
    -- were the head a name, it would be no expression
    have hname : ∀ text, outline ≠ .word .name text := by
      rintro text rfl
      cases houtlined with
      | cons hhead =>
        cases hhead
        simp [Form.isExpression] at hexpression
    have hlist : expandForm entering (⟨.list words, expanded⟩ :: branches') =
        expandAll (⟨.list words, expanded⟩ :: branches') >>= fun children =>
          pure [.list children] :=
      expandForm_of_plain entering (by simp) (by simp [Outline.keyword])
    rw [hlist, hall]
    exact (expandForm_of_plain entering hname hkeyword).symm

end Interchange

/-! ## Short forms -/

/-- A form headed by a name is short for a call of that name. -/
theorem expandForm_call (entering : Entering σ) {keyword head : Branch σ}
    (arguments : List (Branch σ)) {text : String} (hkeyword : keyword.outline = .keyword "call")
    (hhead : head.outline = .word .name text) :
    expandForm entering (keyword :: head :: arguments) =
      expandForm entering (head :: arguments) := by
  have hlong : expandForm entering (keyword :: head :: arguments) =
      (do
        let children ← expandAfter 2 (keyword :: head :: arguments)
        return [.list children]) := by
    have hpolicy : expandForm entering (keyword :: head :: arguments) =
        expandByPolicy "call" (keyword :: head :: arguments) := by
      rw [expandForm, hkeyword]
      rfl
    have hplain : expandAfterName "call" (keyword :: head :: arguments) =
        expandAfter 2 (keyword :: head :: arguments) := by
      rw [expandAfterName_of_isName "call" keyword head arguments hhead]
      exact if_neg (by decide)
    rw [hpolicy, ← hplain]
    rfl
  have hshort : expandForm entering (head :: arguments) =
      (do
        let children ← expandAll arguments
        return [.list (.keyword "call" :: head.outline :: children)]) := by
    rw [expandForm, hhead]
  rw [hlong, hshort, expandAfter, expandAfter, expandAfter, hkeyword]
  funext collected
  simp only [Run.bind_apply]
  cases expandAll arguments collected with
  | mk result after => cases result <;> rfl

/-- A form headed by a name expands like the call of that name, also after its expressions have been
interchanged. -/
theorem Interchange.expandForm_call_eq {branches branches' : List (Branch σ)}
    (entering : Entering σ) (keyword : Branch σ) (hkeyword : keyword.outline = .keyword "call")
    {text : String} {b a arguments : List Node}
    (houtlined : List.Forall₂ Outlined (.atom .name text b a :: arguments) (outlines branches))
    (h : Interchange (Form.isExpression (.atom .name text b a :: arguments)) 0 branches branches') :
    expandForm entering (keyword :: branches') = expandForm entering branches := by
  have hexpand := h.expandForm_eq entering houtlined
  cases h with
  | nil => cases houtlined
  | @keep _ branches branches' head h =>
    have hhead : head.outline = .word .name text := by
      rw [outlines, List.map_cons] at houtlined
      generalize head.outline = outline at houtlined
      cases houtlined with
      | cons hhead =>
        cases hhead
        rfl
    rw [expandForm_call entering branches' hkeyword hhead, hexpand]
  | swap _ _ hexpression => simp [Form.isExpression] at hexpression

end Branch

/-- The head of the form that an atom is short for where it is an expression. -/
def AtomKind.longHead? : AtomKind → Option String
  | .name => some "get_local"
  | .integer => some "i32.const"
  | .float => some "f32.const"
  | .string => some "STRING"
  | _ => none

/-- An atom is short for a form. -/
theorem Outline.expand_long {σ : Type} (entering : Entering σ) {kind : AtomKind} {head : String}
    (h : kind.longHead? = some head) (text : String) :
    expand entering (list [keyword head, word kind text]) = expand entering (word kind text) := by
  cases kind with
  | trivia | keyword => cases h
  | _ =>
    cases h
    rfl

end WatMacro
