import Mathlib.Data.List.Nodup
import WatMacro.Proofs.Expand.Positions

/-!
# Conjunctions and disjunctions stop early

The conditionals that `AND` and `OR` make are built from the last argument back, and run from the
first one on. A run of nested conditionals ends in a constant. A conditional is known by the
branches that lead to it, so that tests that look alike are kept apart.

Results:

* `Builtin.conjunction_eq`, `Builtin.disjunction_eq`: both macros expand their arguments from the
  last one back, and chain them.
* `Conditional.runs_chain`: a chain runs its tests in order, up to the first one that settles the
  value.
* `Node.expand_shortCircuit`: the same of the forms that `AND` and `OR` expand to.
-/

namespace WatMacro

open Expand Builtin

namespace Conditional

/-- Where a conditional stands in a tree: the branches that lead to it, from the root on. A positive
branch is `true`. -/
abbrev Place := List Bool

/-- The runs of a tree of conditionals that stands at a place: the value, and the tests in the order
in which they run, each with its place. What a test is does not matter, only its outcome does. -/
inductive Runs (outcome : Place → UInt32) :
    Place → Node → UInt32 → List (Place × Node) → Prop
  | constant {place : Place} {text : String} {value : UInt32} (before after : List Node) :
    Text.word32? text.toList = some value →
    Runs outcome place (.list [.keyword "i32.const", .integer text] before after) value []
  | positive {place : Place} {test positive negative : Node} {value : UInt32}
      {trace : List (Place × Node)} (before after : List Node) :
    outcome place ≠ 0 → Runs outcome (place ++ [true]) positive value trace →
    Runs outcome place
      (.list [.keyword "if", .keyword "i32", test, positive, negative] before after)
      value ((place, test) :: trace)
  | negative {place : Place} {test positive negative : Node} {value : UInt32}
      {trace : List (Place × Node)} (before after : List Node) :
    outcome place = 0 → Runs outcome (place ++ [false]) negative value trace →
    Runs outcome place
      (.list [.keyword "if", .keyword "i32", test, positive, negative] before after)
      value ((place, test) :: trace)

/-- Conditionals one inside the other: a test leads to the next one if its outcome, as a truth
value, is `goesOn`. -/
def chain (goesOn : Bool) : List Node → Node
  | [] => Builtin.constant (if goesOn then "1" else "0")
  | test :: tests =>
    if goesOn then conditional test (chain goesOn tests) (Builtin.constant "0")
    else conditional test (Builtin.constant "1") (chain goesOn tests)

/-- The tests of a chain that stands at a place, each with its own place. -/
def steps (goesOn : Bool) (place : Place) (tests : List Node) : List (Place × Node) :=
  tests.mapIdx fun i test => (place ++ List.replicate i goesOn, test)

/-- The items up to and including the first one at which something stops, and all if there is no
such item. -/
def through {α : Type} (stops : α → Bool) (items : List α) : List α :=
  items.take (items.findIdx stops + 1)

section

variable {outcome : Place → UInt32} {place : Place} {value : UInt32} {trace : List (Place × Node)}
  {before after : List Node}

theorem steps_cons (goesOn : Bool) (place : Place) (test : Node) (tests : List Node) :
    steps goesOn place (test :: tests) =
      (place, test) :: steps goesOn (place ++ [goesOn]) tests := by
  simp [steps, List.mapIdx_cons, List.replicate_succ]

theorem length_place_steps (goesOn : Bool) (place : Place) (tests : List Node) :
    (steps goesOn place tests).map (·.1.length) = List.range' place.length tests.length := by
  induction tests generalizing place with
  | nil => rfl
  | cons test tests ih =>
    rw [steps_cons, List.map_cons, ih, List.length_append, List.length_cons, List.length_cons,
      List.range'_succ]
    rfl

/-- No two tests of a chain stand at one place. -/
theorem nodup_steps (goesOn : Bool) (place : Place) (tests : List Node) :
    ((steps goesOn place tests).map Prod.fst).Nodup := by
  apply List.Nodup.of_map List.length
  rw [List.map_map]
  change ((steps goesOn place tests).map (·.1.length)).Nodup
  rw [length_place_steps]
  exact List.nodup_range'

theorem through_cons_stops {α : Type} {stops : α → Bool} {item : α} (h : stops item = true)
    (items : List α) : through stops (item :: items) = [item] := by
  simp [through, List.findIdx_cons, h]

theorem through_cons_goesOn {α : Type} {stops : α → Bool} {item : α} (h : stops item = false)
    (items : List α) : through stops (item :: items) = item :: through stops items := by
  simp [through, List.findIdx_cons, h]

theorem word32?_zero : Text.word32? "0".toList = some 0 := by decide

theorem word32?_one : Text.word32? "1".toList = some 1 := by decide

theorem runs_constant_iff {text : String} {number : UInt32}
    (htext : Text.word32? text.toList = some number) :
    Runs outcome place (.list [.keyword "i32.const", .integer text] before after) value trace ↔
      value = number ∧ trace = [] := by
  constructor
  · generalize htree : Node.list [.keyword "i32.const", .integer text] before after = tree
    intro h
    cases h with
    | constant _ _ hvalue =>
      cases htree
      rw [htext] at hvalue
      exact ⟨(Option.some.inj hvalue).symm, rfl⟩
    | _ => simp at htree
  · rintro ⟨rfl, rfl⟩
    exact .constant before after htext

theorem runs_conditional_iff {test positive negative : Node} :
    Runs outcome place
        (.list [.keyword "if", .keyword "i32", test, positive, negative] before after) value trace ↔
      ∃ tail, trace = (place, test) :: tail ∧
        if outcome place = 0 then Runs outcome (place ++ [false]) negative value tail
        else Runs outcome (place ++ [true]) positive value tail := by
  constructor
  · generalize htree :
      Node.list [.keyword "if", .keyword "i32", test, positive, negative] before after = tree
    intro h
    cases h with
    | constant => simp at htree
    | positive _ _ hpositive hruns =>
      cases htree
      exact ⟨_, rfl, by rwa [if_neg hpositive]⟩
    | negative _ _ hnegative hruns =>
      cases htree
      exact ⟨_, rfl, by rwa [if_pos hnegative]⟩
  · rintro ⟨tail, rfl, h⟩
    split at h
    · rename_i hnegative
      exact .negative before after hnegative h
    · rename_i hpositive
      exact .positive before after hpositive h

/-- Attachments do not matter. -/
theorem Runs.surround {node : Node} (h : Runs outcome place node value trace)
    (before after : List Node) : Runs outcome place (node.surround before after) value trace := by
  cases h with
  | constant _ _ htext => exact .constant before after htext
  | positive _ _ htest hruns => exact .positive before after htest hruns
  | negative _ _ htest hruns => exact .negative before after htest hruns

theorem runs_surround_iff {node : Node} :
    Runs outcome place (node.surround before after) value trace ↔
      Runs outcome place node value trace := by
  constructor
  · intro h
    simpa using h.surround node.before node.after
  · intro h
    exact h.surround before after

/-- Whether a test leads to the next one of a chain. -/
def leadsOn (goesOn : Bool) (outcome : Place → UInt32) (step : Place × Node) : Bool :=
  decide (outcome step.1 ≠ 0) == goesOn

theorem all_leadsOn_true {tests : List (Place × Node)} :
    tests.all (leadsOn true outcome) = true ↔ ∀ step ∈ tests, outcome step.1 ≠ 0 := by
  simp [leadsOn]

theorem all_leadsOn_false {tests : List (Place × Node)} :
    tests.all (leadsOn false outcome) = false ↔ ∃ step ∈ tests, outcome step.1 ≠ 0 := by
  simp [leadsOn]

/-- What the first test of a chain does. -/
theorem runs_chain_cons {goesOn : Bool} {test : Node} {tests : List Node} :
    Runs outcome place (chain goesOn (test :: tests)) value trace ↔
      ∃ tail, trace = (place, test) :: tail ∧
        if leadsOn goesOn outcome (place, test) then
          Runs outcome (place ++ [goesOn]) (chain goesOn tests) value tail
        else value = (if goesOn then 0 else 1) ∧ tail = [] := by
  cases goesOn with
  | true =>
    apply runs_conditional_iff.trans
    refine exists_congr fun tail => and_congr_right fun _ => ?_
    by_cases htest : outcome place = 0
    · rw [if_pos htest, if_neg (by simp [leadsOn, htest])]
      exact runs_constant_iff word32?_zero
    · rw [if_neg htest, if_pos (by simp [leadsOn, htest])]
  | false =>
    apply runs_conditional_iff.trans
    refine exists_congr fun tail => and_congr_right fun _ => ?_
    by_cases htest : outcome place = 0
    · rw [if_pos htest, if_pos (by simp [leadsOn, htest])]
    · rw [if_neg htest, if_neg (by simp [leadsOn, htest])]
      exact runs_constant_iff word32?_one

/-- A chain runs its tests in order, up to the first one that settles the value. -/
theorem runs_chain (goesOn : Bool) (tests : List Node) :
    Runs outcome place (chain goesOn tests) value trace ↔
      value = (if (steps goesOn place tests).all (leadsOn goesOn outcome) = goesOn then 1 else 0) ∧
      trace = through (fun step => !leadsOn goesOn outcome step) (steps goesOn place tests) := by
  induction tests generalizing place trace with
  | nil =>
    cases goesOn with
    | true => exact runs_constant_iff word32?_one
    | false => exact runs_constant_iff word32?_zero
  | cons test tests ih =>
    rw [runs_chain_cons, steps_cons, List.all_cons]
    cases hleads : leadsOn goesOn outcome (place, test) with
    | true =>
      rw [through_cons_goesOn (by simp [hleads])]
      simp only [if_true, ih, Bool.true_and]
      constructor
      · rintro ⟨tail, rfl, rfl, rfl⟩
        exact ⟨rfl, rfl⟩
      · rintro ⟨rfl, rfl⟩
        exact ⟨_, rfl, rfl, rfl⟩
    | false =>
      rw [through_cons_stops (by simp [hleads])]
      cases goesOn <;> simp [and_comm]

end

end Conditional

/-! ## The macros -/

namespace Node

/-- The expansions of nodes, in order, where the last one is expanded first. -/
def expandBack : List Node → Expand (List Node)
  | [] => pure []
  | node :: nodes => do
    let rest ← expandBack nodes
    let first ← node.expand
    return first :: rest

theorem length_expandBack {nodes results : List Node} {context next : Context}
    (h : expandBack nodes context = (.ok results, next)) : results.length = nodes.length := by
  induction nodes generalizing results next with
  | nil =>
    cases h
    rfl
  | cons node nodes ih =>
    obtain ⟨rest, between, hrest, h⟩ := bind_eq_ok h
    obtain ⟨first, last, -, h⟩ := bind_eq_ok h
    cases h
    rw [List.length_cons, List.length_cons, ih hrest]

end Node

namespace Builtin

open Conditional

/-- A conjunction expands its arguments from the last one back, and chains them. -/
theorem conjunction_eq (arguments : List Node) :
    conjunction (arguments.map Node.operand) = (do
      let tests ← Node.expandBack arguments
      return chain true tests) := by
  induction arguments with
  | nil => rfl
  | cons argument arguments ih =>
    simp only [List.map_cons, conjunction, ih, Node.expandBack, bind_assoc, pure_bind]
    rfl

/-- A disjunction expands its arguments from the last one back, and chains them. -/
theorem disjunction_eq (arguments : List Node) :
    disjunction (arguments.map Node.operand) = (do
      let tests ← Node.expandBack arguments
      return chain false tests) := by
  induction arguments with
  | nil => rfl
  | cons argument arguments ih =>
    simp only [List.map_cons, disjunction, ih, Node.expandBack, bind_assoc, pure_bind]
    rfl

/-- What `AND` and `OR` yield is a chain of one or more tests. -/
theorem expand_chain {builtin : Builtin} {goesOn : Bool} {arguments : List Node}
    {context next : Context} {tree : Node}
    (hbuiltin : builtin = .and ∧ goesOn = true ∨ builtin = .or ∧ goesOn = false)
    (h : builtin.expand (arguments.map Node.operand) context = (.ok tree, next)) :
    ∃ tests, Node.expandBack arguments context = (.ok tests, next) ∧ tests ≠ [] ∧
      tree = chain goesOn tests := by
  cases arguments with
  | nil => rcases hbuiltin with ⟨rfl, rfl⟩ | ⟨rfl, rfl⟩ <;> cases h
  | cons argument arguments =>
    have hchain : builtin.expand ((argument :: arguments).map Node.operand) = (do
        let tests ← Node.expandBack (argument :: arguments)
        return chain goesOn tests) := by
      rcases hbuiltin with ⟨rfl, rfl⟩ | ⟨rfl, rfl⟩
      · exact conjunction_eq (argument :: arguments)
      · exact disjunction_eq (argument :: arguments)
    rw [hchain] at h
    obtain ⟨tests, last, htests, hlast⟩ := bind_eq_ok h
    cases hlast
    refine ⟨tests, htests, ?_, rfl⟩
    rintro rfl
    cases Node.length_expandBack htests

end Builtin

namespace Node

open Conditional

/-- The runs of what a call of `AND` or `OR` expands to. -/
theorem runs_attach_chain {goesOn : Bool} {tests : List Node} {before after : List Node}
    {outcome : Place → UInt32} {value : UInt32} {trace : List (Place × Node)} :
    Runs outcome [] (Form.attach before after (chain goesOn tests)) value trace ↔
      value = (if (steps goesOn [] tests).all (leadsOn goesOn outcome) = goesOn then 1 else 0) ∧
      trace = through (fun step => !leadsOn goesOn outcome step) (steps goesOn [] tests) := by
  have hattach : Form.attach before after (chain goesOn tests) =
      (chain goesOn tests).surround before after := by
    cases tests <;> cases goesOn <;> rfl
  rw [hattach, runs_surround_iff, runs_chain]

/-- Calls of `AND` and `OR` expand their arguments from the last one back to tests. A run of the
result runs the tests from the first one on. `AND` stops at the first zero outcome, and its value is
1 if there is none, else 0; `OR` stops at the first other outcome, and its value is 1 if there is
one, else 0. No test runs twice. -/
theorem expand_shortCircuit {children before after b a arguments : List Node} {text : String}
    {context next : Context} {tree : Node}
    (hwords : children.filter isWord = .atom .keyword text b a :: arguments)
    (hhead : text = "AND" ∨ text = "OR")
    (h : (list children before after).expand context = (.ok tree, next)) :
    ∃ tests, expandBack arguments context = (.ok tests, next) ∧ tests ≠ [] ∧
      tests.length = arguments.length ∧
      (text = "AND" → ∀ outcome value trace, Runs outcome [] tree value trace ↔
        value = (if ∀ step ∈ steps true [] tests, outcome step.1 ≠ 0 then 1 else 0) ∧
        trace = through (fun step => outcome step.1 = 0) (steps true [] tests)) ∧
      (text = "OR" → ∀ outcome value trace, Runs outcome [] tree value trace ↔
        value = (if ∃ step ∈ steps false [] tests, outcome step.1 ≠ 0 then 1 else 0) ∧
        trace = through (fun step => outcome step.1 ≠ 0) (steps false [] tests)) ∧
      ∀ outcome value trace, Runs outcome [] tree value trace → (trace.map Prod.fst).Nodup := by
  have hnodup : ∀ goesOn tests outcome value trace,
      Runs outcome [] (Form.attach before after (chain goesOn tests)) value trace →
      (trace.map Prod.fst).Nodup := by
    intro goesOn tests outcome value trace hruns
    obtain ⟨-, rfl⟩ := runs_attach_chain.mp hruns
    exact (nodup_steps goesOn [] tests).sublist ((List.take_sublist _ _).map Prod.fst)
  rcases hhead with rfl | rfl
  · rw [expand_builtin before after hwords rfl] at h
    obtain ⟨node, last, hnode, hlast⟩ := bind_eq_ok h
    cases hlast
    obtain ⟨tests, htests, hne, rfl⟩ := expand_chain (.inl ⟨rfl, rfl⟩) hnode
    refine ⟨tests, htests, hne, length_expandBack htests, fun _ outcome value trace => ?_,
      fun hother => absurd hother (by decide), hnodup true tests⟩
    simp only [runs_attach_chain, all_leadsOn_true]
    simp [leadsOn]
  · rw [expand_builtin before after hwords rfl] at h
    obtain ⟨node, last, hnode, hlast⟩ := bind_eq_ok h
    cases hlast
    obtain ⟨tests, htests, hne, rfl⟩ := expand_chain (.inr ⟨rfl, rfl⟩) hnode
    refine ⟨tests, htests, hne, length_expandBack htests,
      fun hother => absurd hother (by decide), fun _ outcome value trace => ?_, hnodup false tests⟩
    simp only [runs_attach_chain, all_leadsOn_false]
    simp [leadsOn]

/-- `(OR $a $b)` runs its second test if the first one is zero. -/
theorem expand_shortCircuit_two_names :
    Runs (fun place => if place = [] then 0 else 7) []
      (chain false [form [keyword "get_local", name "$a"], form [keyword "get_local", name "$b"]])
      1
      [([], form [keyword "get_local", name "$a"]),
        ([false], form [keyword "get_local", name "$b"])] := by
  have hexpand : (list [keyword "OR", trivia " ", name "$a", trivia " ", name "$b"] [] []).expand
      .empty = (.ok (chain false [form [keyword "get_local", name "$a"],
        form [keyword "get_local", name "$b"]]), .empty) := rfl
  obtain ⟨tests, htests, -, -, -, hor, -⟩ :=
    expand_shortCircuit (b := []) (a := []) rfl (.inr rfl) hexpand
  cases htests
  exact (hor rfl _ _ _).mpr ⟨by simp [steps], rfl⟩

end Node

end WatMacro
