import WatMacro.Proofs.Node.Listing
import WatMacro.StaticData

/-!
# Outlines

The outline of a tree is what is left of it without trivia and attachments.

Results:

* `Reading.run_of_words`: what is read depends on the tokens other than trivia alone.
* `Node.ofTokens_outlines`: tokens that are the same but for trivia are read as forms of one
  outline, or both refused.
-/

namespace WatMacro

/-- A tree without trivia and attachments. -/
inductive Outline where
  | word (kind : AtomKind) (text : String)
  /-- What a literal of the static data holds, where a name would stand for it. -/
  | entry (content : Content)
  | list (children : List Outline)
  | splice (items : List Outline)
  deriving Repr

/-- A token other than trivia. -/
def Token.isWord (token : Token) : Bool :=
  !token.isTrivia

namespace Node

mutual

/-- The outline of a node; trivia has none. -/
def outlines : Node → List Outline
  | atom kind text _ _ => if kind = .trivia then [] else [.word kind text]
  | list children _ _ => [.list (outlinesAll children)]
  | splice items _ _ => [.splice (outlinesAll items)]

/-- The outlines of several nodes. -/
def outlinesAll : List Node → List Outline
  | [] => []
  | node :: nodes => outlines node ++ outlinesAll nodes

end

theorem outlinesAll_eq (nodes : List Node) : outlinesAll nodes = nodes.flatMap outlines := by
  induction nodes with
  | nil => rfl
  | cons node nodes ih => rw [outlinesAll, ih, List.flatMap_cons]

@[simp] theorem outlinesAll_nil : outlinesAll [] = [] := rfl

@[simp] theorem outlinesAll_cons (node : Node) (nodes : List Node) :
    outlinesAll (node :: nodes) = node.outlines ++ outlinesAll nodes := by
  rw [outlinesAll]

@[simp] theorem outlinesAll_append (front back : List Node) :
    outlinesAll (front ++ back) = outlinesAll front ++ outlinesAll back := by
  simp only [outlinesAll_eq, List.flatMap_append]

@[simp] theorem outlines_trivia (text : String) : (trivia text).outlines = [] := rfl

@[simp] theorem outlines_list (children before after : List Node) :
    (list children before after).outlines = [.list (outlinesAll children)] := by
  rw [outlines]

@[simp] theorem outlines_form (children : List Node) :
    (form children).outlines = [.list (outlinesAll children)] :=
  outlines_list children [] []

@[simp] theorem outlines_splice (items before after : List Node) :
    (splice items before after).outlines = [.splice (outlinesAll items)] := by
  rw [outlines]

theorem outlines_leaf {kind : AtomKind} (h : kind ≠ .trivia) (text : String) :
    (leaf kind text).outlines = [.word kind text] := by
  rw [leaf, outlines, if_neg h]

@[simp] theorem outlines_surround (node : Node) (before after : List Node) :
    (node.surround before after).outlines = node.outlines := by
  cases node <;> simp [surround, outlines]

theorem outlines_of_isTrivia {node : Node} (h : node.isTrivia = true) : node.outlines = [] := by
  unfold isTrivia at h
  split at h
  · rw [outlines, if_pos rfl]
  · cases h

theorem outlinesAll_filter_isWord (nodes : List Node) :
    outlinesAll (nodes.filter isWord) = outlinesAll nodes := by
  induction nodes with
  | nil => rfl
  | cons node nodes ih =>
    rw [List.filter_cons, outlinesAll_cons]
    cases htrivia : node.isTrivia with
    | true => simp [isWord, htrivia, outlines_of_isTrivia, ih]
    | false => simp [isWord, htrivia, ih]

end Node

/-! ## Words and their outlines -/

/-- A word and its outline, by cases. -/
inductive Outlined : Node → Outline → Prop
  | atom {kind : AtomKind} (text : String) (before after : List Node) : kind ≠ .trivia →
    Outlined (.atom kind text before after) (.word kind text)
  | list (children before after : List Node) :
    Outlined (.list children before after) (.list (Node.outlinesAll children))
  | splice (items before after : List Node) :
    Outlined (.splice items before after) (.splice (Node.outlinesAll items))

theorem outlined_of_eq {node : Node} {outline : Outline} (h : node.outlines = [outline]) :
    Outlined node outline := by
  cases node with
  | atom kind text before after =>
    rw [Node.outlines] at h
    split at h
    · cases h
    · rename_i hkind
      cases h
      exact .atom text before after hkind
  | list children before after =>
    rw [Node.outlines_list] at h
    cases h
    exact .list children before after
  | splice items before after =>
    rw [Node.outlines_splice] at h
    cases h
    exact .splice items before after

theorem exists_outline {node : Node} (h : node.isWord = true) :
    ∃ outline, node.outlines = [outline] := by
  cases node with
  | atom kind text before after =>
    refine ⟨.word kind text, ?_⟩
    rw [Node.outlines, if_neg]
    rintro rfl
    cases h
  | list children before after => exact ⟨_, Node.outlines_list children before after⟩
  | splice items before after => exact ⟨_, Node.outlines_splice items before after⟩

/-! ## Readings without trivia -/

open Node

/-- A reading without trivia. The children of open lists stand oldest first. -/
inductive Sketch where
  | start
  | inside (outer : List (List Outline)) (children : List Outline)
  | complete (form : List Outline)

namespace Reading

/-- A reading without its trivia. -/
def sketch : Reading → Sketch
  | start _ => .start
  | inside _ outer children =>
    .inside (outer.map fun level => outlinesAll level.reverse) (outlinesAll children.reverse)
  | complete form => .complete form.outlines

theorem outlinesAll_addTrivia (text : String) (children : List Node) :
    outlinesAll (addTrivia text children).reverse = outlinesAll children.reverse := by
  unfold addTrivia
  split <;> simp

theorem step_inside_opening (line : Nat) (before : List Node) (outer : List (List Node))
    (children : List Node) :
    (inside before outer children).step line .opening =
      .ok (inside before (children :: outer) []) := by
  cases outer <;> rfl

theorem step_inside_atom (line : Nat) (before : List Node) (outer : List (List Node))
    (children : List Node) {kind : AtomKind} (hkind : kind ≠ .trivia) (text : String) :
    (inside before outer children).step line (.atom kind text) =
      .ok (inside before outer (.leaf kind text :: children)) := by
  cases kind with
  | trivia => exact absurd rfl hkind
  | _ => cases outer <;> rfl

/-- Trivia is always taken, and changes nothing but trivia. -/
theorem step_of_isTrivia (line : Nat) (reading : Reading) {token : Token}
    (h : token.isTrivia = true) :
    ∃ next, reading.step line token = .ok next ∧ next.sketch = reading.sketch := by
  unfold Token.isTrivia at h
  split at h
  · rename_i text
    cases reading with
    | start before => exact ⟨_, rfl, rfl⟩
    | inside before outer children =>
      refine ⟨.inside before outer (addTrivia text children), by cases outer <;> rfl, ?_⟩
      rw [sketch, sketch, outlinesAll_addTrivia]
    | complete form =>
      refine ⟨_, rfl, ?_⟩
      rw [sketch, sketch, outlines_surround]
  · cases h

/-- A token other than trivia is taken by readings that are the same but for trivia, or by none. -/
theorem step_of_isWord (line line' : Nat) {reading reading' next : Reading} {token : Token}
    (hword : token.isWord = true) (hsketch : reading.sketch = reading'.sketch)
    (h : reading.step line token = .ok next) :
    ∃ next', reading'.step line' token = .ok next' ∧ next.sketch = next'.sketch := by
  cases reading with
  | start before =>
    cases reading' with
    | start before' =>
      cases token with
      | opening =>
        cases h
        exact ⟨.inside before' [] [], rfl, rfl⟩
      | closing => cases h
      | atom kind text =>
        cases kind with
        | trivia => cases hword
        | _ => cases h
    | inside => cases hsketch
    | complete => cases hsketch
  | inside before outer children =>
    cases reading' with
    | start => cases hsketch
    | inside before' outer' children' =>
      simp only [sketch, Sketch.inside.injEq] at hsketch
      obtain ⟨houter, hchildren⟩ := hsketch
      cases token with
      | opening =>
        cases (step_inside_opening line before outer children).symm.trans h
        refine ⟨_, step_inside_opening line' before' outer' children', ?_⟩
        simp [sketch, houter, hchildren]
      | closing =>
        cases outer with
        | nil =>
          obtain rfl : outer' = [] := by simpa using houter.symm
          cases h
          exact ⟨_, rfl, by simp [sketch, hchildren]⟩
        | cons parent outer =>
          cases outer' with
          | nil => cases houter
          | cons parent' outer' =>
            simp only [List.map_cons, List.cons.injEq] at houter
            cases h
            exact ⟨_, rfl, by simp [sketch, hchildren, houter]⟩
      | atom kind text =>
        have hkind : kind ≠ .trivia := by
          rintro rfl
          cases hword
        cases (step_inside_atom line before outer children hkind text).symm.trans h
        refine ⟨_, step_inside_atom line' before' outer' children' hkind text, ?_⟩
        simp [sketch, hchildren, houter]
    | complete => cases hsketch
  | complete form =>
    cases reading' with
    | start => cases hsketch
    | inside => cases hsketch
    | complete form' =>
      cases token with
      | atom kind text =>
        cases kind with
        | trivia => cases hword
        | _ => cases h
      | _ => cases h

/-- Dropping trivia from the tokens changes nothing but trivia. -/
theorem run_filter (line line' : Nat) {reading reading' final : Reading} {tokens : List Token}
    (hsketch : reading.sketch = reading'.sketch) (h : reading.run line tokens = .ok final) :
    ∃ final', reading'.run line' (tokens.filter Token.isWord) = .ok final' ∧
      final.sketch = final'.sketch := by
  induction tokens generalizing line line' reading reading' with
  | nil =>
    cases h
    exact ⟨reading', rfl, hsketch⟩
  | cons token tokens ih =>
    rw [run] at h
    cases hstep : reading.step line token with
    | error error =>
      rw [hstep] at h
      cases h
    | ok next =>
      rw [hstep] at h
      cases htrivia : token.isTrivia with
      | true =>
        obtain ⟨next', hnext', hsame⟩ := reading.step_of_isTrivia line htrivia
        cases hstep.symm.trans hnext'
        rw [List.filter_cons_of_neg (by simp [Token.isWord, htrivia])]
        exact ih _ _ (hsame.trans hsketch) h
      | false =>
        have hword : token.isWord = true := by simp [Token.isWord, htrivia]
        obtain ⟨next', hnext', hsame⟩ := step_of_isWord line line' hword hsketch hstep
        rw [List.filter_cons_of_pos hword, run, hnext']
        exact ih _ _ hsame h

/-- Adding trivia to the tokens changes nothing but trivia. -/
theorem run_of_filter (line line' : Nat) {reading reading' final : Reading} {tokens : List Token}
    (hsketch : reading.sketch = reading'.sketch)
    (h : reading.run line (tokens.filter Token.isWord) = .ok final) :
    ∃ final', reading'.run line' tokens = .ok final' ∧ final.sketch = final'.sketch := by
  induction tokens generalizing line line' reading reading' with
  | nil =>
    cases h
    exact ⟨reading', rfl, hsketch⟩
  | cons token tokens ih =>
    rw [run]
    cases htrivia : token.isTrivia with
    | true =>
      rw [List.filter_cons_of_neg (by simp [Token.isWord, htrivia])] at h
      obtain ⟨next', hnext', hsame⟩ := reading'.step_of_isTrivia line' htrivia
      rw [hnext']
      exact ih _ _ (hsketch.trans hsame.symm) h
    | false =>
      have hword : token.isWord = true := by simp [Token.isWord, htrivia]
      rw [List.filter_cons_of_pos hword, run] at h
      cases hstep : reading.step line token with
      | error error =>
        rw [hstep] at h
        cases h
      | ok next =>
        rw [hstep] at h
        obtain ⟨next', hnext', hsame⟩ := step_of_isWord line line' hword hsketch hstep
        rw [hnext']
        exact ih _ _ hsame h

/-- What is read depends on the tokens other than trivia alone. -/
theorem run_of_words (line line' : Nat) {reading reading' final : Reading}
    {tokens tokens' : List Token}
    (hwords : tokens.filter Token.isWord = tokens'.filter Token.isWord)
    (hsketch : reading.sketch = reading'.sketch) (h : reading.run line tokens = .ok final) :
    ∃ final', reading'.run line' tokens' = .ok final' ∧ final.sketch = final'.sketch := by
  obtain ⟨middle, hmiddle, hsame⟩ := run_filter line line hsketch h
  rw [hwords] at hmiddle
  obtain ⟨final', hfinal', hsame'⟩ := run_of_filter line line' rfl hmiddle
  exact ⟨final', hfinal', hsame.trans hsame'⟩

end Reading

namespace Node

/-- Tokens that are the same but for trivia are read as forms of one outline. -/
theorem ofTokens_outlines {tokens tokens' : List Token} {form : Node}
    (hwords : tokens.filter Token.isWord = tokens'.filter Token.isWord)
    (h : ofTokens tokens = .ok form) :
    ∃ form', ofTokens tokens' = .ok form' ∧ form.outlines = form'.outlines := by
  obtain ⟨final, hfinal, hsame⟩ := Reading.run_of_words 1 1 hwords rfl (ofTokens_eq_ok.mp h)
  cases final with
  | complete form' => exact ⟨form', ofTokens_eq_ok.mpr hfinal, Sketch.complete.inj hsame⟩
  | _ => cases hsame

end Node

end WatMacro
