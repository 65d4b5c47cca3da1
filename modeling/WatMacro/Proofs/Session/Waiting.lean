import WatMacro.Proofs.Expand.Failure
import WatMacro.Proofs.Node.Completion

/-!
# Sessions that wait

A session waits for more exactly if the reader refuses the lines so far as incomplete: expansion
never does. Some next line completes the form then.

Results:

* `Session.take_eq`: the answer to a line, by what the reader says of the lines so far.
* `Session.take_more_completable`: a session that waits can be given what it waits for.
-/

namespace WatMacro

/-- Lines that are read together. -/
abbrev joinLines (lines : List String) : String :=
  String.intercalate "\n" lines

theorem joinLines_append_singleton {lines : List String} (h : lines ≠ []) (line : String) :
    joinLines (lines ++ [line]) = joinLines lines ++ "\n" ++ line := by
  rw [joinLines, String.intercalate_append_of_ne_nil h (List.cons_ne_nil _ _),
    String.intercalate_singleton]

/-- Whether the reader refuses lines as incomplete. -/
def isWaiting (lines : List String) : Bool :=
  match Node.read (joinLines lines) with
  | .error error => error.isIncomplete
  | .ok _ => false

theorem isWaiting_iff {lines : List String} : isWaiting lines = true ↔
    ∃ error, Node.read (joinLines lines) = .error error ∧ error.isIncomplete = true := by
  unfold isWaiting
  split
  · rename_i error herror
    simp [herror]
  · rename_i form hform
    simp [hform]

/-- The reply to the last of some lines, by what they expand to. Lines that hold nothing but trivia
expand to nothing. -/
def Reply.ofResult : Except Error String → Reply
  | .ok text => .expanded text
  | .error .blank => .expanded ""
  | .error error => .refused error

theorem Reply.ofResult_ne_more (result : Except Error String) : Reply.ofResult result ≠ .more := by
  unfold Reply.ofResult
  split <;> simp

namespace Session

variable {session : Session} {line : String}

theorem take_of_isWaiting (h : isWaiting (session.pending ++ [line]) = true) :
    session.take line = (.more, ⟨session.pending ++ [line], session.context⟩) := by
  obtain ⟨error, hread, hmore⟩ := isWaiting_iff.mp h
  have hblank : error ≠ .blank := by
    rintro rfl
    cases hmore
  rw [take_of_read_error hread, if_neg hblank, if_pos hmore]

/-- Lines that are not refused as incomplete are expanded on their own. -/
theorem take_of_not_isWaiting (hdata : session.context.data.Consistent)
    (h : isWaiting (session.pending ++ [line]) = false) :
    session.take line =
      (.ofResult (expandText (joinLines (session.pending ++ [line])) session.context).1,
        ⟨[], (expandText (joinLines (session.pending ++ [line])) session.context).2⟩) := by
  rw [take]
  split
  · rename_i hexpand
    rw [hexpand]
    rfl
  · rename_i hexpand
    rw [hexpand]
    rfl
  · rename_i error after hblank hexpand
    have hcomplete : error.isIncomplete = false := by
      rcases (expandText_eq_error hdata hexpand).2 with hread | ⟨-, hexpansion⟩
      · rw [← Bool.not_eq_true]
        intro hmore
        rw [isWaiting_iff.mpr ⟨error, hread, hmore⟩] at h
        cases h
      · exact Error.not_isIncomplete_of_isExpansion hexpansion
    rw [hexpand, hcomplete]
    cases error with
    | blank => exact absurd rfl hblank
    | _ => rfl

theorem take_eq (hdata : session.context.data.Consistent) (line : String) :
    session.take line =
      if isWaiting (session.pending ++ [line]) then
        (.more, ⟨session.pending ++ [line], session.context⟩)
      else
        (.ofResult (expandText (joinLines (session.pending ++ [line])) session.context).1,
          ⟨[], (expandText (joinLines (session.pending ++ [line])) session.context).2⟩) := by
  split
  · exact take_of_isWaiting ‹_›
  · exact take_of_not_isWaiting hdata (by simpa using ‹¬isWaiting _ = true›)

/-- A source that is refused as incomplete can be completed by a line. So whenever a session answers
that it waits for more, the form that it waits for is read after some next line, which neither
contains a newline nor ends in white space. The session does not wait after that line. -/
theorem take_more_completable (actions : List Context.Action) :
    (∀ source error, Node.read source = .error error → error.isIncomplete = true →
      ∃ line form, Node.read (source ++ "\n" ++ line) = .ok form) ∧
    ∀ (pending : List String) (line : String) (next : Session),
      take ⟨pending, Context.after actions⟩ line = (.more, next) →
      ∃ last form reply after, '\n' ∉ last.toList ∧ Text.trimEnd last = last ∧
        Node.read (joinLines (next.pending ++ [last])) = .ok form ∧
        next.take last = (reply, after) ∧ reply ≠ .more ∧ after.pending = [] := by
  refine ⟨fun source error hread hmore => ?_, fun pending line next htake => ?_⟩
  · obtain ⟨line, -, -, form, hform⟩ := Node.exists_completing_line hread hmore
    exact ⟨line, form, hform⟩
  · have hdata := Context.after_data_consistent actions
    rw [take_eq hdata] at htake
    split at htake
    · rename_i hwaiting
      cases htake
      obtain ⟨error, hread, hmore⟩ := isWaiting_iff.mp hwaiting
      obtain ⟨last, hnewline, htrim, form, hform⟩ := Node.exists_completing_line hread hmore
      rw [← joinLines_append_singleton (by simp)] at hform
      have hdone : isWaiting (pending ++ [line] ++ [last]) = false := by
        rw [isWaiting, hform]
      refine ⟨last, form, _, _, hnewline, htrim, hform, take_of_not_isWaiting hdata hdone, ?_, rfl⟩
      exact Reply.ofResult_ne_more _
    · cases (Reply.ofResult_ne_more _) (Prod.mk.inj htake).1

/-- A session that waits inside of a literal, after a backslash; the parenthesis before the line
comment is an open list. -/
theorem take_more_completable_literal :
    let front := ["(f (;; a"]
    let waiting : Session := ⟨front ++ ["\"b\\"], .empty⟩
    take ⟨front, .empty⟩ "\"b\\" = (.more, waiting) ∧
      (∃ error, Node.read (joinLines waiting.pending) = .error error ∧ error.isIncomplete = true) ∧
      (∃ line form, Node.read (joinLines waiting.pending ++ "\n" ++ line) = .ok form) ∧
      ∃ last form reply after, '\n' ∉ last.toList ∧ Text.trimEnd last = last ∧
        Node.read (joinLines (waiting.pending ++ [last])) = .ok form ∧
        waiting.take last = (reply, after) ∧ reply ≠ .more ∧ after.pending = [] := by
  intro front waiting
  have hwaiting : isWaiting waiting.pending = true := by decide +kernel
  have htake : take ⟨front, .empty⟩ "\"b\\" = (.more, waiting) := take_of_isWaiting hwaiting
  obtain ⟨error, hread, hmore⟩ := isWaiting_iff.mp hwaiting
  obtain ⟨hsource, hsession⟩ := take_more_completable []
  exact ⟨htake, ⟨error, hread, hmore⟩, hsource _ error hread hmore, hsession front _ waiting htake⟩

end Session

end WatMacro
