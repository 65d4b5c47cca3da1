import WatMacro.Proofs.Session.Waiting

/-!
# Sessions as chunks of lines

What is typed into a session falls into chunks, each of which ends with the first line that makes
its lines anything but incomplete, and into the lines that are pending. A session answers as if each
chunk were expanded on its own, one after the other in one context. A chunk that is refused or blank
leaves no trace.

Results:

* `Splits.exists_unique`: lines fall into chunks and pending lines in one way.
* `Session.takeAll_flatten`: what a session answers to chunks, and the context afterwards.
* `Session.takeAll_chunks`: both of them for the lines of a session, and that chunks which are
  refused or blank may be left out.
-/

namespace WatMacro

/-! ## Chunks -/

/-- Lines that are refused as incomplete from the first one on. -/
def StaysWaiting (lines : List String) : Prop :=
  ∀ front, front <+: lines → front ≠ [] → isWaiting front = true

/-- Lines of which the last one is the first after which they are not refused as incomplete. -/
structure IsChunk (chunk : List String) : Prop where
  ne_nil : chunk ≠ []
  complete : isWaiting chunk = false
  first : ∀ front, front <+: chunk → front ≠ [] → front ≠ chunk → isWaiting front = true

/-- Lines are chunks one after the other, and then pending lines. -/
structure Splits (lines : List String) (chunks : List (List String)) (pending : List String) :
    Prop where
  lines_eq : lines = chunks.flatten ++ pending
  chunks : ∀ chunk ∈ chunks, IsChunk chunk
  pending : StaysWaiting pending

theorem staysWaiting_nil : StaysWaiting [] :=
  fun _ hfront hne => absurd (List.prefix_nil.mp hfront) hne

theorem StaysWaiting.append_singleton {lines : List String} {line : String}
    (h : StaysWaiting lines) (hline : isWaiting (lines ++ [line]) = true) :
    StaysWaiting (lines ++ [line]) := by
  intro front hfront hne
  rcases List.prefix_concat_iff.mp hfront with rfl | hfront
  · exact hline
  · exact h front hfront hne

theorem StaysWaiting.isChunk {lines : List String} {line : String} (h : StaysWaiting lines)
    (hline : isWaiting (lines ++ [line]) = false) : IsChunk (lines ++ [line]) where
  ne_nil := by simp
  complete := hline
  first front hfront hne hall :=
    h front ((List.prefix_concat_iff.mp hfront).resolve_left hall) hne

/-- A chunk is waited for up to its last line. -/
theorem IsChunk.exists_append {chunk : List String} (h : IsChunk chunk) :
    ∃ front last, chunk = front ++ [last] ∧ StaysWaiting front := by
  obtain ⟨front, last, rfl⟩ := (List.eq_nil_or_concat' chunk).resolve_left h.ne_nil
  refine ⟨front, last, rfl, fun part hpart hne => ?_⟩
  refine h.first part (hpart.trans (List.prefix_append front [last])) hne ?_
  rintro rfl
  have hlength := hpart.length_le
  rw [List.length_append, List.length_singleton] at hlength
  omega

theorem IsChunk.not_staysWaiting {chunk rest : List String} (h : IsChunk chunk) :
    ¬StaysWaiting (chunk ++ rest) := by
  intro hwaiting
  have hchunk := hwaiting chunk (List.prefix_append chunk rest) h.ne_nil
  rw [h.complete] at hchunk
  cases hchunk

/-- Lines begin with one chunk at most. -/
theorem IsChunk.unique {chunk chunk' rest rest' : List String} (h : IsChunk chunk)
    (h' : IsChunk chunk') (heq : chunk ++ rest = chunk' ++ rest') : chunk = chunk' := by
  by_contra hne
  have hwaiting : isWaiting chunk = true ∨ isWaiting chunk' = true := by
    rcases List.prefix_or_prefix_of_prefix (List.prefix_append chunk rest)
      (heq ▸ List.prefix_append chunk' rest') with hfront | hfront
    · exact .inl (h'.first chunk hfront h.ne_nil hne)
    · exact .inr (h.first chunk' hfront h'.ne_nil (Ne.symm hne))
  rw [h.complete, h'.complete] at hwaiting
  simp at hwaiting

namespace Splits

theorem tail {lines pending : List String} {chunk : List String} {chunks : List (List String)}
    (h : Splits lines (chunk :: chunks) pending) :
    Splits (chunks.flatten ++ pending) chunks pending :=
  ⟨rfl, fun other hother => h.chunks other (List.mem_cons_of_mem chunk hother), h.pending⟩

/-- Lines fall into chunks and pending lines in one way. -/
theorem unique {lines pending pending' : List String} {chunks chunks' : List (List String)}
    (h : Splits lines chunks pending) (h' : Splits lines chunks' pending') :
    chunks = chunks' ∧ pending = pending' := by
  induction chunks generalizing lines chunks' with
  | nil =>
    cases chunks' with
    | nil =>
      have heq := h.lines_eq.symm.trans h'.lines_eq
      exact ⟨rfl, heq⟩
    | cons chunk chunks' =>
      have heq := h.lines_eq.symm.trans h'.lines_eq
      rw [List.flatten_nil, List.nil_append, List.flatten_cons, List.append_assoc] at heq
      exact absurd (heq ▸ h.pending) (h'.chunks chunk List.mem_cons_self).not_staysWaiting
  | cons chunk chunks ih =>
    have heq := h.lines_eq.symm.trans h'.lines_eq
    rw [List.flatten_cons, List.append_assoc] at heq
    cases chunks' with
    | nil =>
      rw [List.flatten_nil, List.nil_append] at heq
      exact absurd (heq ▸ h'.pending) (h.chunks chunk List.mem_cons_self).not_staysWaiting
    | cons chunk' chunks' =>
      rw [List.flatten_cons, List.append_assoc] at heq
      obtain rfl := (h.chunks chunk List.mem_cons_self).unique
        (h'.chunks chunk' List.mem_cons_self) heq
      have hrest := List.append_cancel_left heq
      obtain ⟨rfl, hpending⟩ := ih h.tail (hrest ▸ h'.tail)
      exact ⟨rfl, hpending⟩

/-- Lines that wait for more, with further lines after them, fall into chunks and pending lines. -/
theorem exists_of_staysWaiting {waiting : List String} (h : StaysWaiting waiting)
    (lines : List String) : ∃ chunks pending, Splits (waiting ++ lines) chunks pending := by
  induction lines generalizing waiting with
  | nil => exact ⟨[], waiting, List.append_nil waiting, by simp, h⟩
  | cons line lines ih =>
    rw [List.append_cons]
    cases hline : isWaiting (waiting ++ [line]) with
    | true => exact ih (h.append_singleton hline)
    | false =>
      obtain ⟨chunks, pending, hrest⟩ := ih staysWaiting_nil
      refine ⟨(waiting ++ [line]) :: chunks, pending, ?_,
        List.forall_mem_cons.mpr ⟨h.isChunk hline, hrest.chunks⟩, hrest.pending⟩
      have hlines := hrest.lines_eq
      rw [List.nil_append] at hlines
      rw [List.flatten_cons, List.append_assoc (waiting ++ [line]), ← hlines]

theorem exists_unique (lines : List String) :
    ∃! split : List (List String) × List String, Splits lines split.1 split.2 := by
  obtain ⟨chunks, pending, h⟩ := exists_of_staysWaiting staysWaiting_nil lines
  refine ⟨(chunks, pending), h, fun ⟨chunks', pending'⟩ h' => ?_⟩
  exact Prod.ext_iff.mpr (unique h' h)

end Splits

/-! ## Chunks one after the other -/

/-- Expands the lines of each chunk on their own, one chunk after the other in one context. A chunk
that is refused leaves the context as it is. -/
def expandChunks (context : Context) :
    List (List String) → List (List String × Except Error String) × Context
  | [] => ([], context)
  | chunk :: chunks =>
    let (result, context) := expandText (joinLines chunk) context
    let (results, context) := expandChunks context chunks
    ((chunk, result) :: results, context)

/-- The replies to the lines of a chunk, by what they expand to together. -/
def Reply.toChunk (chunk : List String) (result : Except Error String) : List Reply :=
  List.replicate (chunk.length - 1) .more ++ [.ofResult result]

/-- The replies to chunks, each with what its lines expand to. -/
def Reply.toChunks (chunks : List (List String × Except Error String)) : List Reply :=
  chunks.flatMap fun (chunk, result) => toChunk chunk result

/-- Chunks that were refused, or blank, are left out. -/
inductive Prunes : List (List String × Except Error String) →
    List (List String × Except Error String) → Prop
  | nil : Prunes [] []
  | keep {chunks kept : List (List String × Except Error String)} (chunk : List String)
    (result : Except Error String) : Prunes chunks kept →
    Prunes ((chunk, result) :: chunks) ((chunk, result) :: kept)
  | drop {chunks kept : List (List String × Except Error String)} (chunk : List String)
    (error : Error) : Prunes chunks kept → Prunes ((chunk, .error error) :: chunks) kept

namespace Session

/-- Takes lines one after the other. -/
def takeAll (session : Session) : List String → List Reply × Session
  | [] => ([], session)
  | line :: lines =>
    let (reply, session) := session.take line
    let (replies, session) := takeAll session lines
    (reply :: replies, session)

theorem takeAll_cons (session : Session) (line : String) (lines : List String) :
    takeAll session (line :: lines) =
      ((session.take line).1 :: (takeAll (session.take line).2 lines).1,
        (takeAll (session.take line).2 lines).2) :=
  rfl

theorem takeAll_append (session : Session) (front back : List String) :
    takeAll session (front ++ back) =
      ((takeAll session front).1 ++ (takeAll (takeAll session front).2 back).1,
        (takeAll (takeAll session front).2 back).2) := by
  induction front generalizing session with
  | nil => rfl
  | cons line front ih =>
    rw [List.cons_append, takeAll_cons, ih, takeAll_cons]
    rfl

/-! ## Answers to chunks -/

/-- A session waits along lines that are incomplete together with those that it has. -/
theorem takeAll_of_staysWaiting (pending : List String) {lines : List String} (context : Context)
    (h : StaysWaiting (pending ++ lines)) :
    takeAll ⟨pending, context⟩ lines =
      (List.replicate lines.length .more, ⟨pending ++ lines, context⟩) := by
  induction lines generalizing pending with
  | nil => rw [List.append_nil]; rfl
  | cons line lines ih =>
    rw [List.append_cons] at h
    have hline : isWaiting (pending ++ [line]) = true :=
      h _ (List.prefix_append _ lines) (by simp)
    have htake : take ⟨pending, context⟩ line = (.more, ⟨pending ++ [line], context⟩) :=
      take_of_isWaiting hline
    rw [takeAll_cons, htake, ih _ h, List.append_cons pending line lines]
    rfl

/-- A session answers to a chunk with what its lines expand to, and is done with it. -/
theorem takeAll_of_isChunk {context : Context} (hdata : context.data.Consistent)
    {chunk : List String} (h : IsChunk chunk) :
    takeAll ⟨[], context⟩ chunk =
      (Reply.toChunk chunk (expandText (joinLines chunk) context).1,
        ⟨[], (expandText (joinLines chunk) context).2⟩) := by
  obtain ⟨front, last, rfl, hfront⟩ := h.exists_append
  have htake : take ⟨front, context⟩ last =
      (.ofResult (expandText (joinLines (front ++ [last])) context).1,
        ⟨[], (expandText (joinLines (front ++ [last])) context).2⟩) :=
    take_of_not_isWaiting hdata h.complete
  rw [takeAll_append, takeAll_of_staysWaiting [] context hfront, List.nil_append, takeAll_cons,
    htake]
  rw [Reply.toChunk, List.length_append, List.length_singleton, Nat.add_sub_cancel]
  rfl

theorem expandChunks_cons {context after : Context} {chunk : List String}
    {result : Except Error String} (h : expandText (joinLines chunk) context = (result, after))
    (chunks : List (List String)) : expandChunks context (chunk :: chunks) =
      ((chunk, result) :: (expandChunks after chunks).1, (expandChunks after chunks).2) := by
  rw [expandChunks, h]

theorem expandText_consistent {context after : Context} {source : String}
    {result : Except Error String} (hdata : context.data.Consistent)
    (h : expandText source context = (result, after)) : after.data.Consistent := by
  have hreach := expandText_reaches source context
  rw [h] at hreach
  exact hreach.consistent hdata

/-- A session answers to chunks as if each of them were expanded on its own. -/
theorem takeAll_flatten {chunks : List (List String)} (hchunks : ∀ chunk ∈ chunks, IsChunk chunk)
    {context : Context} (hdata : context.data.Consistent) :
    takeAll ⟨[], context⟩ chunks.flatten =
      (Reply.toChunks (expandChunks context chunks).1, ⟨[], (expandChunks context chunks).2⟩) := by
  induction chunks generalizing context with
  | nil => rfl
  | cons chunk chunks ih =>
    cases hexpand : expandText (joinLines chunk) context with
    | mk result after =>
    have hchunk := takeAll_of_isChunk hdata (hchunks chunk List.mem_cons_self)
    rw [hexpand] at hchunk
    rw [List.flatten_cons, takeAll_append, hchunk, expandChunks_cons hexpand,
      ih (fun other hother => hchunks other (List.mem_cons_of_mem chunk hother))
        (expandText_consistent hdata hexpand)]
    rfl

/-- The answers to lines, by their chunks. -/
theorem takeAll_of_splits {lines pending : List String} {chunks : List (List String)}
    (h : Splits lines chunks pending) {context : Context} (hdata : context.data.Consistent) :
    takeAll ⟨[], context⟩ lines =
      (Reply.toChunks (expandChunks context chunks).1 ++ List.replicate pending.length .more,
        ⟨pending, (expandChunks context chunks).2⟩) := by
  rw [h.lines_eq, takeAll_append, takeAll_flatten h.chunks hdata,
    takeAll_of_staysWaiting [] _ h.pending, List.nil_append]

/-! ## Chunks that leave no trace -/

/-- Without some of the chunks that are refused or blank, the other chunks expand to the same, and
so does the context. -/
theorem expandChunks_of_prunes {chunks : List (List String)} {context : Context}
    (hdata : context.data.Consistent) {kept : List (List String × Except Error String)}
    (h : Prunes (expandChunks context chunks).1 kept) :
    (∀ chunk ∈ kept.map Prod.fst, chunk ∈ chunks) ∧
      expandChunks context (kept.map Prod.fst) = (kept, (expandChunks context chunks).2) := by
  induction chunks generalizing context kept with
  | nil =>
    cases h
    exact ⟨by simp, rfl⟩
  | cons chunk chunks ih =>
    cases hexpand : expandText (joinLines chunk) context with
    | mk result after =>
    rw [expandChunks_cons hexpand] at h ⊢
    cases h with
    | keep _ _ hrest =>
      obtain ⟨hmem, hkept⟩ := ih (expandText_consistent hdata hexpand) hrest
      rw [List.map_cons, expandChunks_cons hexpand, hkept]
      exact ⟨List.forall_mem_cons.mpr ⟨List.mem_cons_self, fun other hother =>
        List.mem_cons_of_mem chunk (hmem other hother)⟩, rfl⟩
    | drop _ error hrest =>
      -- a chunk that is refused has left the context as it was
      obtain ⟨rfl, -⟩ := expandText_eq_error hdata hexpand
      obtain ⟨hmem, hkept⟩ := ih hdata hrest
      exact ⟨fun other hother => List.mem_cons_of_mem chunk (hmem other hother), hkept⟩

/-- The lines of a session fall into chunks and pending lines in exactly one way, and the pending
lines are those that are kept; after every line there are none, or they are incomplete. The session
answers that it waits before the end of a chunk, and there with what the lines of the chunk expand
to together, one chunk after the other in one context. The lines of any of the chunks that are
refused or blank may be left out: the answers to the others and the context are the same. -/
theorem takeAll_chunks (actions : List Context.Action) (lines : List String) :
    let context := Context.after actions
    (∃! split : List (List String) × List String, Splits lines split.1 split.2) ∧
    (∀ front, front <+: lines →
      let next := (takeAll ⟨[], context⟩ front).2
      next.pending = [] ∨ isWaiting next.pending = true) ∧
    ∀ chunks pending results after, Splits lines chunks pending →
      expandChunks context chunks = (results, after) →
      takeAll ⟨[], context⟩ lines =
        (Reply.toChunks results ++ List.replicate pending.length .more, ⟨pending, after⟩) ∧
      ∀ kept, Prunes results kept →
        takeAll ⟨[], context⟩ ((kept.map Prod.fst).flatten ++ pending) =
          (Reply.toChunks kept ++ List.replicate pending.length .more, ⟨pending, after⟩) := by
  intro context
  have hdata : context.data.Consistent := Context.after_data_consistent actions
  refine ⟨Splits.exists_unique lines, fun front _ => ?_,
    fun chunks pending results after h hresults => ?_⟩
  · obtain ⟨chunks, pending, h⟩ := Splits.exists_of_staysWaiting staysWaiting_nil front
    rw [List.nil_append] at h
    intro next
    have hnext : next.pending = pending := by
      simp only [next, takeAll_of_splits h hdata]
    rw [hnext]
    by_cases hnil : pending = []
    · exact .inl hnil
    · exact .inr (h.pending pending List.prefix_rfl hnil)
  · refine ⟨?_, fun kept hkept => ?_⟩
    · rw [takeAll_of_splits h hdata, hresults]
    have hrest : Prunes (expandChunks context chunks).1 kept := by rwa [hresults]
    obtain ⟨hmem, hsame⟩ := expandChunks_of_prunes hdata hrest
    have hsplit : Splits ((kept.map Prod.fst).flatten ++ pending) (kept.map Prod.fst) pending :=
      ⟨rfl, fun chunk hchunk => h.chunks chunk (hmem chunk hchunk), h.pending⟩
    rw [takeAll_of_splits hsplit hdata, hsame, hresults]

/-- A text over two lines, a chunk that is refused, one that is blank, and a pending line. -/
theorem takeAll_chunks_refused_and_blank :
    let chunks := [["(f", "\"a\")"], ["(CHR 2)"], [";; b"]]
    let pending := ["(g"]
    let answer := "(f\n(i32.add (get_global $memoryBase) (get_global $S_STRING_0)))"
    ∃ after, Splits (chunks.flatten ++ pending) chunks pending ∧
      takeAll .empty (chunks.flatten ++ pending) =
        ([.more, .expanded answer, .refused (.argument .chr (.notALiteral "'2'")), .expanded "",
          .more], ⟨pending, after⟩) ∧
      takeAll .empty ["(f", "\"a\")", "(g"] =
        ([.more, .expanded answer, .more], ⟨pending, after⟩) := by
  intro chunks pending answer
  have hfirst : StaysWaiting ["(f"] := staysWaiting_nil.append_singleton (by decide +kernel)
  have hsplit : Splits (chunks.flatten ++ pending) chunks pending := by
    refine ⟨rfl, ?_, staysWaiting_nil.append_singleton (by decide +kernel)⟩
    simp only [chunks, List.forall_mem_cons]
    exact ⟨hfirst.isChunk (by decide +kernel), staysWaiting_nil.isChunk (by decide +kernel),
      staysWaiting_nil.isChunk (by decide +kernel), by simp⟩
  have hresults : (expandChunks (Context.after []) chunks).1 = [(["(f", "\"a\")"], .ok answer),
      (["(CHR 2)"], .error (.argument .chr (.notALiteral "'2'"))), ([";; b"], .error .blank)] := by
    decide +kernel
  obtain ⟨-, -, hanswers⟩ := takeAll_chunks [] (chunks.flatten ++ pending)
  obtain ⟨hall, hpruned⟩ := hanswers chunks pending _ _ hsplit (Prod.ext hresults rfl)
  exact ⟨_, hsplit, hall, hpruned _ (.keep _ _ (.drop _ _ (.drop _ _ .nil)))⟩

end Session

end WatMacro
