import LevelIndex.Batch.Engine
import LevelIndex.Edit.Payload
import LevelIndex.Tree.Basic

/-!
# Removing from a level

A run of edits drops keys from the node it is aimed at, or puts other keys in
their place. Both lists are in key order and are walked once. In a leaf, a key
that is to be dropped may be absent; above the leaves, every edit concerns a
separator that has to be there.

A node that comes out underfull, or starting at another key, is flagged for the
compaction of its level. The root is not: it may be as small as it likes.
-/

namespace LevelIndex

namespace Remove

/-- What an edit of an absent key means: nothing in a leaf, a missing separator above. -/
def absent (height : Nat) (handle : Handle) (node : Node) (e : Edit) : Except Fault Unit :=
  if height = 0 then .ok ()
  else .error (.missingSeparator e.key e.flags handle height node)

/-- The cells with the edits carried out; `missing` deals with edits of absent keys. -/
def revise (missing : Edit → Except Fault Unit) : List Cell → List Edit → Except Fault (List Cell)
  | [], edits => do
    edits.forM missing
    return []
  | cells, [] => .ok cells
  | c :: cells, e :: edits =>
    if e.key < c.key then do
      missing e
      revise missing (c :: cells) edits
    else if e.key = c.key then
      if e.flags.remove then revise missing cells edits
      else do
        let key ← e.newKey
        let rest ← revise missing cells edits
        return ⟨key, c.entry⟩ :: rest
    else do
      let rest ← revise missing cells (e :: edits)
      return c :: rest
termination_by cells edits => cells.length + edits.length

/-- What compaction has to know of a node that was rewritten. -/
def flagsOf (before after : Node) : Flags where
  underflow := after.underfull
  changeKey := after.isEmpty || after.firstKey ≠ before.firstKey

/-- What is said of a node that was rewritten: to the compaction, if it has to look at it, and to
the log. -/
def report (root handle : Handle) (before after : Node) : Output :=
  if handle = root then { staged := [], events := [] }
  else
    let flags := flagsOf before after
    let flagged := .flagged before.firstKey after.firstKey handle flags
    { staged := if flags.isEmpty then [] else [flagged]
      events := [.removeRewrite handle after.height before.size after.size flags] }

/-- Carries out one run on the node it is aimed at. -/
def rewrite (height : Nat) (t : Tree) (run : List Edit) : Except Fault (Step Tree) := do
  let handle := (run.head?.map (·.target)).getD .null
  let before ← t.store.read handle
  require (before.height = height) (.removeHeight handle height before.height)
  let cells ← revise (absent height handle before) before.cells run
  let after ← Node.ofCells height before.parent before.right cells
  let ⟨store, root⟩ := t
  let store ← store.write handle after
  return { report root handle before after with state := ⟨store, root⟩ }

end Remove

end LevelIndex
