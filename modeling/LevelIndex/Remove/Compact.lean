import LevelIndex.Remove.Rewrite
import LevelIndex.Tree.Level

/-!
# Compacting a level

After a level was rewritten, its flagged nodes are gone over from left to
right. A node that only starts at another key is reported to its parent. An
underfull node is put together with its right neighbours, one after the other,
until the cells gathered are at least half a node's or the level ends:

* if one node can hold them, the first node of the group takes them all and the
  others are dropped from their parents;
* otherwise they are parted in the middle. The first node takes the lower half.
  The upper half goes to the last node of the group whose old first key is not
  above the middle key, since that node's place among the separators suits it;
* if there are none, the whole rest of the level is empty. Its nodes are dropped
  and the chain is cut after the last node that stays.

Every neighbour that is reached before half a node's worth has been gathered
was itself rewritten, and so has a flagged edit of its own, except possibly the
last one of a group. Nodes that are dropped keep their slots.
-/

namespace LevelIndex

namespace Remove

/-- What is gathered from an underfull node and its right neighbours. -/
structure Group where
  /-- The edits of the nodes visited, in order. -/
  absorbed : List Edit
  /-- The edits of the nodes beyond. -/
  rest : List Edit
  cells : List Cell
  /-- The last node visited. -/
  tail : Handle
  tailNode : Node
  /-- Whether the last node visited has an edit of its own. -/
  covered : Bool

/-- Gathers cells from the node `h` on to the right. The first of the edits is that of `h`, if it
has one. -/
def gather (t : Tree) (height : Nat) (cells : List Cell) (h : Handle) :
    List Edit → Except Fault Group
  | e :: edits => do
    let node ← t.store.read h
    let cells := cells ++ node.cells
    if e.target = h then
      if cells.length < Node.half ∧ node.right ≠ .null then do
        let g ← gather t height cells node.right edits
        return { g with absorbed := e :: g.absorbed }
      else
        .ok { absorbed := [e], rest := edits, cells, tail := h, tailNode := node, covered := true }
    else bystander node cells (e :: edits)
  | [] => do
    let node ← t.store.read h
    bystander node (cells ++ node.cells) []
where
  /-- A node without an edit ends the group; it is underfull only at the end of the level. -/
  bystander (node : Node) (cells : List Cell) (edits : List Edit) : Except Fault Group :=
    if node.underfull = true ∧ node.right ≠ .null then .error (.unflagged h height node)
    else .ok { absorbed := [], rest := edits, cells, tail := h, tailNode := node,
               covered := false }

theorem absorbed_bystander {h : Handle} {height : Nat} {node : Node} {cells : List Cell}
    {edits : List Edit} {g : Group} (hg : gather.bystander height h node cells edits = .ok g) :
    g.absorbed = [] ∧ g.rest = edits := by
  unfold gather.bystander at hg
  split at hg <;> cases hg
  exact ⟨rfl, rfl⟩

/-- A group takes its edits from the front and leaves the others as they are. -/
theorem absorbed_append_rest {t : Tree} {height : Nat} {cells : List Cell} {h : Handle}
    {edits : List Edit} {g : Group} (hg : gather t height cells h edits = .ok g) :
    g.absorbed ++ g.rest = edits := by
  induction edits generalizing cells h g with
  | nil =>
    rw [gather] at hg
    cases hr : t.store.read h with
    | error f => rw [hr] at hg; cases hg
    | ok node =>
      rw [hr] at hg
      obtain ⟨ha, hb⟩ := absorbed_bystander hg
      simp [ha, hb]
  | cons e edits ih =>
    rw [gather] at hg
    cases hr : t.store.read h with
    | error f => rw [hr] at hg; cases hg
    | ok node =>
      simp only [hr, bind, Except.bind] at hg
      split at hg
      · split at hg
        · split at hg
          · cases hg
          · next g' hg' =>
            cases hg
            simp [ih hg']
        · cases hg
          rfl
      · obtain ⟨ha, hb⟩ := absorbed_bystander hg
        simp [ha, hb]

/-- The edit of the node where gathering starts is taken. -/
theorem length_rest_le {t : Tree} {height : Nat} {cells : List Cell} {e : Edit}
    {edits : List Edit} {g : Group} (hg : gather t height cells e.target (e :: edits) = .ok g) :
    g.rest.length ≤ edits.length := by
  have hl := congrArg List.length (absorbed_append_rest hg)
  have hne : g.absorbed ≠ [] := by
    rw [gather] at hg
    cases hr : t.store.read e.target with
    | error f => rw [hr] at hg; cases hg
    | ok node =>
      simp only [hr, bind, Except.bind, if_true] at hg
      split at hg
      · split at hg <;> cases hg
        simp
      · cases hg
        simp
  have := List.length_pos_iff.mpr hne
  simp only [List.length_append, List.length_cons] at hl
  omega

/-! ## One group -/

/-- How far compaction has come. -/
structure Frontier where
  tree : Tree
  /-- The last node of the level so far that is known to stay. -/
  kept : Option Handle

/-- The edits that drop nodes from their parents. -/
def drops (t : Tree) (edits : List Edit) : Except Fault (List Edit) :=
  edits.mapM fun e => do
    let parent ← t.parentOf e.target
    return .remove e.key parent

/-- Puts all cells of a group into its first node. -/
def fit (t : Tree) (height : Nat) (left : Handle) (leftNode : Node) (g : Group) :
    Except Fault (Tree × List Edit) := do
  let node ← Node.ofCells height leftNode.parent g.tailNode.right g.cells
  let t ← t.commit left node
  let dropped ← drops t g.absorbed.tail
  let tail := if g.covered then [] else [Edit.remove g.tailNode.firstKey g.tailNode.parent]
  return (t, dropped ++ tail)

/-- The node of a group, other than the first, that takes the upper half. -/
inductive Heir where
  /-- The node of an edit of the group, counted from the second. -/
  | visited (index : Nat) (node : Handle)
  /-- The last node, which has no edit. -/
  | tail
deriving DecidableEq

/-- The position of the last edit whose key is not above `key`. -/
def lastNotAbove? (key : Key) : List Edit → Option (Nat × Edit)
  | [] => none
  | e :: edits =>
    match lastNotAbove? key edits with
    | some (i, e) => some (i + 1, e)
    | none => if e.key ≤ key then some (0, e) else none

/-- The last node after the first whose old first key is not above the middle key. -/
def heir? (g : Group) (midKey : Key) : Option Heir :=
  if !g.covered && g.tailNode.firstKey ≤ midKey then some .tail
  else (lastNotAbove? midKey g.absorbed.tail).map fun (i, e) => .visited i e.target

/-- The edit for the parent of a node after the first: the heir is put under the middle key, any
other is dropped. -/
def settle (isHeir : Bool) (key midKey : Key) (parent : Handle) : Edit :=
  if isHeir then .changeKey key midKey parent else .remove key parent

/-- Parts the cells of a group in the middle between its first node and an heir. -/
def part (t : Tree) (height : Nat) (left : Handle) (leftNode : Node) (g : Group) :
    Except Fault (Tree × List Edit × Handle) := do
  let lower := g.cells.take (g.cells.length / 2)
  let upper := g.cells.drop (g.cells.length / 2)
  let midKey := (upper.head?.map (·.key)).getD minKey
  let heir ← match heir? g midKey with
    | some heir => .ok heir
    | none => .error (.noReuse height midKey)
  let handle := match heir with
    | .visited _ node => node
    | .tail => g.tail
  let parent ← t.parentOf handle
  let lowerNode ← Node.ofCells height leftNode.parent handle lower
  let t ← t.commit left lowerNode
  let upperNode ← Node.ofCells height parent g.tailNode.right upper
  let t ← t.commit handle upperNode
  let others ← g.absorbed.tail.zipIdx.mapM fun (e, i) => do
    let parent ← t.parentOf e.target
    return settle (heir = .visited i e.target) e.key midKey parent
  let tail := if g.covered then []
    else [settle (heir = .tail) g.tailNode.firstKey midKey g.tailNode.parent]
  return (t, others ++ tail, handle)

/-- Ends the chain before `first`, looking for its left neighbour from `h` on through at most
`steps` nodes, and tells which it was. -/
def cutBefore (t : Tree) (height : Nat) (first : Handle) :
    Nat → Handle → Except Fault (Tree × Handle)
  | 0, h => .error (.endlessWalk h)
  | steps + 1, h => do
    let node ← t.store.read h
    if node.right = first then do
      let store ← t.store.setRight h .null
      return ({ t with store }, h)
    else if node.right.isNull then .error (.offChain first height)
    else cutBefore t height first steps node.right

/-- Drops a group without cells, which is the rest of its level. -/
def dropTail (height : Nat) (f : Frontier) (first : Handle) (g : Group) :
    Except Fault (Step Frontier) := do
  require (g.covered = true ∧ g.tailNode.right = .null) (.emptyInside height g.tail)
  let staged ← drops f.tree g.absorbed
  let start ← match f.kept with
    | some h => .ok h
    | none => f.tree.leftmostAt height
  let (tree, newTail) ← cutBefore f.tree height first (f.tree.store.allocated + 1) start
  return {
    state := { f with tree }
    staged
    events := [.tailEmptied height g.absorbed.length newTail] }

/-- Compacts the group that starts at the node of the edit `e`. -/
def compactGroup (height : Nat) (f : Frontier) (e : Edit) (g : Group) :
    Except Fault (Step Frontier) := do
  let left ← f.tree.store.read e.target
  match g.cells.head? with
  | none => dropTail height f e.target g
  | some first =>
    let rekeyed := if first.key = e.key then [] else [Edit.changeKey e.key first.key left.parent]
    let events := [Event.compacted e.target height g.cells.length]
    if g.cells.length ≤ Node.capacity then
      let (tree, staged) ← fit f.tree height e.target left g
      return { state := ⟨tree, some e.target⟩, staged := rekeyed ++ staged, events }
    else
      let (tree, staged, heir) ← part f.tree height e.target left g
      return { state := ⟨tree, some heir⟩, staged := rekeyed ++ staged, events }

/-! ## The whole level -/

/-- Goes over the flagged nodes from the first of these edits on. -/
def compactFrom (height : Nat) (f : Frontier) : List Edit → Except Fault (Step Frontier)
  | [] => .ok { state := f, staged := [], events := [] }
  | e :: edits =>
    if e.flags.underflow then
      match _hg : gather f.tree height [] e.target (e :: edits) with
      | .error fault => .error fault
      | .ok g => do
        let step ← compactGroup height f e g
        let rest ← compactFrom height step.state g.rest
        return {
          state := rest.state
          staged := step.staged ++ rest.staged
          events := step.events ++ rest.events }
    else if e.flags = { changeKey := true } then do
      let parent ← f.tree.parentOf e.target
      let key ← e.newKey
      let rest ← compactFrom height { f with kept := some e.target } edits
      return { rest with staged := .changeKey e.key key parent :: rest.staged }
    else .error (.unexpectedFlags e.flags e.target)
termination_by edits => edits.length
decreasing_by
  · have := length_rest_le _hg
    simp only [List.length_cons]
    omega
  · simp

def compact (t : Tree) (height : Nat) (edits : List Edit) : Except Fault (Step Tree) := do
  let step ← compactFrom height ⟨t, none⟩ edits
  return { step with state := step.state.tree }

/-- The engine that removes. The root never shrinks, so no edit may leave through it. -/
def engine : Engine Tree where
  name := "remove"
  bound t := t.height
  execute t height edits := Step.sequence (rewrite height) t (Edit.runs edits)
  compact := compact

end Remove

end LevelIndex
