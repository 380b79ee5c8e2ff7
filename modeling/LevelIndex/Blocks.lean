/-!
# Work in blocks

A batch of independent questions is cut into as many equal blocks as there are
workers, and never into more blocks than there are questions. Each block is
answered on its own and the answers are put together in the order of the
questions. The first question that fails, in that order, is the one that shows.

Cutting loses nothing: the blocks in order are the list (`flatten_blocks`).
-/

namespace LevelIndex

variable {ε α β : Type}

/-- The list cut into blocks of `size` elements, the last of which may be shorter. Blocks of no
size at all leave the list whole. -/
def blocksOf (size : Nat) (l : List α) : List (List α) :=
  if size = 0 ∨ l.length ≤ size then [l]
  else l.take size :: blocksOf size (l.drop size)
termination_by l.length
decreasing_by simp only [List.length_drop]; omega

@[simp] theorem flatten_blocksOf (size : Nat) (l : List α) : (blocksOf size l).flatten = l := by
  fun_induction blocksOf size l with
  | case1 l h => simp
  | case2 l h ih => simp [ih]

/-- The number of blocks for `n` questions: one for each worker, but at least one and no more than
there are questions. -/
def blockCount (workers n : Nat) : Nat := max 1 (min workers n)

/-- The blocks that a list is cut into for a number of workers. -/
def blocks (workers : Nat) (l : List α) : List (List α) :=
  let count := blockCount workers l.length
  blocksOf ((l.length + count - 1) / count) l

@[simp] theorem flatten_blocks (workers : Nat) (l : List α) : (blocks workers l).flatten = l :=
  flatten_blocksOf _ _

/-- Answers every element by `f`, block by block. -/
def mapBlocks (workers : Nat) (l : List α) (f : α → Except ε β) : Except ε (List β) := do
  let answers ← (blocks workers l).mapM fun block => block.mapM f
  return answers.flatten

end LevelIndex
