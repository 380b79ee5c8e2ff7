import LevelIndex.Entry

/-!
# Merging cells

`mergeCells` merges a run of new cells into the cells of a node, walking both
lists once. The lower key goes first, and where the keys are equal the new
cell takes the place of the old one. On lists in key order this is the union
of two maps in which the new one wins.
-/

namespace LevelIndex

/-- The two lists merged by key; a new cell replaces an old one of the same key. -/
def mergeCells : List Cell → List Cell → List Cell
  | [], new => new
  | old, [] => old
  | o :: old, n :: new =>
    if o.key < n.key then o :: mergeCells old (n :: new)
    else if o.key = n.key then n :: mergeCells old new
    else n :: mergeCells (o :: old) new
termination_by old new => old.length + new.length

@[simp] theorem mergeCells_nil_left (new : List Cell) : mergeCells [] new = new := by
  simp [mergeCells]

@[simp] theorem mergeCells_nil_right (old : List Cell) : mergeCells old [] = old := by
  cases old <;> simp [mergeCells]

theorem mergeCells_cons_cons (o n : Cell) (old new : List Cell) :
    mergeCells (o :: old) (n :: new) =
      if o.key < n.key then o :: mergeCells old (n :: new)
      else if o.key = n.key then n :: mergeCells old new
      else n :: mergeCells (o :: old) new := by
  rw [mergeCells]

/-- Merging invents no cell. -/
theorem mem_or_mem_of_mem_mergeCells {c : Cell} {old new : List Cell}
    (h : c ∈ mergeCells old new) : c ∈ old ∨ c ∈ new := by
  fun_induction mergeCells old new with
  | case1 new => exact Or.inr h
  | case2 old => exact Or.inl h
  | case3 o old n new _ ih =>
    rcases List.mem_cons.mp h with rfl | h
    · simp
    · rcases ih h with h | h <;> simp_all
  | case4 o old n new _ _ ih =>
    rcases List.mem_cons.mp h with rfl | h
    · simp
    · rcases ih h with h | h <;> simp [h]
  | case5 o old n new _ _ ih =>
    rcases List.mem_cons.mp h with rfl | h
    · simp
    · rcases ih h with h | h <;> simp_all

/-- No new cell is lost. -/
theorem mem_mergeCells_of_mem_new {c : Cell} {old new : List Cell} (h : c ∈ new) :
    c ∈ mergeCells old new := by
  fun_induction mergeCells old new with
  | case1 new => exact h
  | case2 old => cases h
  | case3 o old n new _ ih => exact List.mem_cons_of_mem _ (ih h)
  | case4 o old n new _ _ ih =>
    rcases List.mem_cons.mp h with rfl | h
    · simp
    · exact List.mem_cons_of_mem _ (ih h)
  | case5 o old n new _ _ ih =>
    rcases List.mem_cons.mp h with rfl | h
    · simp
    · exact List.mem_cons_of_mem _ (ih h)

end LevelIndex
