import LevelIndex.Fault

/-!
# Checks on nodes

A list of cells makes a node only if it is not too long (`Node.ofCells`), and a
node passes in or out of the store only if its keys increase
(`Node.checkOrder`).
-/

namespace LevelIndex

namespace Node

/-- The node of these cells; the first cell that does not fit is a fault. -/
def ofCells (height : Nat) (parent right : Handle) (cells : List Cell) : Except Fault Node :=
  if length_le : cells.length ≤ capacity then
    .ok { height, parent, right, cells, length_le }
  else
    .error (.overfull ((cells[capacity]?.map (·.key)).getD minKey) height)

/-- Passes a node whose keys increase. -/
def checkOrder (access : Access) (handle : Handle) (n : Node) : Except Fault Unit :=
  match n.unsortedAt? with
  | none => .ok ()
  | some slot => .error (.unordered access handle slot n)

theorem ofCells_eq_ok_iff {height : Nat} {parent right : Handle} {cells : List Cell} {n : Node} :
    ofCells height parent right cells = .ok n ↔
      n.height = height ∧ n.parent = parent ∧ n.right = right ∧ n.cells = cells := by
  unfold ofCells
  constructor
  · intro h
    split at h
    · cases h
      exact ⟨rfl, rfl, rfl, rfl⟩
    · cases h
  · rcases n with ⟨_, _, _, _, hl⟩
    rintro ⟨rfl, rfl, rfl, rfl⟩
    simp [hl]

theorem ofCells_of_length_le {height : Nat} {parent right : Handle} {cells : List Cell}
    (h : cells.length ≤ capacity) :
    ofCells height parent right cells = .ok ⟨height, parent, right, cells, h⟩ := by
  simp [ofCells, h]

@[simp] theorem checkOrder_eq_ok_iff {access : Access} {handle : Handle} {n : Node} :
    checkOrder access handle n = .ok () ↔ Ascending n.keys := by
  unfold checkOrder
  rw [← unsortedAt?_eq_none_iff]
  split <;> simp_all

end Node

end LevelIndex
