import LevelIndex.Node.Basic

/-!
# Cutting cells into nodes

The cells that a node is to hold after an insert may be too many for it. They
are cut into chunks, each of which becomes a node. Chunks are filled from the
left, but the last is never left with fewer cells than half a node: the last
seventeen to twenty-four cells are cut so that exactly half a node remains.

No cell is lost (`flatten_chunks`), a chunk fits a node (`length_le_of_mem_chunks`),
and if there are several, each has at least half a node's cells
(`half_le_of_mem_chunks`).
-/

namespace LevelIndex

/-- The cells cut into the contents of nodes. -/
def chunks (cells : List Cell) : List (List Cell) :=
  if cells.length ≤ Node.capacity then [cells]
  else if cells.length ≤ Node.capacity + Node.half then
    [cells.take (cells.length - Node.half), cells.drop (cells.length - Node.half)]
  else cells.take Node.capacity :: chunks (cells.drop Node.capacity)
termination_by cells.length
decreasing_by
  simp only [List.length_drop, Node.capacity] at *
  omega

theorem chunks_of_length_le {cells : List Cell} (h : cells.length ≤ Node.capacity) :
    chunks cells = [cells] := by
  rw [chunks, if_pos h]

@[simp] theorem flatten_chunks (cells : List Cell) : (chunks cells).flatten = cells := by
  fun_induction chunks cells with
  | case1 cells h => simp
  | case2 cells h h' => simp
  | case3 cells h h' ih => simp [ih]

theorem length_le_of_mem_chunks {cells c : List Cell} (h : c ∈ chunks cells) :
    c.length ≤ Node.capacity := by
  fun_induction chunks cells with
  | case1 cells hle =>
    obtain rfl := List.mem_singleton.mp h
    exact hle
  | case2 cells hlt hle =>
    simp only [Node.capacity, Node.half] at *
    rcases List.mem_cons.mp h with rfl | h
    · simp only [List.length_take]
      omega
    · obtain rfl := List.mem_singleton.mp h
      simp only [List.length_drop]
      omega
  | case3 cells hlt hgt ih =>
    rcases List.mem_cons.mp h with rfl | h
    · simp only [List.length_take]
      omega
    · exact ih h

theorem half_le_of_mem_chunks {cells c : List Cell} (hc : Node.half ≤ cells.length)
    (h : c ∈ chunks cells) : Node.half ≤ c.length := by
  fun_induction chunks cells with
  | case1 cells hle =>
    obtain rfl := List.mem_singleton.mp h
    exact hc
  | case2 cells hlt hle =>
    simp only [Node.capacity, Node.half] at *
    rcases List.mem_cons.mp h with rfl | h
    · simp only [List.length_take]
      omega
    · obtain rfl := List.mem_singleton.mp h
      simp only [List.length_drop]
      omega
  | case3 cells hlt hgt ih =>
    simp only [Node.capacity, Node.half] at *
    rcases List.mem_cons.mp h with rfl | h
    · simp only [List.length_take]
      omega
    · exact ih (by simp only [List.length_drop]; omega) h

/-- There are as many chunks as nodes are needed at the least. -/
theorem length_chunks {cells : List Cell} (h : cells ≠ []) :
    (chunks cells).length = (cells.length + (Node.capacity - 1)) / Node.capacity := by
  have h0 : 0 < cells.length := List.length_pos_iff.mpr h
  fun_induction chunks cells with
  | case1 cells hle =>
    simp only [Node.capacity, List.length_singleton] at *
    omega
  | case2 cells hlt hle =>
    simp only [Node.capacity, Node.half, List.length_cons, List.length_nil] at *
    omega
  | case3 cells hlt hgt ih =>
    simp only [Node.capacity, Node.half, List.length_cons, List.length_drop] at *
    have hd : 0 < (cells.drop 16).length := by simp only [List.length_drop]; omega
    rw [ih (List.length_pos_iff.mp hd) (by omega)]
    omega

end LevelIndex
