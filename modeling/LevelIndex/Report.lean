import LevelIndex.Fault

/-!
# What queries report

Queries answer with pairs, and a cell of a leaf is reported as one. The entry
that the sentinel is stored with is empty and reads as `nullValue`; a child's
handle has no value and does not belong in a leaf.
-/

namespace LevelIndex

/-- The pair that a leaf cell stands for. -/
def Cell.pair (c : Cell) : Except Fault Pair :=
  match c.entry with
  | .null => .ok ⟨c.key, nullValue⟩
  | .value v => .ok ⟨c.key, v⟩
  | .child h => .error (.childInLeaf h)

/-- The value of a cell, provided that it stands under exactly this key. -/
def Cell.valueAt? (c : Cell) (key : Key) : Option Value :=
  match c.entry with
  | .value v => if c.key = key then some v else none
  | _ => none

theorem Cell.pair_eq_ok_key {c : Cell} {p : Pair} (h : c.pair = .ok p) : p.key = c.key := by
  unfold pair at h
  split at h <;> cases h <;> rfl

theorem Cell.valueAt?_eq_some_iff {c : Cell} {key : Key} {v : Value} :
    c.valueAt? key = some v ↔ c = ⟨key, .value v⟩ := by
  rcases c with ⟨k, _ | w | h⟩
  · simp [valueAt?]
  · by_cases hk : k = key <;> simp [valueAt?, hk]
  · simp [valueAt?]

end LevelIndex
