/-!
# Requirements

A requirement lets a computation go on only where a condition holds.
-/

namespace LevelIndex

/-- Passes if `p` holds, and otherwise fails with `e`. -/
def require {ε : Type} (p : Prop) [Decidable p] (e : ε) : Except ε Unit :=
  if p then .ok () else .error e

variable {ε : Type} {p : Prop} [Decidable p] {e e' : ε}

@[simp] theorem require_eq_ok_iff : require p e = .ok () ↔ p := by
  by_cases h : p <;> simp [require, h]

@[simp] theorem require_eq_error_iff : require p e = .error e' ↔ ¬p ∧ e = e' := by
  by_cases h : p <;> simp [require, h]

theorem require_pos (h : p) : require p e = .ok () := if_pos h

theorem require_neg (h : ¬p) : require p e = .error e := if_neg h

end LevelIndex
