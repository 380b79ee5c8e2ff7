/-!
# Bisection

`bisect n below` looks for the place among the positions `0, …, n - 1` where
`below` stops holding. It halves the range that is left until one position
remains, whatever the answers were, and asks that position last.

Where `below` holds on an initial stretch and nowhere after it, the result is
the length of that stretch (`bisect_eq`). Nothing is assumed of `below`
otherwise, and the result still is a position or `n` (`bisect_le`).
`leadingCount` is the same search over the elements of a list.
-/

namespace LevelIndex

namespace Bisect

/-- Narrows the `size` positions from `base` on to one. -/
def narrow (below : Nat → Bool) (size base : Nat) : Nat :=
  if size ≤ 1 then base
  else if below (base + size / 2) then narrow below (size - size / 2) (base + size / 2)
  else narrow below (size - size / 2) base
termination_by size
decreasing_by all_goals omega

theorem narrow_lt (below : Nat → Bool) {size base n : Nat} (hs : 0 < size)
    (hn : base + size ≤ n) : narrow below size base < n := by
  fun_induction narrow below size base with
  | case1 size base h => omega
  | case2 size base h hmid ih => exact ih (by omega) (by omega)
  | case3 size base h hmid ih => exact ih (by omega) (by omega)

/-- The search keeps the invariant that everything before `base` is below, and that
everything from `base + size` on is not. -/
theorem narrow_eq {below : Nat → Bool} {m size base : Nat} (hs : 0 < size)
    (hb : base ≤ m) (hm : m ≤ base + size)
    (hlt : ∀ i, i < m → below i = true) (hge : ∀ i, m ≤ i → i < base + size → below i = false) :
    narrow below size base = if m = base then base else m - 1 := by
  fun_induction narrow below size base with
  | case1 size base h => split <;> omega
  | case2 size base h hmid ih =>
    have hlt' : base + size / 2 < m := by
      apply Nat.lt_of_not_le
      intro hle
      simp [hge _ hle (by omega)] at hmid
    rw [ih (by omega) (by omega) (by omega) (fun i hi hi' => hge i hi (by omega))]
    split <;> split <;> omega
  | case3 size base h hmid ih =>
    have hge' : m ≤ base + size / 2 := by
      apply Nat.le_of_not_lt
      intro hlt'
      exact hmid (hlt _ hlt')
    exact ih (by omega) hb (by omega) (fun i hi hi' => hge i hi (by omega))

end Bisect

/-- The number of leading positions below `n` at which `below` holds. -/
def bisect (n : Nat) (below : Nat → Bool) : Nat :=
  if n = 0 then 0
  else
    let last := Bisect.narrow below n 0
    if below last then last + 1 else last

theorem bisect_le (n : Nat) (below : Nat → Bool) : bisect n below ≤ n := by
  unfold bisect
  split
  · omega
  · have := Bisect.narrow_lt below (Nat.pos_of_ne_zero ‹_›) (Nat.le_of_eq (Nat.zero_add n))
    dsimp only
    split <;> omega

theorem bisect_eq {n m : Nat} {below : Nat → Bool} (hm : m ≤ n)
    (hlt : ∀ i, i < m → below i = true) (hge : ∀ i, m ≤ i → i < n → below i = false) :
    bisect n below = m := by
  unfold bisect
  split
  · omega
  · have h : Bisect.narrow below n 0 = if m = 0 then 0 else m - 1 :=
      Bisect.narrow_eq (by omega) (Nat.zero_le _) (by omega) hlt
        (fun i hi hi' => hge i hi (by omega))
    dsimp only
    rw [h]
    by_cases h0 : m = 0
    · subst h0
      simp [hge 0 (Nat.le_refl 0) (by omega)]
    · simp only [h0, if_false, hlt (m - 1) (by omega), if_true]
      omega

/-- The number of leading elements of `l` that satisfy `p`, by bisection. -/
def leadingCount {α : Type} (p : α → Bool) (l : List α) : Nat :=
  bisect l.length fun i => l[i]?.any p

theorem leadingCount_le {α : Type} (p : α → Bool) (l : List α) :
    leadingCount p l ≤ l.length :=
  bisect_le _ _

/-- A bisection over a list that starts with all elements of a kind counts
these. -/
theorem leadingCount_append {α : Type} {p : α → Bool} {l m : List α}
    (hl : ∀ a ∈ l, p a = true) (hm : ∀ a ∈ m, p a = false) :
    leadingCount p (l ++ m) = l.length := by
  refine bisect_eq (by simp) ?_ ?_
  · intro i hi
    simp [List.getElem?_append_left hi, hi, hl _ (List.getElem_mem hi)]
  · intro i hge hi
    rw [List.getElem?_append_right hge]
    have hj : i - l.length < m.length := by simp at hi; omega
    simp [hj, hm _ (List.getElem_mem hj)]

end LevelIndex
