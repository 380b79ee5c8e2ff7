import LevelIndex.Pair

/-!
# Ascending keys

Keys in a node, and edits handed from one level to the next, have to increase
strictly. `firstDescent?` finds the first position that breaks the order, so
that a report can name it; it finds none exactly when the list is strictly
increasing (`firstDescent?_eq_none_iff`).
-/

namespace LevelIndex

/-- The position of the first key that does not exceed the key before it. -/
def firstDescent? : List Key → Option Nat
  | a :: b :: l => if b ≤ a then some 1 else (firstDescent? (b :: l)).map (· + 1)
  | _ => none

theorem firstDescent?_cons_cons (a b : Key) (l : List Key) :
    firstDescent? (a :: b :: l) =
      if b ≤ a then some 1 else (firstDescent? (b :: l)).map (· + 1) := rfl

/-- A list increases strictly when each key is below all later ones. -/
abbrev Ascending (l : List Key) : Prop := l.Pairwise (· < ·)

theorem ascending_cons_cons {a b : Key} {l : List Key} :
    Ascending (a :: b :: l) ↔ a < b ∧ Ascending (b :: l) := by
  constructor
  · intro h
    exact ⟨List.rel_of_pairwise_cons h (by simp), h.tail⟩
  · rintro ⟨hab, h⟩
    refine List.pairwise_cons.mpr ⟨fun x hx => ?_, h⟩
    rcases List.mem_cons.mp hx with rfl | hx
    · exact hab
    · exact Int64.lt_trans hab (List.rel_of_pairwise_cons h hx)

/-- A list whose keys increase is determined by its members. -/
theorem eq_of_ascending_map {α : Type} {f : α → Key} {l m : List α}
    (hl : Ascending (l.map f)) (hm : Ascending (m.map f)) (h : ∀ a, a ∈ l ↔ a ∈ m) : l = m := by
  have hnodup : ∀ {k : List α}, Ascending (k.map f) → k.Nodup := fun hk =>
    (List.pairwise_map.mp hk).imp fun {a b} hlt (heq : a = b) => Int64.lt_irrefl (heq ▸ hlt)
  have hanti : ∀ a b, a ∈ l → b ∈ m → f a < f b → f b < f a → a = b :=
    fun a b _ _ hab hba => absurd (Int64.lt_trans hab hba) Int64.lt_irrefl
  exact List.Perm.eq_of_pairwise hanti (List.pairwise_map.mp hl) (List.pairwise_map.mp hm)
    ((List.perm_ext_iff_of_nodup (hnodup hl) (hnodup hm)).mpr h)

theorem firstDescent?_eq_none_iff {l : List Key} :
    firstDescent? l = none ↔ Ascending l := by
  induction l with
  | nil => simp [firstDescent?]
  | cons a l ih =>
    cases l with
    | nil => simp [firstDescent?]
    | cons b l =>
      rw [firstDescent?_cons_cons, ascending_cons_cons]
      by_cases h : b ≤ a
      · simp [h, Int64.not_lt.mpr h]
      · simp [h, Int64.not_le.mp h, ih]

end LevelIndex
