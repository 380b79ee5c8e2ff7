import LevelIndex.Pair

/-!
# The normal form of a batch

Batches come in any order and may repeat keys. Before anything else they are
put in key order with each key once. Of the pairs to insert under one key, the
one that came last in the batch is kept.
-/

namespace LevelIndex

/-- Of neighbouring pairs with one key, keeps the last. -/
def keepLast : List Pair → List Pair
  | a :: b :: rest => if a.key = b.key then keepLast (b :: rest) else a :: keepLast (b :: rest)
  | l => l

/-- The pairs in key order, the last of each key. -/
def normalForm (batch : List Pair) : List Pair :=
  keepLast (batch.mergeSort fun a b => a.key ≤ b.key)

/-- The keys in order, each once. -/
def sortedKeys (keys : List Key) : List Key :=
  dedup (keys.mergeSort fun a b => a ≤ b)
where
  /-- Of neighbouring equal keys, keeps one. -/
  dedup : List Key → List Key
    | a :: b :: rest => if a = b then dedup (b :: rest) else a :: dedup (b :: rest)
    | l => l

theorem mem_of_mem_keepLast {p : Pair} {l : List Pair} (h : p ∈ keepLast l) : p ∈ l := by
  fun_induction keepLast l with
  | case1 a b rest _ ih => exact List.mem_cons_of_mem _ (ih h)
  | case2 a b rest _ ih =>
    rcases List.mem_cons.mp h with rfl | h
    · simp
    · exact List.mem_cons_of_mem _ (ih h)
  | case3 l => exact h

/-- The normal form consists of pairs of the batch. -/
theorem mem_of_mem_normalForm {p : Pair} {batch : List Pair} (h : p ∈ normalForm batch) :
    p ∈ batch :=
  List.mem_mergeSort.mp (mem_of_mem_keepLast h)

end LevelIndex
