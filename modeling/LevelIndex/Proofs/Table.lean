import LevelIndex.Proofs.Batch.Normal
import LevelIndex.Proofs.Intact
import LevelIndex.Proofs.Insert.Level
import LevelIndex.Proofs.Remove.Amend
import LevelIndex.Report

/-!
# Tables and leaves

A table is the plain account of what an index is to answer: the pairs stored,
in a list sorted by key. Its operations walk along that list, a batch one pair
after the other, so each of them can be read off an induction over the items.
No program runs a table; it stands between the rows of a tree and the list of
pairs that the program compares an index with.

The leaves of a tree hold the cells of the pairs it stores, behind the
sentinel's (`leafCells`). The operations of a table are told in terms of these
cells:

- inserting is merging the cells of the normal form of the batch
  (`leafCells_insert`). Both sides are in key order, so it is enough that they
  have the same members, and `mem_foldl_place` says which those are;
- removing is carrying out removals (`leafCells_remove`);
- the answers are read off the floor of a key (`pair_of_floor`,
  `valueAt?_of_floor`).

A table stores no pair under the least key, and its pairs are in key order
(`Table.Sorted`). Both together are the same as its cells being in key order,
which is how `Sorted` is stated: the invariant of the rows then carries over as
it stands.
-/

namespace LevelIndex

structure Table where
  /-- The pairs stored, in key order. -/
  items : List Pair := []
deriving DecidableEq

namespace Table

def empty : Table := {}

/-- The pairs with the sentinel first. -/
def entries (t : Table) : List Pair := .sentinel :: t.items

/-- Puts a pair at its place in a sorted list, over a pair with the same key. -/
def place (p : Pair) : List Pair → List Pair
  | [] => [p]
  | q :: rest =>
    if p.key < q.key then p :: q :: rest
    else if p.key = q.key then p :: rest
    else q :: place p rest

/-- Stores the pairs one by one; a later pair replaces an earlier one of the
same key. -/
def insert (t : Table) (batch : List Pair) : Table :=
  { items := batch.foldl (fun items p => place p items) t.items }

/-- Drops the pairs under these keys. -/
def remove (t : Table) (keys : List Key) : Table :=
  { items := t.items.filter fun p => !keys.contains p.key }

/-- The greatest pair whose key is not above `key`. -/
def predecessor (t : Table) (key : Key) : Pair :=
  ((t.items.takeWhile fun p => p.key ≤ key).getLast?).getD .sentinel

/-- The value stored under `key`. -/
def get? (t : Table) (key : Key) : Option Value :=
  (t.items.find? fun p => p.key = key).map (·.value)

def length (t : Table) : Nat := t.items.length

def isEmpty (t : Table) : Bool := t.items.isEmpty

/-- The pairs are in key order, above the sentinel. -/
def Sorted (t : Table) : Prop := Increasing (leafCells t.items)

theorem mem_items_remove {t : Table} {keys : List Key} {p : Pair} :
    p ∈ (t.remove keys).items ↔ p ∈ t.items ∧ p.key ∉ keys := by
  simp [remove]

section Place

variable {p q : Pair} {l : List Pair}

theorem mem_place (h : q ∈ place p l) : q = p ∨ q ∈ l := by
  fun_induction place p l with
  | case1 => simpa using h
  | case2 r rest _ => simpa using h
  | case3 r rest _ _ =>
      rcases List.mem_cons.mp h with h | h
      · exact Or.inl h
      · exact Or.inr (List.mem_cons_of_mem _ h)
  | case4 r rest _ _ ih =>
      rcases List.mem_cons.mp h with rfl | h
      · simp
      · rcases ih h with h | h
        · exact Or.inl h
        · exact Or.inr (List.mem_cons_of_mem _ h)

theorem mem_place_iff (h : Ascending (l.map (·.key))) :
    q ∈ place p l ↔ q = p ∨ (q ∈ l ∧ q.key ≠ p.key) := by
  fun_induction place p l with
  | case1 => simp
  | case2 r rest hlt =>
      rw [List.mem_cons]
      refine or_congr Iff.rfl ⟨fun hq => ⟨hq, ?_⟩, fun hq => hq.1⟩
      rcases List.mem_cons.mp hq with rfl | hq
      · exact (Int64.ne_of_lt hlt).symm
      · exact (Int64.ne_of_lt
          (Int64.lt_trans hlt
          (List.rel_of_pairwise_cons h (List.mem_map_of_mem hq)))).symm
  | case3 r rest _ heq =>
      have habove : ∀ {r' : Pair}, r' ∈ rest → r'.key ≠ p.key := fun hr' => by
        rw [heq]
        exact (Int64.ne_of_lt
          (List.rel_of_pairwise_cons h (List.mem_map_of_mem hr'))).symm
      rw [List.mem_cons, List.mem_cons]
      refine or_congr Iff.rfl ⟨fun hq => ⟨Or.inr hq, habove hq⟩, ?_⟩
      intro hq
      exact hq.1.resolve_left fun hqr => hq.2 (by rw [hqr, heq])
  | case4 r rest _ hne' ih =>
      rw [List.mem_cons, ih h.tail, List.mem_cons]
      constructor
      · rintro (rfl | rfl | ⟨hq, hqp⟩)
        · exact Or.inr ⟨Or.inl rfl, Ne.symm hne'⟩
        · exact Or.inl rfl
        · exact Or.inr ⟨Or.inr hq, hqp⟩
      · rintro (rfl | ⟨rfl | hq, hqp⟩)
        · exact Or.inr (Or.inl rfl)
        · exact Or.inl rfl
        · exact Or.inr (Or.inr ⟨hq, hqp⟩)

theorem ascending_place (h : Ascending (l.map (·.key))) :
    Ascending ((place p l).map (·.key)) := by
  fun_induction place p l with
  | case1 => exact List.pairwise_singleton _ _
  | case2 r rest hlt => exact ascending_cons_cons.mpr ⟨hlt, h⟩
  | case3 r rest _ heq =>
      refine List.pairwise_cons.mpr ⟨?_, h.tail⟩
      intro k hk
      show p.key < k
      rw [heq]
      exact List.rel_of_pairwise_cons h hk
  | case4 r rest hge hne ih =>
      refine List.pairwise_cons.mpr ⟨?_, ih h.tail⟩
      intro k hk
      obtain ⟨q, hq, rfl⟩ := List.mem_map.mp hk
      rcases mem_place hq with rfl | hq
      · exact Int64.lt_of_le_of_ne (Int64.not_lt.mp hge) (Ne.symm hne)
      · exact List.rel_of_pairwise_cons h (List.mem_map_of_mem hq)

/-- What is stored after a batch: the last pair of the batch under each key,
and what was stored under other keys. -/
theorem mem_foldl_place {batch : List Pair} (h : Ascending (l.map (·.key))) :
    Ascending ((batch.foldl (fun items p => place p items) l).map (·.key)) ∧
      (q ∈ batch.foldl (fun items p => place p items) l ↔
        lastUnder q.key batch = some q ∨
          (q ∈ l ∧ ∀ r ∈ batch, r.key ≠ q.key)) := by
  induction batch using List.reverseRecOn with
  | nil => exact ⟨h, by simp [lastUnder]⟩
  | append_singleton batch p ih =>
      obtain ⟨hasc, hmem⟩ := ih
      rw [List.foldl_append, List.foldl_cons, List.foldl_nil]
      refine ⟨ascending_place hasc, ?_⟩
      rw [mem_place_iff hasc, hmem, lastUnder_append]
      by_cases hqp : p.key = q.key
      · rw [← hqp, lastUnder_singleton, Option.some_or]
        simp [eq_comm, hqp]
      · rw [lastUnder_eq_none (l := [p]) (by simpa using hqp), Option.none_or,
          or_iff_right fun heq : q = p => hqp (by rw [heq]),
          and_iff_left (Ne.symm hqp)]
        refine or_congr Iff.rfl (and_congr_right ?_)
        intro _
        simp [or_imp, forall_and, hqp]

end Place

section Content

variable {t : Table}

theorem Sorted.ascending (h : t.Sorted) : Ascending (t.items.map (·.key)) := by
  have hkeys := ascending_map_key.mpr h
  rw [leafCells, List.map_cons, List.map_map] at hkeys
  exact hkeys.tail

theorem Sorted.minKey_lt (h : t.Sorted) {p : Pair} (hp : p ∈ t.items) :
    minKey < p.key :=
  List.rel_of_pairwise_cons h (List.mem_map_of_mem hp : p.cell ∈ _)

theorem eq_of_key_eq (h : t.Sorted) {p q : Pair} (hp : p ∈ t.items)
    (hq : q ∈ t.items) (hk : p.key = q.key) : p = q := by
  have hcell : ∀ r ∈ t.items, r.cell ∈ leafCells t.items := fun r hr =>
    List.mem_cons_of_mem _ (List.mem_map_of_mem hr)
  have hpq := Increasing.eq_of_key_eq h (hcell p hp) (hcell q hq) hk
  rcases p with ⟨k, v⟩
  rcases q with ⟨k', v'⟩
  simpa [Pair.cell] using hpq

theorem sorted_of_ascending (h : Ascending (t.items.map (·.key)))
    (hmin : ∀ p ∈ t.items, p.key ≠ minKey) : t.Sorted := by
  refine List.pairwise_cons.mpr
    ⟨?_, List.pairwise_map.mpr (List.pairwise_map.mp h)⟩
  intro c hc
  obtain ⟨p, hp, rfl⟩ := List.mem_map.mp hc
  exact Int64.lt_of_le_of_ne (minKey_le _) (Ne.symm (hmin p hp))

theorem mem_leafCells {items : List Pair} {c : Cell} :
    c ∈ leafCells items ↔ c = sentinelCell ∨ ∃ p ∈ items, p.cell = c := by
  simp [leafCells]

theorem sorted_insert (h : t.Sorted) {batch : List Pair}
    (hb : ∀ p ∈ batch, p.key ≠ minKey) : (t.insert batch).Sorted := by
  refine sorted_of_ascending (mem_foldl_place (q := .sentinel) h.ascending).1 ?_
  intro p hp
  rcases (mem_foldl_place h.ascending).2.mp hp with hp | ⟨hp, -⟩
  · exact hb p (mem_of_lastUnder hp).1
  · exact (Int64.ne_of_lt (h.minKey_lt hp)).symm

/-- Inserting a batch is merging its normal form. What counts in either is the
last pair under each key. -/
theorem leafCells_insert (h : t.Sorted) {batch : List Pair}
    (hb : ∀ p ∈ batch, p.key ≠ minKey) :
    mergeCells (leafCells t.items) ((normalForm batch).map Pair.cell) =
      leafCells (t.insert batch).items := by
  have hnew : Increasing ((normalForm batch).map Pair.cell) :=
    List.pairwise_map.mpr (List.pairwise_map.mp (ascending_normalForm batch))
  have hcell : ∀ {p q : Pair}, p.cell = q.cell → p = q := by
    rintro ⟨k, v⟩ ⟨k', v'⟩ h
    simpa [Pair.cell] using h
  refine (increasing_mergeCells h hnew).ext (sorted_insert h hb) ?_
  intro c
  rw [mem_mergeCells h hnew, mem_leafCells, mem_leafCells]
  constructor
  · rintro (hc | ⟨rfl | ⟨p, hp, rfl⟩, hno⟩)
    · obtain ⟨p, hp, rfl⟩ := List.mem_map.mp hc
      exact Or.inr
        ⟨p, (mem_foldl_place h.ascending).2.mpr
          (Or.inl (mem_normalForm.mp hp)), rfl⟩
    · exact Or.inl rfl
    · refine Or.inr
        ⟨p, (mem_foldl_place h.ascending).2.mpr (Or.inr ⟨hp, ?_⟩), rfl⟩
      intro r hr heq
      obtain ⟨q, hq⟩ := lastUnder_isSome_of_mem hr
      have hqk := (mem_of_lastUnder hq).2
      refine hno q.cell (List.mem_map_of_mem (mem_normalForm.mpr ?_))
        (hqk.trans heq)
      rw [hqk, hq]
  · rintro (rfl | ⟨p, hp, rfl⟩)
    · refine Or.inr ⟨Or.inl rfl, ?_⟩
      intro n hn
      obtain ⟨p, hp, rfl⟩ := List.mem_map.mp hn
      exact hb p (mem_of_mem_normalForm hp)
    · rcases (mem_foldl_place h.ascending).2.mp hp with hp | ⟨hp, hno⟩
      · exact Or.inl (List.mem_map_of_mem (mem_normalForm.mpr hp))
      · refine Or.inr ⟨Or.inr ⟨p, hp, rfl⟩, ?_⟩
        intro n hn
        obtain ⟨q, hq, rfl⟩ := List.mem_map.mp hn
        exact hno q (mem_of_mem_normalForm hq)

theorem sorted_remove (h : t.Sorted) (keys : List Key) :
    (t.remove keys).Sorted :=
  h.sublist (.cons_cons _ (List.filter_sublist.map _))

theorem leafCells_remove {keys : List Key} (hk : minKey ∉ keys)
    {edits : List Edit} (hkeys : ∀ k, k ∈ Edit.keys edits ↔ k ∈ keys)
    (hrem : ∀ e ∈ edits, e.flags.remove = true) :
    Remove.amend edits (leafCells t.items) =
      leafCells (t.remove keys).items := by
  have hkept : ∀ c : Cell, c.key ∉ keys → Remove.amended edits c = some c := by
    intro c hc
    exact Remove.amended_of_forall_ne fun e he heq =>
      hc ((hkeys c.key).mp (heq ▸ List.mem_map_of_mem he))
  have hgone : ∀ c : Cell, c.key ∈ keys → Remove.amended edits c = none :=
      fun c hc => by
    obtain ⟨e, he, hec⟩ := List.mem_map.mp ((hkeys c.key).mpr hc)
    rw [Remove.amended]
    cases hf : edits.find? fun e => e.key = c.key with
    | none => exact absurd (decide_eq_true hec) (List.find?_eq_none.mp hf e he)
    | some e' => simp [hrem e' (List.mem_of_find?_eq_some hf)]
  rw [Remove.amend, leafCells, List.filterMap_cons_some (hkept sentinelCell hk),
    leafCells, List.filterMap_map]
  refine congrArg _ ?_
  show _ = (t.items.filter fun p => !keys.contains p.key).map Pair.cell
  induction t.items with
  | nil => rfl
  | cons p rest ih =>
      by_cases hp : p.key ∈ keys
      · rw [List.filterMap_cons_none (f := Remove.amended edits ∘ Pair.cell)
          (hgone p.cell hp), List.filter_cons_of_neg (by simpa using hp), ih]
      · rw [List.filterMap_cons_some (f := Remove.amended edits ∘ Pair.cell)
          (hkept p.cell hp), List.filter_cons_of_pos (by simpa using hp),
          List.map_cons, ih]

/-! ## Answers -/

theorem takeWhile_eq_filter {l : List Pair} (h : Ascending (l.map (·.key)))
    (key : Key) :
    (l.takeWhile fun p => p.key ≤ key) = l.filter fun p => p.key ≤ key := by
  induction l with
  | nil => rfl
  | cons p rest ih =>
      by_cases hp : p.key ≤ key
      · rw [List.takeWhile_cons_of_pos (by simpa using hp),
          List.filter_cons_of_pos (by simpa using hp), ih h.tail]
      · have hnone : (p :: rest).filter (fun q => q.key ≤ key) = [] := by
          refine List.filter_eq_nil_iff.mpr ?_
          intro q hq
          rcases List.mem_cons.mp hq with rfl | hq
          · simpa using hp
          · have hpq := List.rel_of_pairwise_cons h (List.mem_map_of_mem hq)
            simpa using Int64.lt_trans (Int64.not_le.mp hp) hpq
        rw [hnone, List.takeWhile_cons_of_neg (by simpa using hp)]

theorem floor_leafCells (h : t.Sorted) (key : Key) :
    floor key (leafCells t.items) =
      some ((t.items.takeWhile fun p => p.key ≤ key).getLast?.elim sentinelCell
        Pair.cell) := by
  have hfirst : (leafCells t.items).filter (fun c => c.key ≤ key) =
      sentinelCell :: (t.items.map Pair.cell).filter fun c => c.key ≤ key :=
    List.filter_cons_of_pos (decide_eq_true (minKey_le key))
  rw [takeWhile_eq_filter h.ascending, floor, hfirst, List.filter_map,
    List.getLast?_cons, List.getLast?_map]
  show some (((t.items.filter fun p => p.key ≤ key).getLast?.map Pair.cell).getD
    sentinelCell) = _
  cases (t.items.filter fun p => p.key ≤ key).getLast? <;> rfl

theorem get?_eq_none_iff {key : Key} :
    t.get? key = none ↔ ∀ p ∈ t.items, p.key ≠ key := by
  simp [get?]

theorem get?_eq_some_iff (h : t.Sorted) {p : Pair} :
    t.get? p.key = some p.value ↔ p ∈ t.items := by
  constructor
  · intro hp
    obtain ⟨q, hq, hv⟩ := Option.map_eq_some_iff.mp hp
    have hk : q.key = p.key := by simpa using List.find?_some hq
    obtain rfl : q = p := by cases q; cases p; simp_all
    exact List.mem_of_find?_eq_some hq
  · intro hp
    cases hf : t.items.find? fun q => q.key = p.key with
    | none => exact absurd (decide_eq_true rfl) (List.find?_eq_none.mp hf p hp)
    | some q =>
        have hk : q.key = p.key := by simpa using List.find?_some hf
        rw [get?, hf, eq_of_key_eq h (List.mem_of_find?_eq_some hf) hp hk]
        rfl

/-- The floor of a key is reported as the predecessor. -/
theorem pair_of_floor (h : t.Sorted) {key : Key} {c : Cell}
    (hc : floor key (leafCells t.items) = some c) :
    c.pair = .ok (t.predecessor key) := by
  rw [floor_leafCells h key] at hc
  cases hc
  rw [predecessor]
  cases (t.items.takeWhile fun p => p.key ≤ key).getLast? <;> rfl

theorem valueAt?_of_floor (h : t.Sorted) {key : Key} {c : Cell}
    (hc : floor key (leafCells t.items) = some c) :
    c.valueAt? key = t.get? key := by
  have hmem := (mem_of_floor hc).1
  rw [get?]
  cases hf : t.items.find? fun p => p.key = key with
  | some p =>
      have hp : p.key = key := by simpa using List.find?_some hf
      have hpc : p.cell ∈ leafCells t.items :=
        mem_leafCells.mpr (Or.inr ⟨p, List.mem_of_find?_eq_some hf, rfl⟩)
      have hfloor := floor_of_mem h hpc
      rw [show p.cell.key = key from hp, hc] at hfloor
      rw [Option.some.inj hfloor]
      exact Cell.valueAt?_eq_some_iff.mpr (by rw [Pair.cell, hp])
  | none =>
      refine Option.eq_none_iff_forall_ne_some.mpr ?_
      intro v hv
      rw [Cell.valueAt?_eq_some_iff.mp hv] at hmem
      rcases mem_leafCells.mp hmem with hs | ⟨p, hp, hpc⟩
      · cases hs
      · have hk : p.key = key := congrArg Cell.key hpc
        exact absurd (decide_eq_true hk) (List.find?_eq_none.mp hf p hp)

end Content

end Table

end LevelIndex
