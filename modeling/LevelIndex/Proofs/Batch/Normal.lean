import LevelIndex.Ascending
import LevelIndex.Batch.Normal

/-!
# What the normal form of a batch keeps

Of each key in a batch the normal form keeps the last pair
(`mem_normalForm`). This rests on the sort being stable: the pairs under one
key leave it in the order in which they stood in the batch (`filter_mergeSort`),
so the last of a stretch of equal keys is the one that came last
(`lastUnder_mergeSort`). Dropping all but the last of each stretch does not
change which pair is last under a key, as a pair is dropped only if there is a
later one under its key.

A list in key order is known by its members. So two batches have one normal form
just in case they map keys to the same last values (`normalForm_eq_iff`), and
two removals are one just in case they name the same keys (`sortedKeys_eq_iff`).
-/

namespace LevelIndex

/-- The last pair of a batch under a key. -/
def lastUnder (key : Key) (batch : List Pair) : Option Pair :=
  (batch.filter fun p => p.key = key).getLast?

section LastUnder

variable {key : Key} {p : Pair} {batch l : List Pair}

theorem lastUnder_append (key : Key) (l m : List Pair) :
    lastUnder key (l ++ m) = (lastUnder key m).or (lastUnder key l) := by
  simp [lastUnder, List.getLast?_append]

theorem lastUnder_cons (key : Key) (p : Pair) (l : List Pair) :
    lastUnder key (p :: l) = (lastUnder key l).or (lastUnder key [p]) :=
  lastUnder_append key [p] l

theorem lastUnder_cons_of_ne (h : p.key ≠ key) :
    lastUnder key (p :: l) = lastUnder key l := by
  rw [lastUnder, List.filter_cons_of_neg (by simpa using h)]
  rfl

theorem lastUnder_singleton (p : Pair) : lastUnder p.key [p] = some p := by
  simp [lastUnder]

theorem lastUnder_eq_none (h : ∀ q ∈ l, q.key ≠ key) :
    lastUnder key l = none := by
  rw [lastUnder, List.getLast?_eq_none_iff, List.filter_eq_nil_iff]
  exact fun q hq => by simpa using h q hq

theorem mem_of_lastUnder (h : lastUnder key batch = some p) :
    p ∈ batch ∧ p.key = key := by
  simpa using List.mem_filter.mp (List.mem_of_getLast? h)

theorem lastUnder_isSome_of_mem (h : p ∈ batch) :
    ∃ q, lastUnder p.key batch = some q := by
  cases hl : lastUnder p.key batch with
  | some q => exact ⟨q, rfl⟩
  | none =>
      rw [lastUnder, List.getLast?_eq_none_iff, List.filter_eq_nil_iff] at hl
      exact absurd (decide_eq_true rfl) (hl p h)

end LastUnder

theorem key_le_trans (a b c : Pair) (h : decide (a.key ≤ b.key) = true)
    (h' : decide (b.key ≤ c.key) = true) : decide (a.key ≤ c.key) = true :=
  decide_eq_true (Int64.le_trans (of_decide_eq_true h) (of_decide_eq_true h'))

theorem key_le_total (a b : Pair) :
    (decide (a.key ≤ b.key) || decide (b.key ≤ a.key)) = true := by
  simpa using Int64.le_total a.key b.key

/-- Sorting keeps the order of the pairs under one key. They are a sublist of
the batch that is in order as it stands, and a stable sort leaves such a list as
it is. -/
theorem filter_mergeSort (key : Key) (batch : List Pair) :
    (batch.mergeSort fun a b => a.key ≤ b.key).filter (fun p => p.key = key) =
      batch.filter fun p => p.key = key := by
  let sorted := batch.mergeSort fun a b => a.key ≤ b.key
  have hequal : (batch.filter fun p => p.key = key).Pairwise
      fun a b => decide (a.key ≤ b.key) = true := by
    refine List.pairwise_of_forall_mem_list ?_
    intro a ha b hb
    have hak : a.key = key := by simpa using (List.mem_filter.mp ha).2
    have hbk : b.key = key := by simpa using (List.mem_filter.mp hb).2
    simp [hak, hbk]
  have hsub := List.sublist_mergeSort key_le_trans key_le_total hequal
    List.filter_sublist
  have hsub' := hsub.filter fun p => p.key = key
  rw [List.filter_filter] at hsub'
  simp only [Bool.and_self] at hsub'
  have hperm : (sorted.filter fun p => p.key = key).Perm
      (batch.filter fun p => p.key = key) :=
    (List.mergeSort_perm batch _).filter _
  exact (hsub'.eq_of_length hperm.length_eq.symm).symm

theorem lastUnder_mergeSort (key : Key) (batch : List Pair) :
    lastUnder key (batch.mergeSort fun a b => a.key ≤ b.key) =
      lastUnder key batch := by
  rw [lastUnder, filter_mergeSort, lastUnder]

theorem eq_nil_or_singleton {α : Type} {l : List α}
    (h : ∀ a b rest, l = a :: b :: rest → False) : l = [] ∨ ∃ a, l = [a] := by
  cases l with
  | nil => exact Or.inl rfl
  | cons a l =>
      cases l with
      | nil => exact Or.inr ⟨a, rfl⟩
      | cons b rest => exact (h a b rest rfl).elim

section KeepLast

variable {l : List Pair}

theorem mem_keepLast (h : l.Pairwise fun a b => a.key ≤ b.key) {p : Pair} :
    p ∈ keepLast l ↔ lastUnder p.key l = some p := by
  fun_induction keepLast l with
  | case1 a b rest heq ih =>
      rw [ih h.tail, lastUnder_cons _ a]
      by_cases hp : p.key = b.key
      · obtain ⟨q, hq⟩ := lastUnder_isSome_of_mem (show b ∈ b :: rest by simp)
        rw [hp, hq]
        rfl
      · rw [lastUnder_eq_none (l := [a]) (by simpa [heq] using Ne.symm hp),
          Option.or_none]
  | case2 a b rest hne ih =>
      have hlt : ∀ q ∈ b :: rest, a.key < q.key := by
        intro q hq
        have hab : a.key < b.key :=
          Int64.lt_of_le_of_ne (List.rel_of_pairwise_cons h (by simp)) hne
        rcases List.mem_cons.mp hq with rfl | hq
        · exact hab
        · exact Int64.lt_of_lt_of_le hab (List.rel_of_pairwise_cons h.tail hq)
      rw [List.mem_cons, ih h.tail]
      by_cases hp : a.key = p.key
      · have hnone : lastUnder p.key (b :: rest) = none :=
          lastUnder_eq_none fun q hq heq => Int64.lt_irrefl
            (heq ▸ hp ▸ hlt q hq)
        rw [lastUnder_cons _ a, hnone, Option.none_or, ← hp,
          lastUnder_singleton]
        simp [eq_comm]
      · rw [lastUnder_cons_of_ne hp, or_iff_right fun heq => hp (by rw [heq])]
  | case3 l hshort =>
      rcases eq_nil_or_singleton hshort with rfl | ⟨a, rfl⟩
      · simp [lastUnder]
      · by_cases hp : a.key = p.key
        · rw [← hp, lastUnder_singleton]
          simp [eq_comm]
        · rw [lastUnder_cons_of_ne hp]
          simpa [lastUnder] using fun heq : p = a => hp (by rw [heq])

theorem ascending_keepLast (h : l.Pairwise fun a b => a.key ≤ b.key) :
    Ascending ((keepLast l).map (·.key)) := by
  fun_induction keepLast l with
  | case1 a b rest _ ih => exact ih h.tail
  | case2 a b rest hne ih =>
      refine List.pairwise_cons.mpr ⟨?_, ih h.tail⟩
      intro k hk
      obtain ⟨q, hq, rfl⟩ := List.mem_map.mp hk
      have hab : a.key < b.key :=
        Int64.lt_of_le_of_ne (List.rel_of_pairwise_cons h (by simp)) hne
      rcases List.mem_cons.mp (mem_of_mem_keepLast hq) with rfl | hq
      · exact hab
      · exact Int64.lt_of_lt_of_le hab (List.rel_of_pairwise_cons h.tail hq)
  | case3 l hshort =>
      rcases eq_nil_or_singleton hshort with rfl | ⟨a, rfl⟩
      · exact List.Pairwise.nil
      · exact List.pairwise_singleton _ _

end KeepLast

theorem pairwise_mergeSort_key (batch : List Pair) :
    (batch.mergeSort fun a b => a.key ≤ b.key).Pairwise fun a b =>
      a.key ≤ b.key :=
  (List.pairwise_mergeSort key_le_trans key_le_total batch).imp
    of_decide_eq_true

/-- The normal form holds the last pair under each key. -/
theorem mem_normalForm {batch : List Pair} {p : Pair} :
    p ∈ normalForm batch ↔ lastUnder p.key batch = some p := by
  rw [normalForm, mem_keepLast (pairwise_mergeSort_key batch),
    lastUnder_mergeSort]

theorem ascending_normalForm (batch : List Pair) :
    Ascending ((normalForm batch).map (·.key)) :=
  ascending_keepLast (pairwise_mergeSort_key batch)

theorem lastUnder_eq_some_iff {key : Key} {batch : List Pair} {p : Pair} :
    lastUnder key batch = some p ↔ p.key = key ∧ p ∈ normalForm batch := by
  constructor
  · intro h
    have hk := (mem_of_lastUnder h).2
    exact ⟨hk, mem_normalForm.mpr (hk.symm ▸ h)⟩
  · rintro ⟨rfl, h⟩
    exact mem_normalForm.mp h

/-- The value that a batch leaves under a key, if it writes there. -/
def lastValue? (key : Key) (batch : List Pair) : Option Value :=
  (lastUnder key batch).map (·.value)

theorem mem_map_key_iff {key : Key} {batch : List Pair} :
    key ∈ batch.map (·.key) ↔ (lastValue? key batch).isSome := by
  rw [lastValue?, Option.isSome_map]
  constructor
  · intro h
    obtain ⟨p, hp, rfl⟩ := List.mem_map.mp h
    obtain ⟨q, hq⟩ := lastUnder_isSome_of_mem hp
    exact Option.isSome_of_eq_some hq
  · intro h
    obtain ⟨p, hp⟩ := Option.isSome_iff_exists.mp h
    exact (mem_of_lastUnder hp).2 ▸ List.mem_map_of_mem (mem_of_lastUnder hp).1

theorem lastUnder_eq_iff {key : Key} {batch batch' : List Pair} :
    lastUnder key batch = lastUnder key batch' ↔
      lastValue? key batch = lastValue? key batch' := by
  refine ⟨fun h => by rw [lastValue?, h, lastValue?], fun h => ?_⟩
  rw [lastValue?, lastValue?] at h
  cases hp : lastUnder key batch with
  | none =>
      rw [hp] at h
      exact (Option.map_eq_none_iff.mp h.symm).symm
  | some p =>
      rw [hp] at h
      obtain ⟨q, hq, hv⟩ := Option.map_eq_some_iff.mp h.symm
      have hk : q.key = p.key :=
        (mem_of_lastUnder hq).2.trans (mem_of_lastUnder hp).2.symm
      obtain rfl : q = p := by cases p; cases q; cases hk; cases hv; rfl
      exact hq.symm

/-- The normal form is that of the map from keys to last values: neither the
order of the pairs nor what they repeat has a part in it. -/
theorem normalForm_eq_iff {batch batch' : List Pair} :
    normalForm batch = normalForm batch' ↔
      ∀ key, lastValue? key batch = lastValue? key batch' := by
  constructor
  · intro h key
    refine lastUnder_eq_iff.mp (Option.ext fun p => ?_)
    rw [lastUnder_eq_some_iff, lastUnder_eq_some_iff, h]
  · intro h
    refine eq_of_ascending_map (ascending_normalForm batch)
      (ascending_normalForm batch') fun p => ?_
    rw [mem_normalForm, mem_normalForm, lastUnder_eq_iff.mpr (h p.key)]

theorem normalForm_ne_nil {batch : List Pair} (h : batch ≠ []) :
    normalForm batch ≠ [] := by
  obtain ⟨p, hp⟩ := List.exists_mem_of_ne_nil _ h
  obtain ⟨q, hq⟩ := lastUnder_isSome_of_mem hp
  have hkey : q.key = p.key := by
    simpa using (List.mem_filter.mp (List.mem_of_getLast? hq)).2
  exact List.ne_nil_of_mem (mem_normalForm.mpr (hkey ▸ hq))

theorem normalForm_of_ascending {batch : List Pair}
    (h : Ascending (batch.map (·.key))) : normalForm batch = batch := by
  have hpair : batch.Pairwise fun a b => a.key < b.key := List.pairwise_map.mp h
  rw [normalForm, List.mergeSort_of_pairwise
    (hpair.imp fun hab => decide_eq_true (Int64.le_of_lt hab))]
  clear h
  fun_induction keepLast batch with
  | case1 a b rest heq _ =>
      have hab : a.key < b.key := List.rel_of_pairwise_cons hpair (by simp)
      exact absurd (heq ▸ hab) Int64.lt_irrefl
  | case2 a b rest _ ih => rw [ih hpair.tail]
  | case3 l => rfl

/-! ## Keys alone -/

theorem mem_dedup {k : Key} {l : List Key} :
    k ∈ sortedKeys.dedup l ↔ k ∈ l := by
  fun_induction sortedKeys.dedup l with
  | case1 a rest ih => simp [ih]
  | case2 a b rest _ ih => rw [List.mem_cons, List.mem_cons, ih]
  | case3 l => rfl

theorem ascending_dedup {l : List Key} (h : l.Pairwise (· ≤ ·)) :
    Ascending (sortedKeys.dedup l) := by
  fun_induction sortedKeys.dedup l with
  | case1 a rest ih => exact ih h.tail
  | case2 a b rest hne ih =>
      refine List.pairwise_cons.mpr ⟨?_, ih h.tail⟩
      intro k hk
      have hab : a < b :=
        Int64.lt_of_le_of_ne (List.rel_of_pairwise_cons h (by simp)) hne
      rcases List.mem_cons.mp (mem_dedup.mp hk) with rfl | hk
      · exact hab
      · exact Int64.lt_of_lt_of_le hab (List.rel_of_pairwise_cons h.tail hk)
  | case3 l hshort =>
      rcases eq_nil_or_singleton hshort with rfl | ⟨a, rfl⟩
      · exact List.Pairwise.nil
      · exact List.pairwise_singleton _ _

theorem mem_sortedKeys {k : Key} {keys : List Key} :
    k ∈ sortedKeys keys ↔ k ∈ keys := by
  rw [sortedKeys, mem_dedup, List.mem_mergeSort]

theorem sortedKeys_of_ascending {keys : List Key} (h : Ascending keys) :
    sortedKeys keys = keys := by
  rw [sortedKeys, List.mergeSort_of_pairwise
    (h.imp fun hab => decide_eq_true (Int64.le_of_lt hab))]
  fun_induction sortedKeys.dedup keys with
  | case1 a rest _ =>
      exact absurd (List.rel_of_pairwise_cons h (by simp)) Int64.lt_irrefl
  | case2 a b rest _ ih => rw [ih h.tail]
  | case3 l => rfl

theorem sortedKeys_ne_nil {keys : List Key} (h : keys ≠ []) :
    sortedKeys keys ≠ [] := by
  obtain ⟨k, hk⟩ := List.exists_mem_of_ne_nil _ h
  exact List.ne_nil_of_mem (mem_sortedKeys.mpr hk)

theorem ascending_sortedKeys (keys : List Key) :
    Ascending (sortedKeys keys) := by
  refine ascending_dedup ((List.pairwise_mergeSort ?_ ?_
    keys).imp of_decide_eq_true)
  · intro a b c h h'
    exact decide_eq_true
      (Int64.le_trans (of_decide_eq_true h) (of_decide_eq_true h'))
  · intro a b
    simpa using Int64.le_total a b

theorem sortedKeys_eq_iff {keys keys' : List Key} :
    sortedKeys keys = sortedKeys keys' ↔ ∀ k, k ∈ keys ↔ k ∈ keys' := by
  constructor
  · intro h k
    rw [← mem_sortedKeys, h, mem_sortedKeys]
  · intro h
    refine eq_of_ascending_map (f := id) ?_ ?_ fun k => ?_
    · exact (List.map_id _).symm ▸ ascending_sortedKeys keys
    · exact (List.map_id _).symm ▸ ascending_sortedKeys keys'
    · rw [mem_sortedKeys, mem_sortedKeys, h]

end LevelIndex
