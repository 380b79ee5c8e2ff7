import LevelIndex.Proofs.Cells
import Mathlib.Data.Finmap

/-!
# Merging is the union of maps

Cells in key order and finite maps are the same thing: `entryMap` reads the
cells as a map, and no two lists in key order are read alike
(`Increasing.eq_of_entryMap_eq`), since the cells are what the map has under
their keys (`mem_lookup_entryMap`). Read so, a merge is a union in which the new
cells are asked first (`entryMap_mergeCells`).

What unions do, merges therefore do. They are associative (`mergeCells_assoc`),
and new cells that are merged in two parts, one after the other, come out like
all of them at once (`mergeCells_mergeCells`): by that a run may be cut
anywhere. The two parts are in key order one behind the other, and merging them
only puts them together again (`mergeCells_eq_append`).
-/

namespace LevelIndex

/-- Entries by their keys. -/
abbrev EntryMap := Finmap fun _ : Key => Entry

/-- The map that cells make. Of several cells under one key the first counts. -/
def entryMap (cells : List Cell) : EntryMap :=
  (cells.map fun c => (⟨c.key, c.entry⟩ : Sigma fun _ : Key => Entry)).toFinmap

theorem entryMap_cons (c : Cell) (cells : List Cell) :
    entryMap (c :: cells) = (entryMap cells).insert c.key c.entry := rfl

theorem mem_entryMap {key : Key} {cells : List Cell} :
    key ∈ entryMap cells ↔ key ∈ cells.map (·.key) := by
  induction cells with
  | nil => exact iff_of_false Finmap.notMem_empty List.not_mem_nil
  | cons c cells ih =>
      rw [entryMap_cons, Finmap.mem_insert, ih, List.map_cons, List.mem_cons]

theorem not_mem_map_key {key : Key} {cells : List Cell} :
    key ∉ cells.map (·.key) ↔ ∀ c ∈ cells, c.key ≠ key := by
  rw [List.mem_map]
  exact ⟨fun h c hc hk => h ⟨c, hc, hk⟩, fun h ⟨c, hc, hk⟩ => h c hc hk⟩

theorem mem_lookup_entryMap {cells : List Cell} (h : Increasing cells)
    {c : Cell} : c.entry ∈ (entryMap cells).lookup c.key ↔ c ∈ cells := by
  induction cells with
  | nil => exact iff_of_false (by simp [entryMap]) List.not_mem_nil
  | cons d cells ih =>
      have hd : ∀ b ∈ cells, d.key < b.key := fun b =>
        List.rel_of_pairwise_cons h
      rw [entryMap_cons, List.mem_cons]
      by_cases hk : c.key = d.key
      · rw [hk, Finmap.lookup_insert]
        have hc : c ∉ cells := fun hc => Int64.lt_irrefl (hk ▸ hd c hc)
        rcases c with ⟨k, e⟩
        rcases d with ⟨k', e'⟩
        obtain rfl : k = k' := hk
        simp [hc, eq_comm]
      · rw [Finmap.lookup_insert_of_ne _ hk, ih h.tail]
        exact (or_iff_right fun heq => hk (congrArg Cell.key heq)).symm

theorem Increasing.eq_of_entryMap_eq {l m : List Cell} (hl : Increasing l)
    (hm : Increasing m) (h : entryMap l = entryMap m) : l = m :=
  hl.ext hm fun c => by
    rw [← mem_lookup_entryMap hl, h, mem_lookup_entryMap hm]

section Merge

variable {old new first second : List Cell}

/-- What a key finds in a merge it finds among the new cells, or else among the
old ones. -/
theorem entryMap_mergeCells (ho : Increasing old) (hn : Increasing new) :
    entryMap (mergeCells old new) = entryMap new ∪ entryMap old := by
  refine Finmap.ext_lookup fun key => Option.ext fun e => ?_
  have hmerge : e ∈ (entryMap (mergeCells old new)).lookup key ↔
      (⟨key, e⟩ : Cell) ∈ mergeCells old new :=
    mem_lookup_entryMap (c := ⟨key, e⟩) (increasing_mergeCells ho hn)
  have hnew : e ∈ (entryMap new).lookup key ↔ (⟨key, e⟩ : Cell) ∈ new :=
    mem_lookup_entryMap (c := ⟨key, e⟩) hn
  have hold : e ∈ (entryMap old).lookup key ↔ (⟨key, e⟩ : Cell) ∈ old :=
    mem_lookup_entryMap (c := ⟨key, e⟩) ho
  rw [← Option.mem_def, ← Option.mem_def, hmerge, mem_mergeCells ho hn,
    Finmap.mem_lookup_union, hnew, hold, mem_entryMap, not_mem_map_key,
    and_comm]

theorem count_keys_mergeCells (ho : Increasing old) (hn : Increasing new)
    (key : Key) : ((mergeCells old new).map (·.key)).count key = 1 ↔
      key ∈ old.map (·.key) ∨ key ∈ new.map (·.key) := by
  have hkeys : ((mergeCells old new).map (·.key)).Nodup :=
    (ascending_map_key.mpr (increasing_mergeCells ho hn)).imp Int64.ne_of_lt
  have hmem : key ∈ (mergeCells old new).map (·.key) ↔
      key ∈ old.map (·.key) ∨ key ∈ new.map (·.key) := by
    rw [← mem_entryMap, entryMap_mergeCells ho hn, Finmap.mem_union,
      mem_entryMap, mem_entryMap, or_comm]
  rw [← hmem]
  constructor
  · intro hcount
    exact List.count_pos_iff.mp (hcount ▸ Nat.one_pos)
  · exact List.count_eq_one_of_mem hkeys

theorem mergeCells_assoc (ho : Increasing old) (hf : Increasing first)
    (hs : Increasing second) :
    mergeCells (mergeCells old first) second =
      mergeCells old (mergeCells first second) := by
  have hof := increasing_mergeCells ho hf
  have hfs := increasing_mergeCells hf hs
  refine (increasing_mergeCells hof hs).eq_of_entryMap_eq
    (increasing_mergeCells ho hfs) ?_
  rw [entryMap_mergeCells hof hs, entryMap_mergeCells ho hf,
    entryMap_mergeCells ho hfs, entryMap_mergeCells hf hs, Finmap.union_assoc]

theorem mergeCells_eq_append (h : Increasing (first ++ second)) :
    mergeCells first second = first ++ second := by
  obtain ⟨hf, hs, -⟩ := List.pairwise_append.mp h
  exact mergeCells_eq_of_perm hf hs h (List.Perm.refl _)

theorem mergeCells_mergeCells (ho : Increasing old)
    (hn : Increasing (first ++ second)) :
    mergeCells (mergeCells old first) second =
      mergeCells old (first ++ second) := by
  obtain ⟨hf, hs, -⟩ := List.pairwise_append.mp hn
  rw [mergeCells_assoc ho hf hs, mergeCells_eq_append hn]

/-- **A merge is a union of maps.** Of two lists in strict key order it is again
in strict key order and has each key of either list once, with the new cell
where there is one and the old cell otherwise. Wherever the new cells are cut,
merging first the one part and then the other is merging all of them. -/
theorem mergeCells_is_union (ho : Increasing old) (hn : Increasing new) :
    Increasing (mergeCells old new) ∧
    entryMap (mergeCells old new) = entryMap new ∪ entryMap old ∧
    (∀ key, ((mergeCells old new).map (·.key)).count key = 1 ↔
      key ∈ old.map (·.key) ∨ key ∈ new.map (·.key)) ∧
    (∀ c, c ∈ mergeCells old new ↔
      c ∈ new ∨ c ∈ old ∧ c.key ∉ new.map (·.key)) ∧
    ∀ cut, mergeCells (mergeCells old (new.take cut)) (new.drop cut) =
      mergeCells old new := by
  refine ⟨increasing_mergeCells ho hn, entryMap_mergeCells ho hn,
    count_keys_mergeCells ho hn, fun c => ?_, fun cut => ?_⟩
  · rw [mem_mergeCells ho hn, not_mem_map_key]
  · have hparts : new.take cut ++ new.drop cut = new := List.take_append_drop ..
    rw [mergeCells_mergeCells ho (hparts.symm ▸ hn), hparts]

end Merge

/-- Keys that interleave, one of them in both lists, and a cut behind it. -/
theorem mergeCells_is_union_interleaved :
    let old : List Cell := [⟨1, .value 10⟩, ⟨3, .value 30⟩, ⟨5, .value 50⟩]
    let new : List Cell := [⟨3, .value (-3)⟩, ⟨4, .value (-4)⟩]
    Increasing old ∧ Increasing new ∧
      ((mergeCells old new).map (·.key)).count 3 = 1 ∧
      ⟨3, .value (-3)⟩ ∈ mergeCells old new ∧
      ⟨3, .value 30⟩ ∉ mergeCells old new ∧
      ⟨5, .value 50⟩ ∈ mergeCells old new ∧
      mergeCells (mergeCells old (new.take 1)) (new.drop 1) =
        mergeCells old new := by
  intro old new
  have ho : Increasing old := by decide
  have hn : Increasing new := by decide
  obtain ⟨-, -, hcount, hmem, hcut⟩ := mergeCells_is_union ho hn
  exact ⟨ho, hn, (hcount 3).mpr (by decide), (hmem _).mpr (by decide),
    mt (hmem _).mp (by decide), (hmem _).mpr (by decide), hcut 1⟩

end LevelIndex
