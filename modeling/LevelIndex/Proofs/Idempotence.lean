import LevelIndex.Proofs.Changes
import LevelIndex.Proofs.Insert.Replace
import LevelIndex.Proofs.Reachable
import LevelIndex.Proofs.Remove.Idle

/-!
# Batches that change nothing

A removal of keys that are not stored leaves the whole index as it is
(`remove_absent`), and an insert under keys that are stored only puts its values
in their cells (`insert_stored`). So a batch that has gone through finds nothing
left to do: its keys are gone, or they are stored with the values that it brings
(`remove_again`, `insert_again`).

For an insert this is a fact about lists of cells first. Merging the normal form
of a batch into cells that have all its keys gives these their new values
(`replaces_revalued`), so no run overflows and nothing is staged. For a removal
no node loses anything, but one that was underfull before is told to the
compaction all the same. It is the last of its level then, and there is nothing
behind it to put it together with.
-/

namespace LevelIndex

/-! ## Cells under the keys of a batch -/

namespace Cell

/-- The cell with the last value that the batch has for its key. -/
def revalued (batch : List Pair) (c : Cell) : Cell :=
  match lastUnder c.key batch with
  | some p => ⟨c.key, .value p.value⟩
  | none => c

variable {batch : List Pair} {c : Cell}

theorem revalued_of_eq_some {p : Pair} (h : lastUnder c.key batch = some p) :
    c.revalued batch = p.cell := by
  rw [revalued, h, Pair.cell, (mem_of_lastUnder h).2]

theorem revalued_of_eq_none (h : lastUnder c.key batch = none) :
    c.revalued batch = c := by
  rw [revalued, h]

theorem key_revalued : (c.revalued batch).key = c.key := by
  rw [revalued]
  split <;> rfl

theorem replaces_revalued {cells : List Cell}
    (h : ∀ p ∈ batch, ∃ c ∈ cells, c.key = p.key) :
    Replaces (revalued batch) cells ((normalForm batch).map Pair.cell) where
  key_eq _ _ := key_revalued
  mem_or c _ := by
    cases hl : lastUnder c.key batch with
    | some p =>
        have hp : p ∈ normalForm batch :=
          mem_normalForm.mpr ((mem_of_lastUnder hl).2 ▸ hl)
        exact Or.inl (revalued_of_eq_some hl ▸ List.mem_map_of_mem hp)
    | none =>
        refine Or.inr ⟨revalued_of_eq_none hl, fun n hn hk => ?_⟩
        obtain ⟨p, hp, rfl⟩ := List.mem_map.mp hn
        obtain ⟨q, hq⟩ := lastUnder_isSome_of_mem (mem_of_mem_normalForm hp)
        rw [show p.key = c.key from hk, hl] at hq
        cases hq
  met n hn := by
    obtain ⟨p, hp, rfl⟩ := List.mem_map.mp hn
    exact h p (mem_of_mem_normalForm hp)

end Cell

namespace Table

variable {t : Table} {key : Key}

theorem exists_cell_of_get? (h : (t.get? key).isSome) :
    ∃ c ∈ leafCells t.items, c.key = key := by
  have hne : ¬∀ p ∈ t.items, p.key ≠ key := fun hno => by
    rw [get?_eq_none_iff.mpr hno] at h
    cases h
  push Not at hne
  obtain ⟨p, hp, hk⟩ := hne
  exact ⟨p.cell, mem_leafCells.mpr (Or.inr ⟨p, hp, rfl⟩), hk⟩

theorem get?_remove {keys : List Key} (h : key ∈ keys) :
    (t.remove keys).get? key = none :=
  get?_eq_none_iff.mpr fun _ hp hk => (mem_items_remove.mp hp).2 (hk ▸ h)

theorem get?_insert_isSome (hs : t.Sorted) {batch : List Pair} {p : Pair}
    (hp : p ∈ batch) : ((t.insert batch).get? p.key).isSome := by
  obtain ⟨q, hq⟩ := lastUnder_isSome_of_mem hp
  have hk := (mem_of_lastUnder hq).2
  refine Option.isSome_iff_ne_none.mpr fun hno => ?_
  exact get?_eq_none_iff.mp hno q
    ((mem_foldl_place hs.ascending).2.mpr (Or.inl (hk ▸ hq))) hk

theorem revalued_leafCells_insert (hs : t.Sorted) {batch : List Pair}
    (hb : minKey ∉ batch.map (·.key)) :
    ∀ c ∈ leafCells (t.insert batch).items, c.revalued batch = c := by
  intro c hc
  rcases mem_leafCells.mp hc with rfl | ⟨p, hp, rfl⟩
  · refine Cell.revalued_of_eq_none (lastUnder_eq_none fun q hq hk => ?_)
    exact hb (List.mem_map.mpr ⟨q, hq, hk⟩)
  · rcases (mem_foldl_place hs.ascending).2.mp hp with hl | ⟨-, hno⟩
    · exact Cell.revalued_of_eq_some hl
    · exact Cell.revalued_of_eq_none (lastUnder_eq_none hno)

end Table

namespace Index

variable {x : Index} {t : Table}

section Intact

variable {row : Nat → List Handle} {height : Nat}
  (i : x.tree.Intact row height t.items)
include i

theorem remove_absent {keys : List Key} (hk : minKey ∉ keys)
    (habsent : ∀ k ∈ keys, t.get? k = none) :
    ∃ events, x.remove keys = .ok (x, events) := by
  obtain ⟨leafOf, -, hlocate⟩ := exists_leafOf i
  obtain ⟨leaves, hl, r⟩ := exists_falling i hk
  obtain rfl := Except.ok.inj ((hlocate _).symm.trans hl)
  refine remove_of_course hk hl (r.run_idle (fun e he c hc heq => ?_) x.pool)
  rw [removeEdits_map] at he
  obtain ⟨k, hmem, rfl⟩ := List.mem_map.mp he
  have hkey : k ∈ keys := mem_sortedKeys.mp hmem
  rw [i.leaves] at hc
  rcases Table.mem_leafCells.mp hc with rfl | ⟨p, hp, rfl⟩
  · exact hk ((show minKey = k from heq) ▸ hkey)
  · exact Table.get?_eq_none_iff.mp (habsent k hkey) p hp heq

/-- Inserting under keys that are stored gives the cells their values, one leaf
at a time, and no edit reaches the level above. -/
theorem insert_stored {batch : List Pair} (hb : minKey ∉ batch.map (·.key))
    (hstored : ∀ p ∈ batch, (t.get? p.key).isSome) :
    ∃ events, x.insert batch = .ok ({ x with
      tree := x.tree.mapCells (row 0) (Cell.revalued batch) }, events) := by
  obtain ⟨leafOf, -, hlocate⟩ := exists_leafOf i
  obtain ⟨leaves, hl, r⟩ := exists_rising i hb
  obtain rfl := Except.ok.inj ((hlocate _).symm.trans hl)
  refine insert_of_course hb hl (r.run_replaces ?_ x.pool)
  rw [map_cell_insertEdits, i.leaves]
  exact Cell.replaces_revalued fun p hp =>
    Table.exists_cell_of_get? (hstored p hp)

theorem insert_again {batch : List Pair} {x' : Index} {events : List Event}
    (h : x.insert batch = .ok (x', events)) :
    ∃ events, x'.insert batch = .ok (x', events) := by
  have hs : t.Sorted := i.increasing_leafCells
  have hb := minKey_not_mem_of_insert h
  obtain ⟨row', height', i', -⟩ := insert_extends i h
  obtain ⟨again, hagain⟩ := insert_stored i' hb fun p hp =>
    Table.get?_insert_isSome hs hp
  have hself : x'.tree.mapCells (row' 0) (Cell.revalued batch) = x'.tree := by
    have hcells := Table.revalued_leafCells_insert hs hb
    rw [← i'.leaves] at hcells
    rw [Tree.mapCells, Store.mapCells_eq_self hcells]
  rw [hself] at hagain
  exact ⟨again, hagain⟩

theorem remove_again {keys : List Key} {x' : Index} {events : List Event}
    (h : x.remove keys = .ok (x', events)) :
    ∃ events, x'.remove keys = .ok (x', events) := by
  obtain ⟨row', i', -⟩ := remove_thins i h
  exact remove_absent i' (minKey_not_mem_of_remove h) fun k hk =>
    Table.get?_remove hk

end Intact

/-- **Idle batches.** A removal of keys none of which is stored goes through and
leaves every slot, their number and the root as they are. An insert under keys
that are all stored goes through and leaves all but the entries that the leaves
have under its keys, which get its values. Any insert or removal that has gone
through leaves everything as it is if it is repeated. -/
theorem no_op_and_idempotent (h : x.Reachable) :
    (∀ keys : List Key, minKey ∉ keys →
      (∀ k ∈ keys, x.containsKey k = .ok false) →
      ∃ events, x.remove keys = .ok (x, events)) ∧
    (∀ batch : List Pair, minKey ∉ batch.map (·.key) →
      (∀ p ∈ batch, x.containsKey p.key = .ok true) →
      ∃ leaves events, x.tree.level 0 = .ok leaves ∧
        x.insert batch = .ok ({ x with
          tree := x.tree.mapCells leaves (Cell.revalued batch) }, events)) ∧
    (∀ batch x' events, x.insert batch = .ok (x', events) →
      ∃ events, x'.insert batch = .ok (x', events)) ∧
    ∀ keys x' events, x.remove keys = .ok (x', events) →
      ∃ events, x'.remove keys = .ok (x', events) := by
  obtain ⟨t, s⟩ := h.exists_stores
  obtain ⟨row, height, i⟩ := s.exists_intact
  have hstored : ∀ {key : Key} {b : Bool}, x.containsKey key = .ok b →
      (t.get? key).isSome = b := fun hkey =>
    Except.ok.inj ((s.containsKey_eq _).symm.trans hkey)
  refine ⟨fun keys hk habsent => ?_, fun batch hb hall => ?_,
    fun batch x' events => insert_again i, fun keys x' events => remove_again i⟩
  · exact remove_absent i hk fun k hmem => by
      simpa using hstored (habsent k hmem)
  · obtain ⟨events, hinsert⟩ := insert_stored i hb fun p hp =>
      hstored (hall p hp)
    exact ⟨row 0, events, i.level_eq (Nat.zero_le _), hinsert⟩

/-- The last of two leaves is less than half full, so that a removal that drops
nothing from it is told to the compaction. One that drops a key from the other
puts both into one leaf. -/
theorem no_op_and_idempotent_underfull :
    ∃ (x y z : Index) (leaves : List Handle), x.Reachable ∧
      (x.tree.levelNodes 0).toOption.map (·.map (·.2.size)) = some [8, 7] ∧
      minKey ∉ [(15 : Key), 100] ∧
      (∀ k ∈ [(15 : Key), 100], x.containsKey k = .ok false) ∧
      (∃ events, x.remove [15, 100] = .ok (x, events)) ∧
      minKey ∉ [(⟨0, 7⟩ : Pair), ⟨12, 9⟩].map (·.key) ∧
      (∀ p ∈ [(⟨0, 7⟩ : Pair), ⟨12, 9⟩], x.containsKey p.key = .ok true) ∧
      x.tree.level 0 = .ok leaves ∧
      (∃ events, x.insert [⟨0, 7⟩, ⟨12, 9⟩] = .ok ({ x with
        tree := x.tree.mapCells leaves
          (Cell.revalued [⟨0, 7⟩, ⟨12, 9⟩]) }, events)) ∧
      (∃ events, x.insert [⟨20, 1⟩] = .ok (y, events)) ∧
      (∃ events, y.insert [⟨20, 1⟩] = .ok (y, events)) ∧
      (∃ events, x.remove [0] = .ok (z, events)) ∧
      ∃ events, z.remove [0] = .ok (z, events) := by
  let config : Config := { storeCapacity := 8 }
  let calls := oneByOne 17 ++ [.remove [3], .remove [15], .remove [16]]
  obtain ⟨x, events, hx⟩ := exists_ofConfig
    (show config.Valid from ⟨by decide, by decide, by decide, by decide⟩)
  have hr := (Reachable.new hx).after calls
  have hk : minKey ∉ [(15 : Key), 100] := by decide
  have hb : minKey ∉ [(⟨0, 7⟩ : Pair), ⟨12, 9⟩].map (·.key) := by decide
  have hsizes : observe config calls (fun y =>
      (y.tree.levelNodes 0).toOption.map (·.map (·.2.size))) =
      some (some [8, 7]) := by decide +kernel
  have hkeys : observe config calls (fun y =>
      ([(15 : Key), 100, 0, 12].map y.containsKey)) =
      some [.ok false, .ok false, .ok true, .ok true] := by decide +kernel
  have hgoes : observe config calls (fun y =>
      ((y.insert [⟨20, 1⟩]).toOption.isSome,
        (y.remove [0]).toOption.isSome)) = some (true, true) := by
    decide +kernel
  rw [observe, hx] at hsizes hkeys hgoes
  obtain ⟨hinsert, hremove⟩ := Prod.mk.inj (Option.some.inj hgoes)
  have hkeys := Option.some.inj hkeys
  simp only [List.map_cons, List.map_nil, List.cons.injEq, and_true] at hkeys
  obtain ⟨h15, h100, h0, h12⟩ := hkeys
  have habsent : ∀ k ∈ [(15 : Key), 100],
      (x.after calls).containsKey k = .ok false := by simp [h15, h100]
  have hstored : ∀ p ∈ [(⟨0, 7⟩ : Pair), ⟨12, 9⟩],
      (x.after calls).containsKey p.key = .ok true := by simp [h0, h12]
  obtain ⟨hidle, hrevalue, hinsertAgain, hremoveAgain⟩ :=
    no_op_and_idempotent hr
  obtain ⟨leaves, ev, hlevel, hvalues⟩ := hrevalue _ hb hstored
  cases hy : (x.after calls).insert [⟨20, 1⟩] with
  | error f =>
      rw [hy] at hinsert
      cases hinsert
  | ok y =>
      cases hz : (x.after calls).remove [0] with
      | error f =>
          rw [hz] at hremove
          cases hremove
      | ok z =>
          exact ⟨x.after calls, y.1, z.1, leaves, hr,
            Option.some.inj hsizes, hk, habsent, hidle _ hk habsent, hb,
            hstored, hlevel, ⟨ev, hvalues⟩, ⟨y.2, hy⟩,
            hinsertAgain _ _ _ hy, ⟨z.2, hz⟩, hremoveAgain _ _ _ hz⟩

end Index

end LevelIndex
