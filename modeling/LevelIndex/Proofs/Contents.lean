import LevelIndex.Proofs.History
import LevelIndex.Proofs.Reachable

/-!
# A batch counts as a map

What an insert does depends on the value that its batch has last under each key,
and what a removal does on the set of its keys. Neither the order of a batch nor
what it repeats is seen in any level of its course. The normal forms of the
batches are the same (`normalForm_eq_iff`, `sortedKeys_eq_iff`), and only they
are routed to the leaves.
-/

namespace LevelIndex

namespace Index

section Contents

variable (x : Index)

theorem rejectReserved_congr (operation : String) {keys keys' : List Key}
    (h : minKey ∈ keys ↔ minKey ∈ keys') :
    rejectReserved operation keys = rejectReserved operation keys' := by
  unfold rejectReserved
  simp only [h]

variable {batch batch' : List Pair}
  (h : ∀ key, lastValue? key batch = lastValue? key batch')
include h

theorem insertCourse_congr : x.insertCourse batch = x.insertCourse batch' := by
  funext leaves
  rw [insertCourse, normalForm_eq_iff.mpr h, insertCourse]

theorem insert_congr : x.insert batch = x.insert batch' := by
  have hreserved : minKey ∈ batch.map (·.key) ↔
      minKey ∈ batch'.map (·.key) := by
    rw [mem_map_key_iff, h, mem_map_key_iff]
  rw [insert, rejectReserved_congr _ hreserved, normalForm_eq_iff.mpr h, insert]

omit h

variable {keys keys' : List Key} (hk : ∀ k, k ∈ keys ↔ k ∈ keys')
include hk

theorem removeCourse_congr : x.removeCourse keys = x.removeCourse keys' := by
  funext leaves
  rw [removeCourse, sortedKeys_eq_iff.mpr hk, removeCourse]

theorem remove_congr : x.remove keys = x.remove keys' := by
  rw [remove, rejectReserved_congr _ (hk minKey), sortedKeys_eq_iff.mpr hk,
    remove]

end Contents

/-- **A batch counts as a map.** From any index whatever, two insert batches
with the same last value under each key come to the same: the same failure, or
the same slots, counter, root and events. They get there by the same course,
whatever leaves they are routed to. So do two removals of one set of keys. -/
theorem alike_of_same_contents (x : Index) :
    (∀ batch batch' : List Pair,
      (∀ key, lastValue? key batch = lastValue? key batch') →
      x.insert batch = x.insert batch' ∧
        x.insertCourse batch = x.insertCourse batch') ∧
    ∀ keys keys' : List Key, (∀ k, k ∈ keys ↔ k ∈ keys') →
      x.remove keys = x.remove keys' ∧
        x.removeCourse keys = x.removeCourse keys' :=
  ⟨fun _ _ h => ⟨x.insert_congr h, x.insertCourse_congr h⟩,
    fun _ _ hk => ⟨x.remove_congr hk, x.removeCourse_congr hk⟩⟩

/-- Keys that come twice and out of order, with another value the first time. -/
theorem alike_of_same_contents_repeated :
    ∃ (x x' : Index) (events : List Event), x.Reachable ∧
      (∀ key, lastValue? key [⟨40, 1⟩, ⟨3, 5⟩, ⟨40, 9⟩, ⟨3, 2⟩] =
        lastValue? key [⟨3, 2⟩, ⟨40, 9⟩]) ∧
      x.insert [⟨40, 1⟩, ⟨3, 5⟩, ⟨40, 9⟩, ⟨3, 2⟩] = .ok (x', events) ∧
      x.insert [⟨3, 2⟩, ⟨40, 9⟩] = .ok (x', events) ∧
      x'.get [3, 40] = .ok [some 2, some 9] ∧
      (∀ k, k ∈ [(7 : Key), 3, 7] ↔ k ∈ [(3 : Key), 7]) ∧
      x.remove [7, 3, 7] = x.remove [3, 7] := by
  let config : Config := { storeCapacity := 8 }
  let batch : List Pair := [⟨3, 2⟩, ⟨40, 9⟩]
  obtain ⟨x, events, hx⟩ := exists_ofConfig
    (show config.Valid from ⟨by decide, by decide, by decide, by decide⟩)
  have hr := (Reachable.new hx).after (oneByOne 17)
  have hsame : ∀ key, lastValue? key [⟨40, 1⟩, ⟨3, 5⟩, ⟨40, 9⟩, ⟨3, 2⟩] =
      lastValue? key batch := fun key => by
    by_cases h3 : (3 : Key) = key
    · subst h3
      rfl
    · by_cases h40 : (40 : Key) = key
      · subst h40
        rfl
      · simp [lastValue?, lastUnder, batch, h3, h40]
  have hkeys : ∀ k, k ∈ [(7 : Key), 3, 7] ↔ k ∈ [(3 : Key), 7] := fun k => by
    simp only [List.mem_cons, List.not_mem_nil]
    tauto
  have hget : observe config (oneByOne 17) (fun y =>
      (y.climb Insert.engine (batch.map (·.key))
        (insertEdits batch)).toOption.map (·.1.get [3, 40])) =
      some (some (.ok [some 2, some 9])) := by
    decide +kernel
  rw [observe, hx] at hget
  have hget := Option.some.inj hget
  have hsorted : normalForm batch = batch :=
    normalForm_of_ascending (firstDescent?_eq_none_iff.mp (by decide))
  have hinsert : (x.after (oneByOne 17)).insert batch =
      (x.after (oneByOne 17)).climb Insert.engine (batch.map (·.key))
        (insertEdits batch) := by
    rw [insert_eq _ (by decide), hsorted]
  rw [← hinsert] at hget
  obtain ⟨hbatches, hremovals⟩ := alike_of_same_contents (x.after (oneByOne 17))
  cases hy : (x.after (oneByOne 17)).insert batch with
  | error f =>
      rw [hy] at hget
      cases hget
  | ok y =>
      rw [hy] at hget
      exact ⟨_, y.1, y.2, hr, hsame, (hbatches _ _ hsame).1.trans hy, hy,
        Option.some.inj hget, hkeys, (hremovals _ _ hkeys).1⟩

end Index

end LevelIndex
