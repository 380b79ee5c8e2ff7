import LevelIndex.Proofs.Table
import LevelIndex.SortedPairs
import Mathlib.Data.Finmap

/-!
# Sorted pairs are a finite map

A list in key order parts at every key: what is below it comes first, then what
is under it, then what is above it (`exists_split`). Bisection finds that place
(`slotOf_of_absent`, `slotOf_of_present`), and so writing over a pair or putting
one in between is what a table does when it walks along its items. By that all
operations of sorted pairs are those of the table they hold
(`Table.sortedPairs`), and no position is out of bounds.

A table stores a finite map (`Table.Holds`). One pair or one key of a batch is
one update of the map (`Holds.place`, `Holds.remove`), and over any number of
batches the pairs stored are those of the map (`run_is_finite_map`). A batch
that inserts has to keep off the key of the sentinel. One that removes need not:
the sentinel is passed over, and the map has nothing under that key.
-/

namespace LevelIndex

/-! ## Where a key belongs

Bisection over a list in key order, told by the two parts of the list on either
side of the key: the position it ends at is the length of the part below, and
to write or insert at that position is to write or insert between the parts. -/

section Slot

variable {α : Type} {f : α → Key} {key : Key}

/-- A list in key order parts at a key. Whether the key is in the list is the
one distinction that bisection makes as well. -/
theorem exists_split {as : List α} (h : Ascending (as.map f)) (key : Key) :
    ∃ l m, (∀ a ∈ l, f a < key) ∧ (∀ a ∈ m, key < f a) ∧
      (as = l ++ m ∨ ∃ a, f a = key ∧ as = l ++ a :: m) := by
  induction as with
  | nil => exact ⟨[], [], by simp, by simp, Or.inl rfl⟩
  | cons b as ih =>
      have hb : ∀ a ∈ as, f b < f a := fun a ha =>
        List.rel_of_pairwise_cons h (List.mem_map_of_mem ha)
      by_cases hlt : f b < key
      · obtain ⟨l, m, hl, hm, hsplit⟩ := ih h.tail
        refine ⟨b :: l, m, List.forall_mem_cons.mpr ⟨hlt, hl⟩, hm, ?_⟩
        rcases hsplit with rfl | ⟨a, ha, rfl⟩
        · exact Or.inl rfl
        · exact Or.inr ⟨a, ha, rfl⟩
      · by_cases heq : f b = key
        · exact ⟨[], as, by simp, heq ▸ hb, Or.inr ⟨b, heq, rfl⟩⟩
        · have hgt : key < f b :=
            Int64.lt_of_le_of_ne (Int64.not_lt.mp hlt) (Ne.symm heq)
          refine ⟨[], b :: as, by simp, ?_, Or.inl rfl⟩
          exact List.forall_mem_cons.mpr
            ⟨hgt, fun a ha => Int64.lt_trans hgt (hb a ha)⟩

variable {l m : List Key}

theorem slotOf_of_absent (hl : ∀ k ∈ l, k < key) (hm : ∀ k ∈ m, key < k) :
    slotOf (l ++ m) key = .free l.length := by
  have hcount : leadingCount (· ≤ key) (l ++ m) = l.length :=
    leadingCount_append (fun k hk => by simpa using Int64.le_of_lt (hl k hk))
      fun k hk => by simpa using hm k hk
  rw [slotOf, hcount]
  cases hlen : l.length with
  | zero => rfl
  | succ n =>
      have hn : n < l.length := by omega
      refine if_neg fun hk => ?_
      rw [List.getElem?_append_left hn, List.getElem?_eq_getElem hn] at hk
      have hlt := hl _ (List.getElem_mem hn)
      rw [Option.some.inj hk] at hlt
      exact Int64.lt_irrefl hlt

theorem slotOf_of_present (hl : ∀ k ∈ l, k < key) (hm : ∀ k ∈ m, key < k) :
    slotOf (l ++ key :: m) key = .taken l.length := by
  have hle : ∀ k ∈ l ++ [key], k ≤ key := List.forall_mem_append.mpr
    ⟨fun k hk => Int64.le_of_lt (hl k hk),
      List.forall_mem_singleton.mpr (Int64.le_refl key)⟩
  have hcount : leadingCount (· ≤ key) (l ++ key :: m) = l.length + 1 := by
    rw [List.append_cons, leadingCount_append
      (fun k hk => by simpa using hle k hk) fun k hk => by simpa using hm k hk]
    simp
  rw [slotOf, hcount]
  exact if_pos (by simp)

theorem isFree_slotOf {keys : List Key} (h : Ascending keys) :
    (slotOf keys key).isFree = !keys.contains key := by
  obtain ⟨l, m, hl, hm, hkeys | ⟨k, hk, hkeys⟩⟩ :=
    exists_split (f := id) (by simpa using h) key
  · have habsent : key ∉ keys := by
      rw [hkeys, List.mem_append]
      rintro (hk | hk)
      · exact Int64.lt_irrefl (hl key hk)
      · exact Int64.lt_irrefl (hm key hk)
    rw [hkeys, slotOf_of_absent hl hm, ← hkeys]
    simp [Slot.isFree, habsent]
  · obtain rfl : k = key := hk
    rw [hkeys, slotOf_of_present hl hm]
    simp [Slot.isFree]

theorem modifyTailIdx_length_append (g : List α → List α) (l m : List α) :
    (l ++ m).modifyTailIdx l.length g = l ++ g m := by
  induction l with
  | nil => rfl
  | cons a l ih => exact congrArg (List.cons a) ih

end Slot

/-! ## What a table does with its items -/

namespace Table

variable {t : Table} {p q : Pair} {l m : List Pair}

theorem place_append (hl : ∀ r ∈ l, r.key < p.key) :
    place p (l ++ m) = l ++ place p m := by
  induction l with
  | nil => rfl
  | cons r l ih =>
      have hr := hl r (by simp)
      rw [List.cons_append, place,
        if_neg (Int64.not_lt.mpr (Int64.le_of_lt hr)),
        if_neg (Int64.ne_of_lt hr).symm,
        ih fun r' hr' => hl r' (List.mem_cons_of_mem _ hr')]
      rfl

theorem place_of_absent (hl : ∀ r ∈ l, r.key < p.key)
    (hm : ∀ r ∈ m, p.key < r.key) : place p (l ++ m) = l ++ p :: m := by
  rw [place_append hl]
  cases m with
  | nil => rfl
  | cons r m => rw [place, if_pos (hm r (by simp))]

theorem place_of_present (hl : ∀ r ∈ l, r.key < p.key) (hq : q.key = p.key) :
    place p (l ++ q :: m) = l ++ p :: m := by
  rw [place_append hl, place, if_neg (hq ▸ Int64.lt_irrefl), if_pos hq.symm]

theorem exists_items_split (h : t.Sorted) (key : Key) :
    ∃ l m, t.items = l ++ m ∧ (∀ r ∈ l, r.key ≤ key) ∧
      (∀ r ∈ m, key < r.key) ∧
      t.predecessor key = l.getLast?.getD .sentinel := by
  have hsplit : ∃ l m, t.items = l ++ m ∧ (∀ r ∈ l, r.key ≤ key) ∧
      ∀ r ∈ m, key < r.key := by
    obtain ⟨l, m, hl, hm, hitems | ⟨q, hq, hitems⟩⟩ :=
      exists_split h.ascending key
    · exact ⟨l, m, hitems, fun r hr => Int64.le_of_lt (hl r hr), hm⟩
    · refine ⟨l ++ [q], m, by rw [hitems, List.append_cons], ?_, hm⟩
      exact List.forall_mem_append.mpr
        ⟨fun r hr => Int64.le_of_lt (hl r hr),
          List.forall_mem_singleton.mpr (hq ▸ Int64.le_refl _)⟩
  obtain ⟨l, m, hitems, hl, hm⟩ := hsplit
  refine ⟨l, m, hitems, hl, hm, ?_⟩
  have hmnil : m.filter (fun r => r.key ≤ key) = [] :=
    List.filter_eq_nil_iff.mpr fun r hr => by simpa using hm r hr
  rw [predecessor, takeWhile_eq_filter h.ascending, hitems, List.filter_append,
    hmnil, List.append_nil, List.filter_eq_self.mpr fun r hr => by
      simpa using hl r hr]

/-- The sorted pairs that hold what a table does. -/
def sortedPairs (t : Table) : SortedPairs := ⟨t.entries⟩

theorem ascending_entries (h : t.Sorted) :
    Ascending (t.entries.map (·.key)) := by
  refine List.pairwise_cons.mpr ⟨fun k hk => ?_, h.ascending⟩
  obtain ⟨r, hr, rfl⟩ := List.mem_map.mp hk
  exact h.minKey_lt hr

end Table

/-! ## The operations of sorted pairs -/

namespace SortedPairs

variable {t : Table}

/-- Bisection puts a pair where walking along the items puts it: over the pair
under its key, or in between its neighbours. -/
theorem place_eq (h : t.Sorted) {p : Pair} (hp : p.key ≠ minKey) :
    t.sortedPairs.place p = some (t.insert [p]).sortedPairs := by
  have hlow : minKey < p.key :=
    Int64.lt_of_le_of_ne (minKey_le _) (Ne.symm hp)
  have hkeys {l : List Pair} (hl : ∀ r ∈ l, r.key < p.key) :
      ∀ k ∈ (Pair.sentinel :: l).map (·.key), k < p.key := by
    rw [List.forall_mem_map]
    exact List.forall_mem_cons.mpr ⟨hlow, hl⟩
  have hplace : (t.insert [p]).sortedPairs =
      ⟨.sentinel :: Table.place p t.items⟩ := rfl
  rw [place, if_neg hp, hplace, Table.sortedPairs, Table.entries]
  obtain ⟨l, m, hl, hm, hitems | ⟨q, hq, hitems⟩⟩ :=
    exists_split h.ascending p.key
  · have hslot := slotOf_of_absent (hkeys hl) (List.forall_mem_map.mpr hm)
    rw [← List.map_append, List.length_map, List.length_cons] at hslot
    rw [hitems, ← List.cons_append, hslot, Table.place_of_absent hl hm]
    exact congrArg (some ∘ SortedPairs.mk)
      (modifyTailIdx_length_append (List.cons p) (.sentinel :: l) m)
  · have hslot := slotOf_of_present (hkeys hl) (List.forall_mem_map.mpr hm)
    rw [← hq, ← List.map_cons, ← List.map_append, List.length_map,
      List.length_cons, hq] at hslot
    have hqp : ({ q with value := p.value } : Pair) = p := by
      cases p
      cases q
      simp_all
    have hmodify := modifyTailIdx_length_append
      (List.modifyHead fun r : Pair => { r with value := p.value })
      (.sentinel :: l) (q :: m)
    rw [List.modifyHead_cons, hqp] at hmodify
    rw [hitems, ← List.cons_append, hslot, Table.place_of_present hl hq]
    exact congrArg (some ∘ SortedPairs.mk) hmodify

theorem insert_eq (h : t.Sorted) {batch : List Pair}
    (hb : minKey ∉ batch.map (·.key)) :
    t.sortedPairs.insert batch = some (t.insert batch).sortedPairs := by
  induction batch generalizing t with
  | nil => rfl
  | cons p batch ih =>
      rw [List.map_cons, List.mem_cons, not_or] at hb
      have hs : (t.insert [p]).Sorted := Table.sorted_insert h
        (List.forall_mem_singleton.mpr (Ne.symm hb.1))
      rw [insert, List.foldlM_cons, place_eq h (Ne.symm hb.1)]
      exact ih hs hb.2

theorem remove_eq (h : t.Sorted) (keys : List Key) :
    t.sortedPairs.remove keys = (t.remove keys).sortedPairs := by
  have hasc := ascending_sortedKeys keys
  refine congrArg SortedPairs.mk ?_
  rw [Table.sortedPairs, Table.entries,
    List.filter_cons_of_pos (by simp [Pair.sentinel])]
  refine congrArg (List.cons Pair.sentinel) (List.filter_congr fun p hp => ?_)
  have hne := (Int64.ne_of_lt (h.minKey_lt hp)).symm
  rw [isFree_slotOf hasc, decide_eq_false hne, Bool.false_or]
  simp [mem_sortedKeys]

theorem predecessor?_eq (h : t.Sorted) (key : Key) :
    t.sortedPairs.predecessor? key = some (t.predecessor key) := by
  obtain ⟨l, m, hitems, hl, hm, hlast⟩ := Table.exists_items_split h key
  have hcount : leadingCount (fun p : Pair => p.key ≤ key)
      (Pair.sentinel :: l ++ m) = l.length + 1 := by
    refine leadingCount_append (fun r hr => ?_) fun r hr => ?_
    · rcases List.mem_cons.mp hr with rfl | hr
      · exact decide_eq_true (minKey_le key)
      · simpa using hl r hr
    · simpa using hm r hr
  rw [predecessor?, Table.sortedPairs, Table.entries, hitems,
    ← List.cons_append, hcount, hlast, List.getElem?_append_left (by simp),
    Nat.add_sub_cancel, ← List.getLast?_cons, List.getLast?_eq_getElem?]
  rfl

theorem predecessors_eq (h : t.Sorted) (keys : List Key) :
    t.sortedPairs.predecessors keys = some (keys.map t.predecessor) := by
  rw [predecessors, funext (predecessor?_eq h)]
  exact List.mapM_pure

theorem items_eq (t : Table) : t.sortedPairs.items = some t.items := rfl

theorem length_eq (t : Table) : t.sortedPairs.length = some t.length := rfl

theorem isEmpty_eq (t : Table) : t.sortedPairs.isEmpty = some t.isEmpty := by
  rw [isEmpty, length_eq, Table.length, Table.isEmpty]
  cases t.items <;> rfl

end SortedPairs

/-- The predecessor of a key is the greatest pair not above it, if there is one
at all. -/
theorem Table.predecessor_spec {t : Table} (h : t.Sorted) (key : Key) :
    (t.predecessor key = .sentinel ∧ ∀ p ∈ t.items, key < p.key) ∨
      (t.predecessor key ∈ t.items ∧ (t.predecessor key).key ≤ key ∧
        ∀ p ∈ t.items, p.key ≤ key → p.key ≤ (t.predecessor key).key) := by
  obtain ⟨l, m, hitems, hl, hm, hlast⟩ := exists_items_split h key
  have hasc := h.ascending
  rw [hlast]
  rw [hitems, List.map_append] at hasc
  rcases List.eq_nil_or_concat l with rfl | ⟨l, q, rfl⟩
  · refine Or.inl ⟨rfl, fun p hp => hm p (by simpa [hitems] using hp)⟩
  · rw [List.concat_eq_append] at hasc hitems hl ⊢
    have hq : (l ++ [q]).getLast?.getD .sentinel = q := by simp
    rw [hq]
    refine Or.inr ⟨by simp [hitems], hl q (by simp), fun p hp hle => ?_⟩
    rw [hitems, List.append_assoc, List.mem_append, List.cons_append,
      List.mem_cons, List.nil_append] at hp
    rcases hp with hp | rfl | hp
    · rw [List.map_append, List.map_cons, List.map_nil] at hasc
      exact Int64.le_of_lt ((List.pairwise_append.mp
        (List.pairwise_append.mp hasc).1).2.2 _ (List.mem_map_of_mem hp) _
        (by simp))
    · exact Int64.le_refl _
    · exact absurd hle (Int64.not_le.mpr (hm p hp))

namespace SortedPairs

variable {t : Table}

theorem get_eq (h : t.Sorted) (keys : List Key) :
    t.sortedPairs.get keys = some (keys.map t.get?) := by
  have hvalue : ∀ key, (if (t.predecessor key).key = key ∧ key ≠ minKey then
      some (t.predecessor key).value else none) = t.get? key := by
    intro key
    rcases Table.predecessor_spec h key with ⟨hs, hno⟩ | ⟨hp, hle, hmax⟩
    · rw [hs, if_neg fun hk => hk.2 hk.1.symm,
        Table.get?_eq_none_iff.mpr fun p hp => (Int64.ne_of_lt (hno p hp)).symm]
    · split
      · next hk =>
          have hget := (Table.get?_eq_some_iff h).mpr hp
          rw [hk.1] at hget
          exact hget.symm
      · next hk =>
          refine (Table.get?_eq_none_iff.mpr fun p hpt heq => hk ?_).symm
          have heqp := Int64.le_antisymm hle
            (heq ▸ hmax p hpt (heq ▸ Int64.le_refl key))
          exact ⟨heqp, heqp ▸ (Int64.ne_of_lt (h.minKey_lt hp)).symm⟩
  rw [get, funext (predecessor?_eq h)]
  show keys.mapM (fun key => pure _) = _
  rw [List.mapM_pure, funext hvalue]
  rfl

end SortedPairs

/-! ## Finite maps -/

/-- Values under keys. -/
abbrev ValueMap := Finmap fun _ : Key => Value

namespace ValueMap

/-- Stores the pairs one by one. -/
def insertAll (m : ValueMap) (batch : List Pair) : ValueMap :=
  batch.foldl (fun m p => m.insert p.key p.value) m

def eraseAll (m : ValueMap) (keys : List Key) : ValueMap :=
  keys.foldl (fun m key => m.erase key) m

theorem lookup_eraseAll (m : ValueMap) (keys : List Key) (key : Key) :
    (m.eraseAll keys).lookup key =
      if key ∈ keys then none else m.lookup key := by
  induction keys generalizing m with
  | nil => rfl
  | cons k keys ih =>
      rw [eraseAll, List.foldl_cons, ← eraseAll, ih]
      rcases eq_or_ne key k with rfl | hk
      · simp [Finmap.lookup_erase]
      · simp [hk, Finmap.lookup_erase_ne hk]

/-- The pair of greatest key not above `key`, or the sentinel if every key is
above it. -/
def IsPredecessor (m : ValueMap) (key : Key) (p : Pair) : Prop :=
  (m.lookup p.key = some p.value ∧ p.key ≤ key ∧
      ∀ k ∈ m, k ≤ key → k ≤ p.key) ∨
    (p = .sentinel ∧ ∀ k ∈ m, key < k)

end ValueMap

/-- The table stores the finite map. -/
structure Table.Holds (t : Table) (m : ValueMap) : Prop where
  sorted : t.Sorted
  mem_iff : ∀ p, p ∈ t.items ↔ m.lookup p.key = some p.value

namespace Table.Holds

variable {t : Table} {m : ValueMap}

theorem empty : Table.empty.Holds ∅ :=
  ⟨List.pairwise_singleton _ _, fun p => by simp [Table.empty]⟩

/-! ### Questions -/

section Questions

variable (h : t.Holds m)
include h

theorem get?_eq (key : Key) : t.get? key = m.lookup key := by
  refine Option.ext fun v => ?_
  exact (Table.get?_eq_some_iff h.sorted (p := ⟨key, v⟩)).trans (h.mem_iff _)

theorem mem_keys_iff {key : Key} : key ∈ m ↔ ∃ p ∈ t.items, p.key = key := by
  rw [Finmap.mem_iff]
  constructor
  · rintro ⟨v, hv⟩
    exact ⟨⟨key, v⟩, (h.mem_iff _).mpr hv, rfl⟩
  · rintro ⟨p, hp, rfl⟩
    exact ⟨p.value, (h.mem_iff p).mp hp⟩

theorem length_eq : t.items.length = m.keys.card := by
  have hnodup : (t.items.map (·.key)).Nodup :=
    h.sorted.ascending.imp fun hlt => Int64.ne_of_lt hlt
  have hkeys : (t.items.map (·.key)).toFinset = m.keys := by
    ext key
    rw [List.mem_toFinset, Finmap.mem_keys, h.mem_keys_iff, List.mem_map]
  rw [← hkeys, List.toFinset_card_of_nodup hnodup, List.length_map]

theorem lookup_minKey : m.lookup minKey = none := by
  refine Finmap.lookup_eq_none.mpr fun hmem => ?_
  obtain ⟨p, hp, hk⟩ := h.mem_keys_iff.mp hmem
  exact Int64.lt_irrefl (hk ▸ h.sorted.minKey_lt hp)

theorem isPredecessor (key : Key) :
    m.IsPredecessor key (t.predecessor key) := by
  rcases Table.predecessor_spec h.sorted key with ⟨hs, hno⟩ | ⟨hp, hle, hmax⟩
  · refine Or.inr ⟨hs, fun k hk => ?_⟩
    obtain ⟨p, hp, rfl⟩ := h.mem_keys_iff.mp hk
    exact hno p hp
  · refine Or.inl ⟨(h.mem_iff _).mp hp, hle, fun k hk => ?_⟩
    obtain ⟨p, hp, rfl⟩ := h.mem_keys_iff.mp hk
    exact hmax p hp

end Questions

/-! ### Batches -/

theorem place (h : t.Holds m) {p : Pair} (hp : p.key ≠ minKey) :
    (t.insert [p]).Holds (m.insert p.key p.value) := by
  refine ⟨Table.sorted_insert h.sorted (List.forall_mem_singleton.mpr hp),
    fun q => (Table.mem_place_iff h.sorted.ascending).trans ?_⟩
  by_cases hk : q.key = p.key
  · rw [hk, Finmap.lookup_insert]
    rcases p with ⟨k, v⟩
    rcases q with ⟨k', v'⟩
    obtain rfl : k' = k := hk
    simp [eq_comm]
  · rw [Finmap.lookup_insert_of_ne _ hk, h.mem_iff]
    have hne : q ≠ p := fun heq => hk (heq ▸ rfl)
    simp [hk, hne]

theorem insert (h : t.Holds m) {batch : List Pair}
    (hb : minKey ∉ batch.map (·.key)) :
    (t.insert batch).Holds (m.insertAll batch) := by
  induction batch generalizing t m with
  | nil => exact h
  | cons p batch ih =>
      rw [List.map_cons, List.mem_cons, not_or] at hb
      exact ih (h.place (Ne.symm hb.1)) hb.2

theorem remove (h : t.Holds m) (keys : List Key) :
    (t.remove keys).Holds (m.eraseAll keys) := by
  refine ⟨Table.sorted_remove h.sorted keys, fun p => ?_⟩
  rw [Table.mem_items_remove, m.lookup_eraseAll, h.mem_iff]
  by_cases hk : p.key ∈ keys <;> simp [hk]

end Table.Holds

/-! ## Runs of batches -/

namespace SortedPairs

inductive Change where
  | insert (batch : List Pair)
  | remove (keys : List Key)

namespace Change

/-- A batch to insert may not use the key of the sentinel. One to remove may. -/
def Proper : Change → Prop
  | insert batch => minKey ∉ batch.map (·.key)
  | remove _ => True

instance : DecidablePred Proper
  | insert batch => inferInstanceAs (Decidable (minKey ∉ batch.map (·.key)))
  | remove _ => inferInstanceAs (Decidable True)

/-- What a batch does to a finite map. -/
def onMap (m : ValueMap) : Change → ValueMap
  | insert batch => m.insertAll batch
  | remove keys => m.eraseAll keys

end Change

def change (s : SortedPairs) : Change → Option SortedPairs
  | .insert batch => s.insert batch
  | .remove keys => some (s.remove keys)

/-- The pairs after all batches. -/
def run (s : SortedPairs) (changes : List Change) : Option SortedPairs :=
  changes.foldlM change s

theorem change_holds {t : Table} {m : ValueMap} (h : t.Holds m) {c : Change}
    (hc : c.Proper) :
    ∃ t' : Table, t.sortedPairs.change c = some t'.sortedPairs ∧
      t'.Holds (c.onMap m) := by
  cases c with
  | insert batch => exact ⟨_, insert_eq h.sorted hc, h.insert hc⟩
  | remove keys =>
      exact ⟨_, congrArg some (remove_eq h.sorted keys), h.remove keys⟩

/-- All batches do to the pairs what they do to the map. By induction over the
batches, with a table between the pairs and the map all along. -/
theorem run_holds {t : Table} {m : ValueMap} (h : t.Holds m)
    {changes : List Change} (hc : ∀ c ∈ changes, c.Proper) :
    ∃ t' : Table, t.sortedPairs.run changes = some t'.sortedPairs ∧
      t'.Holds (changes.foldl Change.onMap m) := by
  induction changes generalizing t m with
  | nil => exact ⟨t, rfl, h⟩
  | cons c changes ih =>
      obtain ⟨hfirst, hrest⟩ := List.forall_mem_cons.mp hc
      obtain ⟨t₁, hchange, h₁⟩ := change_holds h hfirst
      obtain ⟨t', hrun, h'⟩ := ih h₁ hrest
      refine ⟨t', ?_, h'⟩
      rw [run, List.foldlM_cons, hchange]
      exact hrun

/-- **Sorted pairs are a finite map.** After any batches, on a new list, the
pairs are in strict key order with the sentinel first. Those behind it are the
pairs of the map that the same batches make, pair by pair and key by key; the
length is the size of the map, values are looked up as in the map, and the
predecessor of every key is its pair of greatest key not above it, or the
sentinel. -/
theorem run_is_finite_map {changes : List Change}
    (hc : ∀ c ∈ changes, c.Proper) :
    ∃ (s : SortedPairs) (items : List Pair) (m : ValueMap),
      SortedPairs.new.run changes = some s ∧
      m = changes.foldl Change.onMap ∅ ∧
      s.entries = .sentinel :: items ∧ Ascending (s.entries.map (·.key)) ∧
      s.items = some items ∧
      (∀ p, p ∈ items ↔ m.lookup p.key = some p.value) ∧
      s.length = some m.keys.card ∧
      (∀ keys, s.get keys = some (keys.map m.lookup)) ∧
      m.lookup minKey = none ∧
      ∀ keys, ∃ answers, s.predecessors keys = some answers ∧
        List.Forall₂ m.IsPredecessor keys answers := by
  obtain ⟨t, hrun, h⟩ := run_holds Table.Holds.empty hc
  refine ⟨t.sortedPairs, t.items, _, hrun, rfl, rfl,
    Table.ascending_entries h.sorted, rfl, h.mem_iff,
    congrArg some h.length_eq, fun keys => ?_, h.lookup_minKey, fun keys => ?_⟩
  · rw [get_eq h.sorted, funext h.get?_eq]
  · refine ⟨_, predecessors_eq h.sorted keys, ?_⟩
    rw [List.forall₂_map_right_iff]
    exact List.forall₂_same.mpr fun key _ => h.isPredecessor key

/-- A value that is written over, one that is the least word, and a removal that
names the sentinel. -/
theorem run_is_finite_map_overwritten :
    ∃ s, SortedPairs.new.run
        [.insert [⟨7, 1⟩, ⟨3, 30⟩, ⟨7, 70⟩, ⟨5, nullValue⟩],
          .remove [3, minKey]] = some s ∧
      s.entries.head? = some .sentinel ∧ s.length = some 2 ∧
      s.get [7, 3, 5, minKey] =
        some [some 70, none, some nullValue, none] := by
  have hproper : ∀ c ∈
      [Change.insert [⟨7, 1⟩, ⟨3, 30⟩, ⟨7, 70⟩, ⟨5, nullValue⟩],
        .remove [3, minKey]], c.Proper := by decide
  obtain ⟨s, items, m, hrun, rfl, hentries, -, -, -, hlength, hget, -⟩ :=
    run_is_finite_map hproper
  refine ⟨s, hrun, by rw [hentries]; rfl, hlength.trans ?_, (hget _).trans ?_⟩
  · decide +kernel
  · decide +kernel

end SortedPairs

end LevelIndex
