import LevelIndex.Proofs.Changes
import LevelIndex.Proofs.Insert.Confined
import LevelIndex.Proofs.Reachable
import LevelIndex.Proofs.Remove.Confined

/-!
# What a batch leaves alone

An insert changes the leaves that its keys fall to, and what is over them
(`insert_spares`). What is over a node is over all that is below that
(`parent_over`), so a node over no leaf of the batch has no child that is, and
no edit is sent to it at any level.

A removal may put a leaf together with its right neighbours, so it reaches the
leaves of its keys and those that come next to them (`remove_spares`). This is
said of leaves only.

Neither writes to a slot that was in use before and held no node of the tree
(`get?_of_keepsOrphans`).
-/

namespace LevelIndex

namespace Store

theorem get?_of_body_eq {s s' : Store} {p : Handle}
    (hlive : s'.contains p = true)
    (hbody : (s'.node p).body = (s.node p).body) :
    s'.get? p = some { s.node p with parent := (s'.node p).parent } := by
  rw [get?_eq_some_node hlive]
  refine congrArg some (Node.eq_of_body_eq ?_ rfl)
  rw [hbody]
  rfl

end Store

namespace Tree

/-- One node is another or lies over it. -/
inductive Over (t : Tree) : Handle → Handle → Prop
  | refl (p : Handle) : t.Over p p
  | child {p c q : Handle} {n : Node} : t.store.get? p = some n →
    c ∈ n.children → t.Over c q → t.Over p q

namespace Intact

variable {t t' : Tree} {row : Nat → List Handle} {height : Nat}
  {items : List Pair}

theorem parent_over (i : t.Intact row height items) {k : Nat} (hk : k < height)
    {p q : Handle} (hp : p ∈ row k) (ho : t.Over p q) :
    (t.store.node p).parent ∈ row (k + 1) ∧
      t.Over (t.store.node p).parent q := by
  have hs := i.spans_succ hk
  rw [← hs.flatMap_children] at hp
  obtain ⟨u, hu, hc⟩ := List.mem_flatMap.mp hp
  rw [hs.owns u hu p hc]
  exact ⟨hu, .child (i.get?_eq hk hu) hc ho⟩

theorem eq_of_over (i : t.Intact row height items) {p q : Handle}
    (hp : p ∈ row 0) (ho : t.Over p q) : q = p := by
  cases ho with
  | refl => rfl
  | child hn hc _ =>
      obtain rfl :=
        Option.some.inj (hn.symm.trans (i.get?_eq (Nat.zero_le _) hp))
      have hmem := Store.mem_childrenOf_contents.mpr ⟨p, hp, hc⟩
      rw [i.leaves, childrenOf_leafCells] at hmem
      cases hmem

theorem get?_of_keepsOrphans (i : t.Intact row height items)
    (hall : t.store.allocated ≤ t'.store.allocated)
    (h : t.KeepsOrphans row height t') {p : Handle} {n : Node}
    (hp : ¬t.Has p) (hn : t.store.get? p = some n) :
    t'.store.get? p = some n := by
  have hlive : t.store.contains p = true := Store.contains_iff.mpr ⟨n, hn⟩
  have hoff : ∀ k ≤ height, p ∉ row k := fun k hk hm =>
    hp (i.has_iff.mpr ⟨k, hk, hm⟩)
  rw [Store.get?_eq_some_node (Store.contains_of_allocated_le hall hlive),
    h p hlive hoff, Store.node_eq_of_get? hn]

end Intact

end Tree

namespace Index

section Batch

variable {x x' : Index} {t : Table} {row : Nat → List Handle} {height : Nat}
  {events : List Event} (i : x.tree.Intact row height t.items)
include i

/-- An insert that went through has changed what is over the leaves of its keys,
and nothing else. The parent of a node may have changed all the same, as its
owner may have been split. -/
theorem insert_spares {batch : List Pair}
    (h : x.insert batch = .ok (x', events)) :
    ∃ targets, x.locate (batch.map (·.key)) = .ok targets ∧
      x.tree.KeepsOrphans row height x'.tree ∧
      ∀ k ≤ height, ∀ p ∈ row k, (∀ leaf ∈ targets, ¬x.tree.Over p leaf) →
        (x'.tree.store.node p).body = (x.tree.store.node p).body := by
  have hb := minKey_not_mem_of_insert h
  obtain ⟨leafOf, -, hlocate⟩ := exists_leafOf i
  obtain ⟨leaves, hl, r⟩ := exists_rising i hb
  obtain rfl := Except.ok.inj ((hlocate _).symm.trans hl)
  let targets := (batch.map (·.key)).map leafOf
  let busy (p : Handle) : Prop := ∃ leaf ∈ targets, x.tree.Over p leaf
  have hup : ∀ k < height, ∀ p ∈ row k, busy p →
      (x.tree.store.node p).parent ∈ row (k + 1) ∧
        busy (x.tree.store.node p).parent := by
    rintro k hk p hp ⟨leaf, hleaf, ho⟩
    obtain ⟨hmem, ho'⟩ := i.parent_over hk hp ho
    exact ⟨hmem, leaf, hleaf, ho'⟩
  have haim : ∀ p ∈ Edit.targets (insertEdits (normalForm batch)
      (((normalForm batch).map (·.key)).map leafOf)), busy p := by
    intro p hp
    rw [insertEdits_map, Edit.targets, List.map_map] at hp
    obtain ⟨q, hq, rfl⟩ := List.mem_map.mp hp
    exact ⟨leafOf q.key, List.mem_map_of_mem
      (List.mem_map_of_mem (mem_of_mem_normalForm hq)), .refl _⟩
  obtain ⟨horphans, hbody⟩ := r.run_spares (fun k hk => (i.level k hk).live)
    hup haim (ending_of_insert hb hl h)
  refine ⟨targets, hlocate _, horphans, fun k hk p hp hno =>
    hbody k hk p hp ?_⟩
  rintro ⟨leaf, hleaf, ho⟩
  exact hno leaf hleaf ho

theorem remove_spares {keys : List Key}
    (h : x.remove keys = .ok (x', events)) :
    ∃ targets row', x.locate keys = .ok targets ∧
      x'.tree.Intact row' height (t.remove keys).items ∧
      x.tree.KeepsOrphans row height x'.tree ∧
      ∀ p ∈ row 0, p ∉ targets → (∀ q, [q, p] <:+: row 0 → q ∉ targets) →
        p ∈ row' 0 ∧
          (x'.tree.store.node p).cells = (x.tree.store.node p).cells := by
  have hk := minKey_not_mem_of_remove h
  obtain ⟨leafOf, -, hlocate⟩ := exists_leafOf i
  obtain ⟨leaves, hl, r⟩ := exists_falling i hk
  obtain rfl := Except.ok.inj ((hlocate _).symm.trans hl)
  obtain ⟨row', i', horphans, hkept⟩ := r.run_spares (ending_of_remove hk hl h)
  refine ⟨keys.map leafOf, row', hlocate _, i', horphans,
    fun p hp hno hbefore => hkept p ?_⟩
  have htargets : ∀ q ∈ Edit.targets ((sortedKeys keys).zipWith Edit.remove
      ((sortedKeys keys).map leafOf)), q ∈ keys.map leafOf := by
    intro q hq
    rw [removeEdits_map, Edit.targets, List.map_map] at hq
    obtain ⟨k, hk, rfl⟩ := List.mem_map.mp hq
    exact List.mem_map_of_mem (mem_sortedKeys.mp hk)
  exact ⟨hp, fun hm => hno (htargets p hm),
    fun q hq hm => hbefore q hq (htargets q hm)⟩

end Batch

/-- **Frame.** An insert leaves all but the parent of every leaf that none of
its keys is located in, and of every node that is over no such leaf. A removal
leaves the cells of every leaf, and the leaf in its place on the chain, if no
key is located in it nor in the one before it on the chain. And either leaves
every slot as it is that was in use and held no node of the tree. -/
theorem batch_frame {x : Index} (h : x.Reachable) :
    (∀ batch x' events, x.insert batch = .ok (x', events) →
      ∃ targets leaves, x.locate (batch.map (·.key)) = .ok targets ∧
        x.tree.level 0 = .ok leaves ∧
        (∀ p ∈ leaves, p ∉ targets → ∃ n owner,
          x.tree.store.get? p = some n ∧
          x'.tree.store.get? p = some { n with parent := owner }) ∧
        (∀ p, x.tree.Has p → (∀ leaf ∈ targets, ¬x.tree.Over p leaf) →
          ∃ n owner, x.tree.store.get? p = some n ∧
            x'.tree.store.get? p = some { n with parent := owner }) ∧
        ∀ p n, ¬x.tree.Has p → x.tree.store.get? p = some n →
          x'.tree.store.get? p = some n) ∧
    ∀ keys x' events, x.remove keys = .ok (x', events) →
      ∃ targets leaves leaves', x.locate keys = .ok targets ∧
        x.tree.level 0 = .ok leaves ∧ x'.tree.level 0 = .ok leaves' ∧
        (∀ p ∈ leaves, p ∉ targets →
          (∀ q, [q, p] <:+: leaves → q ∉ targets) →
          p ∈ leaves' ∧ ∃ n n', x.tree.store.get? p = some n ∧
            x'.tree.store.get? p = some n' ∧ n'.cells = n.cells) ∧
        ∀ p n, ¬x.tree.Has p → x.tree.store.get? p = some n →
          x'.tree.store.get? p = some n := by
  obtain ⟨t, s⟩ := h.exists_stores
  obtain ⟨row, height, i⟩ := s.exists_intact
  refine ⟨fun batch x' events hx => ?_, fun keys x' events hx => ?_⟩
  · obtain ⟨row', height', -, hext⟩ := insert_extends i hx
    obtain ⟨targets, hlocate, horphans, hbody⟩ := insert_spares i hx
    have hspared : ∀ k ≤ height, ∀ p ∈ row k,
        (∀ leaf ∈ targets, ¬x.tree.Over p leaf) → ∃ n owner,
          x.tree.store.get? p = some n ∧
          x'.tree.store.get? p = some { n with parent := owner } := by
      intro k hk p hp hno
      refine ⟨_, _, i.get?_eq hk hp, Store.get?_of_body_eq
        (Store.contains_of_allocated_le hext.allocated_le
          ((i.level k hk).live p hp)) (hbody k hk p hp hno)⟩
    refine ⟨targets, row 0, hlocate, i.level_eq (Nat.zero_le _),
      fun p hp hno => hspared 0 (Nat.zero_le _) p hp fun leaf hleaf ho => ?_,
      fun p hp hno => ?_,
      fun p n hp hn => i.get?_of_keepsOrphans hext.allocated_le horphans hp hn⟩
    · exact hno (i.eq_of_over hp ho ▸ hleaf)
    · obtain ⟨k, hk, hp⟩ := i.has_iff.mp hp
      exact hspared k hk p hp hno
  · obtain ⟨thinned, -, hthin⟩ := remove_thins i hx
    have hall := Nat.le_of_eq hthin.allocated_eq.symm
    obtain ⟨targets, row', hlocate, i', horphans, hkept⟩ := remove_spares i hx
    refine ⟨targets, row 0, row' 0, hlocate, i.level_eq (Nat.zero_le _),
      i'.level_eq (Nat.zero_le _), fun p hp hno hbefore => ?_,
      fun p n hp hn => i.get?_of_keepsOrphans hall horphans hp hn⟩
    obtain ⟨hp', hcells⟩ := hkept p hp hno hbefore
    exact ⟨hp', _, _, i.get?_eq (Nat.zero_le _) hp,
      i'.get?_eq (Nat.zero_le _) hp', hcells⟩

/-- Two of three leaves have been put together, and one slot was left behind. A
key of the last leaf that comes or goes leaves the first leaf and that slot
alone. -/
theorem batch_frame_two_leaves :
    ∃ (x y z : Index) (inserted removed : List Event) (n : Node),
      x.Reachable ∧ x.tree.level 0 = .ok [.slot 0, .slot 3] ∧
      ¬x.tree.Has (.slot 1) ∧ x.tree.store.get? (.slot 1) = some n ∧
      x.locate [100] = .ok [.slot 3] ∧
      x.insert [⟨100, 0⟩] = .ok (y, inserted) ∧
      (∃ m owner, x.tree.store.get? (.slot 0) = some m ∧
        y.tree.store.get? (.slot 0) = some { m with parent := owner }) ∧
      y.tree.store.get? (.slot 1) = some n ∧
      x.locate [24] = .ok [.slot 3] ∧ x.remove [24] = .ok (z, removed) ∧
      (∃ m m', x.tree.store.get? (.slot 0) = some m ∧
        z.tree.store.get? (.slot 0) = some m' ∧ m'.cells = m.cells) ∧
      z.tree.store.get? (.slot 1) = some n := by
  let config : Config := { storeCapacity := 8 }
  let calls := oneByOne 25 ++ [.remove [3], .remove [2]]
  obtain ⟨x, events, hx⟩ := exists_ofConfig
    (show config.Valid from ⟨by decide, by decide, by decide, by decide⟩)
  have hr := (Reachable.new hx).after calls
  have htree : observe config calls (fun y => (y.tree.height, y.tree.level 0,
      y.tree.level 1, y.tree.store.allocated)) =
      some (.ok 1, .ok [.slot 0, .slot 3], .ok [.slot 2], 4) := by
    decide +kernel
  have hbatches : observe config calls (fun y => (y.locate [100], y.locate [24],
      (y.insert [⟨100, 0⟩]).toOption.isSome)) =
      some (.ok [.slot 3], .ok [.slot 3], true) := by
    decide +kernel
  simp only [observe, hx, Option.some.injEq, Prod.mk.injEq] at htree hbatches
  obtain ⟨hheight, hleaves, htop, hall⟩ := htree
  obtain ⟨hlocate, hlocate', hinsert⟩ := hbatches
  obtain ⟨row, height, items, i⟩ := hr.exists_intact
  obtain rfl : height = 1 := Except.ok.inj (i.height_eq.symm.trans hheight)
  have horphan : ¬(x.after calls).tree.Has (.slot 1) := by
    rw [i.has_iff]
    rintro ⟨k, hk, hm⟩
    have hlevel := i.level_eq hk
    obtain rfl | rfl : k = 0 ∨ k = 1 := by omega
    · rw [Except.ok.inj (hlevel.symm.trans hleaves)] at hm
      exact absurd hm (by decide)
    · rw [Except.ok.inj (hlevel.symm.trans htop)] at hm
      exact absurd hm (by decide)
  have hn : (x.after calls).tree.store.get? (.slot 1) = some _ :=
    Store.get?_eq_some_node (by simp [Store.contains, hall])
  obtain ⟨hinserts, hremoves⟩ := batch_frame hr
  cases hy : (x.after calls).insert [⟨100, 0⟩] with
  | error f =>
      rw [hy] at hinsert
      cases hinsert
  | ok y =>
      obtain ⟨z, removed, hz, -⟩ :=
        (reachable_faultless hr).1 [24] (by decide)
      obtain ⟨targets, leaves, hl, hlev, hleaf, -, hrest⟩ :=
        hinserts _ y.1 y.2 hy
      obtain rfl := Except.ok.inj (hl.symm.trans hlocate)
      obtain rfl := Except.ok.inj (hlev.symm.trans hleaves)
      obtain ⟨targets', leaves', leaves'', hl', hlev', -, hleaf', hrest'⟩ :=
        hremoves _ z removed hz
      obtain rfl := Except.ok.inj (hl'.symm.trans hlocate')
      obtain rfl := Except.ok.inj (hlev'.symm.trans hleaves)
      have hbefore : ∀ q, [q, .slot 0] <:+: [Handle.slot 0, .slot 3] →
          q ∉ [Handle.slot 3] := by
        intro q hq hm
        obtain rfl := List.mem_singleton.mp hm
        exact absurd (hq.sublist.eq_of_length rfl) (by decide)
      exact ⟨_, y.1, z, y.2, removed, _, hr, hleaves, horphan, hn, hlocate, hy,
        hleaf (.slot 0) (by decide) (by decide), hrest _ _ horphan hn, hlocate',
        hz, (hleaf' (.slot 0) (by decide) (by decide) hbefore).2,
        hrest' _ _ horphan hn⟩

end Index

end LevelIndex
