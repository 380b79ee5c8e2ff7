import LevelIndex.Proofs.Changes
import LevelIndex.Proofs.Reachable

/-!
# Which slots belong to the tree

A slot in use holds a node of the tree or an orphan, which an earlier removal
has dropped. The levels count each node of the tree once (`Intact.stats_eq`), so
the orphans are the slots in use less what the levels count.

An insert turns every slot that it takes into a node and makes no orphan
(`length_nodesUpTo_extends`); a removal takes no slot and may make orphans.
Either way a node of the tree was one before or has a new slot
(`has_or_unused`), and a slot that has been handed out is never handed out
again. So an orphan stays one for good (`Reachable.not_has_after`).

The root changes with the height only: an insert that grows the tree puts a new
root over the old one, and no removal makes the tree lower (`root_ne_iff`).
-/

namespace LevelIndex

namespace Tree

namespace Intact

variable {t t' : Tree} {row row' : Nat → List Handle} {height height' : Nat}
  {items items' : List Pair}

theorem nodup_nodesUpTo (i : t.Intact row height items) :
    (nodesUpTo row height).Nodup :=
  Tree.nodup_nodesUpTo fun _ => i.isRow

theorem live_nodesUpTo (i : t.Intact row height items) {p : Handle}
    (hp : p ∈ nodesUpTo row height) : t.store.contains p = true := by
  obtain ⟨k, hk, hp⟩ := mem_nodesUpTo.mp hp
  exact (i.level k hk).live p hp

theorem length_nodesUpTo_le (i : t.Intact row height items) :
    (nodesUpTo row height).length ≤ t.store.allocated :=
  Store.length_le_allocated i.nodup_nodesUpTo fun _ hp => i.live_nodesUpTo hp

theorem stats_eq (i : t.Intact row height items) :
    ∃ st, t.stats = .ok st ∧ st.allocated = t.store.allocated ∧
      st.reachable = (nodesUpTo row height).length ∧
      st.orphaned =
        .ok (t.store.allocated - (nodesUpTo row height).length) := by
  let st : Stats :=
    { height, levelSizes := (List.range (height + 1)).map fun k =>
        (row k).length, allocated := t.store.allocated
      capacity := t.store.capacity }
  have hreachable : st.reachable = (nodesUpTo row height).length := by
    rw [nodesUpTo, List.length_flatMap]
    rfl
  refine ⟨st, by rw [stats, i.height_eq, ok_bind, i.levelSizes_eq]; rfl, rfl,
    hreachable, ?_⟩
  rw [Stats.orphaned, hreachable, if_pos i.length_nodesUpTo_le]

theorem length_nodesUpTo_extends (i : t.Intact row height items)
    (i' : t'.Intact row' height' items')
    (h : t.Extends row height t' row' height') :
    (nodesUpTo row' height').length + t.store.allocated =
      (nodesUpTo row height).length + t'.store.allocated := by
  let nodes := nodesUpTo row height
  let nodes' := nodesUpTo row' height'
  let fresh := nodes'.filter fun p => !t.store.contains p
  have htaken : t.store.Taken t'.store fresh := by
    refine ⟨i'.nodup_nodesUpTo.filter _, fun p => ?_⟩
    rw [List.mem_filter, Bool.not_eq_true', mem_nodesUpTo]
    refine and_congr_left fun hunused => ⟨?_, fun hlive => ?_⟩
    · rintro ⟨k, hk, hp⟩
      exact (i'.level k hk).live p hp
    · exact h.taken p hlive hunused
  have hkept : (nodes'.filter t.store.contains).Perm nodes := by
    refine (List.perm_ext_iff_of_nodup (i'.nodup_nodesUpTo.filter _)
      i.nodup_nodesUpTo).mpr fun p => ?_
    rw [List.mem_filter, mem_nodesUpTo, mem_nodesUpTo]
    constructor
    · rintro ⟨⟨k, hk, hp⟩, hlive⟩
      rcases h.origin k hk p hp with hold | hunused
      · exact ⟨k, hold⟩
      · rw [hlive] at hunused
        cases hunused
    · rintro ⟨k, hk, hp⟩
      exact ⟨⟨k, Nat.le_trans hk h.height_le, (h.kept k hk p hp).1⟩,
        (i.level k hk).live p hp⟩
  have hsplit := (List.filter_append_perm t.store.contains nodes').length_eq
  have hall := htaken.allocated_eq h.allocated_le
  rw [List.length_append, hkept.length_eq,
    show nodes'.filter (fun p => !t.store.contains p) = fresh from rfl]
    at hsplit
  show nodes'.length + _ = nodes.length + _
  omega

end Intact

end Tree

namespace Index

section Step

variable {x x' : Index} {t t' : Table} {row row' : Nat → List Handle}
  {height height' : Nat} (i : x.tree.Intact row height t.items)
  (i' : x'.tree.Intact row' height' t'.items)
include i i'

theorem root_ne_iff (h : x.tree.Extends row height x'.tree row' height' ∨
      height' = height ∧ x.tree.Thins row x'.tree row') :
    height ≤ height' ∧ (x'.tree.root ≠ x.tree.root ↔ height < height') := by
  rcases h with h | ⟨rfl, h⟩
  · refine ⟨h.height_le, fun hne => ?_, fun hlt heq => ?_⟩
    · exact Nat.lt_of_le_of_ne h.height_le fun heq =>
        hne (h.root_eq heq.symm)
    · have hold := (h.kept height (Nat.le_refl _) _ i.root_mem).1
      exact i'.not_mem_of_ne (Nat.le_of_lt hlt) (Nat.le_refl _)
        (Nat.ne_of_lt hlt) hold (heq ▸ i'.root_mem)
  · exact ⟨Nat.le_refl _, fun hne => absurd h.root_eq hne,
      fun hlt => absurd hlt (Nat.lt_irrefl _)⟩

theorem has_or_unused (h : x.tree.Extends row height x'.tree row' height' ∨
      height' = height ∧ x.tree.Thins row x'.tree row') {p : Handle}
    (hp : x'.tree.Has p) :
    x.tree.Has p ∨ x.tree.store.contains p = false := by
  obtain ⟨k, hk, hp⟩ := i'.has_iff.mp hp
  rcases h with h | ⟨rfl, h⟩
  · exact (h.origin k hk p hp).imp_left fun hold => i.has_iff.mpr ⟨k, hold⟩
  · exact Or.inl (i.has_iff.mpr ⟨k, hk, h.subset k hp⟩)

end Step

/-- What has fallen out of the tree does not come back. By induction over the
calls: each of them takes in new slots only, and the slot in question stays in
use. -/
theorem Reachable.not_has_after {x : Index} (h : x.Reachable) {p : Handle}
    (hlive : x.tree.store.contains p = true) (hp : ¬x.tree.Has p)
    (calls : List Call) : ¬(x.after calls).tree.Has p := by
  induction calls generalizing x with
  | nil => exact hp
  | cons c calls ih =>
      show ¬((x.next c).after calls).tree.Has p
      unfold next
      split
      · next x' a hcall =>
          obtain ⟨t, r⟩ := h.exists_stores
          obtain ⟨row, height, i⟩ := r.exists_intact
          obtain ⟨t', row', height', i', hchange⟩ := call_changes i hcall
          have hlive' : x'.tree.store.contains p = true := by
            rcases hchange with hext | ⟨-, hthin⟩
            · exact Store.contains_of_allocated_le hext.allocated_le hlive
            · rwa [Store.contains_eq_of_allocated_eq hthin.allocated_eq]
          refine ih (h.call hcall) hlive' fun hhas => ?_
          rcases has_or_unused i i' hchange hhas with hold | hunused
          · exact hp hold
          · rw [hlive] at hunused
            cases hunused
      · exact ih h hlive hp

/-- **Accounting.** In every index that can be reached, the levels count each
node of the tree once, and so at most the slots in use. An insert makes nodes
of the tree of just those slots that it takes, leaves every node on its level
and starting at its key, and makes no orphan. A removal takes no slot, keeps
root and height, and adds no node; what is an orphan once is one for good.
Whatever the call, the root changes just in case the height grows. -/
theorem reachable_accounts {x : Index} (h : x.Reachable) :
    (∃ (st : Tree.Stats) (nodes : List Handle) (orphans : Nat),
      x.tree.stats = .ok st ∧
      nodes.Nodup ∧ (∀ p, p ∈ nodes ↔ x.tree.Has p) ∧
      st.reachable = nodes.length ∧ st.orphaned = .ok orphans ∧
      st.allocated = x.tree.store.allocated ∧
      st.reachable + orphans = st.allocated) ∧
    (∀ batch x' events, x.insert batch = .ok (x', events) →
      (∀ p, x'.tree.Has p ↔ x.tree.Has p ∨
        x'.tree.store.contains p = true ∧ x.tree.store.contains p = false) ∧
      (∀ p n, x.tree.Has p → x.tree.store.get? p = some n →
        ∃ n', x'.tree.store.get? p = some n' ∧ n'.height = n.height ∧
          n'.firstKey = n.firstKey) ∧
      ∃ st st', x.tree.stats = .ok st ∧ x'.tree.stats = .ok st' ∧
        st'.orphaned = st.orphaned) ∧
    (∀ keys x' events, x.remove keys = .ok (x', events) →
      x'.tree.store.allocated = x.tree.store.allocated ∧
      x'.tree.root = x.tree.root ∧ x'.tree.height = x.tree.height ∧
      ∀ p, x'.tree.Has p → x.tree.Has p) ∧
    (∀ p, x.tree.store.contains p = true → ¬x.tree.Has p →
      ∀ calls, ¬(x.after calls).tree.Has p) ∧
    ∀ c x' a, x.call c = .ok (x', a) → ∃ height height',
      x.tree.height = .ok height ∧ x'.tree.height = .ok height' ∧
      height ≤ height' ∧
      (x'.tree.root ≠ x.tree.root ↔ height < height') := by
  obtain ⟨t, r⟩ := h.exists_stores
  obtain ⟨row, height, i⟩ := r.exists_intact
  obtain ⟨st, hst, hall, hreach, horphans⟩ := i.stats_eq
  have hle := i.length_nodesUpTo_le
  refine ⟨⟨st, _, _, hst, i.nodup_nodesUpTo, fun p => ?_, hreach, horphans,
    hall, by omega⟩, ?_, ?_, fun p hlive hp => h.not_has_after hlive hp, ?_⟩
  · rw [Tree.mem_nodesUpTo, i.has_iff]
  · intro batch x' events hx
    obtain ⟨row', height', i', hext⟩ := insert_extends i hx
    refine ⟨fun p => ?_, fun p n hp hn => ?_, ?_⟩
    · rw [i.has_iff, i'.has_iff]
      exact hext.exists_mem_iff (fun k hk => (i'.level k hk).live) p
    · obtain ⟨k, hk, hp⟩ := i.has_iff.mp hp
      obtain ⟨hp', hkey⟩ := hext.kept k hk p hp
      have hk' := Nat.le_trans hk hext.height_le
      obtain rfl := Option.some.inj (hn.symm.trans (i.get?_eq hk hp))
      refine ⟨_, i'.get?_eq hk' hp', ?_, hkey⟩
      rw [(i'.level k hk').height_eq p hp', (i.level k hk).height_eq p hp]
    · obtain ⟨st', hst', -, -, horphans'⟩ := i'.stats_eq
      refine ⟨st, st', hst, hst', ?_⟩
      have hlen := i.length_nodesUpTo_extends i' hext
      have hle' := i'.length_nodesUpTo_le
      rw [horphans, horphans']
      congr 1
      omega
  · intro keys x' events hx
    obtain ⟨row', i', hthin⟩ := remove_thins i hx
    refine ⟨hthin.allocated_eq, hthin.root_eq,
      i'.height_eq.trans i.height_eq.symm, fun p hp => ?_⟩
    obtain ⟨k, hk, hp⟩ := i'.has_iff.mp hp
    exact i.has_iff.mpr ⟨k, hk, hthin.subset k hp⟩
  · intro c x' a hx
    obtain ⟨t', row', height', i', hchange⟩ := call_changes i hx
    exact ⟨height, height', i.height_eq, i'.height_eq,
      root_ne_iff i i' hchange⟩

/-- Two leaves have merged, and the slot of the second is not used again. -/
theorem reachable_accounts_merged_leaves :
    ∃ x : Index, x.Reachable ∧ x.tree.store.allocated = 3 ∧
      (∃ nodes : List Handle, nodes.length = 2 ∧ nodes.Nodup ∧
        ∀ p, p ∈ nodes ↔ x.tree.Has p) ∧
      ∃ p, x.tree.store.contains p = true ∧
        ∀ calls, ¬(x.after calls).tree.Has p := by
  let calls := oneByOne 16 ++ [.remove [1], .remove [2]]
  have hc : ({ storeCapacity := 8 } : Config).Valid :=
    ⟨by decide, by decide, by decide, by decide⟩
  obtain ⟨x, events, hx⟩ := exists_ofConfig hc
  have hr := (Reachable.new hx).after calls
  obtain ⟨⟨st, nodes, orphans, hst, hnodup, hmem, hlen, -, -, -⟩, -, -,
    horphan, -⟩ := reachable_accounts hr
  have hall : observe { storeCapacity := 8 } calls
      (fun y => y.tree.store.allocated) = some 3 := by decide +kernel
  have hstats : observe { storeCapacity := 8 } calls
      (fun y => y.tree.stats.toOption.map (·.reachable)) =
      some (some 2) := by decide +kernel
  rw [observe, hx] at hall hstats
  have hall : (x.after calls).tree.store.allocated = 3 := Option.some.inj hall
  have hstats : (x.after calls).tree.stats.toOption.map (·.reachable) =
    some 2 := Option.some.inj hstats
  rw [hst] at hstats
  have hlen : nodes.length = 2 := hlen.symm.trans (Option.some.inj hstats)
  let slots := [Handle.slot 0, .slot 1, .slot 2]
  obtain ⟨p, hp, hnot⟩ : ∃ p ∈ slots, p ∉ nodes := by
    by_contra hno
    have hsub : slots ⊆ nodes := fun p hp =>
      by_contra fun hn => hno ⟨p, hp, hn⟩
    have hle := (List.subperm_of_subset (by decide) hsub).length_le
    rw [hlen] at hle
    exact absurd hle (by decide)
  have hlive : (x.after calls).tree.store.contains p = true := by
    simp only [slots, List.mem_cons, List.not_mem_nil, or_false] at hp
    rcases hp with rfl | rfl | rfl <;> simp [Store.contains, hall]
  exact ⟨x.after calls, hr, hall, ⟨nodes, hlen, hnodup, hmem⟩, p, hlive,
    horphan p hlive fun hp => hnot ((hmem p).mpr hp)⟩

end Index

end LevelIndex
