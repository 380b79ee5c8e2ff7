import LevelIndex.Proofs.Changes
import LevelIndex.Proofs.Insert.Orders
import LevelIndex.Proofs.Reachable
import LevelIndex.Proofs.Remove.Orders

/-!
# Workers

How many workers an index has, and from which height on one of them works alone,
is nowhere to be seen: two indexes with equally many slots answer every history
alike and end in the same tree (`agree_of_tree`). One call is enough for it
(`seen_call`), as the indexes have one tree again after it. A question is cut
into blocks, and into how many makes no difference; a batch sends the same edits
to the same leaves, and its course has one outline whatever the pool
(`climb_tree_eq`).

Nor does it matter in which order the workers carry out the runs of a level, but
for the slots that an insert takes (`Reachable.insert_orderFree`,
`Reachable.remove_orderFree`). These ask of the tree that no handle dangles
(`Reachable.closed`): a slot not in use that some node pointed to would be given
different nodes in different orders.
-/

namespace LevelIndex

namespace Index

/-- No tree that can be reached has a dangling handle. By induction over the
calls; the nodes that have fallen out of the tree keep the handles they had, and
no slot is given back. -/
theorem Reachable.closed {x : Index} (h : x.Reachable) :
    x.tree.store.Closed := by
  induction h with
  | new hx =>
      obtain ⟨hc, -, htree⟩ := ofConfig_eq_ok hx
      rw [htree]
      exact Tree.closed_fresh hc.storeCapacity_pos
  | @call x x' c a hx hcall ih =>
      obtain ⟨t, r⟩ := hx.exists_stores
      obtain ⟨row, height, i⟩ := r.exists_intact
      obtain ⟨t', row', height', -, hext | ⟨-, hthin⟩⟩ := call_changes i hcall
      · exact hext.closed ih
      · exact hthin.closed ih

/-! ## What a batch sends up the tree -/

section Sends

variable {x : Index} (h : x.Reachable)
include h

theorem Reachable.insert_orderFree {batch : List Pair} (hne : batch ≠ [])
    (hb : minKey ∉ batch.map (·.key)) :
    ∃ leaves, x.locate ((normalForm batch).map (·.key)) = .ok leaves ∧
      Insert.engine.OrderFree Insert.rewrite x.tree
        (insertEdits (normalForm batch) leaves) Insert.Same
        (Insert.SameEnd x.tree) := by
  obtain ⟨t, r⟩ := h.exists_stores
  obtain ⟨row, height, i⟩ := r.exists_intact
  obtain ⟨leaves, hlocate, hr⟩ := exists_rising i hb
  obtain ⟨leafOf, -, hleaves⟩ := exists_leafOf i
  refine ⟨leaves, hlocate, hr.orderFree ?_ h.closed⟩
  rw [hleaves] at hlocate
  rw [← Except.ok.inj hlocate, insertEdits_map]
  simpa using normalForm_ne_nil hne

theorem Reachable.remove_orderFree {keys : List Key} (hne : keys ≠ [])
    (hk : minKey ∉ keys) :
    ∃ leaves, x.locate (sortedKeys keys) = .ok leaves ∧
      Remove.engine.OrderFree Remove.rewrite x.tree
        ((sortedKeys keys).zipWith Edit.remove leaves) Remove.Same Eq := by
  obtain ⟨t, r⟩ := h.exists_stores
  obtain ⟨row, height, i⟩ := r.exists_intact
  obtain ⟨leaves, hlocate, hr⟩ := exists_falling i hk
  obtain ⟨leafOf, -, hleaves⟩ := exists_leafOf i
  refine ⟨leaves, hlocate, hr.orderFree ?_⟩
  rw [hleaves] at hlocate
  rw [← Except.ok.inj hlocate, List.zipWith_map_right, List.zipWith_self]
  simpa using sortedKeys_ne_nil hne

end Sends

/-! ## Indexes with one tree -/

section SameTree

variable {x y : Index}

/-- What a call comes to, the configuration apart. -/
def seen (r : Except Failure (Index × Answer)) :
    Except Failure (Tree × Answer) :=
  r.map fun q => (q.1.tree, q.2)

theorem map_snd_seen (r : Except Failure (Index × Answer)) :
    (seen r).map (·.2) = r.map (·.2) := by
  cases r <;> rfl

variable (ht : x.tree = y.tree)
include ht

theorem locate_eq_of_tree (keys : List Key) : x.locate keys = y.locate keys :=
  mapBlocks_congr _ _ keys (by rw [ht])

theorem get_eq_of_tree (keys : List Key) : x.get keys = y.get keys :=
  mapBlocks_congr _ _ keys (by rw [ht])

theorem predecessor_eq_of_tree (keys : List Key) :
    x.predecessor keys = y.predecessor keys :=
  mapBlocks_congr _ _ keys (by rw [ht])

/-- A batch leads to the same tree, if its edits do under both pools. A batch
without keys leads nowhere, so nothing is asked of its edits. -/
theorem climb_tree_eq {e : Engine Tree} {keys : List Key}
    {f : List Handle → List Edit}
    (hrun : keys ≠ [] → ∃ leaves, x.locate keys = .ok leaves ∧
      ∀ p q, (e.run p x.tree (f leaves)).outline =
        (e.run q x.tree (f leaves)).outline) :
    (x.climb e keys f).map (·.1.tree) = (y.climb e keys f).map (·.1.tree) := by
  by_cases hne : keys = []
  · rw [hne, climb_nil, climb_nil]
    exact congrArg Except.ok ht
  · obtain ⟨leaves, hx, hout⟩ := hrun hne
    have hnil (heq : keys = []) : f leaves = [] := absurd heq hne
    have hy := (locate_eq_of_tree ht keys).symm.trans hx
    have hend := congrArg Course.ending (hout x.pool y.pool)
    have hend : (e.run x.pool x.tree (f leaves)).ending =
        (e.run y.pool y.tree (f leaves)).ending := ht ▸ hend
    cases hr : (e.run x.pool x.tree (f leaves)).ending with
    | ok tree =>
        obtain ⟨events, hx'⟩ := climb_eq_ok hnil hx hr
        obtain ⟨events', hy'⟩ := climb_eq_ok hnil hy (hend.symm.trans hr)
        rw [hx', hy']
        rfl
    | error fault =>
        rw [climb_eq_error hnil hx hr,
          climb_eq_error hnil hy (hend.symm.trans hr)]

theorem insert_tree_eq (h : x.Reachable) (batch : List Pair) :
    (x.insert batch).map (·.1.tree) = (y.insert batch).map (·.1.tree) := by
  by_cases hb : minKey ∈ batch.map (·.key)
  · rw [insert_eq_error hb, insert_eq_error hb]
  · rw [insert_eq x hb, insert_eq y hb]
    refine climb_tree_eq ht fun hne => ?_
    have hbatch : batch ≠ [] := by
      rintro rfl
      exact hne (by simp [normalForm, keepLast])
    obtain ⟨leaves, hlocate, hfree⟩ := h.insert_orderFree hbatch hb
    exact ⟨leaves, hlocate, hfree.pools⟩

theorem remove_tree_eq (h : x.Reachable) (keys : List Key) :
    (x.remove keys).map (·.1.tree) = (y.remove keys).map (·.1.tree) := by
  by_cases hk : minKey ∈ keys
  · rw [remove_eq_error hk, remove_eq_error hk]
  · rw [remove_eq x hk, remove_eq y hk]
    refine climb_tree_eq ht fun hne => ?_
    have hkeys : keys ≠ [] := by
      rintro rfl
      exact hne (by simp [sortedKeys, sortedKeys.dedup])
    obtain ⟨leaves, hlocate, hfree⟩ := h.remove_orderFree hkeys hk
    exact ⟨leaves, hlocate, hfree.pools⟩

omit ht in
theorem seen_change {β : Type} {q r : Except Failure (Index × β)}
    (h : q.map (·.1.tree) = r.map (·.1.tree)) (a : Answer) :
    seen (q >>= fun z => .ok (z.1, a)) = seen (r >>= fun z => .ok (z.1, a)) := by
  cases q <;> cases r
  case error.error f g =>
    cases h
    rfl
  case ok.ok u v =>
    exact congrArg (fun t => Except.ok (t, a)) (Except.ok.inj h)
  all_goals cases h

theorem seen_question {α : Type} {q r : Except Fault α} (h : q = r)
    (f : α → Answer) :
    seen (q.mapError Failure.fatal >>= fun a => .ok (x, f a)) =
      seen (r.mapError Failure.fatal >>= fun a => .ok (y, f a)) := by
  subst h
  cases q with
  | ok a => exact congrArg (fun t => Except.ok (t, f a)) ht
  | error fault => rfl

theorem seen_applyKind (h : x.Reachable) (kind : Operation.Kind)
    (ops : List Operation) :
    seen (x.applyKind kind ops >>= fun z => .ok (z.1, .outcome z.2.1)) =
      seen (y.applyKind kind ops >>= fun z => .ok (z.1, .outcome z.2.1)) := by
  cases kind <;> rw [applyKind, applyKind, bind_assoc, bind_assoc]
  case get =>
    exact seen_question ht (get_eq_of_tree ht _) fun vs => .outcome (.values vs)
  case predecessor =>
    exact seen_question ht (predecessor_eq_of_tree ht _)
      fun ps => .outcome (.predecessors ps)
  case remove => exact seen_change (remove_tree_eq ht h _) (.outcome .applied)
  all_goals exact seen_change (insert_tree_eq ht h _) (.outcome .applied)

theorem seen_apply (h : x.Reachable) (ops : List Operation) :
    seen (x.call (.apply ops)) = seen (y.call (.apply ops)) := by
  show seen (x.apply ops >>= fun z => .ok (z.1, .outcome z.2.1)) =
    seen (y.apply ops >>= fun z => .ok (z.1, .outcome z.2.1))
  cases ops with
  | nil => exact congrArg (fun t => Except.ok (t, Answer.outcome .applied)) ht
  | cons first rest =>
      rw [apply, apply]
      split
      · rfl
      · exact seen_applyKind ht h _ _

/-- **One call.** -/
theorem seen_call (h : x.Reachable) (c : Call) :
    seen (x.call c) = seen (y.call c) := by
  cases c with
  | insert batch => exact seen_change (insert_tree_eq ht h batch) .done
  | remove keys => exact seen_change (remove_tree_eq ht h keys) .done
  | apply ops => exact seen_apply ht h ops
  | get keys => exact seen_question ht (get_eq_of_tree ht keys) .values
  | predecessor keys =>
      exact seen_question ht (predecessor_eq_of_tree ht keys) .pairs
  | containsKey key =>
      refine seen_question ht ?_ .flag
      rw [containsKey, containsKey, get_eq_of_tree ht]
  | length => exact seen_question ht (congrArg Tree.length ht) .count
  | isEmpty => exact seen_question ht (congrArg Tree.isEmpty ht) .flag
  | items => exact seen_question ht (congrArg Tree.items ht) .pairs

theorem next_tree_eq (h : x.Reachable) (c : Call) :
    (x.next c).tree = (y.next c).tree := by
  have hseen := seen_call ht h c
  unfold next
  cases hx : x.call c <;> cases hy : y.call c <;> rw [hx, hy] at hseen
  case error.error f g => exact ht
  case ok.ok u v => exact congrArg Prod.fst (Except.ok.inj hseen)
  all_goals cases hseen

/-- **Histories.** -/
theorem agree_of_tree (h : x.Reachable) (calls : List Call) :
    x.answers calls = y.answers calls ∧
      (x.after calls).tree = (y.after calls).tree := by
  induction calls generalizing x y with
  | nil => exact ⟨rfl, ht⟩
  | cons c calls ih =>
      have hnext := next_tree_eq ht h c
      obtain ⟨hanswers, htree⟩ := ih hnext (h.after [c])
      have hanswer := congrArg (Except.map (·.2)) (seen_call ht h c)
      rw [map_snd_seen, map_snd_seen] at hanswer
      exact ⟨by rw [answers, answers, hanswers, hanswer], htree⟩

end SameTree

/-- **Workers leave no trace.** Of two configurations with equally many slots,
whatever workers and serial heights they name, the indexes answer every history
alike and end in the same tree. Whatever batch comes next, its runs may be
carried out in any order at every level: a removal comes to the same tree and
gathers the same edits, an insert does so up to a renaming of the slots taken at
the level, and both settle alike. -/
theorem workers_leave_no_trace {config config' : Config} {x y : Index}
    {events events' : List Event} (hx : ofConfig config = .ok (x, events))
    (hy : ofConfig config' = .ok (y, events'))
    (hcap : config.storeCapacity = config'.storeCapacity) (calls : List Call) :
    let z := x.after calls
    x.answers calls = y.answers calls ∧ z.tree = (y.after calls).tree ∧
    (∀ keys, keys ≠ [] → minKey ∉ keys →
      ∃ leaves, z.locate (sortedKeys keys) = .ok leaves ∧
        Remove.engine.OrderFree Remove.rewrite z.tree
          ((sortedKeys keys).zipWith Edit.remove leaves) Remove.Same Eq) ∧
    ∀ batch, batch ≠ [] → minKey ∉ batch.map (·.key) →
      ∃ leaves, z.locate ((normalForm batch).map (·.key)) = .ok leaves ∧
        Insert.engine.OrderFree Insert.rewrite z.tree
          (insertEdits (normalForm batch) leaves) Insert.Same
          (Insert.SameEnd z.tree) := by
  have htree : x.tree = y.tree := by
    obtain ⟨hc, -, hx⟩ := ofConfig_eq_ok hx
    obtain ⟨hc', -, hy⟩ := ofConfig_eq_ok hy
    simp only [hx, hy, hcap]
  have hr := (Reachable.new hx).after calls
  obtain ⟨hanswers, hafter⟩ := agree_of_tree htree (.new hx) calls
  exact ⟨hanswers, hafter, fun keys hne hk => hr.remove_orderFree hne hk,
    fun batch hne hb => hr.insert_orderFree hne hb⟩

/-- Two leaves, which get a pair each from one worker or from four. -/
theorem workers_leave_no_trace_two_leaves :
    ∃ x y ex ey,
      ofConfig { storeCapacity := 8 } = .ok (x, ex) ∧
      ofConfig { storeCapacity := 8, workers := 4, serialHeight := 9 } =
        .ok (y, ey) ∧
      x.pool.workers ≠ y.pool.workers ∧
      (x.after (oneByOne 17)).tree.levelSizes.toOption = some [2, 1] ∧
      x.answers (oneByOne 17) = y.answers (oneByOne 17) ∧
      (x.after (oneByOne 17)).tree = (y.after (oneByOne 17)).tree ∧
      ∃ leaves, (x.after (oneByOne 17)).locate
          ((normalForm [⟨20, 1⟩, ⟨2, 1⟩]).map (·.key)) = .ok leaves ∧
        Insert.engine.OrderFree Insert.rewrite (x.after (oneByOne 17)).tree
          (insertEdits (normalForm [⟨20, 1⟩, ⟨2, 1⟩]) leaves) Insert.Same
          (Insert.SameEnd (x.after (oneByOne 17)).tree) := by
  let config : Config := { storeCapacity := 8 }
  let config' : Config :=
    { storeCapacity := 8, workers := 4, serialHeight := 9 }
  obtain ⟨x, ex, hx⟩ := exists_ofConfig
    (show config.Valid from ⟨by decide, by decide, by decide, by decide⟩)
  obtain ⟨y, ey, hy⟩ := exists_ofConfig
    (show config'.Valid from ⟨by decide, by decide, by decide, by decide⟩)
  obtain ⟨-, hxc, -⟩ := ofConfig_eq_ok hx
  obtain ⟨-, hyc, -⟩ := ofConfig_eq_ok hy
  have hsizes : observe config (oneByOne 17)
      (·.tree.levelSizes.toOption) = some (some [2, 1]) := by decide +kernel
  rw [observe, hx] at hsizes
  obtain ⟨hanswers, htree, -, hinsert⟩ :=
    workers_leave_no_trace hx hy rfl (oneByOne 17)
  refine ⟨x, y, ex, ey, hx, hy, ?_, Option.some.inj hsizes, hanswers, htree,
    hinsert _ (by decide) (by decide)⟩
  rw [pool, pool, hxc, hyc]
  decide

end Index

end LevelIndex
