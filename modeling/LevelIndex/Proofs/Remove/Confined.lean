import LevelIndex.Proofs.Remove.Climb

/-!
# How far a removal reaches

Rewriting a level writes the nodes that edits are aimed at, and compaction puts
nodes together with their right neighbours. A node that is half full needs none,
so one that no edit is aimed at is taken in only if the node before it has lost
cells. On the leaves that is settled by the keys of the batch; higher up leaves
are not written any more, because the levels write to their own nodes and to the
parents of those below (`Spares.pass`). So a leaf stays, with its cells, if the
batch has no key for it and none for the leaf before it (`Falling.run_spares`).
-/

namespace LevelIndex

namespace Remove

/-- What a removal that has come to the level `gap` has left alone in the tree
`t`: the orphans, and the leaves that the edits of the batch leave aside. -/
structure Spares (t : Tree) (row : Nat → List Handle) (height : Nat)
    (aside : Handle → Prop) (gap : Nat) (t' : Tree)
    (row' : Nat → List Handle) (edits : List Edit) : Prop where
  orphans : t.KeepsOrphans row height t'
  mem : ∀ p, aside p → p ∈ row' 0
  cells : ∀ p, aside p → (t'.store.node p).cells = (t.store.node p).cells
  aside : gap = 0 → ∀ p, aside p → Aside (row' 0) edits p

section Run

variable {t t' : Tree} {row row' : Nat → List Handle} {height gap : Nat}
  {items : List Pair} {aside : Handle → Prop} {edits : List Edit}

theorem Spares.pass (sp : Spares t row height aside gap t' row' edits)
    (r : Falling t' row' height gap items edits) (hthin : t.Thins row t' row')
    {t'' : Tree} {new : List Handle} (staged : List Edit)
    (hf : Store.Frame t'.store t''.store (row' gap) (Store.beneath row' gap))
    (hkept : ∀ p, Aside (row' gap) edits p → p ∈ new ∧
      (t''.store.node p).cells = (t'.store.node p).cells) :
    Spares t row height aside (gap + 1) t'' (Function.update row' gap new)
      staged where
  orphans := by
    refine sp.orphans.frame (Nat.le_of_eq hthin.allocated_eq.symm) hf
      fun p _ hp => ?_
    have hoff : ∀ {k : Nat}, k ≤ height → p ∉ row' k :=
      fun hk hm => hp _ hk (hthin.subset _ hm)
    refine ⟨hoff r.within, fun hm => ?_⟩
    have hg := r.within
    cases gap with
    | zero => cases hm
    | succ j => exact hoff (by omega) hm
  mem p hp := by
    cases gap with
    | zero =>
        rw [Function.update_self]
        exact (hkept p (sp.aside rfl p hp)).1
    | succ j =>
        rw [Function.update_of_ne (Nat.succ_ne_zero j).symm]
        exact sp.mem p hp
  cells p hp := by
    rw [← sp.cells p hp]
    cases gap with
    | zero => exact (hkept p (sp.aside rfl p hp)).2
    | succ j =>
        have hmem := sp.mem p hp
        exact hf.cells ((r.level 0 (Nat.zero_le _)).live p hmem)
          (r.not_mem_of_ne (Nat.zero_le _) r.within (by omega) hmem)
  aside h := absurd h (Nat.succ_ne_zero gap)

/-- **A whole batch.** A leaf for which the batch has no key, and none for the
leaf before it, stays with its cells, and an orphan keeps everything. -/
theorem Falling.run_spares (r : Falling t row height 0 items edits)
    {pool : Pool} (h : (engine.run pool t edits).ending = .ok t') :
    ∃ row', t'.Intact row' height items ∧ t.KeepsOrphans row height t' ∧
      ∀ p, Aside (row 0) edits p → p ∈ row' 0 ∧
        (t'.store.node p).cells = (t.store.node p).cells := by
  have hlevels := (r.run_spec pool).2
  have hfirst : if edits = [] then t.Intact row height items
      else Falling t row height 0 items edits := by
    split
    · next hnil => exact (hnil ▸ r).intact
    · exact r
  have hstart : Spares t row height (Aside (row 0) edits) 0 t row edits :=
    ⟨fun _ _ _ => rfl, fun _ ha => ha.mem, fun _ _ => rfl, fun _ _ ha => ha⟩
  obtain ⟨gap, row', -, i, sp⟩ := Engine.run_keeps
    (P := fun gap t' edits' => ∃ row', t.Thins row t' row' ∧
      (if edits' = [] then t'.Intact row' height items
        else Falling t' row' height gap items edits') ∧
      Spares t row height (Aside (row 0) edits) gap t' row' edits')
    ⟨row, .refl t row, hfirst, hstart⟩
    (fun l hl hne ⟨row', hthin, r', sp⟩ => by
      rw [if_neg hne] at r'
      obtain ⟨step, new, hpass, hthin', -, hnext, hend, htop, hf, hkept⟩ :=
        r'.pass_spec
      obtain rfl : step = l.compacted :=
        Except.ok.inj (hpass.symm.trans (hlevels l hl).2)
      refine ⟨_, hthin.trans hthin', ?_, sp.pass r' hthin _ hf hkept⟩
      split
      · next hstaged => exact hend hstaged
      · next hstaged =>
          refine hnext (Nat.lt_of_le_of_ne r'.within fun hg => ?_)
          exact hstaged (htop hg)) h
  rw [if_pos rfl] at i
  exact ⟨row', i, sp.orphans, fun p ha => ⟨sp.mem p ha, sp.cells p ha⟩⟩

end Run

end Remove

end LevelIndex
