import LevelIndex.Proofs.Store.View
import LevelIndex.Proofs.Yields
import LevelIndex.Tree.Search

/-!
# Stores of different sizes

Two stores that hold the same nodes are twins; they may have different numbers
of slots. Reading tells them no different, and so do writes. Only where a slot
has to be allocated does it count how many there are: what works on one twin
works on the other, or that one is `Short` of slots.

There is a lemma for each operation of a store, and for the trees over it. All
of them start from what the operation has come to in the one store and say what
it comes to in the other, so they can be put together in the order of the
engine.
-/

namespace LevelIndex

namespace Store

/-- The stores hold the same nodes, and the first has `c` slots. -/
structure Twin (c : Nat) (s u : Store) : Prop where
  nodes_eq : s.nodes = u.nodes
  capacity_eq : s.capacity = c

namespace Twin

variable {c : Nat} {s u u' : Store} {h k : Handle} {n : Node}

theorem refl (s : Store) : Twin s.capacity s s := ⟨rfl, rfl⟩

theorem allocated_eq (w : Twin c s u) : s.allocated = u.allocated := by
  rw [allocated, allocated, w.nodes_eq]

theorem get?_eq (w : Twin c s u) (h : Handle) : s.get? h = u.get? h := by
  cases h with
  | null => rfl
  | slot i => rw [get?, get?, w.nodes_eq]

theorem contains_eq (w : Twin c s u) (h : Handle) :
    s.contains h = u.contains h := by
  cases h with
  | null => rfl
  | slot i => rw [contains, contains, w.allocated_eq]

theorem fetch_eq (w : Twin c s u) (h : Handle) : s.fetch h = u.fetch h := by
  rw [fetch, fetch, w.get?_eq, w.allocated_eq]

theorem read_eq (w : Twin c s u) (h : Handle) : s.read h = u.read h := by
  rw [read, read, w.fetch_eq]

theorem replace (w : Twin c s u) (hr : u.replace h n = .ok u') :
    u'.allocated = u.allocated ∧ ∃ s', s.replace h n = .ok s' ∧
      Twin c s' u' := by
  obtain ⟨s', hs⟩ :=
    replace_isOk_iff.mpr
    ((w.contains_eq h).trans (replace_isOk_iff.mp ⟨u', hr⟩))
  obtain ⟨i, hi, -, hn, hc⟩ := replace_eq_ok hs
  obtain ⟨j, hj, -, hm, -⟩ := replace_eq_ok hr
  obtain rfl : i = j := Handle.slot.inj (hi.symm.trans hj)
  exact ⟨allocated_of_replace hr, s', hs, by rw [hn, hm, w.nodes_eq],
    hc.trans w.capacity_eq⟩

theorem write (w : Twin c s u) (hw : u.write h n = .ok u') :
    u'.allocated = u.allocated ∧ ∃ s', s.write h n = .ok s' ∧ Twin c s' u' := by
  obtain ⟨hasc, hr⟩ := write_eq_ok_iff.mp hw
  obtain ⟨hall, s', hs, w'⟩ := w.replace hr
  exact ⟨hall, s', write_eq_ok_iff.mpr ⟨hasc, hs⟩, w'⟩

theorem adopt (p : Handle) : ∀ {cs : List Handle} {s u : Store}, Twin c s u →
    u.adopt p cs = .ok u' →
    u'.allocated = u.allocated ∧ ∃ s', s.adopt p cs = .ok s' ∧ Twin c s' u'
  | [], s, u, w, ha => by
      cases ha
      exact ⟨rfl, s, rfl, w⟩
  | k :: cs, s, u, w, ha => by
      rw [adopt_cons] at ha
      obtain ⟨u₁, hp, hrest⟩ := bind_eq_ok.mp ha
      obtain ⟨m, hm, hr⟩ := setParent_eq_ok hp
      obtain ⟨hall, s₁, hs, w₁⟩ := w.replace hr
      obtain ⟨hall', s', hs', w'⟩ := adopt p w₁ hrest
      refine ⟨hall'.trans hall, s', ?_, w'⟩
      have hset : s.setParent k p = .ok s₁ := by
        rw [setParent, fetch_eq_ok_iff.mpr ((w.get?_eq k).trans hm)]
        exact hs
      rw [adopt_cons, hset]
      exact hs'

theorem commit (w : Twin c s u) (hc : u.commit h n = .ok u') :
    u'.allocated = u.allocated ∧ ∃ s', s.commit h n = .ok s' ∧
      Twin c s' u' := by
  obtain ⟨u₁, hw, ha⟩ := bind_eq_ok.mp hc
  obtain ⟨hall, s₁, hs, w₁⟩ := w.write hw
  obtain ⟨hall', s', hs', w'⟩ := w₁.adopt h ha
  exact ⟨hall'.trans hall, s', bind_eq_ok.mpr ⟨s₁, hs, hs'⟩, w'⟩

theorem allocate (w : Twin c s u) (ha : u.allocate = .ok (h, u')) :
    u'.allocated = u.allocated + 1 ∧
      Yields (Short c u'.allocated) s.allocate fun r => r.1 = h ∧
        Twin c r.2 u' := by
  have hall := allocated_of_allocate ha
  obtain ⟨rfl, hn, -⟩ := allocate_eq_ok ha
  refine ⟨hall, ?_⟩
  have hindex : ∃ handle, Handle.ofIndex? u.nodes.size = some handle := by
    unfold allocate at ha
    split at ha
    · split at ha
      · next handle hh => exact ⟨handle, hh⟩
      · cases ha
    · cases ha
  obtain ⟨handle, hh⟩ := hindex
  rw [← w.nodes_eq] at hh
  by_cases hroom : s.nodes.size < s.capacity
  · have hs : ∃ s', s.allocate = .ok (handle, s') := by
      refine ⟨{ s with nodes := s.nodes.push .blank, size_le := ?_ }, ?_⟩
      · rw [Array.size_push]
        exact hroom
      · rw [Store.allocate, dif_pos hroom, hh]
    obtain ⟨s', hs⟩ := hs
    obtain ⟨hslot, hn', hc⟩ := allocate_eq_ok hs
    rw [hs]
    exact ⟨by rw [hslot, w.allocated_eq], by rw [hn', hn, w.nodes_eq],
      hc.trans w.capacity_eq⟩
  · have hfull : s.allocate = .error (.storeFull s.capacity) := by
      rw [Store.allocate, dif_neg hroom]
    rw [hfull]
    refine ⟨by rw [w.capacity_eq], ?_⟩
    have hsize : u.allocated = s.nodes.size := w.allocated_eq.symm
    have hcap := w.capacity_eq
    omega

end Twin

end Store

namespace Tree

/-- The trees have the same root over the same nodes, and the store of the
first has `c` slots. -/
structure Twin (c : Nat) (t u : Tree) : Prop where
  root_eq : t.root = u.root
  store : Store.Twin c t.store u.store

namespace Twin

variable {c : Nat} {t u u' : Tree} {h : Handle} {n : Node}

theorem refl (t : Tree) : Twin t.store.capacity t t := ⟨rfl, .refl t.store⟩

theorem height_eq (w : Twin c t u) : t.height = u.height := by
  rw [height, height, w.root_eq, w.store.read_eq]

theorem descend_eq (w : Twin c t u) (key : Key) (steps : Nat) (h : Handle) :
    t.descend key steps h = u.descend key steps h := by
  induction steps generalizing h with
  | zero => rfl
  | succ steps ih =>
      rw [descend, descend, w.store.read_eq]
      refine bind_congr ?_
      intro n
      cases n.predecessorSlot? key with
      | none => rfl
      | some slot =>
          dsimp only
          split
          · rfl
          · split
            · exact ih _
            · rfl

theorem search_eq (w : Twin c t u) (key : Key) :
    t.search key = u.search key := by
  rw [search, search, w.store.allocated_eq, w.root_eq, w.descend_eq]

theorem commit (w : Twin c t u) (hc : u.commit h n = .ok u') :
    u'.store.allocated = u.store.allocated ∧ ∃ t', t.commit h n = .ok t' ∧
      Twin c t' u' := by
  obtain ⟨s, hs, hu⟩ := bind_eq_ok.mp hc
  cases hu
  obtain ⟨hall, s', hs', w'⟩ := w.store.commit hs
  exact ⟨hall, ⟨s', t.root⟩, bind_eq_ok.mpr ⟨s', hs', rfl⟩, w.root_eq, w'⟩

end Twin

end Tree

end LevelIndex
