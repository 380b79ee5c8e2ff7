import LevelIndex.Store.Basic

/-!
# What the store operations do

A store is seen through `get?`. Each operation is given by what it does to
that view: `allocate` adds a blank node under a handle that had none, `write`
and the link updates change the one node they are aimed at, and no operation
that succeeds touches another. The number of slots in use only `allocate`
changes.
-/

namespace LevelIndex

namespace Store

variable {s s' : Store} {h k : Handle} {n m : Node}

/-! ## Looking -/

@[simp] theorem get?_null : s.get? .null = none := rfl

@[simp] theorem get?_ofCapacity (c : Nat) : (ofCapacity c).get? h = none := by
  cases h <;> simp [get?, ofCapacity]

@[simp] theorem allocated_ofCapacity (c : Nat) : (ofCapacity c).allocated = 0 := rfl

theorem allocated_le (s : Store) : s.allocated ≤ s.capacity := s.size_le

theorem contains_iff : s.contains h = true ↔ ∃ n, s.get? h = some n := by
  cases h with
  | null => simp [contains]
  | slot i =>
    rw [contains, decide_eq_true_iff]
    exact ⟨fun hi => ⟨s.nodes[i], Array.getElem?_eq_getElem hi⟩,
      fun ⟨_, hn⟩ => (Array.getElem?_eq_some_iff.mp hn).1⟩

theorem fetch_eq_ok_iff : s.fetch h = .ok n ↔ s.get? h = some n := by
  unfold fetch
  split <;> simp_all

theorem read_eq_ok_iff : s.read h = .ok n ↔ s.get? h = some n ∧ Ascending n.keys := by
  unfold read
  cases hf : s.fetch h with
  | error f =>
    have : s.get? h ≠ some n := fun hg => by rw [fetch_eq_ok_iff.mpr hg] at hf; cases hf
    simp [bind, Except.bind, this]
  | ok m =>
    rw [fetch_eq_ok_iff] at hf
    cases hc : m.checkOrder .read h with
    | error f =>
      simp only [bind, Except.bind, hc, hf, reduceCtorEq, Option.some.injEq, false_iff, not_and]
      rintro rfl ha
      rw [Node.checkOrder_eq_ok_iff.mpr ha] at hc
      cases hc
    | ok u =>
      rw [Node.checkOrder_eq_ok_iff] at hc
      simp only [bind, Except.bind, Node.checkOrder_eq_ok_iff.mpr hc, pure, Except.pure,
        Except.ok.injEq, hf, Option.some.injEq]
      constructor
      · rintro rfl
        exact ⟨rfl, hc⟩
      · exact fun h => h.1

/-! ## Handing out slots -/

theorem allocate_eq_ok (ha : s.allocate = .ok (h, s')) :
    h = .slot s.allocated ∧ s'.nodes = s.nodes.push .blank ∧ s'.capacity = s.capacity := by
  unfold allocate at ha
  split at ha
  · split at ha
    · next hi =>
      obtain ⟨-, rfl⟩ := Handle.ofIndex?_eq_some_iff.mp hi
      cases ha
      exact ⟨rfl, rfl, rfl⟩
    · cases ha
  · cases ha

theorem allocated_of_allocate (ha : s.allocate = .ok (h, s')) :
    s'.allocated = s.allocated + 1 := by
  simp [allocated, (allocate_eq_ok ha).2.1]

theorem get?_allocate_self (ha : s.allocate = .ok (h, s')) : s'.get? h = some .blank := by
  obtain ⟨rfl, hn, -⟩ := allocate_eq_ok ha
  simp [get?, allocated, hn]

/-- The slot handed out was not in use. -/
theorem get?_of_allocate (ha : s.allocate = .ok (h, s')) : s.get? h = none := by
  obtain ⟨rfl, -, -⟩ := allocate_eq_ok ha
  simp [get?, allocated]

theorem get?_allocate_of_ne (ha : s.allocate = .ok (h, s')) (hk : k ≠ h) :
    s'.get? k = s.get? k := by
  obtain ⟨rfl, hn, -⟩ := allocate_eq_ok ha
  cases k with
  | null => rfl
  | slot i =>
    have : i ≠ s.nodes.size := fun hi => hk (by rw [hi]; rfl)
    simp only [get?, hn, Array.getElem?_push, this, if_false]

/-! ## Replacing a node -/

theorem replace_eq_ok (hr : s.replace h n = .ok s') :
    ∃ i, h = .slot i ∧ i < s.allocated ∧ s'.nodes = s.nodes.setIfInBounds i n ∧
      s'.capacity = s.capacity := by
  unfold replace at hr
  split at hr
  · cases hr
  · next i =>
    split at hr
    · next hi =>
      cases hr
      exact ⟨i, rfl, hi, by simp [Array.setIfInBounds, hi], rfl⟩
    · cases hr

theorem get?_replace_self (hr : s.replace h n = .ok s') : s'.get? h = some n := by
  obtain ⟨i, rfl, hi, hn, -⟩ := replace_eq_ok hr
  have : i < s.nodes.size := hi
  simp [get?, hn, this]

theorem get?_replace_of_ne (hr : s.replace h n = .ok s') (hk : k ≠ h) :
    s'.get? k = s.get? k := by
  obtain ⟨i, rfl, hi, hn, -⟩ := replace_eq_ok hr
  cases k with
  | null => rfl
  | slot j =>
    have : i ≠ j := fun hij => hk (by rw [hij])
    simp [get?, hn, this]

theorem allocated_of_replace (hr : s.replace h n = .ok s') : s'.allocated = s.allocated := by
  obtain ⟨i, -, -, hn, -⟩ := replace_eq_ok hr
  simp [allocated, hn]

/-- A node can be replaced exactly where there is one. -/
theorem replace_isOk_iff : (∃ s', s.replace h n = .ok s') ↔ s.contains h = true := by
  cases h with
  | null => simp [replace, contains]
  | slot i =>
    by_cases hi : i < s.nodes.size <;> simp [replace, contains, allocated, hi]

/-! ## Writing, and setting links -/

theorem write_eq_ok_iff :
    s.write h n = .ok s' ↔ Ascending n.keys ∧ s.replace h n = .ok s' := by
  unfold write
  cases hc : n.checkOrder .write h with
  | error f =>
    simp only [bind, Except.bind, reduceCtorEq, false_iff, not_and]
    intro ha
    rw [Node.checkOrder_eq_ok_iff.mpr ha] at hc
    cases hc
  | ok u =>
    rw [Node.checkOrder_eq_ok_iff] at hc
    simp [bind, Except.bind, hc]

theorem get?_write_self (hw : s.write h n = .ok s') : s'.get? h = some n :=
  get?_replace_self (write_eq_ok_iff.mp hw).2

theorem get?_write_of_ne (hw : s.write h n = .ok s') (hk : k ≠ h) : s'.get? k = s.get? k :=
  get?_replace_of_ne (write_eq_ok_iff.mp hw).2 hk

theorem allocated_of_write (hw : s.write h n = .ok s') : s'.allocated = s.allocated :=
  allocated_of_replace (write_eq_ok_iff.mp hw).2

theorem setParent_eq_ok {p : Handle} (hs : s.setParent h p = .ok s') :
    ∃ n, s.get? h = some n ∧ s.replace h { n with parent := p } = .ok s' := by
  unfold setParent at hs
  cases hf : s.fetch h with
  | error f => rw [hf] at hs; cases hs
  | ok n =>
    rw [hf] at hs
    exact ⟨n, fetch_eq_ok_iff.mp hf, hs⟩

theorem setRight_eq_ok {r : Handle} (hs : s.setRight h r = .ok s') :
    ∃ n, s.get? h = some n ∧ s.replace h { n with right := r } = .ok s' := by
  unfold setRight at hs
  cases hf : s.fetch h with
  | error f => rw [hf] at hs; cases hs
  | ok n =>
    rw [hf] at hs
    exact ⟨n, fetch_eq_ok_iff.mp hf, hs⟩

theorem get?_setParent_self {p : Handle} (hs : s.setParent h p = .ok s') :
    s'.get? h = (s.get? h).map fun n => { n with parent := p } := by
  obtain ⟨n, hn, hr⟩ := setParent_eq_ok hs
  rw [get?_replace_self hr, hn]
  rfl

theorem get?_setParent_of_ne {p : Handle} (hs : s.setParent h p = .ok s') (hk : k ≠ h) :
    s'.get? k = s.get? k := by
  obtain ⟨n, -, hr⟩ := setParent_eq_ok hs
  exact get?_replace_of_ne hr hk

theorem get?_setRight_self {r : Handle} (hs : s.setRight h r = .ok s') :
    s'.get? h = (s.get? h).map fun n => { n with right := r } := by
  obtain ⟨n, hn, hr⟩ := setRight_eq_ok hs
  rw [get?_replace_self hr, hn]
  rfl

theorem get?_setRight_of_ne {r : Handle} (hs : s.setRight h r = .ok s') (hk : k ≠ h) :
    s'.get? k = s.get? k := by
  obtain ⟨n, -, hr⟩ := setRight_eq_ok hs
  exact get?_replace_of_ne hr hk

@[simp] theorem adopt_nil {p : Handle} : s.adopt p [] = .ok s := rfl

theorem adopt_cons {p : Handle} {c : Handle} {cs : List Handle} :
    s.adopt p (c :: cs) = (s.setParent c p).bind fun s => s.adopt p cs := by
  simp [adopt, List.foldlM_cons, bind]

end Store

end LevelIndex
