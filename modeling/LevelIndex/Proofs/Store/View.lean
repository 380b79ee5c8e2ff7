import LevelIndex.Proofs.Cells
import LevelIndex.Store.Lemmas

/-!
# The store as a map of nodes

`Store.node` reads a store as a total map from handles to nodes; a handle that
addresses no slot stands for a blank node. Each operation that succeeds is an
update of that map, and each succeeds on every handle in use, a node in key
order provided: `allocate` alone may fail, when the store is full.

A batch rewrites the nodes of one level and makes them the owners of nodes of
the level below. `Frame s s' written adopted` is what such work leaves alone:
off the handles written a node keeps everything but perhaps its parent, and off
the handles adopted it keeps its parent. Frames compose (`Frame.trans`), and a
slot that was handed out on the way need not be listed (`Frame.restrict`), since
a frame speaks of the slots that were in use before.

`Taken s s' fresh` counts the slots handed out. They are told by number only:
`fresh` may list them in any order.
-/

namespace LevelIndex

/-- All of a node but who owns it. -/
def Node.body (n : Node) : Node := { n with parent := .null }

theorem Node.cells_eq_of_body_eq {n m : Node} (h : n.body = m.body) :
    n.cells = m.cells :=
  show n.body.cells = m.body.cells by rw [h]

theorem Node.right_eq_of_body_eq {n m : Node} (h : n.body = m.body) :
    n.right = m.right :=
  show n.body.right = m.body.right by rw [h]

theorem Node.height_eq_of_body_eq {n m : Node} (h : n.body = m.body) :
    n.height = m.height :=
  show n.body.height = m.body.height by rw [h]

theorem Node.eq_of_body_eq {n m : Node} (h : n.body = m.body)
    (hp : n.parent = m.parent) : n = m := by
  cases n
  cases m
  simp_all [Node.body]

theorem Node.eq_of_fields_eq {n m : Node} (hheight : n.height = m.height)
    (hparent : n.parent = m.parent) (hright : n.right = m.right)
    (hcells : n.cells = m.cells) : n = m := by
  cases n
  cases m
  simp_all

theorem Node.firstKey_eq_of_cells_eq {n m : Node} (h : n.cells = m.cells) :
    n.firstKey = m.firstKey := by
  simp [Node.firstKey, Node.keys, h]

theorem Node.ascending_keys {n : Node} :
    Ascending n.keys ↔ Increasing n.cells :=
  ascending_map_key

namespace Store

variable {s s' s'' : Store} {h k p : Handle} {n : Node}

/-- The node under a handle. -/
def node (s : Store) (h : Handle) : Node := (s.get? h).getD .blank

theorem get?_eq_some_node (hc : s.contains h = true) :
    s.get? h = some (s.node h) := by
  obtain ⟨n, hn⟩ := contains_iff.mp hc
  simp [node, hn]

theorem node_eq_of_get? (hn : s.get? h = some n) : s.node h = n := by
  simp [node, hn]

theorem ne_null_of_contains (hc : s.contains h = true) : h ≠ .null := by
  rintro rfl
  cases hc

theorem contains_of_allocated_le (ha : s.allocated ≤ s'.allocated)
    (hc : s.contains h = true) : s'.contains h = true := by
  cases h with
  | null => exact hc
  | slot i =>
      simp only [contains, decide_eq_true_eq] at hc ⊢
      omega

theorem contains_eq_of_allocated_eq (ha : s'.allocated = s.allocated) :
    s'.contains h = s.contains h := by
  cases h <;> simp [contains, ha]

theorem read_eq_ok (hc : s.contains h = true)
    (ha : Increasing (s.node h).cells) : s.read h = .ok (s.node h) :=
  read_eq_ok_iff.mpr ⟨get?_eq_some_node hc, Node.ascending_keys.mpr ha⟩

theorem eq_of_node_eq (hcap : s'.capacity = s.capacity)
    (hall : s'.allocated = s.allocated) (hnode : ∀ k, s'.node k = s.node k) :
    s' = s := by
  have hnodes : s'.nodes = s.nodes := by
    refine Array.ext hall fun i hi hi' => ?_
    have h := hnode (.slot i)
    simpa [node, get?, hi, hi'] using h
  cases s
  cases s'
  simp_all

/-! ## Each operation as an update

For each operation, when it goes through, and which update of the map of nodes
it is. The fields of the store that are no nodes are told along with it. -/

theorem node_of_replace (hr : s.replace h n = .ok s') (k : Handle) :
    s'.node k = if k = h then n else s.node k := by
  split
  · next hk => exact node_eq_of_get? (hk ▸ get?_replace_self hr)
  · next hk => simp [node, get?_replace_of_ne hr hk]

theorem capacity_of_replace (hr : s.replace h n = .ok s') :
    s'.capacity = s.capacity := by
  obtain ⟨i, -, -, -, hc⟩ := replace_eq_ok hr
  exact hc

/-- A write to a slot in use changes that node and nothing else. -/
theorem exists_write (hc : s.contains h = true) (ha : Increasing n.cells) :
    ∃ s', s.write h n = .ok s' ∧ s'.capacity = s.capacity ∧
      s'.allocated = s.allocated ∧
      ∀ k, s'.node k = if k = h then n else s.node k := by
  obtain ⟨s', hr⟩ := replace_isOk_iff (n := n).mpr hc
  exact ⟨s', write_eq_ok_iff.mpr ⟨Node.ascending_keys.mpr ha, hr⟩,
    capacity_of_replace hr, allocated_of_replace hr, node_of_replace hr⟩

theorem exists_setParent (hc : s.contains h = true) (p : Handle) :
    ∃ s', s.setParent h p = .ok s' ∧ s'.capacity = s.capacity ∧
      s'.allocated = s.allocated ∧
      ∀ k, s'.node k = if k = h then { s.node k with parent := p }
        else s.node k := by
  obtain ⟨s', hr⟩ :=
    replace_isOk_iff (n := { s.node h with parent := p }).mpr hc
  refine ⟨s', ?_, capacity_of_replace hr, allocated_of_replace hr, ?_⟩
  · rw [setParent, fetch_eq_ok_iff.mpr (get?_eq_some_node hc)]
    exact hr
  · intro k
    rw [node_of_replace hr]
    split
    · next hk => rw [hk]
    · rfl

theorem exists_setRight (hc : s.contains h = true) (r : Handle) :
    ∃ s', s.setRight h r = .ok s' ∧ s'.capacity = s.capacity ∧
      s'.allocated = s.allocated ∧
      ∀ k, s'.node k = if k = h then { s.node k with right := r }
        else s.node k := by
  obtain ⟨s', hr⟩ := replace_isOk_iff (n := { s.node h with right := r }).mpr hc
  refine ⟨s', ?_, capacity_of_replace hr, allocated_of_replace hr, ?_⟩
  · rw [setRight, fetch_eq_ok_iff.mpr (get?_eq_some_node hc)]
    exact hr
  · intro k
    rw [node_of_replace hr]
    split
    · next hk => rw [hk]
    · rfl

theorem exists_adopt (p : Handle) : ∀ (cs : List Handle) {s : Store},
    (∀ c ∈ cs, s.contains c = true) →
    ∃ s', s.adopt p cs = .ok s' ∧ s'.capacity = s.capacity ∧
      s'.allocated = s.allocated ∧
      ∀ k, s'.node k =
        if k ∈ cs then { s.node k with parent := p } else s.node k
  | [], s, _ => ⟨s, rfl, rfl, rfl, by simp⟩
  | c :: cs, s, hcs => by
      obtain ⟨s₁, h₁, hcap₁, hall₁, hnode₁⟩ :=
        exists_setParent (hcs c (by simp)) p
      obtain ⟨s₂, h₂, hcap₂, hall₂, hnode₂⟩ :=
        exists_adopt p cs (s := s₁) fun d hd => by
        rw [contains_eq_of_allocated_eq hall₁]
        exact hcs d (List.mem_cons_of_mem _ hd)
      refine ⟨s₂, by rw [adopt_cons, h₁]; exact h₂, hcap₂.trans hcap₁,
        hall₂.trans hall₁, ?_⟩
      intro k
      rw [hnode₂, hnode₁]
      by_cases hkc : k = c <;> by_cases hk : k ∈ cs <;> simp [hkc, hk]

/-- A commit writes a node and makes it the owner of its children. Other nodes
keep all but perhaps their parent, and those that are not its children keep
that, too. -/
theorem exists_commit (hc : s.contains h = true) (ha : Increasing n.cells)
    (hch : ∀ c ∈ n.children, s.contains c = true) (hself : h ∉ n.children) :
    ∃ s', s.commit h n = .ok s' ∧ s'.capacity = s.capacity ∧
      s'.allocated = s.allocated ∧
      s'.node h = n ∧
      (∀ k, k ≠ h → (s'.node k).body = (s.node k).body) ∧
      (∀ c ∈ n.children, (s'.node c).parent = h) ∧
      ∀ k, k ≠ h → k ∉ n.children → s'.node k = s.node k := by
  obtain ⟨s₁, h₁, hcap₁, hall₁, hnode₁⟩ := exists_write hc ha
  obtain ⟨s₂, h₂, hcap₂, hall₂, hnode₂⟩ :=
    exists_adopt h n.children (s := s₁) fun d hd => by
    rw [contains_eq_of_allocated_eq hall₁]
    exact hch d hd
  refine ⟨s₂, by rw [commit, h₁]; exact h₂, hcap₂.trans hcap₁,
    hall₂.trans hall₁, ?_, ?_, ?_, ?_⟩
  · simp [hnode₂, hself, hnode₁]
  · intro k hk
    by_cases hkc : k ∈ n.children <;> simp [hnode₂, hkc, hnode₁, hk, Node.body]
  · intro c hc
    simp [hnode₂, hc]
  · intro k hk hkc
    simp [hnode₂, hkc, hnode₁, hk]

theorem commit_self (hc : s.contains h = true)
    (ha : Increasing (s.node h).cells)
    (hch : ∀ c ∈ (s.node h).children,
      s.contains c = true ∧ (s.node c).parent = h)
    (hself : h ∉ (s.node h).children) : s.commit h (s.node h) = .ok s := by
  obtain ⟨s', hs', hcap, hall, hnode, hbody, hown, hrest⟩ :=
    exists_commit hc ha (fun c hc => (hch c hc).1) hself
  have hsame : s' = s := by
    refine eq_of_node_eq hcap hall fun k => ?_
    by_cases hk : k = h
    · rw [hk, hnode]
    · by_cases hkc : k ∈ (s.node h).children
      · exact Node.eq_of_body_eq (hbody k hk)
          ((hown k hkc).trans (hch k hkc).2.symm)
      · exact hrest k hk hkc
  rw [hs', hsame]

/-- A slot is handed out blank, or the store is full. -/
theorem allocate_cases (hcap : s.capacity ≤ Handle.nullRaw) :
    (∃ s', s.allocate = .ok (.slot s.allocated, s') ∧ s'.capacity = s.capacity ∧
      s'.allocated = s.allocated + 1 ∧ ∀ k, s'.node k = s.node k) ∨
    s.allocate = .error (.storeFull s.capacity) ∧
      s.capacity ≤ s.allocated := by
  cases ha : s.allocate with
  | ok r =>
      obtain ⟨h, s'⟩ := r
      obtain ⟨rfl, hn, hc⟩ := allocate_eq_ok ha
      refine Or.inl ⟨s', rfl, hc, allocated_of_allocate ha, ?_⟩
      intro k
      by_cases hk : k = .slot s.allocated
      · rw [hk, node, node, get?_allocate_self ha, get?_of_allocate ha]
        rfl
      · rw [node, node, get?_allocate_of_ne ha hk]
  | error f =>
      refine Or.inr ?_
      unfold allocate at ha
      split at ha
      · next hlt =>
          have hname : Handle.ofIndex? s.nodes.size =
              some (.slot s.nodes.size) :=
            Handle.ofIndex?_eq_some_iff.mpr ⟨Nat.lt_of_lt_of_le hlt hcap, rfl⟩
          rw [hname] at ha
          cases ha
      · next hge => exact ⟨ha.symm, Nat.le_of_not_lt hge⟩

/-! ## What is left alone -/

structure Frame (s s' : Store) (written adopted : List Handle) : Prop where
  capacity : s'.capacity = s.capacity
  allocated : s.allocated ≤ s'.allocated
  body : ∀ k, s.contains k = true → k ∉ written →
    (s'.node k).body = (s.node k).body
  parent : ∀ k, s.contains k = true → k ∉ adopted →
    (s'.node k).parent = (s.node k).parent

namespace Frame

variable {w w' a a' : List Handle}

theorem refl (s : Store) : Frame s s [] [] :=
  ⟨rfl, Nat.le_refl _, fun _ _ _ => rfl, fun _ _ _ => rfl⟩

theorem contains (f : Frame s s' w a) (hc : s.contains k = true) :
    s'.contains k = true :=
  contains_of_allocated_le f.allocated hc

theorem trans (f : Frame s s' w a) (g : Frame s' s'' w' a') :
    Frame s s'' (w ++ w') (a ++ a') where
  capacity := g.capacity.trans f.capacity
  allocated := Nat.le_trans f.allocated g.allocated
  body k hk hw := by
    obtain ⟨hw, hw'⟩ := not_or.mp fun h => hw (List.mem_append.mpr h)
    rw [g.body k (f.contains hk) hw', f.body k hk hw]
  parent k hk ha := by
    obtain ⟨ha, ha'⟩ := not_or.mp fun h => ha (List.mem_append.mpr h)
    rw [g.parent k (f.contains hk) ha', f.parent k hk ha]

/-- Slots handed out on the way need not be listed: a frame speaks of the slots
that were in use before. -/
theorem restrict (f : Frame s s' w a)
    (hw : ∀ k ∈ w, s.contains k = true → k ∈ w')
    (ha : ∀ k ∈ a, s.contains k = true → k ∈ a') : Frame s s' w' a' where
  capacity := f.capacity
  allocated := f.allocated
  body k hk h := f.body k hk fun hm => h (hw k hm hk)
  parent k hk h := f.parent k hk fun hm => h (ha k hm hk)

theorem mono (f : Frame s s' w a) (hw : w ⊆ w') (ha : a ⊆ a') :
    Frame s s' w' a' :=
  f.restrict (fun _ h _ => hw h) fun _ h _ => ha h

theorem unadopt (f : Frame s s' w (h :: a))
    (hp : (s'.node h).parent = (s.node h).parent) : Frame s s' w a where
  capacity := f.capacity
  allocated := f.allocated
  body := f.body
  parent k hk hka := by
    by_cases hkh : k = h
    · rw [hkh, hp]
    · exact f.parent k hk (mt List.mem_cons.mp (not_or.mpr ⟨hkh, hka⟩))

theorem node (f : Frame s s' w a) (hc : s.contains k = true) (hw : k ∉ w)
    (ha : k ∉ a) : s'.node k = s.node k :=
  Node.eq_of_body_eq (f.body k hc hw) (f.parent k hc ha)

theorem cells (f : Frame s s' w a) (hc : s.contains k = true) (hw : k ∉ w) :
    (s'.node k).cells = (s.node k).cells :=
  Node.cells_eq_of_body_eq (f.body k hc hw)

theorem right (f : Frame s s' w a) (hc : s.contains k = true) (hw : k ∉ w) :
    (s'.node k).right = (s.node k).right :=
  Node.right_eq_of_body_eq (f.body k hc hw)

theorem height (f : Frame s s' w a) (hc : s.contains k = true) (hw : k ∉ w) :
    (s'.node k).height = (s.node k).height :=
  Node.height_eq_of_body_eq (f.body k hc hw)

theorem firstKey (f : Frame s s' w a) (hc : s.contains k = true) (hw : k ∉ w) :
    (s'.node k).firstKey = (s.node k).firstKey :=
  Node.firstKey_eq_of_cells_eq (f.cells hc hw)

end Frame

theorem exists_commit_frame (hc : s.contains h = true) (ha : Increasing n.cells)
    (hch : ∀ c ∈ n.children, s.contains c = true) (hself : h ∉ n.children)
    (hp : n.parent = (s.node h).parent) :
    ∃ s', s.commit h n = .ok s' ∧ s'.allocated = s.allocated ∧ s'.node h = n ∧
      Frame s s' [h] n.children ∧ ∀ c ∈ n.children, (s'.node c).parent = h := by
  obtain ⟨s', hs', hcap, hall, hnode, hbody, hown, hrest⟩ :=
    exists_commit hc ha hch hself
  refine ⟨s', hs', hall, hnode, ⟨hcap, Nat.le_of_eq hall.symm, ?_, ?_⟩,
    hown⟩
  · intro k _ hk
    exact hbody k (by simpa using hk)
  · intro k _ hk
    by_cases hkh : k = h
    · rw [hkh, hnode, hp]
    · rw [hrest k hkh hk]

/-- `p` holds `n` and `q` holds `m`, and the rest is as it was. -/
structure Both (s s' : Store) (p : Handle) (n : Node) (q : Handle) (m : Node) :
    Prop where
  frame : Frame s s' [p, q] (n.children ++ m.children)
  allocated_eq : s'.allocated = s.allocated
  fst_eq : s'.node p = n
  snd_eq : s'.node q = m
  fst_owns : ∀ c ∈ n.children, (s'.node c).parent = p
  snd_owns : ∀ c ∈ m.children, (s'.node c).parent = q

/-- Two commits, neither of which writes what the other does, so that what the
first has written is there after the second. -/
theorem exists_commit_both {p q : Handle} {m : Node} (hpq : p ≠ q)
    (hp : s.contains p = true) (hq : s.contains q = true)
    (hn : Increasing n.cells) (hm : Increasing m.cells)
    (hlive : ∀ c ∈ n.children ++ m.children, s.contains c = true)
    (hnodup : (n.children ++ m.children).Nodup)
    (hp' : p ∉ n.children ++ m.children) (hq' : q ∉ n.children ++ m.children)
    (hnp : n.parent = (s.node p).parent) (hmp : m.parent = (s.node q).parent) :
    ∃ s₁ s₂, s.commit p n = .ok s₁ ∧ s₁.commit q m = .ok s₂ ∧
      Both s s₂ p n q m := by
  have hin₁ : ∀ c ∈ n.children, c ∈ n.children ++ m.children := by
    intro c hc
    exact List.mem_append_left _ hc
  have hin₂ : ∀ c ∈ m.children, c ∈ n.children ++ m.children := by
    intro c hc
    exact List.mem_append_right _ hc
  obtain ⟨s₁, hcommit₁, hall₁, hself₁, hframe₁, howns₁⟩ :=
    exists_commit_frame hp hn (fun c hc => hlive c (hin₁ c hc))
    (fun h => hp' (hin₁ p h)) hnp
  have hq₁ : (s₁.node q).parent = (s.node q).parent :=
    hframe₁.parent q hq fun h => hq' (hin₁ q h)
  obtain ⟨s₂, hcommit₂, hall₂, hself₂, hframe₂, howns₂⟩ := exists_commit_frame
    (hframe₁.contains hq) hm
    (fun c hc => hframe₁.contains (hlive c (hin₂ c hc)))
    (fun h => hq' (hin₂ q h)) (hmp.trans hq₁.symm)
  refine ⟨s₁, s₂, hcommit₁, hcommit₂, hframe₁.trans hframe₂, hall₂.trans hall₁,
    ?_, hself₂, ?_, howns₂⟩
  · rw [← hself₁]
    exact hframe₂.node (hframe₁.contains hp) (by simpa using hpq) fun h =>
      hp' (hin₂ p h)
  · intro c hc
    have hc₂ : c ∉ m.children :=
      fun h => (List.nodup_append.mp hnodup).2.2 c hc c h rfl
    rw [hframe₂.parent c (hframe₁.contains (hlive c (hin₁ c hc))) hc₂]
    exact howns₁ c hc

theorem frame_of_allocate (hcap : s'.capacity = s.capacity)
    (hall : s'.allocated = s.allocated + 1)
    (hnode : ∀ k, s'.node k = s.node k) : Frame s s' [] [] where
  capacity := hcap
  allocated := by omega
  body k _ _ := by rw [hnode]
  parent k _ _ := by rw [hnode]

/-! ## Slots handed out -/

/-- The slots handed out on the way from one store to another. -/
structure Taken (s s' : Store) (fresh : List Handle) : Prop where
  nodup : fresh.Nodup
  mem_iff : ∀ k, k ∈ fresh ↔ s'.contains k = true ∧ s.contains k = false

namespace Taken

variable {fresh fresh' : List Handle}

theorem of_allocated_eq (ha : s'.allocated = s.allocated) : Taken s s' [] where
  nodup := List.nodup_nil
  mem_iff k := by simp [contains_eq_of_allocated_eq ha]

theorem of_allocate (ha : s'.allocated = s.allocated + 1) :
    Taken s s' [.slot s.allocated] where
  nodup := List.pairwise_singleton _ _
  mem_iff k := by
    cases k with
    | null => simp [contains]
    | slot i => simp [contains, ha]; omega

theorem unused (h : Taken s s' fresh) (hk : k ∈ fresh) :
    s.contains k = false :=
  ((h.mem_iff k).mp hk).2

theorem live (h : Taken s s' fresh) (hk : k ∈ fresh) : s'.contains k = true :=
  ((h.mem_iff k).mp hk).1

theorem perm (h : Taken s s' fresh) (hp : fresh.Perm fresh') :
    Taken s s' fresh' where
  nodup := hp.nodup_iff.mp h.nodup
  mem_iff k := hp.mem_iff.symm.trans (h.mem_iff k)

theorem trans (h : Taken s s' fresh) (h' : Taken s' s'' fresh')
    (ha : s.allocated ≤ s'.allocated) (ha' : s'.allocated ≤ s''.allocated) :
    Taken s s'' (fresh ++ fresh') where
  nodup := by
    refine List.nodup_append.mpr ⟨h.nodup, h'.nodup, ?_⟩
    rintro k hk _ hk' rfl
    have hu := h'.unused hk'
    rw [h.live hk] at hu
    cases hu
  mem_iff k := by
    rw [List.mem_append, h.mem_iff, h'.mem_iff]
    constructor
    · rintro (⟨hl, hu⟩ | ⟨hl, hu⟩)
      · exact ⟨contains_of_allocated_le ha' hl, hu⟩
      · refine ⟨hl, Bool.eq_false_iff.mpr fun hc => ?_⟩
        rw [contains_of_allocated_le ha hc] at hu
        cases hu
    · rintro ⟨hl, hu⟩
      cases hc : s'.contains k with
      | true => exact Or.inl ⟨rfl, hu⟩
      | false => exact Or.inr ⟨hl, rfl⟩

theorem allocated_eq (h : Taken s s' fresh) (ha : s.allocated ≤ s'.allocated) :
    s'.allocated = s.allocated + fresh.length := by
  let between := (List.range' s.allocated (s'.allocated - s.allocated)).map
    Handle.slot
  have hnodup : between.Nodup := List.pairwise_map.mpr <|
    (List.nodup_range' 1).imp fun hne heq => hne (Handle.slot.inj heq)
  have hperm : fresh.Perm between := by
    refine (List.perm_ext_iff_of_nodup h.nodup hnodup).mpr fun k => ?_
    rw [h.mem_iff]
    cases k with
    | null => simp [contains, between]
    | slot i =>
        simp only [contains, decide_eq_true_eq, decide_eq_false_iff_not,
          Nat.not_lt, between, List.mem_map, Handle.slot.injEq,
          List.mem_range'_1, exists_eq_right]
        omega
  have hlen := hperm.length_eq
  simp only [between, List.length_map, List.length_range'] at hlen
  omega

end Taken

theorem Frame.of_taken {a : List Handle} (hf : Frame s s' [] [])
    (ht : Taken s s' [h]) (f : Frame s' s'' [h] (h :: a)) :
    Frame s s'' [] a := by
  have hunused := ht.unused (List.mem_singleton_self h)
  refine (hf.trans f).restrict ?_ ?_
  · intro k hk hlive
    rw [List.mem_singleton.mp (show k ∈ [h] from hk), hunused] at hlive
    cases hlive
  · intro k hk hlive
    rcases List.mem_cons.mp (show k ∈ h :: a from hk) with rfl | hk
    · rw [hunused] at hlive
      cases hlive
    · exact hk

end Store

end LevelIndex
