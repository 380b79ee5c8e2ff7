import LevelIndex.Proofs.Accepted

/-!
# What a check ends in

The checker is made for damaged trees, so it should tell every damage apart from
a fault of its own. On a tree of any shape it ends, and each of its pieces ends
in a finding or in nothing to report (`Reports`), with one exception: what is
wrong with a child is told by comparing the height above it with that of its
parent, and above the greatest height there is none (`child_eq_fault_iff`).

`Overtops` says that the descent meets such a child before anything else that is
wrong, and it faults then and only then (`subtree_eq_fault_iff`). What follows a
piece that reports is all that a fault can come from (`Reports.bind_eq_fault`),
and by this the proofs step over the rest of the checker. The child in question
is one of a node of the tree (`exists_of_overtops`), so a tree whose nodes stay
below the greatest height is safe to check, whatever else is wrong with it.
-/

namespace LevelIndex

namespace Check

/-- Ends in a value or in a finding. -/
def Reports {α : Type} (x : Except Flaw α) : Prop := ∀ f, x ≠ .error (.fault f)

section Reports

variable {s : Store} {h : Handle} {n : Node} {f : Fault} {α β : Type}

theorem reports_ok {a : α} : Reports (.ok a) := fun _ h => nomatch h

theorem reports_corrupt {c : Corruption} :
    Reports (.error (.corrupt c) : Except Flaw α) := fun _ h => nomatch h

theorem reports_require {p : Prop} [Decidable p] {c : Corruption} :
    Reports (require p (.corrupt c)) := fun f h => by
  cases (require_eq_error_iff.mp h).2

theorem Reports.bind_eq_fault {x : Except Flaw α} {k : α → Except Flaw β}
    (hx : Reports x) : (x >>= k) = .error (.fault f) ↔
      ∃ a, x = .ok a ∧ k a = .error (.fault f) := by
  rw [bind_eq_error]
  exact or_iff_right (hx f)

theorem Reports.bind {x : Except Flaw α} {k : α → Except Flaw β}
    (hx : Reports x) (hk : ∀ a, Reports (k a)) : Reports (x >>= k) :=
  fun f h => by
    obtain ⟨a, -, h⟩ := hx.bind_eq_fault.mp h
    exact hk a f h

theorem load_reports : Reports (load s h) := by
  rw [load]
  split
  · exact reports_ok
  · exact reports_corrupt

theorem node_reports {upper : Option Key} : Reports (node h n upper) := by
  rw [node]
  split
  · exact reports_corrupt
  · split
    · exact reports_corrupt
    · exact reports_ok
    · exact reports_require

theorem leafCells_reports {slot : Nat} {cells : List Cell} :
    Reports (leafCells h slot cells) := by
  induction cells generalizing slot with
  | nil => exact reports_ok
  | cons c cells ih =>
      rw [leafCells]
      split
      · exact ih
      · exact reports_corrupt

theorem chain_reports {height : Nat} {row : List Handle} :
    Reports (chain s height row) := by
  induction row with
  | nil => exact reports_ok
  | cons h row ih =>
      rw [chain]
      refine load_reports.bind fun n => ?_
      split
      · exact reports_require.bind fun _ => ih
      · exact reports_require.bind fun _ => ih

theorem chains_reports {visits : List Visit} {count height : Nat} :
    Reports (chains s visits count height) := by
  induction count generalizing height with
  | zero => exact reports_ok
  | succ count ih => exact chain_reports.bind fun _ => ih

theorem child_eq_fault_iff {height slot : Nat} {key : Key} {c : Handle} :
    child h height slot key c n = .error (.fault f) ↔
      n.height = heightLimit ∧ f = .heightOverflow := by
  rw [child, bind_eq_error, require_eq_error_iff]
  constructor
  · rintro (⟨hlim, heq⟩ | ⟨-, -, h⟩)
    · cases heq
      exact ⟨not_not.mp hlim, rfl⟩
    · exact absurd h (reports_require.bind
        (fun _ => reports_require.bind fun _ => reports_require) f)
  · rintro ⟨hlim, rfl⟩
    exact Or.inl ⟨not_not.mpr hlim, rfl⟩

end Reports

/-! ## The descent

The descent is followed down to the one place where it can fault. `Arrives` is
a step of it from a node to one of its children, everything before the child
having passed. -/

/-- The descent comes from the node `h`, which is `n` at height `k + 1`, to its
child `c`, which is `m`: the node passes, and so do the subtrees of the cells in
`front`, which stand before the child. -/
structure Arrives (s : Store) (k : Nat) (h : Handle) (n : Node)
    (upper : Option Key) (front : List Cell) (key : Key) (c : Handle)
    (rest : List Cell) (m : Node) : Prop where
  passes : node h n upper = .ok ()
  cells_eq : n.cells = front ++ ⟨key, .child c⟩ :: rest
  before : ∃ visits, innerCells s (subtree s k) h k (some key) 0 front =
    .ok visits
  found : s.get? c = some m

/-- The first thing wrong that the descent meets from the node `h` on, which is
`n` at the given height, is a child that claims the greatest height. -/
inductive Overtops (s : Store) :
    Nat → Handle → Node → Option Key → Prop
  | here {k : Nat} {h c : Handle} {n m : Node} {upper : Option Key}
      {front rest : List Cell} {key : Key} :
      Arrives s k h n upper front key c rest m → m.height = heightLimit →
      Overtops s (k + 1) h n upper
  | down {k : Nat} {h c : Handle} {n m : Node} {upper : Option Key}
      {front rest : List Cell} {key : Key} :
      Arrives s k h n upper front key c rest m →
      child h k front.length key c m = .ok () →
      Overtops s k c m ((rest.head?.map (·.key)).or upper) →
      Overtops s (k + 1) h n upper

section Descent

variable {s : Store} {k : Nat} {h : Handle} {upper : Option Key} {f : Fault}

theorem next_append (front rest : List Cell) (key : Key) (e : Entry)
    (upper : Option Key) :
    ((front ++ ⟨key, e⟩ :: rest).head?.map (·.key)).or upper =
      (front.head?.map (·.key)).or (some key) := by
  cases front <;> rfl

theorem load_eq_ok_iff_get? {n : Node} :
    load s h = .ok n ↔ s.get? h = some n := by
  rw [load]
  cases s.get? h <;> simp

section Cells

variable {below : Handle → Node → Option Key → Except Flaw (List Visit)}
  {key : Key} {c : Handle} {cells : List Cell} {slot : Nat}

theorem innerCells_cons_eq_ok_iff {visits : List Visit} :
    innerCells s below h k upper slot (⟨key, .child c⟩ :: cells) =
        .ok visits ↔
      ∃ m, s.get? c = some m ∧ child h k slot key c m = .ok () ∧
        ∃ first, below c m ((cells.head?.map (·.key)).or upper) = .ok first ∧
        ∃ more, innerCells s below h k upper (slot + 1) cells = .ok more ∧
          first ++ more = visits := by
  rw [innerCells, bind_eq_ok]
  simp only [load_eq_ok_iff_get?, unit_bind_eq_ok]
  simp only [bind_eq_ok, pure, Except.pure, Except.ok.injEq]

theorem innerCells_cons_eq_fault_iff :
    innerCells s below h k upper slot (⟨key, .child c⟩ :: cells) =
        .error (.fault f) ↔
      ∃ m, s.get? c = some m ∧
        ((m.height = heightLimit ∧ f = .heightOverflow) ∨
          child h k slot key c m = .ok () ∧
            (below c m ((cells.head?.map (·.key)).or upper) =
                .error (.fault f) ∨
              ∃ first, below c m ((cells.head?.map (·.key)).or upper) =
                  .ok first ∧
                innerCells s below h k upper (slot + 1) cells =
                  .error (.fault f))) := by
  rw [innerCells]
  dsimp only
  rw [load_reports.bind_eq_fault]
  simp only [load_eq_ok_iff_get?, unit_bind_eq_error, child_eq_fault_iff]
  simp only [bind_eq_error, pure, Except.pure, reduceCtorEq, and_false,
    exists_false, or_false]

/-- The cells of a node lead to a fault where those before some child pass, and
the child claims the greatest height or leads to a fault itself. By induction on
the cells; a cell that passes hands the next key on as the bound of what is
under it. -/
theorem innerCells_eq_fault_iff :
    innerCells s below h k upper slot cells = .error (.fault f) ↔
      ∃ front key c rest m, cells = front ++ ⟨key, .child c⟩ :: rest ∧
        (∃ visits, innerCells s below h k (some key) slot front = .ok visits) ∧
        s.get? c = some m ∧
        ((m.height = heightLimit ∧ f = .heightOverflow) ∨
          child h k (slot + front.length) key c m = .ok () ∧
            below c m ((rest.head?.map (·.key)).or upper) =
              .error (.fault f)) := by
  constructor
  · induction cells generalizing slot with
    | nil => exact fun h => nomatch h
    | cons cell cells ih =>
        intro hfault
        rcases cell with ⟨key, _ | v | c⟩
        · cases hfault
        · cases hfault
        · obtain ⟨m, hget, hlim | ⟨hchild, hbelow | ⟨first, hbelow, hcells⟩⟩⟩ :=
            innerCells_cons_eq_fault_iff.mp hfault
          · exact ⟨[], key, c, cells, m, rfl, ⟨[], rfl⟩, hget, Or.inl hlim⟩
          · exact ⟨[], key, c, cells, m, rfl, ⟨[], rfl⟩, hget,
              Or.inr ⟨hchild, hbelow⟩⟩
          · obtain ⟨front, key', c', rest, m', rfl, ⟨more, hmore⟩, hget',
              hlast⟩ := ih hcells
            rw [next_append] at hbelow
            refine ⟨⟨key, .child c⟩ :: front, key', c', rest, m', rfl,
              ⟨first ++ more, ?_⟩, hget', ?_⟩
            · exact innerCells_cons_eq_ok_iff.mpr
                ⟨m, hget, hchild, first, hbelow, more, hmore, rfl⟩
            · rwa [List.length_cons, Nat.add_comm front.length 1,
                ← Nat.add_assoc]
  · rintro ⟨front, key, c, rest, m, rfl, ⟨visits, hfront⟩, hget, hlast⟩
    induction front generalizing slot visits with
    | nil =>
        exact innerCells_cons_eq_fault_iff.mpr ⟨m, hget,
          hlast.imp_right fun h => ⟨h.1, Or.inl h.2⟩⟩
    | cons cell front ih =>
        rcases cell with ⟨key', _ | v | c'⟩
        · cases hfront
        · cases hfront
        · obtain ⟨m', hget', hchild, first, hbelow, more, hmore, -⟩ :=
            innerCells_cons_eq_ok_iff.mp hfront
          rw [← next_append front rest key (.child c) upper] at hbelow
          refine innerCells_cons_eq_fault_iff.mpr ⟨m', hget',
            Or.inr ⟨hchild, Or.inr ⟨first, hbelow, ih more hmore ?_⟩⟩⟩
          rwa [List.length_cons, Nat.add_comm front.length 1,
            ← Nat.add_assoc] at hlast

end Cells

/-- The descent faults just in case it meets a child that claims the greatest
height before anything else. -/
theorem subtree_eq_fault_iff {n : Node} :
    subtree s k h n upper = .error (.fault f) ↔
      f = .heightOverflow ∧ Overtops s k h n upper := by
  induction k generalizing h n upper with
  | zero =>
      refine iff_of_false (node_reports.bind (fun _ => leafCells_reports.bind
        fun _ => reports_ok) f) fun hover => ?_
      cases hover.2
  | succ k ih =>
      rw [subtree, node_reports.bind_eq_fault]
      constructor
      · rintro ⟨⟨⟩, hnode, h⟩
        obtain hcells | ⟨_, -, h⟩ := bind_eq_error.mp h
        · obtain ⟨front, key, c, rest, m, hsplit, hfront, hget, hlast⟩ :=
            innerCells_eq_fault_iff.mp hcells
          have harrives : Arrives s k _ n upper front key c rest m :=
            ⟨hnode, hsplit, hfront, hget⟩
          rcases hlast with ⟨hlim, rfl⟩ | ⟨hchild, hbelow⟩
          · exact ⟨rfl, .here harrives hlim⟩
          · obtain ⟨rfl, hover⟩ := ih.mp hbelow
            rw [Nat.zero_add] at hchild
            exact ⟨rfl, .down harrives hchild hover⟩
        · cases h
      · rintro ⟨rfl, hover⟩
        cases hover with
        | here ha hlim =>
            refine ⟨(), ha.passes, bind_eq_error.mpr (Or.inl ?_)⟩
            exact innerCells_eq_fault_iff.mpr ⟨_, _, _, _, _, ha.cells_eq,
              ha.before, ha.found, Or.inl ⟨hlim, rfl⟩⟩
        | down ha hchild hover =>
            refine ⟨(), ha.passes, bind_eq_error.mpr (Or.inl ?_)⟩
            exact innerCells_eq_fault_iff.mpr ⟨_, _, _, _, _, ha.cells_eq,
              ha.before, ha.found, Or.inr
                ⟨(Nat.zero_add _).symm ▸ hchild, ih.mpr ⟨rfl, hover⟩⟩⟩

end Descent

end Check

/-! ## Trees -/

namespace Tree

variable {t : Tree}

/-- The first thing wrong with the tree is a child that claims the greatest
height. -/
def Overtopped (t : Tree) : Prop :=
  ∃ root, t.store.get? t.root = some root ∧ root.parent = .null ∧
    Check.Overtops t.store root.height t.root root none

theorem exists_of_overtops {k : Nat} {h : Handle} {n : Node}
    {upper : Option Key} (ho : Check.Overtops t.store k h n upper)
    (hh : t.Has h) (hn : t.store.get? h = some n) :
    ∃ p m c l, t.Has p ∧ t.store.get? p = some m ∧ c ∈ m.children ∧
      t.store.get? c = some l ∧ l.height = heightLimit := by
  have hchild : ∀ {k : Nat} {h c : Handle} {n l : Node} {upper : Option Key}
      {front rest : List Cell} {key : Key},
      Check.Arrives t.store k h n upper front key c rest l →
      c ∈ n.children := by
    intro k h c n l upper front rest key ha
    rw [Node.children_eq, ha.cells_eq]
    exact mem_childrenOf (List.mem_append_right _ List.mem_cons_self)
  induction ho with
  | here ha hlim => exact ⟨_, _, _, _, hh, hn, hchild ha, ha.found, hlim⟩
  | down ha _ _ ih => exact ih (.child hh hn (hchild ha)) ha.found

theorem check_eq_fault_iff {f : Fault} :
    t.check = .error (.fault f) ↔ f = .heightOverflow ∧ t.Overtopped := by
  rw [check, Check.load_reports.bind_eq_fault]
  constructor
  · rintro ⟨root, hroot, h⟩
    obtain ⟨⟨⟩, hparent, h⟩ := Check.reports_require.bind_eq_fault.mp h
    rcases bind_eq_error.mp h with h | ⟨visits, -, h⟩
    · obtain ⟨rfl, hover⟩ := Check.subtree_eq_fault_iff.mp h
      exact ⟨rfl, root, Check.load_eq_ok_iff_get?.mp hroot,
        require_eq_ok_iff.mp hparent, hover⟩
    · exact absurd h (Check.chains_reports f)
  · rintro ⟨rfl, root, hroot, hparent, hover⟩
    refine ⟨root, Check.load_eq_ok_iff_get?.mpr hroot, ?_⟩
    refine Check.reports_require.bind_eq_fault.mpr
      ⟨(), require_eq_ok_iff.mpr hparent, bind_eq_error.mpr (Or.inl ?_)⟩
    exact Check.subtree_eq_fault_iff.mpr ⟨rfl, hover⟩

end Tree

namespace Index

theorem check_eq_error_iff {x : Index} {f : Fault} :
    x.check = .error f ↔ x.tree.check = .error (.fault f) := by
  rw [check]
  split
  · next h => simp [h]
  · next h => simp [h]
  · next h => simp [h]

theorem check_cases (x : Index) :
    x.check = .ok (.ok ()) ∨
      (∃ e : Error, x.check = .ok (.error e) ∧ e.isCorruption = true) ∨
      ∃ f, x.check = .error f := by
  rw [check]
  split
  · exact Or.inl rfl
  · exact Or.inr (Or.inr ⟨_, rfl⟩)
  · exact Or.inr (Or.inl ⟨_, rfl, rfl⟩)

/-- **What a check ends in.** On an index of any shape the checker passes the
tree or tells what is damaged, unless the first thing wrong is a child that
claims the greatest height: then it faults. The fault needs such a child of a
node that the root leads to. -/
theorem check_reports_unless_overtopped (x : Index) :
    (¬x.tree.Overtopped → x.check = .ok (.ok ()) ∨
      ∃ e : Error, x.check = .ok (.error e) ∧ e.isCorruption = true) ∧
    (x.tree.Overtopped → x.check = .error .heightOverflow ∧
      ∃ p n c m, x.tree.Has p ∧ x.tree.store.get? p = some n ∧
        c ∈ n.children ∧ x.tree.store.get? c = some m ∧
        m.height = heightLimit) := by
  constructor
  · intro hnot
    rcases x.check_cases with hpass | hfound | ⟨f, hf⟩
    · exact Or.inl hpass
    · exact Or.inr hfound
    · have hfault := Tree.check_eq_fault_iff.mp (check_eq_error_iff.mp hf)
      exact absurd hfault.2 hnot
  · intro hover
    have hfault := Tree.check_eq_fault_iff.mpr ⟨rfl, hover⟩
    refine ⟨check_eq_error_iff.mpr hfault, ?_⟩
    obtain ⟨root, hroot, -, hover⟩ := hover
    exact Tree.exists_of_overtops hover .root hroot

/-- A root at height one over a node that claims the greatest height. -/
def overtopped : Index where
  config := sparse.config
  tree :=
    { store :=
        { capacity := 8
          nodes :=
            #[{ height := 1, parent := .null, right := .null
                cells := [⟨minKey, .child (.slot 1)⟩] },
              .empty heightLimit .first .null]
          size_le := by decide }
      root := .first }
  valid := sparse.valid

theorem overtopped_tree : overtopped.tree.Overtopped := by
  have harrives : Check.Arrives overtopped.tree.store 0 .first
      (overtopped.tree.store.node .first) none [] minKey (.slot 1) []
      (overtopped.tree.store.node (.slot 1)) :=
    ⟨rfl, rfl, ⟨[], rfl⟩, rfl⟩
  exact ⟨_, rfl, rfl, .here harrives rfl⟩

/-- A leaf as the root of a tree is found out, and a child at the greatest
height is met before anything else. -/
theorem check_reports_unless_overtopped_leaf :
    ¬(sparse.setRoot .first).1.tree.Overtopped ∧
      ((sparse.setRoot .first).1.check = .ok (.ok ()) ∨
        ∃ e : Error, (sparse.setRoot .first).1.check = .ok (.error e) ∧
          e.isCorruption = true) ∧
      overtopped.tree.Overtopped ∧
      overtopped.check = .error .heightOverflow := by
  have hleaf : ¬(sparse.setRoot .first).1.tree.Overtopped := by
    rintro ⟨root, hroot, hparent, -⟩
    cases hroot
    cases hparent
  exact ⟨hleaf, (check_reports_unless_overtopped _).1 hleaf, overtopped_tree,
    ((check_reports_unless_overtopped _).2 overtopped_tree).1⟩

/-- Two writes to a fresh store lead to a tree on which the checker itself
fails: it neither passes the tree nor tells what is damaged. -/
theorem check_faults_after_two_writes :
    (do
      let (child, s) ← (Tree.fresh 8 (by decide)).store.allocate
      let s ← s.write child (overtopped.tree.store.node child)
      s.write .first (overtopped.tree.store.node .first)) =
        .ok overtopped.tree.store ∧
      overtopped.check = .error .heightOverflow ∧
      ¬(overtopped.check = .ok (.ok ()) ∨
        ∃ e : Error, overtopped.check = .ok (.error e) ∧
          e.isCorruption = true) := by
  have hfault : overtopped.check = .error .heightOverflow := rfl
  refine ⟨rfl, hfault, ?_⟩
  rw [hfault]
  rintro (h | ⟨e, h, -⟩) <;> cases h

end Index

end LevelIndex
