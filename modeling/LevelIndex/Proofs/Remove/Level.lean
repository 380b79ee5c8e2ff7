import LevelIndex.Proofs.Remove.Compact

/-!
# Compacting a level

`Ready` is what compaction needs in order to go on. It goes along the flagged
nodes of a level and is ready again after each:

- calm nodes are passed over (`Ready.exists_split`);
- a node that is half full and flagged starts at another key, which is reported
  (`Ready.rekey`);
- otherwise a group is gathered from the node (`Ready.exists_gathered`) and
  replaced by one or two of its nodes (`Ready.compactGroup_eq_ok`).

A group without cells is the rest of the level, since only the last node of a
group may be calm; then the chain is cut in front of it. The walk to the cut
starts at the node that was kept last, or at the first of the level
(`Kept.exists_start`), and it ends within the bound because a chain without
repetition is no longer than the store (`Underway.exists_cut`). So compaction
comes to an end (`Ready.compactFrom_eq_ok`).
-/

namespace LevelIndex

namespace Remove

/-- What compaction has made of the rest of a level: the nodes `new`, behind
those that were done. -/
structure Compacted (s s' : Store) (height : Nat) (old : Handle → Key)
    (parent : Handle → Handle) (done row new : List Handle)
    (staged : List Edit) : Prop where
  frame : Store.Frame s s' (done ++ new) (childrenOf (s.contents row))
  allocated_eq : s'.allocated = s.allocated
  underway : Underway s' height (done ++ new) []
  head_eq : (done ++ new).head? = (done ++ row).head?
  contents_eq : s'.contents (done ++ new) = s.contents (done ++ row)
  done_cells : ∀ h ∈ done, (s'.node h).cells = (s.node h).cells
  told : Told old parent row staged (s'.links new)
  timely : Timely s' old new
  ample : ∀ h, Ample s row h → h ∈ new ∧ (s'.node h).cells = (s.node h).cells

/-- The node that compaction starts from to cut the chain is one of those
that are done. -/
structure Kept (height : Nat) (f : Frontier) (done row : List Handle) :
    Prop where
  mem : ∀ h, f.kept = some h → h ∈ done
  leftmost : f.kept = none → ∃ h, f.tree.leftmostAt height = .ok h ∧
    (done ++ row).head? = some h

/-- A level that compaction is at work on: the nodes that are done, the nodes
that are not, and the edits that flag some of these. -/
structure Ready (height : Nat) (old : Handle → Key) (parent : Handle → Handle)
    (f : Frontier) (done row : List Handle) (edits : List Edit) : Prop where
  underway : Underway f.tree.store height done row
  flagged : Flagged f.tree.store old row edits
  known : Known f.tree.store old parent row
  kept : Kept height f done row
  stored : f.tree.store.contents (done ++ row) ≠ []

section Advance

variable {s s' s'' : Store} {height : Nat} {done row new rest : List Handle}
  {old : Handle → Key} {parent : Handle → Handle} {staged : List Edit}

theorem advance_calm (u : Underway s height done (row ++ rest))
    (k : Known s old parent (row ++ rest)) (hc : ∀ h ∈ row, Calm s old h)
    (hhalf : rest ≠ [] → ∀ h ∈ row, Node.half ≤ (s.node h).size)
    (hdrop : ∀ h ∈ row.dropLast, Node.half ≤ (s.node h).size) :
    Advance s s height (rest.head?.getD .null) old parent row row [] where
  frame := (Store.Frame.refl s).mono (List.nil_subset _) (List.nil_subset _)
  allocated_eq := rfl
  sublist := List.Sublist.refl _
  head_eq := rfl
  height_eq h hh :=
    u.height_eq h (List.mem_append_right _ (List.mem_append_left _ hh))
  linked := by
    have hl := u.linked
    rw [Store.linked_append, Store.linked_append] at hl
    exact hl.2.1
  contents_eq := rfl
  owns p hp := u.owns p (List.mem_append_right _ (List.mem_append_left _ hp))
  nonempty h hh := (hc h hh).nonempty
  half hstop := hhalf fun h => hstop (by rw [h]; rfl)
  half_dropLast := hdrop
  told := told_calm hc
  timely a b c habc := by
    have hold := (k.ascending.sublist
      ((habc.trans (List.sublist_append_left row rest)).map old))
    rw [(hc a (habc.subset (by simp))).firstKey_eq]
    exact List.rel_of_pairwise_cons hold (by simp)
  ample _ am := ⟨am.mem, rfl⟩

theorem advance_rekey {h : Handle} (u : Underway s height done (h :: rest))
    (k : Known s old parent (h :: rest)) (hne : (s.node h).cells ≠ [])
    (hhalf : Node.half ≤ (s.node h).size) :
    Advance s s height (rest.head?.getD .null) old parent [h] [h]
      [.changeKey (old h) (s.node h).firstKey (parent h)] where
  frame := (Store.Frame.refl s).mono (List.nil_subset _) (List.nil_subset _)
  allocated_eq := rfl
  sublist := List.Sublist.refl _
  head_eq := rfl
  height_eq p hp := u.height_eq p (by simp [List.mem_singleton.mp hp])
  linked := by
    have hl := u.linked
    rw [Store.linked_append] at hl
    exact ⟨hl.2.1, trivial⟩
  contents_eq := rfl
  owns p hp := u.owns p (by simp [List.mem_singleton.mp hp])
  nonempty p hp := List.mem_singleton.mp hp ▸ hne
  half _ p hp := List.mem_singleton.mp hp ▸ hhalf
  half_dropLast p hp := by simp at hp
  told := by
    refine .rekey _ ?_ .nil
    obtain ⟨c, hc, hck⟩ := Node.exists_mem_key_eq_firstKey hne
    exact hck ▸ k.old_le h (by simp) c hc
  timely := timely_of_length_le (by simp)
  ample _ am := ⟨am.mem, rfl⟩

theorem Compacted.nil (u : Underway s height done []) :
    Compacted s s height old parent done [] [] [] where
  frame := (Store.Frame.refl s).mono (List.nil_subset _) (List.nil_subset _)
  allocated_eq := rfl
  underway := by
    rw [List.append_nil]
    exact u
  head_eq := rfl
  contents_eq := rfl
  done_cells _ _ := rfl
  told := .nil
  timely := timely_of_length_le (by simp)
  ample _ am := absurd am.mem List.not_mem_nil

theorem Compacted.subset
    (c : Compacted s s' height old parent done row new staged) : new ⊆ row := by
  have hsub := c.told.children_sublist
  rw [Store.childrenOf_links] at hsub
  exact hsub.subset

/-- A node in front of others has cells enough to start before where any of
these did: it is half full, so its first cell has two more behind it, and a cell
so far back lies before where a later node started (`Known.head_lt`). -/
theorem Advance.firstKey_lt (u : Underway s height done (row ++ rest))
    (k : Known s old parent (row ++ rest))
    (a : Advance s s' height (rest.head?.getD .null) old parent row new staged)
    {h p : Handle} (hh : h ∈ new) (hp : p ∈ rest) :
    (s'.node h).firstKey < old p := by
  have hstop : rest.head?.getD .null ≠ .null := by
    obtain ⟨q, rest, rfl⟩ := List.exists_cons_of_ne_nil (List.ne_nil_of_mem hp)
    exact Store.ne_null_of_contains (u.live q (by simp))
  have hhalf := a.half hstop h hh
  have hin : (s'.node h).cells.Sublist (s.contents row) :=
    a.contents_eq ▸ Store.cells_sublist_contents hh
  have hlong : 3 ≤ (s'.node h).cells.length := Nat.le_trans (by decide) hhalf
  obtain ⟨x, cells, hcells, hkey⟩ := Node.exists_cons
    (List.ne_nil_of_length_pos (Nat.lt_of_lt_of_le (by decide) hlong))
  rw [hkey]
  exact k.head_lt ((List.singleton_sublist.mpr hp).append_left row) hin hlong
    (by rw [hcells]; rfl)

/-- A step in front of the compaction of the rest. That the nodes left are
timely is the one thing that is not put together part by part: of three of them,
some may come from the step and the others from the rest. -/
theorem Compacted.cons {row' : List Handle} {staged' : List Edit}
    (u : Underway s height done (row ++ rest))
    (k : Known s old parent (row ++ rest))
    (a : Advance s s' height (rest.head?.getD .null) old parent row new staged)
    (c : Compacted s' s'' height old parent (done ++ new) rest row' staged') :
    Compacted s s'' height old parent done (row ++ rest) (new ++ row')
      (staged ++ staged') where
  frame := by
    have hcr : s'.contents rest = s.contents rest :=
      Store.contents_congr fun h hh => by rw [a.rest_eq u hh]
    refine (a.frame.trans c.frame).mono ?_ ?_
    · intro h hh
      simp only [List.mem_append] at hh ⊢
      tauto
    · rw [hcr, Store.contents_append, childrenOf_append]
      exact fun _ h => h
  allocated_eq := c.allocated_eq.trans a.allocated_eq
  underway := by
    rw [← List.append_assoc]
    exact c.underway
  head_eq := by
    rw [← List.append_assoc, c.head_eq, List.head?_append, List.head?_append,
      a.head_eq, List.head?_append, List.head?_append]
    cases done.head? <;> rfl
  contents_eq := by
    rw [← List.append_assoc, c.contents_eq, a.contents_all u]
  done_cells h hh := by
    rw [c.done_cells h (List.mem_append_left _ hh), a.done_eq u hh]
  told := by
    rw [Store.links_append, Store.links_congr fun h hh =>
      c.done_cells h (List.mem_append_right _ hh)]
    exact a.told.append c.told
  timely x y z hxyz := by
    obtain ⟨l, m, hlm, hl, hm⟩ := List.sublist_append_iff.mp hxyz
    cases l with
    | nil => exact c.timely x y z (hlm ▸ hm)
    | cons x' l =>
        obtain ⟨rfl, htail⟩ := List.cons.inj hlm
        have hx : x ∈ new := hl.subset List.mem_cons_self
        have hkey : (s''.node x).firstKey = (s'.node x).firstKey :=
          Node.firstKey_eq_of_cells_eq
            (c.done_cells x (List.mem_append_right _ hx))
        rw [hkey]
        cases m with
        | nil =>
            rw [List.append_nil] at hlm
            exact a.timely x y z (hlm ▸ hl)
        | cons z' m =>
            refine a.firstKey_lt u k hx (c.subset (hm.subset ?_))
            have hz : z ∈ [y, z].getLast? := rfl
            rw [show [y, z] = l ++ z' :: m from htail,
              List.getLast?_append_cons] at hz
            exact List.mem_of_getLast? hz
  ample h am := by
    rcases List.mem_append.mp am.mem with hh | hh
    · obtain ⟨hnew, hcells⟩ := a.ample h (am.of_append_left hh)
      refine ⟨List.mem_append_left _ hnew, ?_⟩
      rw [c.done_cells h (List.mem_append_right _ hnew), hcells]
    · have hst := (am.of_append_right hh).congr fun p hp => a.rest_eq u hp
      obtain ⟨hnew, hcells⟩ := c.ample h hst
      exact ⟨List.mem_append_right _ hnew, by rw [hcells, a.rest_eq u hh]⟩

end Advance

/-! ## The end of a level -/

/-- The chain is cut behind the last of the nodes from `h` on. The walk looks
for the node whose right link is the first one to be dropped. -/
theorem cutBefore_eq_ok {t : Tree} (height : Nat) (first : Handle) :
    ∀ {m : List Handle} {h : Handle} {steps : Nat},
      (∀ k ∈ h :: m, t.store.contains k = true ∧
        Increasing (t.store.node k).cells) →
      t.store.Linked first (h :: m) → first ∉ m → m.length < steps →
      ∃ s last, (h :: m).getLast? = some last ∧
        cutBefore t height first steps h = .ok (⟨s, t.root⟩, last) ∧
        s.capacity = t.store.capacity ∧ s.allocated = t.store.allocated ∧
        ∀ k, s.node k = if k = last then { t.store.node k with right := .null }
          else t.store.node k
  | m, h, 0, _, _, _, hs => absurd hs (Nat.not_lt_zero _)
  | [], h, steps + 1, hread, hl, _, _ => by
      obtain ⟨hlive, hincr⟩ := hread h (by simp)
      obtain ⟨s, hs, hcap, hall, hnode⟩ := Store.exists_setRight hlive .null
      have hright : (t.store.node h).right = first := hl.1
      refine ⟨s, h, rfl, ?_, hcap, hall, hnode⟩
      rw [cutBefore, Store.read_eq_ok hlive hincr, ok_bind, if_pos hright, hs]
      rfl
  | k :: m, h, steps + 1, hread, hl, hfirst, hs => by
      obtain ⟨hlive, hincr⟩ := hread h (by simp)
      have hright : (t.store.node h).right = k := by simpa using hl.1
      have hne : k ≠ first := fun heq => hfirst (by simp [heq])
      have hnull : k.isNull = false :=
        Bool.eq_false_iff.mpr fun h =>
          Store.ne_null_of_contains (hread k (by simp)).1
            (Handle.isNull_iff.mp h)
      have hlt : m.length < steps := by simpa using hs
      obtain ⟨s, last, hlast, hcut, hrest⟩ := cutBefore_eq_ok height first
        (fun j hj => hread j (List.mem_cons_of_mem _ hj)) hl.2
        (fun hm => hfirst (List.mem_cons_of_mem _ hm)) hlt
      refine ⟨s, last, by rw [List.getLast?_cons_cons, hlast], ?_, hrest⟩
      rw [cutBefore, Store.read_eq_ok hlive hincr, ok_bind, hright, if_neg hne,
        if_neg (by simp [hnull])]
      exact hcut

section Group

variable {height : Nat} {done beyond visited tail : List Handle}
  {left last : Handle} {old : Handle → Key} {parent : Handle → Handle}
  {g : Group}

/-- A group without cells is the rest of its level. A calm node has cells, and
as long as there are none gathering goes on to the end of the level. -/
theorem Gathered.of_cells_eq_nil {s : Store} {row : List Handle}
    (hg : Gathered s old [] row g visited last beyond) (hcells : g.cells = []) :
    beyond = [] ∧ g.rest = [] ∧ g.covered = true := by
  have hbeyond : beyond = [] :=
    hg.enough.resolve_right (by simp [hcells, Node.half, Node.capacity])
  refine ⟨hbeyond, ?_, ?_⟩
  · have hrest := hg.rest
    rw [hbeyond] at hrest
    cases hr : g.rest with
    | nil => rfl
    | cons e edits =>
        rw [hr] at hrest
        cases hrest
  · by_contra hcov
    have hcalm := hg.calm (by simpa using hcov)
    have hc := hg.cells_eq
    rw [hcells, Store.contents_append] at hc
    have hlast : s.contents visited = [] ∧ s.contents [last] = [] := by
      simpa using hc.symm
    exact hcalm.nonempty (by simpa using hlast.2)

theorem Kept.exists_start {f : Frontier} {row : List Handle}
    (hk : Kept height f done row) (hne : done ≠ []) :
    ∃ start ∈ done, f.kept = some start ∨
      f.kept = none ∧ f.tree.leftmostAt height = .ok start := by
  cases hf : f.kept with
  | some h => exact ⟨h, hk.mem h hf, Or.inl rfl⟩
  | none =>
      obtain ⟨h, hh, hhead⟩ := hk.leftmost hf
      obtain ⟨k, done, rfl⟩ := List.exists_cons_of_ne_nil hne
      obtain rfl : k = h := by simpa using hhead
      exact ⟨k, by simp, Or.inr ⟨rfl, hh⟩⟩

/-- The level ends behind its last node that is done, where the rest holds no
cells. -/
theorem Underway.cut {s s' : Store} {init row : List Handle} {final : Handle}
    (u : Underway s height (init ++ [final]) row) (hrow : row ≠ [])
    (hempty : s.contents row = []) (hall : s'.allocated = s.allocated)
    (hnode : ∀ k, s'.node k = if k = final then { s.node k with right := .null }
      else s.node k) : Underway s' height (init ++ [final]) [] := by
  have hcells : ∀ k, (s'.node k).cells = (s.node k).cells := fun k => by
    rw [hnode]
    split <;> rfl
  have hparent : ∀ k, (s'.node k).parent = (s.node k).parent := fun k => by
    rw [hnode]
    split <;> rfl
  have hheight : ∀ k, (s'.node k).height = (s.node k).height := fun k => by
    rw [hnode]
    split <;> rfl
  have hcont : s'.contents (init ++ [final] ++ []) =
      s.contents (init ++ [final] ++ row) := by
    rw [Store.contents_congr fun k _ => hcells k, List.append_nil,
      Store.contents_append (l := init ++ [final]), hempty, List.append_nil]
  have hlive : ∀ k, s'.contains k = s.contains k := by
    intro k
    exact Store.contains_eq_of_allocated_eq hall
  have hsub : (init ++ [final] ++ []).Sublist (init ++ [final] ++ row) :=
    (List.nil_sublist row).append_left _
  have hnd := (List.nodup_append.mp u.nodup).1
  exact
    { live := fun h hh => (hlive h).trans (u.live h (hsub.subset hh))
      height_eq :=
        fun h hh => (hheight h).trans (u.height_eq h (hsub.subset hh))
      nodup := u.nodup.sublist hsub
      linked := by
        have hl :=
          (Store.linked_append.mp (Store.linked_append.mp u.linked).1).1
        rw [List.append_nil, Store.linked_append]
        refine ⟨(Store.linked_congr ?_).mpr hl, ?_, trivial⟩
        · intro h hh
          rw [hnode, if_neg fun heq => (List.nodup_append.mp hnd).2.2 h hh
            final (by simp) heq]
        · rw [hnode, if_pos rfl]
          rfl
      increasing := hcont ▸ u.increasing
      owns := fun p hp c hc => by
        rw [Node.children_eq, hcells p] at hc
        rw [hparent]
        exact u.owns p (hsub.subset hp) c hc
      nonempty := fun h hh => (hcells h).symm ▸ u.nonempty h hh
      half := fun h => absurd rfl h
      half_dropLast := fun h hh => by
        rw [Node.size, hcells]
        exact u.half hrow h (List.dropLast_subset _ hh)
      children_live :=
        fun c hc => (hlive c).trans (u.children_live c (hcont ▸ hc))
      children_nodup := hcont ▸ u.children_nodup
      apart := fun c hc hm => u.apart c (hcont ▸ hc) (hsub.subset hm) }

theorem Underway.exists_cut {t : Tree} {start : Handle}
    (u : Underway t.store height done (left :: tail)) (hstart : start ∈ done) :
    ∃ s init final, done = init ++ [final] ∧
      cutBefore t height left (t.store.allocated + 1) start =
        .ok (⟨s, t.root⟩, final) ∧
      s.capacity = t.store.capacity ∧ s.allocated = t.store.allocated ∧
      ∀ k, s.node k = if k = final then { t.store.node k with right := .null }
        else t.store.node k := by
  obtain ⟨l, m, hlm⟩ := List.append_of_mem hstart
  have hmem : ∀ h ∈ done, h ∈ done ++ left :: tail :=
    fun h hh => List.mem_append_left _ hh
  have hsub : ∀ h ∈ start :: m, h ∈ done :=
    fun h hh => hlm ▸ List.mem_append_right _ hh
  obtain ⟨hnd, -, hdisj⟩ := List.nodup_append.mp u.nodup
  have hlinked := (Store.linked_append.mp u.linked).1
  rw [hlm] at hlinked
  have hlen : m.length < t.store.allocated + 1 := by
    have hle := Store.length_le_allocated hnd fun h hh => u.live h (hmem h hh)
    rw [hlm] at hle
    simp at hle
    omega
  have hleft : left ∉ m := by
    intro hm
    exact hdisj left (hsub left (List.mem_cons_of_mem _ hm)) left (by simp) rfl
  obtain ⟨s, final, hend, hcut, hcap, hall, hnode⟩ :=
    cutBefore_eq_ok height left
    (fun h hh => ⟨u.live h (hmem h (hsub h hh)),
    Store.increasing_cells u.increasing (hmem h (hsub h hh))⟩)
    (Store.linked_append.mp hlinked).2 hleft hlen
  obtain ⟨init, hinit⟩ : ∃ init, done = init ++ [final] := by
    refine List.getLast?_eq_some_iff.mp ?_
    rw [hlm, List.getLast?_append, hend]
    rfl
  exact ⟨s, init, final, hinit, hcut, hcap, hall, hnode⟩

/-- Dropping the rest of a level: the chain ends behind the last node that is
done, and the parents are told of all nodes that had come after it. -/
theorem dropTail_compacted {f : Frontier} {row : List Handle}
    (u : Underway f.tree.store height done row)
    (k : Known f.tree.store old parent row)
    (hg : Gathered f.tree.store old [] row g visited last beyond)
    (hV : visited ++ [last] = left :: tail) (hcells : g.cells = [])
    (hkept : Kept height f done row)
    (hne : f.tree.store.contents (done ++ row) ≠ []) :
    ∃ step, dropTail height f left g = .ok step ∧
      step.state.tree.root = f.tree.root ∧
      Compacted f.tree.store step.state.tree.store height old parent done row []
        step.staged := by
  obtain ⟨rfl, -, hcov⟩ := hg.of_cells_eq_nil hcells
  obtain ⟨⟨s, root⟩, kept⟩ := f
  obtain rfl : row = left :: tail := hg.row_eq.trans hV
  have hempty : s.contents (left :: tail) = [] := by
    have h := hg.cells_eq
    rw [hcells, hV] at h
    exact h.symm
  have hdone : done ≠ [] := by
    rintro rfl
    exact hne hempty
  obtain ⟨start, hstart, hstarteq⟩ := hkept.exists_start hdone
  obtain ⟨s', init, final, hinit, hcut, hcap, hall, hnode⟩ :=
    u.exists_cut (t := ⟨s, root⟩) hstart
  have hunder : Underway s' height done [] := by
    rw [hinit] at u ⊢
    exact u.cut (List.cons_ne_nil _ _) hempty hall hnode
  have hcells' : ∀ k, (s'.node k).cells = (s.node k).cells := fun k => by
    rw [hnode]
    split <;> rfl
  have hdrops : drops ⟨s, root⟩ g.absorbed =
      .ok (dropped old parent (left :: tail)) := by
    rw [hg.absorbed_eq, hcov, if_pos rfl, hV]
    exact drops_eq_ok fun h hh => u.parentOf k hh
  refine ⟨⟨⟨dropped old parent (left :: tail),
    [.tailEmptied height g.absorbed.length final]⟩, ⟨⟨s', root⟩, kept⟩⟩, ?_,
    rfl, ⟨⟨hcap, Nat.le_of_eq hall.symm, ?_, ?_⟩, hall, ?_, ?_, ?_,
    fun h _ => hcells' h, told_dropped _, timely_of_length_le (by simp), ?_⟩⟩
  · rw [dropTail, require_pos ⟨hcov, hg.right_eq u⟩, ok_bind, hdrops, ok_bind]
    rcases hstarteq with hk | ⟨hk, hleftmost⟩
    · obtain rfl : kept = some start := hk
      show (cutBefore ⟨s, root⟩ height left (s.allocated + 1) start >>=
        fun _ => _) = _
      rw [hcut]
      rfl
    · obtain rfl : kept = none := hk
      show ((Tree.mk s root).leftmostAt height >>= fun start =>
        cutBefore ⟨s, root⟩ height left (s.allocated + 1) start >>=
          fun _ => _) = _
      rw [hleftmost, ok_bind, hcut]
      rfl
  · intro k _ hk
    rw [hnode, if_neg]
    rintro rfl
    exact hk (List.mem_append_left _ (by simp [hinit]))
  · intro k _ _
    rw [hnode]
    split <;> rfl
  · rw [List.append_nil]
    exact hunder
  · obtain ⟨p, rest, rfl⟩ := List.exists_cons_of_ne_nil hdone
    rfl
  · rw [List.append_nil, Store.contents_congr fun k _ => hcells' k,
      Store.contents_append, hempty, List.append_nil]
  · exact fun h am => absurd (List.flatMap_eq_nil_iff.mp hempty h am.mem)
      am.nonempty

end Group

/-! ## The whole level

Compaction has one lemma for each thing that it can meet next. Each says that
the step goes through, and that it ends the level or leaves the rest of it
`Ready` again, with fewer edits to go. -/

section Level

variable {height : Nat} {old : Handle → Key} {parent : Handle → Handle}

theorem compactFrom_of_group {f : Frontier} {e : Edit} {edits : List Edit}
    {g : Group} {step rest : Step Frontier} (hu : e.flags.underflow = true)
    (hg : gather f.tree height [] e.target (e :: edits) = .ok g)
    (hs : compactGroup height f e g = .ok step)
    (hr : compactFrom height step.state g.rest = .ok rest) :
    compactFrom height f (e :: edits) = .ok {
      state := rest.state
      staged := step.staged ++ rest.staged
      events := step.events ++ rest.events } := by
  rw [compactFrom, if_pos hu]
  split
  · next h =>
      rw [hg] at h
      cases h
  · next h =>
      rw [hg] at h
      cases h
      rw [hs, ok_bind, hr]
      rfl

theorem compactFrom_of_rekey {f : Frontier} {h : Handle} {edits : List Edit}
    {rest : Step Frontier}
    (hf : (flag f.tree.store old h).flags = { changeKey := true })
    (hp : f.tree.parentOf h = .ok (parent h))
    (hr : compactFrom height { f with kept := some h } edits = .ok rest) :
    compactFrom height f (flag f.tree.store old h :: edits) = .ok {
      state := rest.state
      staged := .changeKey (old h) (f.tree.store.node h).firstKey
        (parent h) :: rest.staged
      events := rest.events } := by
  have htarget : (flag f.tree.store old h).target = h := rfl
  have hu : ¬(flag f.tree.store old h).flags.underflow = true := by simp [hf]
  rw [compactFrom, if_neg hu, if_pos hf, htarget, hp, ok_bind]
  show (compactFrom height { f with kept := some h } edits >>=
    fun rest => _) = _
  rw [hr]
  rfl

section Steps

variable {f : Frontier} {e : Edit} {g : Group} {n : Node} {first : Cell}
  {cells : List Cell} {t' : Tree} {staged : List Edit}
  (hread : f.tree.store.read e.target = .ok n)
  (hcells : g.cells = first :: cells)
include hread hcells

theorem compactGroup_of_fit (hlen : g.cells.length ≤ Node.capacity)
    (hfit : fit f.tree height e.target n g = .ok (t', staged)) :
    compactGroup height f e g = .ok {
      state := ⟨t', some e.target⟩
      staged := (if first.key = e.key then []
        else [.changeKey e.key first.key n.parent]) ++ staged
      events := [.compacted e.target height g.cells.length] } := by
  rw [hcells] at hlen
  rw [compactGroup, hread, ok_bind, hcells]
  simp only [List.head?_cons, if_pos hlen, hfit]
  rfl

theorem compactGroup_of_part {heir : Handle}
    (hlen : Node.capacity < g.cells.length)
    (hpart : part f.tree height e.target n g = .ok (t', staged, heir)) :
    compactGroup height f e g = .ok {
      state := ⟨t', some heir⟩
      staged := (if first.key = e.key then []
        else [.changeKey e.key first.key n.parent]) ++ staged
      events := [.compacted e.target height g.cells.length] } := by
  rw [hcells] at hlen
  rw [compactGroup, hread, ok_bind, hcells]
  simp only [List.head?_cons, if_neg (Nat.not_le_of_lt hlen), hpart]
  rfl

end Steps

theorem flags_of_half {s : Store} {h : Handle}
    (hhalf : Node.half ≤ (s.node h).size)
    (hflags : (flag s old h).flags.isEmpty = false) :
    (s.node h).cells ≠ [] ∧ (flag s old h).flags = { changeKey := true } := by
  have hcells : (s.node h).cells ≠ [] := by
    intro h0
    rw [Node.size, h0] at hhalf
    simp [Node.half, Node.capacity] at hhalf
  have hempty : (s.node h).isEmpty = false := by
    simpa [Node.isEmpty] using hcells
  have hunder : (s.node h).underfull = false := by
    simpa [Node.underfull] using hhalf
  have hkey : (s.node h).firstKey ≠ old h := fun heq => by
    simp [flag, Edit.flagged, Flags.isEmpty, hempty, heq, hunder] at hflags
  exact ⟨hcells, by simp [flag, Edit.flagged, hempty, hkey, hunder]⟩

namespace Ready

variable {f : Frontier} {done row rest visited beyond : List Handle}
  {left last : Handle} {e : Edit} {edits : List Edit} {g : Group}

theorem exists_split (r : Ready height old parent f done row (e :: edits)) :
    ∃ front h rest, row = front ++ h :: rest ∧ e = flag f.tree.store old h ∧
      Underway f.tree.store height done (front ++ h :: rest) ∧
      Known f.tree.store old parent (front ++ h :: rest) ∧
      Advance f.tree.store f.tree.store height h old parent front front [] ∧
      Ready height old parent f (done ++ front) (h :: rest)
        (flag f.tree.store old h :: edits) ∧
      e.flags.isEmpty = false ∧ Flagged f.tree.store old rest edits := by
  obtain ⟨front, h, rest, rfl, rfl, hflags, hfront, hrest⟩ :=
    r.flagged.exists_split
  have ha := advance_calm r.underway r.known (fun p hp => (hfront p hp).1)
    (fun _ p hp => (hfront p hp).2) fun p hp =>
    (hfront p (List.dropLast_subset _ hp)).2
  refine ⟨front, h, rest, rfl, rfl, r.underway, r.known, ha, ?_, hflags, hrest⟩
  exact
    { underway := r.underway.advance ha
      flagged := .flagged hflags hrest
      known := r.known.sublist (List.sublist_append_right front (h :: rest))
      kept := ⟨fun p hp => List.mem_append_left _ (r.kept.mem p hp),
        fun hp => by
          rw [List.append_assoc]
          exact r.kept.leftmost hp⟩
      stored := by
        rw [List.append_assoc]
        exact r.stored }

theorem exists_gathered (r : Ready height old parent f done (left :: row)
      (flag f.tree.store old left :: edits)) :
    ∃ g visited last beyond, gather f.tree height [] left
        (flag f.tree.store old left :: edits) = .ok g ∧
      Gathered f.tree.store old [] (left :: row) g visited last beyond :=
  gather_eq_ok height [] r.flagged
    (Store.linked_append.mp r.underway.linked).2
    (List.nodup_append.mp r.underway.nodup).2.1
    (fun _ hp => r.underway.live _ (List.mem_append_right _ hp))
    fun _ hp => Store.increasing_cells r.underway.increasing
      (List.mem_append_right _ hp)

theorem advance {f' : Frontier} {new : List Handle} {staged : List Edit}
    {edits' : List Edit}
    (r : Ready height old parent f done (row ++ rest) edits)
    (a : Advance f.tree.store f'.tree.store height (rest.head?.getD .null) old
      parent row new staged)
    (hf : Flagged f.tree.store old rest edits')
    (hkept : ∃ h ∈ new, f'.kept = some h) :
    Ready height old parent f' (done ++ new) rest edits' := by
  obtain ⟨h, hh, hkept⟩ := hkept
  have hrest : ∀ p ∈ rest, f'.tree.store.node p = f.tree.store.node p :=
    fun _ hp => a.rest_eq r.underway hp
  exact
    { underway := r.underway.advance a
      flagged := hf.congr hrest
      known :=
        (r.known.sublist (List.sublist_append_right row rest)).congr hrest
      kept := by
        refine ⟨fun p hp => List.mem_append_right _ ?_, fun hp => ?_⟩
        · obtain rfl : h = p := Option.some.inj (hkept.symm.trans hp)
          exact hh
        · rw [hkept] at hp
          cases hp
      stored := by
        rw [a.contents_all r.underway]
        exact r.stored }

theorem rekey (r : Ready height old parent f done (left :: row)
      (flag f.tree.store old left :: edits))
    (hunder : (f.tree.store.node left).underfull = false)
    (hflags : (flag f.tree.store old left).flags.isEmpty = false)
    (hrest : Flagged f.tree.store old row edits) :
    (flag f.tree.store old left).flags = { changeKey := true } ∧
      Advance f.tree.store f.tree.store height (row.head?.getD .null) old parent
        [left] [left]
        [.changeKey (old left) (f.tree.store.node left).firstKey
          (parent left)] ∧
      Ready height old parent { f with kept := some left } (done ++ [left]) row
        edits := by
  have hhalf : Node.half ≤ (f.tree.store.node left).size := by
    simpa [Node.underfull] using hunder
  obtain ⟨hcells, hflags⟩ := flags_of_half hhalf hflags
  have ha := advance_rekey r.underway r.known hcells hhalf
  have r' : Ready height old parent f done ([left] ++ row)
      (flag f.tree.store old left :: edits) := r
  exact ⟨hflags, ha, r'.advance ha hrest
    ⟨left, List.mem_singleton_self left, rfl⟩⟩

/-- What compaction does to a group: it ends the level, or replaces the
nodes of the group and goes on behind them. -/
theorem compactGroup_eq_ok (r : Ready height old parent f done (left :: row)
      (flag f.tree.store old left :: edits))
    (hg : Gathered f.tree.store old [] (left :: row) g visited last beyond)
    (hgather : gather f.tree height [] left
      (flag f.tree.store old left :: edits) = .ok g) :
    ∃ step, compactGroup height f (flag f.tree.store old left) g = .ok step ∧
      step.state.tree.root = f.tree.root ∧
      ((g.rest = [] ∧ Compacted f.tree.store step.state.tree.store height old
          parent done (left :: row) [] step.staged) ∨
        ∃ new, Advance f.tree.store step.state.tree.store height
          (beyond.head?.getD .null) old parent
          (visited ++ [last]) new step.staged ∧
          Ready height old parent step.state (done ++ new) beyond g.rest) := by
  have u := r.underway
  have k := r.known
  obtain ⟨tail, hV⟩ : ∃ tail, visited ++ [last] = left :: tail := by
    have hrow := hg.row_eq
    cases visited with
    | nil => exact ⟨[], by rw [(List.cons.inj hrow).1]; rfl⟩
    | cons p mid => exact ⟨mid ++ [last], by rw [(List.cons.inj hrow).1]; rfl⟩
  have hread : f.tree.store.read (flag f.tree.store old left).target =
      .ok (f.tree.store.node left) :=
    u.read (List.mem_append_right _ (List.mem_cons_self (a := left)))
  have hcov : visited = [] → g.covered = true :=
    hg.covered_of_nil hgather (List.nodup_append.mp u.nodup).2.1
  have r' : Ready height old parent f done ((visited ++ [last]) ++ beyond)
      (flag f.tree.store old left :: edits) := hg.split ▸ r
  have hparent := k.parent_eq left List.mem_cons_self
  cases hcells : g.cells with
  | nil =>
      obtain ⟨step, hstep, hroot, hc⟩ :=
        dropTail_compacted u k hg hV hcells r.kept r.stored
      refine ⟨step, ?_, hroot, Or.inl ⟨(hg.of_cells_eq_nil hcells).2.1, hc⟩⟩
      rw [compactGroup, hread, ok_bind, hcells]
      exact hstep
  | cons first cells =>
      by_cases hlen : g.cells.length ≤ Node.capacity
      · obtain ⟨t', staged, hfit, hroot, ha⟩ :=
          fit_advance u k hg hV hcov hcells hlen
        rw [← hV, ← hparent] at ha
        exact ⟨_, compactGroup_of_fit hread hcells hlen hfit, hroot,
          Or.inr ⟨[left], ha, r'.advance ha hg.rest ⟨left, by simp, rfl⟩⟩⟩
      · have hlen := Nat.lt_of_not_le hlen
        obtain ⟨p, between, rfl⟩ :=
          List.exists_cons_of_ne_nil (hg.visited_ne_nil hlen)
        obtain ⟨rfl, rfl⟩ := List.cons.inj hV
        obtain ⟨t', middle, hp⟩ := hg.exists_parted u k hcells hlen
        have ha := hp.advance
        rw [← hparent] at ha
        exact ⟨_, compactGroup_of_part hread hcells hlen hp.part_eq,
          hp.root_eq, Or.inr ⟨[p, last], ha, r'.advance ha hg.rest
            ⟨last, by simp, rfl⟩⟩⟩

/-- **The compaction of a level.** By induction on the edits that are left. A
group uses up the edits of all its nodes, so the recursion is on their
number. -/
theorem compactFrom_eq_ok :
    ∀ (edits : List Edit) {f : Frontier} {done row : List Handle},
    Ready height old parent f done row edits →
    ∃ step new, compactFrom height f edits = .ok step ∧
      step.state.tree.root = f.tree.root ∧
      Compacted f.tree.store step.state.tree.store height old parent done
        row new step.staged
  | [], f, done, row, r => by
      obtain ⟨hcalm, hdrop⟩ := r.flagged.calm_of_nil
      have u := r.underway
      have k := r.known
      rw [← List.append_nil row] at u k ⊢
      have ha := advance_calm u k hcalm (fun h => absurd rfl h) hdrop
      refine ⟨⟨⟨[], []⟩, f⟩, row ++ [], by rw [compactFrom], rfl, ?_⟩
      exact Compacted.cons u k ha (.nil (u.advance ha))
  | e :: edits, f, done, row, r => by
      obtain ⟨front, h, rest, rfl, rfl, u, k, ha, r', hflags, hrest⟩ :=
        r.exists_split
      suffices hsuff : ∃ step new, compactFrom height f
          (flag f.tree.store old h :: edits) =
          .ok step ∧ step.state.tree.root = f.tree.root ∧ Compacted f.tree.store
            step.state.tree.store height old parent (done ++ front) (h :: rest)
              new step.staged by
        obtain ⟨step, new, hstep, hroot, hc⟩ := hsuff
        exact ⟨step, front ++ new, hstep, hroot, Compacted.cons u k ha hc⟩
      cases hunder : (f.tree.store.node h).underfull with
      | true =>
          obtain ⟨g, visited, last, beyond, hgather, hg⟩ := r'.exists_gathered
          obtain ⟨step, hstep, hroot, hcase⟩ := r'.compactGroup_eq_ok hg hgather
          rcases hcase with ⟨hnil, hc⟩ | ⟨new, hadv, hnext⟩
          · refine ⟨⟨⟨step.staged ++ [], step.events ++ []⟩, step.state⟩,
              [], ?_, hroot, ?_⟩
            · exact compactFrom_of_group hunder hgather hstep
                (by rw [hnil, compactFrom])
            · simpa using hc
          · have hlen := length_rest_le (e := flag f.tree.store old h) hgather
            obtain ⟨step₂, new₂, hstep₂, hroot₂, hc⟩ :=
              compactFrom_eq_ok g.rest hnext
            have u' := r'.underway
            have k' := r'.known
            rw [hg.split] at u' k' ⊢
            exact ⟨_, new ++ new₂,
              compactFrom_of_group hunder hgather hstep hstep₂,
              hroot₂.trans hroot, Compacted.cons u' k' hadv hc⟩
      | false =>
          obtain ⟨hflags, hadv, hnext⟩ := r'.rekey hunder hflags hrest
          obtain ⟨step, new, hstep, hroot, hc⟩ := compactFrom_eq_ok edits hnext
          have u' : Underway f.tree.store height (done ++ front)
            ([h] ++ rest) := r'.underway
          have k' : Known f.tree.store old parent ([h] ++ rest) := r'.known
          refine ⟨⟨⟨.changeKey (old h) (f.tree.store.node h).firstKey
            (parent h) :: step.staged, step.events⟩, step.state⟩, h :: new, ?_,
            hroot, Compacted.cons u' k' hadv hc⟩
          exact compactFrom_of_rekey hflags
            (r'.underway.parentOf r'.known List.mem_cons_self) hstep
termination_by edits => edits.length

end Ready

end Level

end Remove

end LevelIndex
