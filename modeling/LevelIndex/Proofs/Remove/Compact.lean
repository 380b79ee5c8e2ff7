import LevelIndex.Proofs.Remove.Advance

/-!
# Compacting a group

The nodes of a group with cells are replaced by one node or by two:
`fit_advance` and `Gathered.exists_parted`. Where there are two, the second is
always the last node of the group: the nodes before it hold less than half a
node's cells, so the middle one of more than a node's cells is a cell of the
last (`Gathered.upper_eq`). For the same reason either half fits a node and is
half a node's or more (`Gathered.halves`), and a group that has nodes before its
last takes in no ample one (`Gathered.eq_nil_of_ample`).

What the parents are told is read off the nodes of the group one by one. The
first stays, under the first key of the group (`Told.head`). The others are all
dropped where the cells fit one node (`Gathered.drops_tail`); otherwise the last
is put under the middle key, and the nodes in between are dropped
(`Gathered.settle_tail`). Two nodes are written then, the first and the last,
and the two commits do not get in each other's way (`Gathered.advance_both`).
-/

namespace LevelIndex

namespace Remove

/-- What compaction relies on of the nodes still to come. -/
structure Known (s : Store) (old : Handle → Key) (parent : Handle → Handle)
    (row : List Handle) : Prop where
  parent_eq : ∀ h ∈ row, (s.node h).parent = parent h
  old_le : ∀ h ∈ row, ∀ c ∈ (s.node h).cells, old h ≤ c.key
  ascending : Ascending (row.map old)
  /-- In front of any node, all cells but the last two lie before where it
  started. -/
  paced : ∀ front p, (front ++ [p]).Sublist row →
    ∀ a b c, [a, b, c].Sublist (s.contents front) → a.key < old p

section Known

variable {s s' : Store} {old : Handle → Key} {parent : Handle → Handle}
  {row row' : List Handle}

theorem Known.sublist (k : Known s old parent row) (h : row'.Sublist row) :
    Known s old parent row' where
  parent_eq p hp := k.parent_eq p (h.subset hp)
  old_le p hp := k.old_le p (h.subset hp)
  ascending := k.ascending.sublist (h.map old)
  paced front p hp := k.paced front p (hp.trans h)

theorem Known.congr (k : Known s old parent row)
    (h : ∀ p ∈ row, s'.node p = s.node p) : Known s' old parent row where
  parent_eq p hp := by rw [h p hp, k.parent_eq p hp]
  old_le p hp := by
    rw [h p hp]
    exact k.old_le p hp
  ascending := k.ascending
  paced front p hp a b c habc := by
    have hsame : s'.contents front = s.contents front :=
      Store.contents_congr fun q hq => by
        rw [h q (hp.subset (List.mem_append_left _ hq))]
    exact k.paced front p hp a b c (hsame ▸ habc)

theorem Known.head_lt (k : Known s old parent row) {front : List Handle}
    {p : Handle} (hp : (front ++ [p]).Sublist row) {a : Cell} {cells : List Cell}
    (hc : cells.Sublist (s.contents front)) (hlen : 3 ≤ cells.length)
    (ha : cells.head? = some a) : a.key < old p := by
  match cells with
  | x :: y :: z :: rest =>
      obtain rfl : x = a := Option.some.inj ha
      refine k.paced front p hp x y z (List.Sublist.trans ?_ hc)
      simp
  | [] | [_] | [_, _] => simp at hlen

theorem Known.old_le_of_mem {h : Handle} (k : Known s old parent (h :: row))
    {c : Cell} (hc : c ∈ s.contents (h :: row)) : old h ≤ c.key := by
  obtain ⟨p, hp, hc⟩ := Store.mem_contents.mp hc
  refine Int64.le_trans ?_ (k.old_le p hp c hc)
  rcases List.mem_cons.mp hp with rfl | hp
  · exact Int64.le_refl _
  · exact Int64.le_of_lt
      (List.rel_of_pairwise_cons k.ascending (List.mem_map_of_mem hp))

end Known

section Edits

variable {s : Store} {t : Tree} {old : Handle → Key} {parent : Handle → Handle}

theorem drops_eq_ok {row : List Handle}
    (hr : ∀ h ∈ row, t.parentOf h = .ok (parent h)) :
    drops t (row.map (flag s old)) = .ok (dropped old parent row) := by
  rw [drops, mapM_eq_ok
    (g := fun e : Edit => Edit.remove e.key (parent e.target))]
  · rw [List.map_map]
    rfl
  · intro e he
    obtain ⟨h, hh, rfl⟩ := List.mem_map.mp he
    show (t.parentOf h >>= fun _ => _) = _
    rw [hr h hh]
    rfl

/-- The first node of a group stays, under the first key of the group. It is
reported only if it has started at another one. -/
theorem Told.head {h : Handle} {row : List Handle} {staged : List Edit}
    {links : List Cell} {key : Key} (hle : old h ≤ key)
    (ht : Told old parent row staged links) :
    Told old parent (h :: row)
      ((if key = old h then []
        else [Edit.changeKey (old h) key (parent h)]) ++ staged)
      (⟨key, .child h⟩ :: links) := by
  split
  · next heq =>
      rw [heq]
      exact .stay ht
  · exact .rekey key hle ht

theorem lastNotAbove?_append_singleton {key : Key} {e : Edit}
    (h : e.key ≤ key) :
    ∀ l : List Edit, lastNotAbove? key (l ++ [e]) = some (l.length, e)
  | [] => by simp [lastNotAbove?, h]
  | a :: l => by
      rw [List.cons_append, lastNotAbove?, lastNotAbove?_append_singleton h l]
      rfl

end Edits

section Group

variable {t : Tree} {height : Nat} {done beyond visited : List Handle}
  {left last : Handle} {old : Handle → Key} {parent : Handle → Handle}
  {g : Group} {tail : List Handle}

theorem Underway.parentOf {row : List Handle}
    (u : Underway t.store height done row) (k : Known t.store old parent row)
    {h : Handle} (hh : h ∈ row) : t.parentOf h = .ok (parent h) := by
  rw [← k.parent_eq h hh]
  exact Tree.parentOf_eq_ok (u.read (List.mem_append_right _ hh))

theorem Underway.parentOf_eq {row rest written : List Handle} {s' : Store}
    {root : Handle} (u : Underway t.store height done (row ++ rest))
    (k : Known t.store old parent (row ++ rest))
    (f : Store.Frame t.store s' written (childrenOf (t.store.contents row)))
    {h : Handle} (hh : h ∈ row ++ rest)
    (hi : h ∈ written → Increasing (s'.node h).cells) :
    (Tree.mk s' root).parentOf h = .ok (parent h) := by
  have hmem : h ∈ done ++ (row ++ rest) := List.mem_append_right _ hh
  have hinc : Increasing (s'.node h).cells := by
    by_cases hw : h ∈ written
    · exact hi hw
    · rw [u.node_eq f hmem hw]
      exact Store.increasing_cells u.increasing hmem
  have hread : s'.read h = .ok (s'.node h) :=
    Store.read_eq_ok (f.contains (u.live h hmem)) hinc
  have hparent : (s'.node h).parent = parent h := by
    rw [f.parent h (u.live h hmem) fun hm => u.apart h ?_ hmem,
      k.parent_eq h hh]
    rw [Store.contents_append, Store.contents_append, childrenOf_append,
      childrenOf_append]
    exact List.mem_append_right _ (List.mem_append_left _ hm)
  rw [← hparent]
  exact Tree.parentOf_eq_ok hread

theorem Gathered.covered_of_nil {row : List Handle} {edits : List Edit}
    {h : Handle} (hg : Gathered t.store old [] (h :: row) g visited last beyond)
    (hgather : gather t height [] h (flag t.store old h :: edits) = .ok g)
    (hnd : (h :: row).Nodup) (hv : visited = []) : g.covered = true := by
  by_contra hcov
  have hcov : g.covered = false := by simpa using hcov
  have happ := absorbed_append_rest hgather
  have hab := hg.absorbed_eq
  subst hv
  rw [hcov] at hab
  rw [hab] at happ
  have hrest : g.rest = flag t.store old h :: edits := happ
  have hmem : h ∈ beyond :=
    hg.rest.target_mem (e := flag t.store old h) (by simp [hrest])
  obtain ⟨rfl, rfl⟩ := List.cons.inj hg.row_eq
  exact (List.nodup_cons.mp hnd).1 hmem

theorem Gathered.drops_tail {t' : Tree} {row : List Handle}
    (hg : Gathered t.store old [] row g visited last beyond)
    (k : Known t.store old parent row) (hV : visited ++ [last] = left :: tail)
    (hcov : visited = [] → g.covered = true)
    (hr : ∀ h ∈ tail, t'.parentOf h = .ok (parent h)) :
    ∃ staged, drops t' g.absorbed.tail = .ok staged ∧
      staged ++
        (if g.covered then []
        else [Edit.remove g.tailNode.firstKey g.tailNode.parent]) =
        dropped old parent tail := by
  rw [hg.absorbed_eq, hg.tailNode_eq]
  cases visited with
  | nil =>
      obtain ⟨rfl, rfl⟩ := List.cons.inj hV
      rw [hcov rfl]
      exact ⟨[], rfl, rfl⟩
  | cons p mid =>
      obtain ⟨rfl, rfl⟩ := List.cons.inj hV
      by_cases hc : g.covered = true
      · rw [hc]
        exact ⟨dropped old parent (mid ++ [last]), drops_eq_ok hr,
          List.append_nil _⟩
      · have hcalm := hg.calm (by simpa using hc)
        have hlast : last ∈ row := by simp [hg.row_eq]
        rw [if_neg hc]
        refine ⟨dropped old parent mid, ?_, ?_⟩
        · have h : drops t' (mid.map (flag t.store old)) =
              .ok (dropped old parent mid) :=
            drops_eq_ok fun h hh => hr h (List.mem_append_left _ hh)
          simpa using h
        · simp [dropped, hc, hcalm.firstKey_eq, k.parent_eq last hlast]

theorem Gathered.split {row : List Handle}
    (hg : Gathered t.store old [] row g visited last beyond) :
    row = visited ++ [last] ++ beyond := by
  rw [hg.row_eq, List.append_assoc]
  rfl

theorem Gathered.mem_level {row : List Handle}
    (hg : Gathered t.store old [] row g visited last beyond) {h : Handle}
    (hh : h ∈ visited ++ [last]) : h ∈ done ++ row := by
  rw [hg.split]
  exact List.mem_append_right _ (List.mem_append_left _ hh)

theorem Gathered.nodup {row : List Handle}
    (u : Underway t.store height done row)
    (hg : Gathered t.store old [] row g visited last beyond) :
    (visited ++ [last]).Nodup := by
  have hrow := (List.nodup_append.mp u.nodup).2.1
  rw [hg.split] at hrow
  exact (List.nodup_append.mp hrow).1

theorem Gathered.right_eq {row : List Handle}
    (u : Underway t.store height done row)
    (hg : Gathered t.store old [] row g visited last beyond) :
    g.tailNode.right = beyond.head?.getD .null := by
  have hl := u.linked
  rw [hg.row_eq, Store.linked_append, Store.linked_append] at hl
  rw [hg.tailNode_eq]
  exact hl.2.2.1

theorem Gathered.children {row : List Handle}
    (u : Underway t.store height done row)
    (hg : Gathered t.store old [] row g visited last beyond) {c : Handle}
    (hc : c ∈ childrenOf g.cells) :
    t.store.contains c = true ∧ c ∉ visited ++ [last] := by
  rw [hg.cells_eq, List.nil_append] at hc
  have hall : c ∈ childrenOf (t.store.contents (done ++ row)) := by
    rw [hg.split, Store.contents_append, Store.contents_append,
      childrenOf_append, childrenOf_append]
    exact List.mem_append_right _ (List.mem_append_left _ hc)
  exact ⟨u.children_live c hall, fun hm => u.apart c hall (hg.mem_level hm)⟩

theorem Gathered.increasing {row : List Handle}
    (u : Underway t.store height done row)
    (hg : Gathered t.store old [] row g visited last beyond) :
    Increasing g.cells := by
  have hi := u.increasing
  rw [hg.split, Store.contents_append, Store.contents_append] at hi
  rw [hg.cells_eq]
  exact (List.pairwise_append.mp (List.pairwise_append.mp hi).2.1).1

theorem Gathered.children_nodup {row : List Handle}
    (u : Underway t.store height done row)
    (hg : Gathered t.store old [] row g visited last beyond) :
    (childrenOf g.cells).Nodup := by
  have hn := u.children_nodup
  rw [hg.split, Store.contents_append, Store.contents_append, childrenOf_append,
    childrenOf_append] at hn
  rw [hg.cells_eq]
  exact (List.nodup_append.mp (List.nodup_append.mp hn).2.1).1

/-- A group takes in no ample node with another one. Of an ample node and the
node before it either has cells for half a node by itself, which is more than
all nodes of a group before its last have together. -/
theorem Gathered.eq_nil_of_ample {row : List Handle} {h : Handle}
    (hg : Gathered t.store old [] row g visited last beyond)
    (am : Ample t.store (visited ++ [last]) h) : visited = [] := by
  by_contra hne
  have hlarge : ∃ p ∈ visited, Node.half ≤ (t.store.node p).size := by
    rcases List.mem_append.mp am.mem with hh | hh
    · exact ⟨h, hh, am.half (by rwa [List.dropLast_concat])⟩
    · obtain rfl := List.mem_singleton.mp hh
      refine ⟨visited.getLast hne, List.getLast_mem hne, am.before _ ?_⟩
      refine List.IsSuffix.isInfix ⟨visited.dropLast, ?_⟩
      rw [List.append_cons, List.dropLast_append_getLast hne]
  obtain ⟨p, hp, hhalf⟩ := hlarge
  have hshort := hg.short hne
  have hle : (t.store.node p).size ≤ (t.store.contents visited).length := by
    obtain ⟨l, m, rfl⟩ := List.append_of_mem hp
    rw [Store.contents_append, Store.contents_cons, List.length_append,
      List.length_append, Node.size]
    omega
  rw [List.nil_append] at hshort
  omega

/-- A group whose cells fit a node is put into its first node. The others are
dropped, and the parents are told so. -/
theorem fit_advance {row : List Handle} {first : Cell} {cells : List Cell}
    (u : Underway t.store height done row) (k : Known t.store old parent row)
    (hg : Gathered t.store old [] row g visited last beyond)
    (hV : visited ++ [last] = left :: tail)
    (hcov : visited = [] → g.covered = true) (hfirst : g.cells = first :: cells)
    (hlen : g.cells.length ≤ Node.capacity) :
    ∃ t' staged, fit t height left (t.store.node left) g = .ok (t', staged) ∧
      t'.root = t.root ∧
      Advance t.store t'.store height (beyond.head?.getD .null) old parent
        (left :: tail) [left]
        ((if first.key = old left then [] else
          [.changeKey (old left) first.key (parent left)]) ++ staged) := by
  obtain ⟨s, root⟩ := t
  have hrow : row = (left :: tail) ++ beyond := hV ▸ hg.split
  have hcells : g.cells = s.contents (left :: tail) := by
    rw [hg.cells_eq, hV]
    rfl
  have hleft : left ∈ done ++ row := hg.mem_level (hV ▸ List.mem_cons_self)
  have hnd : (left :: tail).Nodup := hV ▸ hg.nodup u
  let n : Node :=
    ⟨height, (s.node left).parent, g.tailNode.right, g.cells, hlen⟩
  obtain ⟨s', hcommit, hall, hself, hframe, howns⟩ := Store.exists_commit_frame
    (n := n) (u.live left hleft) (hg.increasing u)
    (fun c hc => (hg.children u hc).1)
    (fun hm => (hg.children u hm).2 (hV ▸ List.mem_cons_self)) rfl
  have hframe' : Store.Frame s s' [left]
      (childrenOf (s.contents (left :: tail))) := by
    rwa [← hcells]
  have hparent : ∀ h ∈ tail, (Tree.mk s' root).parentOf h = .ok (parent h) := by
    intro h hh
    refine Underway.parentOf_eq (t := ⟨s, root⟩) (hrow ▸ u) (hrow ▸ k) hframe'
      (List.mem_append_left _ (List.mem_cons_of_mem _ hh)) ?_
    intro heq
    rw [List.mem_singleton.mp heq] at hh
    exact absurd hh (List.nodup_cons.mp hnd).1
  obtain ⟨staged, hdrops, hstaged⟩ := hg.drops_tail k hV hcov hparent
  refine ⟨⟨s', root⟩, dropped old parent tail, ?_, rfl, hframe', hall,
    List.singleton_sublist.mpr (by simp), rfl, ?_, ⟨?_, trivial⟩, ?_, ?_, ?_,
    ?_, by simp, ?_, ?_, ?_⟩
  · rw [fit, Node.ofCells_of_length_le hlen]
    show (Tree.commit ⟨s, root⟩ left n >>=
      fun t' => drops t' g.absorbed.tail >>= fun _ => _) = _
    rw [Tree.commit_eq_ok hcommit, ok_bind, hdrops, ← hstaged]
    rfl
  · simp [hself, n]
  · rw [hself]
    exact hg.right_eq u
  · simp [hself, n, hcells]
  · intro p hp c hc
    rw [List.mem_singleton.mp hp] at hc ⊢
    rw [hself] at hc
    exact howns c hc
  · simp [hself, n, hfirst]
  · intro hstop h hh
    rw [List.mem_singleton.mp hh, hself]
    refine hg.enough.resolve_left ?_
    rintro rfl
    exact hstop rfl
  · have hkey : (s'.node left).firstKey = first.key := by
      simp [hself, n, Node.firstKey, Node.keys, hfirst]
    rw [Store.links_cons, hkey]
    refine Told.head ?_ (told_dropped tail)
    refine (k.sublist (hrow ▸ List.sublist_append_left _ _)).old_le_of_mem ?_
    rw [← hcells, hfirst]
    simp
  · exact timely_of_length_le (by simp)
  · intro h am
    obtain rfl := hg.eq_nil_of_ample (hV ▸ am)
    obtain ⟨rfl, rfl⟩ := List.cons.inj hV
    obtain rfl := List.mem_singleton.mp am.mem
    exact ⟨List.mem_singleton_self _, by simp [hself, n, hcells]⟩

/-! ## Parting a group -/

/-- The last node of a group takes the upper half. It is the last whose old key
is not above the middle key, as the middle cell is one of its own. -/
theorem Gathered.heir_eq {row mid : List Handle} {midKey : Key}
    (hg : Gathered t.store old [] row g (left :: mid) last beyond)
    (hle : old last ≤ midKey) :
    heir? g midKey =
      some (if g.covered then .visited mid.length last else .tail) := by
  rw [heir?]
  by_cases hc : g.covered = true
  · have htail : g.absorbed.tail = mid.map (flag t.store old) ++
        [flag t.store old last] := by
      rw [hg.absorbed_eq, hc]
      simp
    have hkey : (flag t.store old last).key ≤ midKey := hle
    rw [htail, lastNotAbove?_append_singleton hkey, hc]
    simp
    rfl
  · have hcalm := hg.calm (by simpa using hc)
    rw [hg.tailNode_eq, hcalm.firstKey_eq, if_neg hc,
      if_pos (by simpa [hc] using hle)]

theorem Gathered.heir_handle {row mid : List Handle}
    (hg : Gathered t.store old [] row g visited last beyond) :
    (if g.covered then Heir.visited mid.length last else .tail) = .tail ∧
      g.tail = last ∨
      ∃ i, (if g.covered then Heir.visited mid.length last else .tail) =
        .visited i last := by
  by_cases hc : g.covered = true
  · exact Or.inr ⟨mid.length, if_pos hc⟩
  · exact Or.inl ⟨if_neg hc, hg.tail_eq⟩

theorem map_settle_eq_dropped {s : Store} {mid : List Handle} {midKey : Key}
    {heir : Heir} (h : ∀ i < mid.length, ∀ k, heir ≠ .visited i k) :
    (mid.map (flag s old)).zipIdx.map (fun x =>
      settle (heir = .visited x.2 x.1.target) x.1.key midKey
        (parent x.1.target)) =
        dropped old parent mid := by
  have hnot : ∀ x ∈ (mid.map (flag s old)).zipIdx,
      settle (heir = Heir.visited x.2 x.1.target) x.1.key midKey
        (parent x.1.target) =
        .remove x.1.key (parent x.1.target) := by
    intro x hx
    have hlt := List.snd_lt_of_mem_zipIdx hx
    have hne : heir ≠ Heir.visited x.2 x.1.target :=
      h x.2 (by simpa using hlt) x.1.target
    simp [settle, hne]
  have hfst : (mid.map (flag s old)).zipIdx.map
      (fun x => Edit.remove x.1.key (parent x.1.target)) =
        ((mid.map (flag s old)).zipIdx.map Prod.fst).map
          fun e => .remove e.key (parent e.target) := by
    rw [List.map_map]
    rfl
  rw [List.map_congr_left hnot, hfst, List.zipIdx_map_fst, List.map_map]
  rfl

/-- What is said of the nodes of a group after the first, where the last is put
under the middle key. The last node may be flagged itself or only have been
reached; either way it is the heir. -/
theorem Gathered.settle_tail {t' : Tree} {row mid : List Handle} (midKey : Key)
    (hg : Gathered t.store old [] row g (left :: mid) last beyond)
    (k : Known t.store old parent row)
    (hr : ∀ h ∈ mid ++ [last], t'.parentOf h = .ok (parent h)) {heir : Heir}
    (hheir : heir = if g.covered then Heir.visited mid.length
      last else Heir.tail) :
    ∃ staged, (g.absorbed.tail.zipIdx.mapM fun (e, i) => do
        let parent ← t'.parentOf e.target
        return settle (heir = Heir.visited i e.target) e.key midKey parent) =
          .ok staged ∧
      staged ++ (if g.covered then []
        else [settle (heir = Heir.tail) g.tailNode.firstKey midKey
        g.tailNode.parent]) = dropped old parent mid ++
        [.changeKey (old last) midKey (parent last)] := by
  have habs := hg.absorbed_eq
  have hmem : ∀ e ∈ g.absorbed.tail, e.target ∈ mid ++ [last] := by
    intro e he
    rw [habs, List.cons_append, List.map_cons, List.tail_cons] at he
    obtain ⟨h, hh, rfl⟩ := List.mem_map.mp he
    split at hh
    · exact hh
    · refine List.mem_append_left _ (?_ : h ∈ mid)
      simpa using hh
  have hmid : (mid.map (flag t.store old)).zipIdx.map (fun x =>
      settle (heir = .visited x.2 x.1.target) x.1.key midKey
        (parent x.1.target)) =
        dropped old parent mid := by
    refine map_settle_eq_dropped ?_
    intro i hi k
    rw [hheir]
    split
    · intro heq
      rw [Heir.visited.injEq] at heq
      omega
    · exact fun heq => by cases heq
  refine ⟨g.absorbed.tail.zipIdx.map fun x =>
    settle (heir = Heir.visited x.2 x.1.target) x.1.key midKey
      (parent x.1.target),
    mapM_eq_ok ?_, ?_⟩
  · rintro ⟨e, i⟩ hei
    have hp := hr e.target (hmem e (List.fst_mem_of_mem_zipIdx hei))
    show (t'.parentOf e.target >>= fun _ => _) = _
    rw [hp]
    rfl
  · by_cases hc : g.covered = true
    · have htail : g.absorbed.tail = mid.map (flag t.store old) ++
          [flag t.store old last] := by
        rw [habs, hc]
        simp
      have hlast : heir = .visited mid.length last := by rw [hheir, hc]; rfl
      rw [htail, List.zipIdx_append, List.map_append, hmid, hc]
      simp [settle, hlast, flag, Edit.flagged, Edit.changeKey]
    · have hcalm := hg.calm (by simpa using hc)
      have htail : g.absorbed.tail = mid.map (flag t.store old) := by
        rw [habs]
        simp [hc]
      have hlast : heir = .tail := by rw [hheir, if_neg hc]
      have hmemrow : last ∈ row := by simp [hg.row_eq]
      rw [htail, hmid, if_neg hc, hg.tailNode_eq, hcalm.firstKey_eq,
        k.parent_eq last hmemrow]
      simp [settle, hlast]

theorem part_eq_ok {t₁ t₂ : Tree} {leftNode lowerNode upperNode : Node}
    {heir : Heir} {midKey : Key} {owner : Handle} {others : List Edit}
    (hmid : ((g.cells.drop (g.cells.length / 2)).head?.map (·.key)).getD
      minKey = midKey) (hheir : heir? g midKey = some heir)
    (hhandle : heir = .tail ∧ g.tail = last ∨ ∃ i, heir = Heir.visited i last)
    (hparent : t.parentOf last = .ok owner)
    (hlower : Node.ofCells height leftNode.parent last
      (g.cells.take (g.cells.length / 2)) = .ok lowerNode)
    (hleft : t.commit left lowerNode = .ok t₁)
    (hupper : Node.ofCells height owner g.tailNode.right
      (g.cells.drop (g.cells.length / 2)) = .ok upperNode)
    (hlast : t₁.commit last upperNode = .ok t₂)
    (hothers : (g.absorbed.tail.zipIdx.mapM fun (e, i) => do
        let parent ← t₂.parentOf e.target
        return settle (heir = Heir.visited i e.target) e.key midKey parent) =
          .ok others) :
    part t height left leftNode g = .ok (t₂, others ++ (if g.covered then []
      else [settle (heir = .tail) g.tailNode.firstKey midKey
      g.tailNode.parent]), last) := by
  subst hmid
  dsimp only at hothers
  rw [part, hheir]
  rcases hhandle with ⟨rfl, htail⟩ | ⟨i, rfl⟩
  · dsimp only [ok_bind]
    rw [htail, hparent, ok_bind, hlower, ok_bind, hleft, ok_bind, hupper,
      ok_bind, hlast, ok_bind, hothers]
    rfl
  · dsimp only [ok_bind]
    rw [hparent, ok_bind, hlower, ok_bind, hleft, ok_bind, hupper, ok_bind,
      hlast, ok_bind, hothers]
    rfl

/-- The middle cell of a group with more than a node's cells is a cell of its
last node, as the others hold less than half a node's cells. -/
theorem Gathered.upper_eq {row : List Handle}
    (hg : Gathered t.store old [] row g visited last beyond) (hv : visited ≠ [])
    (hlen : Node.capacity < g.cells.length) :
    ∃ c upper, g.cells.drop (g.cells.length / 2) = c :: upper ∧
      c ∈ (t.store.node last).cells := by
  have hshort := hg.short hv
  have hcells : g.cells = t.store.contents visited ++
      (t.store.node last).cells := by
    rw [hg.cells_eq, Store.contents_append]
    simp
  have hdrop : ∀ m, (t.store.contents visited).length ≤ m →
      g.cells.drop m = (t.store.node last).cells.drop
        (m - (t.store.contents visited).length) := by
    intro m hm
    rw [hcells, List.drop_append, List.drop_eq_nil_of_le hm, List.nil_append]
  have hle : (t.store.contents visited).length ≤ g.cells.length / 2 := by
    simp only [List.nil_append, Node.half, Node.capacity] at hshort hlen
    omega
  have hne : g.cells.drop (g.cells.length / 2) ≠ [] := by
    rw [Ne, List.drop_eq_nil_iff]
    simp only [Node.capacity] at hlen
    omega
  obtain ⟨c, upper, hc⟩ := List.exists_cons_of_ne_nil hne
  refine ⟨c, upper, hc, ?_⟩
  have hmem : c ∈ g.cells.drop (g.cells.length / 2) := by simp [hc]
  rw [hdrop _ hle] at hmem
  exact List.mem_of_mem_drop hmem

theorem Gathered.length_lt {row : List Handle}
    (hg : Gathered t.store old [] row g visited last beyond)
    (hv : visited ≠ []) : g.cells.length < Node.half + Node.capacity := by
  have hshort := hg.short hv
  have hle := (t.store.node last).length_le
  rw [hg.cells_eq, Store.contents_append]
  simp only [List.nil_append, Store.contents_cons, Store.contents_nil,
    List.append_nil, List.length_append] at hshort ⊢
  omega

/-- Either half of a group with more than a node's cells fits a node, and is
half a node's or more. -/
theorem Gathered.halves {row : List Handle}
    (hg : Gathered t.store old [] row g visited last beyond) (hv : visited ≠ [])
    (hlen : Node.capacity < g.cells.length) :
    (Node.half ≤ (g.cells.take (g.cells.length / 2)).length ∧
      (g.cells.take (g.cells.length / 2)).length ≤ Node.capacity) ∧
    Node.half ≤ (g.cells.drop (g.cells.length / 2)).length ∧
      (g.cells.drop (g.cells.length / 2)).length ≤ Node.capacity := by
  have htotal := hg.length_lt hv
  simp only [Node.capacity, Node.half] at hlen htotal ⊢
  rw [List.length_take, List.length_drop]
  omega

/-- Two nodes with the cells of a group, the last of which takes the place of
those between, are a step of compaction. -/
theorem Gathered.advance_both {row mid : List Handle} {s' : Store} {n m : Node}
    {first c : Cell} {lower upper : List Cell}
    (u : Underway t.store height done row) (k : Known t.store old parent row)
    (hg : Gathered t.store old [] row g (left :: mid) last beyond)
    (b : t.store.Both s' left n last m)
    (hheight : n.height = height ∧ m.height = height)
    (hright : n.right = last ∧ m.right = g.tailNode.right)
    (hcells : n.cells ++ m.cells = g.cells) (hlower : n.cells = first :: lower)
    (hupper : m.cells = c :: upper)
    (hhalf : Node.half ≤ n.size ∧ Node.half ≤ m.size) (hle : old last ≤ c.key) :
    Advance t.store s' height (beyond.head?.getD .null) old parent
      (left :: (mid ++ [last])) [left, last]
      ((if first.key = old left then [] else
        [.changeKey (old left) first.key (parent left)]) ++
        (dropped old parent mid ++
          [.changeKey (old last) c.key (parent last)])) := by
  have hgroup : g.cells = t.store.contents (left :: (mid ++ [last])) :=
    hg.cells_eq
  have hchildren : n.children ++ m.children =
      childrenOf (t.store.contents (left :: (mid ++ [last]))) := by
    rw [← hgroup, ← hcells, childrenOf_append]
    rfl
  have hkeyLeft : (s'.node left).firstKey = first.key := by
    simp [b.fst_eq, Node.firstKey, Node.keys, hlower]
  have hkeyLast : (s'.node last).firstKey = c.key := by
    simp [b.snd_eq, Node.firstKey, Node.keys, hupper]
  have hleft : old left ≤ first.key := by
    have hsub : (left :: (mid ++ [last])).Sublist row :=
      hg.split ▸ List.sublist_append_left _ _
    refine (k.sublist hsub).old_le_of_mem ?_
    rw [← hgroup, ← hcells, hlower]
    simp
  have hboth : ∀ {P : Handle → Prop}, P left → P last →
      ∀ h ∈ [left, last], P h := by
    intro P hl hr h hh
    rcases List.mem_cons.mp hh with rfl | hh
    · exact hl
    · rw [List.mem_singleton.mp hh]
      exact hr
  exact
    { frame := hchildren ▸ b.frame
      allocated_eq := b.allocated_eq
      sublist := (List.sublist_append_right mid [last]).cons_cons left
      head_eq := rfl
      height_eq := hboth (b.fst_eq ▸ hheight.1) (b.snd_eq ▸ hheight.2)
      linked := by
        refine ⟨b.fst_eq ▸ hright.1, ?_, trivial⟩
        rw [b.snd_eq, hright.2]
        exact hg.right_eq u
      contents_eq := by
        rw [Store.contents_cons, Store.contents_cons, b.fst_eq, b.snd_eq,
          Store.contents_nil, List.append_nil, hcells, hgroup]
      owns := hboth (by rw [b.fst_eq]; exact b.fst_owns)
        (by rw [b.snd_eq]; exact b.snd_owns)
      nonempty :=
        hboth (by simp [b.fst_eq, hlower]) (by simp [b.snd_eq, hupper])
      half := fun _ => hboth (b.fst_eq ▸ hhalf.1) (b.snd_eq ▸ hhalf.2)
      half_dropLast := by
        intro h hh
        rw [show h = left by simpa using hh, b.fst_eq]
        exact hhalf.1
      told := by
        rw [Store.links_cons, Store.links_cons, Store.links_nil,
          hkeyLeft, hkeyLast]
        exact Told.head hleft
          ((told_dropped mid).append (.rekey c.key hle .nil))
      timely := timely_of_length_le (Nat.le_refl 2)
      ample := fun h am =>
        absurd (hg.eq_nil_of_ample am) (List.cons_ne_nil _ _) }

/-- What parting a group comes to: its first node and its last are left with the
halves of its cells, and the last one starts at the cell `middle`. -/
structure Parted (t t' : Tree) (height : Nat) (old : Handle → Key)
    (parent : Handle → Handle) (g : Group) (left last : Handle)
    (between beyond : List Handle) (first middle : Cell) : Prop where
  part_eq : part t height left (t.store.node left) g =
    .ok (t', dropped old parent between ++
      [.changeKey (old last) middle.key (parent last)], last)
  root_eq : t'.root = t.root
  middle_eq : (g.cells.drop (g.cells.length / 2)).head? = some middle
  middle_mem : middle ∈ (t.store.node last).cells
  lower : (t'.store.node left).cells = g.cells.take (g.cells.length / 2)
  upper : (t'.store.node last).cells = g.cells.drop (g.cells.length / 2)
  advance : Advance t.store t'.store height (beyond.head?.getD .null) old parent
    (left :: (between ++ [last])) [left, last]
    ((if first.key = old left then [] else
      [.changeKey (old left) first.key (parent left)]) ++
      (dropped old parent between ++
        [.changeKey (old last) middle.key (parent last)]))

theorem Gathered.visited_ne_nil {row : List Handle}
    (hg : Gathered t.store old [] row g visited last beyond)
    (hlen : Node.capacity < g.cells.length) : visited ≠ [] := by
  rintro rfl
  have hle := (t.store.node last).length_le
  rw [hg.cells_eq] at hlen
  simp at hlen
  omega

theorem Gathered.parentOf_both {row between : List Handle} {s' : Store}
    {root : Handle} {n m : Node} (u : Underway t.store height done row)
    (k : Known t.store old parent row)
    (hg : Gathered t.store old [] row g (left :: between) last beyond)
    (b : t.store.Both s' left n last m)
    (hchildren : n.children ++ m.children = childrenOf g.cells)
    (hn : Increasing n.cells) (hm : Increasing m.cells) :
    ∀ h ∈ between ++ [last],
      (Tree.mk s' root).parentOf h = .ok (parent h) := by
  have hrow : row = (left :: (between ++ [last])) ++ beyond := hg.split
  have hframe : Store.Frame t.store s' [left, last]
      (childrenOf (t.store.contents (left :: (between ++ [last])))) := by
    rw [show t.store.contents (left :: (between ++ [last])) = g.cells from
      hg.cells_eq.symm, ← hchildren]
    exact b.frame
  intro h hh
  refine Underway.parentOf_eq (hrow ▸ u) (hrow ▸ k) hframe
    (List.mem_append_left _ (List.mem_cons_of_mem _ hh)) ?_
  intro hw
  rcases List.mem_cons.mp hw with rfl | hw
  · rw [b.fst_eq]
    exact hn
  · rw [List.mem_singleton.mp hw, b.snd_eq]
    exact hm

/-- A group with more cells than fit a node is parted between its first node
and its last. -/
theorem Gathered.exists_parted {row between : List Handle} {first : Cell}
    {cells : List Cell} (u : Underway t.store height done row)
    (k : Known t.store old parent row)
    (hg : Gathered t.store old [] row g (left :: between) last beyond)
    (hfirst : g.cells = first :: cells)
    (hlen : Node.capacity < g.cells.length) :
    ∃ t' middle, Parted t t' height old parent g left last between beyond first
      middle := by
  obtain ⟨s, root⟩ := t
  have hv : left :: between ≠ [] := List.cons_ne_nil _ _
  obtain ⟨c, upper, hupper, hc⟩ := hg.upper_eq hv hlen
  obtain ⟨⟨hlow, hlow'⟩, hupp, hupp'⟩ := hg.halves hv hlen
  have hrow : row = (left :: (between ++ [last])) ++ beyond := hg.split
  have hleft : left ∈ done ++ row := hg.mem_level (by simp)
  have hl : last ∈ done ++ row := hg.mem_level (by simp)
  have hlastrow : last ∈ row := by simp [hrow]
  have hne : left ≠ last :=
    fun h => (List.nodup_cons.mp (hg.nodup u)).1 (by simp [h])
  let n : Node := ⟨height, (s.node left).parent, last,
    g.cells.take (g.cells.length / 2), hlow'⟩
  let m : Node := ⟨height, (s.node last).parent, g.tailNode.right,
    g.cells.drop (g.cells.length / 2), hupp'⟩
  have hsplit : n.cells ++ m.cells = g.cells := List.take_append_drop _ _
  have hincr := List.pairwise_append.mp (hsplit.symm ▸ hg.increasing u)
  have hchildren : n.children ++ m.children = childrenOf g.cells := by
    rw [← hsplit, childrenOf_append]
    rfl
  have hgroup : ∀ d ∈ n.children ++ m.children,
      s.contains d = true ∧ d ∉ left :: between ++ [last] := by
    intro d hd
    rw [hchildren] at hd
    exact hg.children u hd
  obtain ⟨s₁, s₂, hcommit₁, hcommit₂, b⟩ := Store.exists_commit_both hne
    (u.live left hleft) (u.live last hl) hincr.1 hincr.2.1
    (fun d hd => (hgroup d hd).1) (hchildren ▸ hg.children_nodup u)
    (fun hm => (hgroup left hm).2 (by simp))
    (fun hm => (hgroup last hm).2 (by simp)) rfl rfl
  have hparent : ∀ h ∈ between ++ [last], (Tree.mk s₂ root).parentOf h =
      .ok (parent h) :=
    hg.parentOf_both u k b hchildren hincr.1 hincr.2.1
  have hle : old last ≤ c.key := k.old_le last hlastrow c hc
  obtain ⟨others, hothers, hstaged⟩ :=
    Gathered.settle_tail c.key hg k hparent rfl
  obtain ⟨lower, hlower⟩ : ∃ lower, n.cells = first :: lower := by
    obtain ⟨j, hj⟩ : ∃ j, g.cells.length / 2 = j + 1 :=
      ⟨g.cells.length / 2 - 1, by simp only [Node.capacity] at hlen; omega⟩
    refine ⟨cells.take j, ?_⟩
    show g.cells.take (g.cells.length / 2) = _
    rw [hj, hfirst, List.take_succ_cons]
  refine ⟨⟨s₂, root⟩, c, ?_, rfl, by simp [hupper], hc, ?_, ?_,
    hg.advance_both u k b ⟨rfl, rfl⟩ ⟨rfl, rfl⟩ hsplit hlower hupper
      ⟨hlow, hupp⟩ hle⟩
  · rw [← hstaged]
    exact part_eq_ok (by simp [hupper]) (hg.heir_eq hle) hg.heir_handle
      (Tree.parentOf_eq_ok (u.read hl)) (Node.ofCells_of_length_le n.length_le)
      (Tree.commit_eq_ok (t := ⟨s, root⟩) hcommit₁)
      (Node.ofCells_of_length_le m.length_le)
      (Tree.commit_eq_ok (t := ⟨s₁, root⟩) hcommit₂) hothers
  · exact congrArg Node.cells b.fst_eq
  · exact congrArg Node.cells b.snd_eq

end Group

end Remove

end LevelIndex
