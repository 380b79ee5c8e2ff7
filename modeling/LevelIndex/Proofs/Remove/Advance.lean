import LevelIndex.Proofs.Remove.Group

/-!
# A level under compaction

Compaction works its way along a level. `Underway` is the invariant: the nodes
that are done and the rest still form one chain with the contents that the level
is to have, and those that are done are full enough. A step replaces the first
nodes of the rest by some of them, with the same contents (`Advance`), and
`Underway.advance` takes it into account.

`Told` says what the parents are told of the nodes replaced: which of them are
dropped, and which are put under another key. It goes along the row, with one
case for each thing that can be said of a node, and the links that are to be
stored above are built up on the side.

The nodes that stay are `Timely`, that is, they are not put under keys far
greater than those they had: of three nodes, the first starts before the third
did. A node that is `Ample` stays, and keeps its cells, since no group takes it
in.
-/

namespace LevelIndex

namespace Remove

/-- The edits `staged` turn what the parents store of a row into the given
links. -/
inductive Told (old : Handle → Key) (parent : Handle → Handle) :
    List Handle → List Edit → List Cell → Prop
  | nil : Told old parent [] [] []
  | stay {h : Handle} {row : List Handle} {staged : List Edit}
      {links : List Cell} :
      Told old parent row staged links →
      Told old parent (h :: row) staged (⟨old h, .child h⟩ :: links)
  | rekey {h : Handle} {row : List Handle} {staged : List Edit}
      {links : List Cell} (key : Key) :
      old h ≤ key → Told old parent row staged links →
      Told old parent (h :: row) (.changeKey (old h) key (parent h) :: staged)
        (⟨key, .child h⟩ :: links)
  | drop {h : Handle} {row : List Handle} {staged : List Edit}
      {links : List Cell} :
      Told old parent row staged links →
      Told old parent (h :: row) (.remove (old h) (parent h) :: staged) links

/-- The edits that drop all nodes of a row. -/
def dropped (old : Handle → Key) (parent : Handle → Handle)
    (row : List Handle) : List Edit :=
  row.map fun h => .remove (old h) (parent h)

section Told

variable {old : Handle → Key} {parent : Handle → Handle}
  {row row' : List Handle} {staged staged' : List Edit}
  {links links' : List Cell}

theorem Told.append (h : Told old parent row staged links)
    (h' : Told old parent row' staged' links') :
    Told old parent (row ++ row') (staged ++ staged') (links ++ links') := by
  induction h with
  | nil => exact h'
  | stay _ ih => exact .stay ih
  | rekey key hle _ ih => exact .rekey key hle ih
  | drop _ ih => exact .drop ih

theorem told_calm {s : Store} (h : ∀ k ∈ row, Calm s old k) :
    Told old parent row [] (s.links row) := by
  induction row with
  | nil => exact .nil
  | cons k row ih =>
      rw [Store.links_cons, (h k (by simp)).firstKey_eq]
      exact .stay (ih fun j hj => h j (List.mem_cons_of_mem _ hj))

theorem told_dropped (row : List Handle) :
    Told old parent row (dropped old parent row) [] := by
  induction row with
  | nil => exact .nil
  | cons h row ih => exact .drop ih

theorem Told.children_sublist (h : Told old parent row staged links) :
    (childrenOf links).Sublist row := by
  induction h with
  | nil => exact List.Sublist.slnil
  | stay _ ih => exact ih.cons_cons _
  | rekey _ _ _ ih => exact ih.cons_cons _
  | drop _ ih => exact ih.cons _

end Told

/-- Nodes start at other keys within bounds: of three in a row, the first does
not start as late as the third did. -/
def Timely (s : Store) (old : Handle → Key) (row : List Handle) : Prop :=
  ∀ a b c, [a, b, c].Sublist row → (s.node a).firstKey < old c

theorem timely_of_length_le {s : Store} {old : Handle → Key}
    {row : List Handle} (h : row.length ≤ 2) : Timely s old row :=
  fun _ _ _ habc => absurd habc.length_le (by simpa using Nat.lt_succ_of_le h)

/-- A node that has no need to be put together with others: it has cells, and
neither it nor the node before it falls short of half a node, unless the row
ends there. -/
structure Ample (s : Store) (row : List Handle) (h : Handle) : Prop where
  mem : h ∈ row
  nonempty : (s.node h).cells ≠ []
  half : h ∈ row.dropLast → Node.half ≤ (s.node h).size
  before : ∀ p, [p, h] <:+: row → Node.half ≤ (s.node p).size

section Ample

variable {s s' : Store} {row rest : List Handle} {h : Handle}

theorem Ample.of_append_left (am : Ample s (row ++ rest) h) (hh : h ∈ row) :
    Ample s row h where
  mem := hh
  nonempty := am.nonempty
  half hm := am.half <| by
    by_cases hr : rest = []
    · rwa [hr, List.append_nil]
    · rw [List.dropLast_append_of_ne_nil hr]
      exact List.mem_append_left _ hh
  before p hp := am.before p (hp.trans (List.prefix_append _ _).isInfix)

theorem Ample.of_append_right (am : Ample s (row ++ rest) h) (hh : h ∈ rest) :
    Ample s rest h where
  mem := hh
  nonempty := am.nonempty
  half hm := am.half <| by
    rw [List.dropLast_append_of_ne_nil (List.ne_nil_of_mem hh)]
    exact List.mem_append_right _ hm
  before p hp := am.before p (hp.trans (List.suffix_append _ _).isInfix)

theorem Ample.congr (am : Ample s row h)
    (heq : ∀ p ∈ row, s'.node p = s.node p) : Ample s' row h where
  mem := am.mem
  nonempty := by
    rw [heq h am.mem]
    exact am.nonempty
  half hm := by
    rw [heq h am.mem]
    exact am.half hm
  before p hp := by
    rw [heq p (hp.subset (by simp))]
    exact am.before p hp

end Ample

/-- A level of which compaction has done the first nodes. -/
structure Underway (s : Store) (height : Nat) (done rest : List Handle) :
    Prop where
  live : ∀ h ∈ done ++ rest, s.contains h = true
  height_eq : ∀ h ∈ done ++ rest, (s.node h).height = height
  nodup : (done ++ rest).Nodup
  linked : s.Linked .null (done ++ rest)
  increasing : Increasing (s.contents (done ++ rest))
  owns : ∀ p ∈ done ++ rest, ∀ c ∈ (s.node p).children, (s.node c).parent = p
  nonempty : ∀ h ∈ done, (s.node h).cells ≠ []
  half : rest ≠ [] → ∀ h ∈ done, Node.half ≤ (s.node h).size
  half_dropLast : ∀ h ∈ done.dropLast, Node.half ≤ (s.node h).size
  children_live : ∀ c ∈ childrenOf (s.contents (done ++ rest)),
    s.contains c = true
  children_nodup : (childrenOf (s.contents (done ++ rest))).Nodup
  apart : ∀ c ∈ childrenOf (s.contents (done ++ rest)), c ∉ done ++ rest

/-- The nodes of `row` are replaced by those of `new`, which end in front of
`stop`. -/
structure Advance (s s' : Store) (height : Nat) (stop : Handle)
    (old : Handle → Key) (parent : Handle → Handle) (row new : List Handle)
    (staged : List Edit) : Prop where
  frame : Store.Frame s s' new (childrenOf (s.contents row))
  allocated_eq : s'.allocated = s.allocated
  sublist : new.Sublist row
  head_eq : new.head? = row.head?
  height_eq : ∀ h ∈ new, (s'.node h).height = height
  linked : s'.Linked stop new
  contents_eq : s'.contents new = s.contents row
  owns : ∀ p ∈ new, ∀ c ∈ (s'.node p).children, (s'.node c).parent = p
  nonempty : ∀ h ∈ new, (s'.node h).cells ≠ []
  half : stop ≠ .null → ∀ h ∈ new, Node.half ≤ (s'.node h).size
  half_dropLast : ∀ h ∈ new.dropLast, Node.half ≤ (s'.node h).size
  told : Told old parent row staged (s'.links new)
  timely : Timely s' old new
  ample : ∀ h, Ample s row h → h ∈ new ∧ (s'.node h).cells = (s.node h).cells

section Underway

variable {s s' : Store} {height : Nat} {done row new rest : List Handle}

theorem Underway.read (u : Underway s height done rest) {h : Handle}
    (hh : h ∈ done ++ rest) : s.read h = .ok (s.node h) :=
  Store.read_eq_ok (u.live h hh) (Store.increasing_cells u.increasing hh)

/-- Work on some nodes of the level leaves the others. It adopts children of
these nodes only, and no node of the level is a child of another. -/
theorem Underway.node_eq {written : List Handle}
    (u : Underway s height done (row ++ rest))
    (f : Store.Frame s s' written (childrenOf (s.contents row))) {h : Handle}
    (hh : h ∈ done ++ (row ++ rest)) (hw : h ∉ written) :
    s'.node h = s.node h := by
  refine f.node (u.live h hh) hw fun hm => u.apart h ?_ hh
  rw [Store.contents_append, Store.contents_append, childrenOf_append,
    childrenOf_append]
  exact List.mem_append_right _ (List.mem_append_left _ hm)

section Advance

variable {old : Handle → Key} {parent : Handle → Handle} {staged : List Edit}
  (u : Underway s height done (row ++ rest))
  (a : Advance s s' height (rest.head?.getD .null) old parent row new staged)
include u a

theorem Advance.done_eq {h : Handle} (hh : h ∈ done) : s'.node h = s.node h :=
  u.node_eq a.frame (List.mem_append_left _ hh) fun hn =>
    (List.nodup_append.mp u.nodup).2.2 h hh h
      (List.mem_append_left _ (a.sublist.subset hn)) rfl

theorem Advance.rest_eq {h : Handle} (hh : h ∈ rest) :
    s'.node h = s.node h := by
  have hrr := (List.nodup_append.mp u.nodup).2.1
  refine u.node_eq a.frame
    (List.mem_append_right _ (List.mem_append_right _ hh)) ?_
  intro hn
  exact (List.nodup_append.mp hrr).2.2 h (a.sublist.subset hn) h hh rfl

theorem Advance.contents_all :
    s'.contents (done ++ new ++ rest) = s.contents (done ++ (row ++ rest)) := by
  have hcd : s'.contents done = s.contents done :=
    Store.contents_congr fun h hh => by rw [a.done_eq u hh]
  have hcr : s'.contents rest = s.contents rest :=
    Store.contents_congr fun h hh => by rw [a.rest_eq u hh]
  rw [List.append_assoc, Store.contents_append, Store.contents_append,
    Store.contents_append, Store.contents_append, a.contents_eq, hcd, hcr]

/-- The children of other nodes stay with them, since a step adopts children of
the nodes that it replaces only. -/
theorem Advance.owns_of_not_mem {p : Handle} (hp : p ∈ done ++ (row ++ rest))
    (hprow : p ∉ row) (heq : s'.node p = s.node p) :
    ∀ c ∈ (s'.node p).children, (s'.node c).parent = p := by
  intro c hc
  rw [heq] at hc
  have hlive := u.children_live c
    (Store.mem_childrenOf_contents.mpr ⟨p, hp, hc⟩)
  have hadopted : c ∉ childrenOf (s.contents row) := by
    intro hm
    obtain ⟨q, hq, hcq⟩ := Store.mem_childrenOf_contents.mp hm
    have hq' : q ∈ done ++ (row ++ rest) :=
      List.mem_append_right _ (List.mem_append_left _ hq)
    exact hprow ((u.owns p hp c hc).symm.trans (u.owns q hq' c hcq) ▸ hq)
  rw [a.frame.parent c hlive hadopted]
  exact u.owns p hp c hc

theorem Advance.linked_all : s'.Linked .null (done ++ new ++ rest) := by
  obtain ⟨hdone, hrow⟩ := Store.linked_append.mp u.linked
  obtain ⟨-, hrest⟩ := Store.linked_append.mp hrow
  have hhead : (new ++ rest).head? = (row ++ rest).head? := by
    rw [List.head?_append, List.head?_append, a.head_eq]
  rw [List.append_assoc, Store.linked_append, Store.linked_append, hhead]
  exact ⟨(Store.linked_congr fun h hh => by rw [a.done_eq u hh]).mpr hdone,
    a.linked, (Store.linked_congr fun h hh => by rw [a.rest_eq u hh]).mpr hrest⟩

theorem Advance.half_dropLast_all :
    ∀ h ∈ (done ++ new).dropLast, Node.half ≤ (s'.node h).size := by
  intro h hh
  by_cases hn : new = []
  · rw [hn, List.append_nil] at hh
    rw [a.done_eq u (List.dropLast_subset _ hh)]
    exact u.half_dropLast h hh
  · have hrow : row ≠ [] := by
      intro h0
      have hsub := a.sublist
      rw [h0, List.sublist_nil] at hsub
      exact hn hsub
    rw [List.dropLast_append_of_ne_nil hn] at hh
    rcases List.mem_append.mp hh with hh | hh
    · rw [a.done_eq u hh]
      exact u.half (by simp [hrow]) h hh
    · exact a.half_dropLast h hh

/-- A step of compaction keeps the invariant. Where there is a rest, all nodes
that are done have to be half full; at the end of the level the last may fall
short. -/
theorem Underway.advance : Underway s' height (done ++ new) rest := by
  have hsub : (done ++ new ++ rest).Sublist (done ++ (row ++ rest)) := by
    rw [List.append_assoc]
    exact (a.sublist.append_right rest).append_left done
  obtain ⟨-, hrr, hdisj⟩ := List.nodup_append.mp u.nodup
  obtain ⟨-, -, hdisj'⟩ := List.nodup_append.mp hrr
  have hdone : ∀ h ∈ done, s'.node h = s.node h := fun h hh => a.done_eq u hh
  have hrest : ∀ h ∈ rest, s'.node h = s.node h := fun h hh => a.rest_eq u hh
  have hcont := a.contents_all u
  refine ⟨fun h hh => a.frame.contains (u.live h (hsub.subset hh)), ?_,
    u.nodup.sublist hsub, a.linked_all u, hcont ▸ u.increasing, ?_, ?_,
    ?_, a.half_dropLast_all u, ?_, hcont ▸ u.children_nodup, ?_⟩
  · intro h hh
    rcases List.mem_append.mp hh with hh | hh
    · rcases List.mem_append.mp hh with hh | hh
      · rw [hdone h hh]
        exact u.height_eq h (List.mem_append_left _ hh)
      · exact a.height_eq h hh
    · rw [hrest h hh]
      exact u.height_eq h (List.mem_append_right _ (List.mem_append_right _ hh))
  · intro p hp
    rcases List.mem_append.mp hp with hp | hp
    · rcases List.mem_append.mp hp with hp | hp
      · have hprow : p ∉ row :=
          fun h => hdisj p hp p (List.mem_append_left _ h) rfl
        exact a.owns_of_not_mem u (List.mem_append_left _ hp) hprow (hdone p hp)
      · exact a.owns p hp
    · have hprow : p ∉ row := fun h => hdisj' p h p hp rfl
      exact a.owns_of_not_mem u
        (List.mem_append_right _ (List.mem_append_right _ hp))
        hprow (hrest p hp)
  · intro h hh
    rcases List.mem_append.mp hh with hh | hh
    · rw [hdone h hh]
      exact u.nonempty h hh
    · exact a.nonempty h hh
  · intro hne h hh
    rcases List.mem_append.mp hh with hh | hh
    · rw [hdone h hh]
      exact u.half (by simp [hne]) h hh
    · refine a.half ?_ h hh
      obtain ⟨k, rest, rfl⟩ := List.exists_cons_of_ne_nil hne
      exact Store.ne_null_of_contains (u.live k (by simp))
  · rw [hcont]
    exact fun c hc => a.frame.contains (u.children_live c hc)
  · rw [hcont]
    exact fun c hc hm => u.apart c hc (hsub.subset hm)

end Advance

end Underway

end Remove

end LevelIndex
