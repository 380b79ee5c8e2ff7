import LevelIndex.Proofs.Remove.Climb

/-!
# Where a group is parted

`Gathers` follows the compaction of a level from group to group. Each group is
met in a state that compaction can go on from (`Gathers.exists_ready`), and all
that the log of compaction reports are groups that are met so
(`exists_gathers_of_compacted`).

A group with more cells than fit a node is parted at its middle cell between its
first node and an heir, which its parent is told to put under the key of that
cell. `Parting` says that the key suits the heir: it is not below the separator
that the heir had, and it is below the separator of the next node that stays.
The heir turns out to be the last node of the group (`Gathered.heir_eq`). What
bounds the key on the right is not the last node's old range, since above the
leaves cells may have been put under greater keys. It is that cells are not
moved far (`Paced`): two more cells of the last node follow the middle one, and
so it still lies before where the next node started.
-/

namespace LevelIndex

/-- A node of a tree starts at a key, and its parent stores it under this
key. -/
def Tree.Separator (t : Tree) (h : Handle) (key : Key) (parent : Handle) :
    Prop :=
  ∃ node upper, t.store.read h = .ok node ∧ node.firstKey = key ∧
    node.parent = parent ∧ t.store.read parent = .ok upper ∧
    ⟨key, .child h⟩ ∈ upper.cells

namespace Remove

/-- The nodes that a group was gathered from, in order. -/
def Group.visited (g : Group) : List Handle :=
  g.absorbed.map (·.target) ++ if g.covered then [] else [g.tail]

/-- Compaction that goes on from a state and edits comes to a group: it gathers
the group from the node of an edit on, in a state of its own. -/
inductive Gathers (height : Nat) :
    Frontier → List Edit → Frontier → Edit → Group → Prop
  | here {f : Frontier} {e : Edit} {edits : List Edit} {g : Group} :
      e.flags.underflow = true →
      gather f.tree height [] e.target (e :: edits) = .ok g →
      Gathers height f (e :: edits) f e g
  | later {f f' : Frontier} {e e' : Edit} {edits : List Edit} {g g' : Group}
      {step : Step Frontier} :
      e.flags.underflow = true →
      gather f.tree height [] e.target (e :: edits) = .ok g →
      compactGroup height f e g = .ok step →
      Gathers height step.state g.rest f' e' g' →
      Gathers height f (e :: edits) f' e' g'
  | rekeyed {f f' : Frontier} {e e' : Edit} {edits : List Edit} {g' : Group} :
      e.flags = { changeKey := true } →
      Gathers height { f with kept := some e.target } edits f' e' g' →
      Gathers height f (e :: edits) f' e' g'

theorem eq_of_compacted_mem {height : Nat} {f : Frontier} {e : Edit} {g : Group}
    {step : Step Frontier} (h : compactGroup height f e g = .ok step)
    {first : Handle} {count : Nat}
    (he : .compacted first height count ∈ step.events) :
    e.target = first ∧ g.cells.length = count := by
  obtain ⟨left, -, h⟩ := bind_eq_ok.mp h
  cases hcells : g.cells with
  | nil =>
      rw [hcells] at h
      obtain ⟨-, -, h⟩ := bind_eq_ok.mp h
      obtain ⟨staged, -, h⟩ := bind_eq_ok.mp h
      dsimp only at h
      split at h <;>
      · obtain ⟨start, -, h⟩ := bind_eq_ok.mp h
        obtain ⟨cut, -, h⟩ := bind_eq_ok.mp h
        cases h
        simp at he
  | cons c cells =>
      have hevents : step.events =
          [.compacted e.target height g.cells.length] := by
        rw [hcells] at h ⊢
        dsimp only [List.head?_cons] at h
        split at h <;> split at h <;>
          obtain ⟨out, -, h⟩ := bind_eq_ok.mp h <;> cases h <;> rfl
      rw [hevents, List.mem_singleton] at he
      cases he
      exact ⟨rfl, congrArg List.length hcells.symm⟩

/-- Every group that the log of compaction reports is one that compaction has
come to. That the level ends is logged otherwise. -/
theorem exists_gathers_of_compacted {height : Nat} {first : Handle}
    {count : Nat} {f : Frontier} {edits : List Edit} {step : Step Frontier}
    (h : compactFrom height f edits = .ok step)
    (he : .compacted first height count ∈ step.events) :
    ∃ f' e g, Gathers height f edits f' e g ∧ e.target = first ∧
      g.cells.length = count := by
  fun_induction compactFrom height f edits generalizing step with
  | case1 f =>
      cases h
      simp at he
  | case2 f e edits hu fault hg => cases h
  | case3 f e edits hu g hg ih =>
      obtain ⟨group, hgroup, h⟩ := bind_eq_ok.mp h
      obtain ⟨rest, hrest, h⟩ := bind_eq_ok.mp h
      cases h
      rcases List.mem_append.mp he with he | he
      · exact ⟨f, e, g, .here hu hg, eq_of_compacted_mem hgroup he⟩
      · obtain ⟨f', e', g', hg', hspec⟩ := ih group hrest he
        exact ⟨f', e', g', .later hu hg hgroup hg', hspec⟩
  | case4 f e edits hu hf ih =>
      obtain ⟨parent, -, h⟩ := bind_eq_ok.mp h
      obtain ⟨key, -, h⟩ := bind_eq_ok.mp h
      obtain ⟨rest, hrest, h⟩ := bind_eq_ok.mp h
      cases h
      obtain ⟨f', e', g', hg', hspec⟩ := ih hrest he
      exact ⟨f', e', g', .rekeyed hf hg', hspec⟩
  | case5 f e edits hu hf => cases h

theorem exists_gathers_of_compact {height : Nat} {first : Handle} {count : Nat}
    {t : Tree} {edits : List Edit} {step : Step Tree}
    (h : compact t height edits = .ok step)
    (he : .compacted first height count ∈ step.events) :
    ∃ f e g, Gathers height ⟨t, none⟩ edits f e g ∧ e.target = first ∧
      g.cells.length = count := by
  obtain ⟨whole, hwhole, h⟩ := bind_eq_ok.mp h
  cases h
  exact exists_gathers_of_compacted hwhole he

/-- A group that is parted: what compaction makes of it, what the tree was
`before` the level was rewritten, and what has been `staged` for the level above
when compaction is over. -/
structure Parting (before : Tree) (height : Nat) (f : Frontier) (e : Edit)
    (g : Group) (staged : List Edit) (separator : Handle → Key)
    (owner : Handle → Handle) (between : List Handle) (heir : Handle)
    (midKey : Key) (step : Step Frontier) : Prop where
  compactGroup_eq : compactGroup height f e g = .ok step
  length : 17 ≤ g.cells.length ∧ g.cells.length ≤ 23
  midKey_eq : g.cells[g.cells.length / 2]?.map (·.key) = some midKey
  visited_eq : g.visited = e.target :: (between ++ [heir])
  nodup : g.visited.Nodup
  separates : ∀ h ∈ g.visited, before.Separator h (separator h) (owner h)
  lower : ∃ node, step.state.tree.store.read e.target = .ok node ∧
    node.cells = g.cells.take (g.cells.length / 2) ∧
    8 ≤ node.size ∧ node.size ≤ 16
  upper : ∃ node, step.state.tree.store.read heir = .ok node ∧
    node.cells = g.cells.drop (g.cells.length / 2) ∧
    8 ≤ node.size ∧ node.size ≤ 16
  separator_le : separator heir ≤ midKey
  lt_later : ∀ h, [heir, h].Sublist g.visited → midKey < separator h
  /-- Where there is a node to the right of the group, the key is below the
  first key it had, and below all keys that it holds by then. -/
  lt_right : g.tailNode.right ≠ .null → ∃ key parent node,
    before.Separator g.tailNode.right key parent ∧ midKey < key ∧
    f.tree.store.read g.tailNode.right = .ok node ∧
    ∀ k ∈ node.keys, midKey < k
  /-- What the compaction of the group stages, after what it may stage for its
  first node. -/
  staged_eq : ∃ rekeyed, step.staged = rekeyed ++
      (between.map (fun h => .remove (separator h) (owner h)) ++
        [.changeKey (separator heir) midKey (owner heir)]) ∧
    ∀ d ∈ rekeyed, d.key = separator e.target
  staged_piece : step.staged <:+: staged
  dropped : ∀ h ∈ between, staged.filter (·.key = separator h) =
    [.remove (separator h) (owner h)]
  renamed : staged.filter (·.key = separator heir) =
    [.changeKey (separator heir) midKey (owner heir)]

theorem not_sublist_of_last {row : List Handle} {last h : Handle}
    (hn : (row ++ [last]).Nodup) : ¬[last, h].Sublist (row ++ [last]) := by
  intro hs
  obtain ⟨l, m, hlm, hl, hm⟩ := List.sublist_append_iff.mp hs
  cases l with
  | nil =>
      have hle := hm.length_le
      rw [← List.nil_append m, ← hlm] at hle
      simp at hle
  | cons a l =>
      obtain ⟨rfl, -⟩ := List.cons.inj hlm
      exact (List.nodup_append.mp hn).2.2 _ (hl.subset List.mem_cons_self) _
        (List.mem_singleton_self _) rfl

section Gathered

variable {t : Tree} {old : Handle → Key} {row visited beyond : List Handle}
  {last : Handle} {g : Group}

theorem Gathered.visited_eq
    (hg : Gathered t.store old [] row g visited last beyond) :
    g.visited = visited ++ [last] := by
  have htarget : ∀ l : List Handle,
      (l.map (flag t.store old)).map (·.target) = l :=
    fun l => by simp [flag, Edit.flagged, Function.comp_def]
  rw [Group.visited, hg.absorbed_eq, htarget, hg.tail_eq]
  cases g.covered <;> simp

/-- The middle cell of a group that is parted lies before where the next node
started, since two more cells of the group follow it. -/
theorem Gathered.middle_lt {parent : Handle → Handle} {middle : Cell}
    (k : Known t.store old parent row)
    (hg : Gathered t.store old [] row g visited last beyond)
    (hlen : Node.capacity < g.cells.length)
    (hm : (g.cells.drop (g.cells.length / 2)).head? = some middle) {q : Handle}
    (hq : q ∈ beyond.head?) : middle.key < old q := by
  have hlong : 3 ≤ (g.cells.drop (g.cells.length / 2)).length := by
    simp only [Node.capacity] at hlen
    rw [List.length_drop]
    omega
  have hin : (g.cells.drop (g.cells.length / 2)).Sublist
      (t.store.contents (visited ++ [last])) := by
    rw [← List.nil_append (t.store.contents _), ← hg.cells_eq]
    exact List.drop_sublist _ _
  have hrow : (visited ++ [last] ++ [q]).Sublist row := by
    rw [hg.split]
    refine List.Sublist.append_left ?_ _
    exact List.singleton_sublist.mpr (List.mem_of_mem_head? hq)
  exact k.head_lt hrow hin hlong hm

theorem Gathered.lt_beyond {height : Nat} {done : List Handle}
    (u : Underway t.store height done row)
    (hg : Gathered t.store old [] row g visited last beyond) {c d : Cell}
    (hc : c ∈ g.cells) {q : Handle} (hq : q ∈ beyond)
    (hd : d ∈ (t.store.node q).cells) : c.key < d.key := by
  have hi := u.increasing
  rw [hg.split, Store.contents_append, Store.contents_append] at hi
  rw [hg.cells_eq, List.nil_append] at hc
  exact (List.pairwise_append.mp (List.pairwise_append.mp hi).2.1).2.2 c hc d
    (Store.mem_contents.mpr ⟨q, hq, hd⟩)

end Gathered

namespace Ready

variable {height : Nat} {old : Handle → Key} {parent : Handle → Handle}
  {f f' : Frontier} {done row : List Handle} {left : Handle} {e : Edit}
  {edits : List Edit} {g : Group}

theorem exists_rest (r : Ready height old parent f done (left :: row)
      (flag f.tree.store old left :: edits))
    (hgather : gather f.tree height [] left
      (flag f.tree.store old left :: edits) = .ok g) :
    ∃ step rest, compactGroup height f (flag f.tree.store old left) g =
        .ok step ∧
      compactFrom height step.state g.rest = .ok rest ∧
      (g.rest = [] ∨ ∃ done' row', row'.Sublist (left :: row) ∧
        Ready height old parent step.state done' row' g.rest) := by
  obtain ⟨g', visited, last, beyond, hgather', hg⟩ := r.exists_gathered
  obtain rfl : g' = g := Except.ok.inj (hgather'.symm.trans hgather)
  obtain ⟨step, hstep, -, ⟨hnil, -⟩ | ⟨new, -, hnext⟩⟩ :=
    r.compactGroup_eq_ok hg hgather
  · exact ⟨step, ⟨⟨[], []⟩, step.state⟩, hstep, by rw [hnil, compactFrom],
      Or.inl hnil⟩
  · obtain ⟨rest, -, hrest, -⟩ := hnext.compactFrom_eq_ok
    refine ⟨step, rest, hstep, hrest, Or.inr ⟨_, beyond, ?_, hnext⟩⟩
    rw [hg.split]
    exact List.sublist_append_right _ _

theorem exists_parted (r : Ready height old parent f done (left :: row)
      (flag f.tree.store old left :: edits))
    (hgather : gather f.tree height [] left
      (flag f.tree.store old left :: edits) = .ok g)
    (hlen : Node.capacity < g.cells.length) {step : Step Frontier}
    (hstep : compactGroup height f (flag f.tree.store old left) g = .ok step) :
    ∃ between last beyond first middle,
      Gathered f.tree.store old [] (left :: row) g (left :: between) last
        beyond ∧
      Parted f.tree step.state.tree height old parent g left last between beyond
        first middle ∧
      ∃ rekeyed, step.staged = rekeyed ++ (dropped old parent between ++
          [.changeKey (old last) middle.key (parent last)]) ∧
        ∀ d ∈ rekeyed, d.key = old left := by
  obtain ⟨g', visited, last, beyond, hgather', hg⟩ := r.exists_gathered
  obtain rfl : g' = g := Except.ok.inj (hgather'.symm.trans hgather)
  obtain ⟨p, between, rfl⟩ :=
    List.exists_cons_of_ne_nil (hg.visited_ne_nil hlen)
  obtain ⟨rfl, -⟩ := List.cons.inj hg.row_eq
  obtain ⟨first, cells, hcells⟩ : ∃ first cells, g'.cells = first :: cells :=
    List.exists_cons_of_ne_nil fun hnil => by simp [hnil] at hlen
  obtain ⟨t', middle, hp⟩ := hg.exists_parted r.underway r.known hcells hlen
  have hread : f.tree.store.read left = .ok (f.tree.store.node left) :=
    r.underway.read (List.mem_append_right _ List.mem_cons_self)
  have hs := Except.ok.inj (hstep.symm.trans
    (compactGroup_of_part hread hcells hlen hp.part_eq))
  refine ⟨between, last, beyond, first, middle, hg, by rwa [hs], _,
    by rw [hs], fun d hd => ?_⟩
  split at hd
  · simp at hd
  · rw [List.mem_singleton.mp hd]
    rfl

/-- The node to the right of a group started behind the middle cell, and has
only cells behind it. -/
theorem middle_lt_right {before : Tree} {visited beyond : List Handle}
    {last : Handle} {middle : Cell}
    (r : Ready height old parent f done (left :: row) edits)
    (hg : Gathered f.tree.store old [] (left :: row) g visited last beyond)
    (hlen : Node.capacity < g.cells.length)
    (hm : (g.cells.drop (g.cells.length / 2)).head? = some middle)
    (hsep : ∀ h ∈ left :: row, before.Separator h (old h) (parent h))
    (hright : g.tailNode.right ≠ .null) : ∃ key parent node,
      before.Separator g.tailNode.right key parent ∧ middle.key < key ∧
      f.tree.store.read g.tailNode.right = .ok node ∧
      ∀ k ∈ node.keys, middle.key < k := by
  rw [hg.right_eq r.underway] at hright ⊢
  obtain ⟨q, beyond, rfl⟩ : ∃ q rest, beyond = q :: rest :=
    List.exists_cons_of_ne_nil fun h => hright (by rw [h]; rfl)
  have hq : q ∈ left :: row := by
    rw [hg.split]
    simp
  refine ⟨old q, parent q, f.tree.store.node q, hsep q hq,
    hg.middle_lt r.known hlen hm (by simp),
    r.underway.read (List.mem_append_right _ hq), fun k hk => ?_⟩
  obtain ⟨d, hd, rfl⟩ := List.mem_map.mp hk
  exact hg.lt_beyond r.underway
    (List.mem_of_mem_drop (List.mem_of_mem_head? hm)) (by simp) hd

/-- **One group.** With more cells than fit a node it is parted at its middle
cell, and its last node is the heir. -/
theorem exists_parting {before : Tree} {staged : List Edit}
    (r : Ready height old parent f done (left :: row)
      (flag f.tree.store old left :: edits))
    (hgather : gather f.tree height [] left
      (flag f.tree.store old left :: edits) = .ok g)
    (hlen : Node.capacity < g.cells.length) {step : Step Frontier}
    (hstep : compactGroup height f (flag f.tree.store old left) g = .ok step)
    (hsep : ∀ h ∈ left :: row, before.Separator h (old h) (parent h))
    (hstaged : Ascending (Edit.keys staged))
    (hpiece : step.staged <:+: staged) :
    ∃ between heir midKey, Parting before height f (flag f.tree.store old left)
      g staged old parent between heir midKey step := by
  obtain ⟨between, last, beyond, first, middle, hg, hp, rekeyed, hs, hrekeyed⟩ :=
    r.exists_parted hgather hlen hstep
  have hvisited : g.visited = left :: (between ++ [last]) := hg.visited_eq
  have hnodup : (left :: (between ++ [last])).Nodup := hg.nodup r.underway
  have hmem : ∀ h ∈ left :: (between ++ [last]), h ∈ left :: row :=
    fun h hh => hg.split ▸ List.mem_append_left _ hh
  have hgroup : Underway f.tree.store height done
      ((left :: (between ++ [last])) ++ beyond) := hg.split ▸ r.underway
  have hdone := hgroup.advance hp.advance
  have hv : left :: between ≠ [] := List.cons_ne_nil _ _
  obtain ⟨hlower, hupper⟩ := hg.halves hv hlen
  refine ⟨between, last, middle.key, ?_⟩
  exact
    { compactGroup_eq := hstep
      length := ⟨hlen, Nat.le_of_lt_succ (hg.length_lt hv)⟩
      midKey_eq := by
        rw [← List.head?_drop, hp.middle_eq]
        rfl
      visited_eq := hvisited
      nodup := hvisited ▸ hnodup
      separates := fun h hh => hsep h (hmem h (hvisited ▸ hh))
      lower := by
        refine ⟨_, hdone.read (h := left) (by simp), hp.lower, ?_⟩
        rw [Node.size, hp.lower]
        exact hlower
      upper := by
        refine ⟨_, hdone.read (h := last) (by simp), hp.upper, ?_⟩
        rw [Node.size, hp.upper]
        exact hupper
      separator_le :=
        r.known.old_le last (hmem last (by simp)) middle hp.middle_mem
      lt_later := fun h hh => by
        rw [hvisited, ← List.cons_append] at hh
        exact absurd hh (not_sublist_of_last hnodup)
      lt_right := r.middle_lt_right hg hlen hp.middle_eq hsep
      staged_eq := ⟨rekeyed, hs, hrekeyed⟩
      staged_piece := hpiece
      dropped := fun h hh => by
        refine Edit.filter_key_eq hstaged (hpiece.subset ?_) rfl
        rw [hs]
        exact List.mem_append_right _ (List.mem_append_left _
          (List.mem_map_of_mem hh))
      renamed := by
        refine Edit.filter_key_eq hstaged (hpiece.subset ?_) rfl
        rw [hs]
        simp }

end Ready

/-- Compaction can go on from where it comes to a group, and what it stages for
the group is among all that it stages. -/
theorem Gathers.exists_ready {height : Nat} {old : Handle → Key}
    {parent : Handle → Handle} {f f' : Frontier} {edits : List Edit} {e : Edit}
    {g : Group} (m : Gathers height f edits f' e g) {done row : List Handle}
    (r : Ready height old parent f done row edits) :
    ∃ done' left rest edits' step whole, (left :: rest).Sublist row ∧
      e = flag f'.tree.store old left ∧
      Ready height old parent f' done' (left :: rest)
        (flag f'.tree.store old left :: edits') ∧
      gather f'.tree height [] left (flag f'.tree.store old left :: edits') =
        .ok g ∧
      compactGroup height f' e g = .ok step ∧
      compactFrom height f edits = .ok whole ∧
      step.staged <:+: whole.staged := by
  induction m generalizing done row with
  | @here f e edits g hu hg =>
      obtain ⟨front, h, rest, rfl, rfl, -, -, -, r', -⟩ := r.exists_split
      obtain ⟨step, after, hstep, hafter, -⟩ := r'.exists_rest hg
      exact ⟨_, h, rest, edits, step, _, List.sublist_append_right _ _, rfl, r',
        hg, hstep, compactFrom_of_group hu hg hstep hafter,
        (List.prefix_append _ _).isInfix⟩
  | @later f f' e e' edits g g' step hu hg hstep m ih =>
      obtain ⟨front, h, rest, rfl, rfl, -, -, -, r', -⟩ := r.exists_split
      obtain ⟨step', after, hstep', -, hnext⟩ := r'.exists_rest hg
      obtain rfl : step' = step := Except.ok.inj (hstep'.symm.trans hstep)
      obtain hnil | ⟨done', row', hsub, r''⟩ := hnext
      · rw [hnil] at m
        cases m
      · obtain ⟨done'', left, rest', edits', step'', whole, hsub', he, hr, hg',
          hgroup, hwhole, hpiece⟩ := ih r''
        exact ⟨done'', left, rest', edits', step'', _,
          (hsub'.trans hsub).trans (List.sublist_append_right _ _), he, hr, hg',
          hgroup, compactFrom_of_group hu hg hstep hwhole,
          hpiece.trans (List.suffix_append _ _).isInfix⟩
  | @rekeyed f f' e e' edits g' hf m ih =>
      obtain ⟨front, h, rest, rfl, rfl, -, -, -, r', hflags, hrest⟩ :=
        r.exists_split
      have hunder : (f.tree.store.node h).underfull = false :=
        congrArg Flags.underflow hf
      obtain ⟨-, -, hnext⟩ := r'.rekey hunder hflags hrest
      obtain ⟨done'', left, rest', edits', step'', whole, hsub', he, hr, hg',
        hgroup, hwhole, hpiece⟩ := ih hnext
      have hhead := r'.underway.parentOf r'.known List.mem_cons_self
      exact ⟨done'', left, rest', edits', step'', _,
        (hsub'.trans (List.sublist_cons_self _ _)).trans
          (List.sublist_append_right _ _), he, hr, hg', hgroup,
        compactFrom_of_rekey hf hhead hwhole,
        hpiece.trans (List.suffix_cons _ _).isInfix⟩

namespace Falling

variable {t : Tree} {row : Nat → List Handle} {height gap : Nat}
  {items : List Pair} {edits : List Edit}

theorem separator (r : Falling t row height gap items edits) (hg : gap < height)
    {h : Handle} (hh : h ∈ row gap) :
    t.Separator h (t.store.node h).firstKey (t.store.node h).parent := by
  have hlink : (⟨(t.store.node h).firstKey, .child h⟩ : Cell) ∈
      t.store.contents (row (gap + 1)) :=
    r.contents_above hg ▸ Store.mem_links.mpr ⟨h, hh, rfl⟩
  obtain ⟨p, hp, hcell⟩ := Store.mem_contents.mp hlink
  have howner : (t.store.node h).parent = p :=
    (r.spans gap hg (by omega)).owns p hp h (mem_childrenOf hcell)
  rw [howner]
  exact ⟨_, _, (r.level gap r.within).read hh, rfl, howner,
    (r.level (gap + 1) hg).read hp, hcell⟩

/-- **One level of a removal.** Where its compaction comes to a group with more
cells than fit a node, the group is parted as it should be. -/
theorem exists_parting {l : LevelRecord Tree}
    (r : Falling l.before row height l.height items l.edits)
    (hexecuted : ∃ step, Step.sequence (rewrite l.height) l.before
        (Edit.runs l.edits) = .ok step ∧ l.executed.state = step.state ∧
      l.executed.staged = step.staged)
    (hcompacted : compact l.executed.state l.height l.executed.staged =
      .ok l.compacted) {f : Frontier} {e : Edit} {g : Group}
    (m : Gathers l.height ⟨l.executed.state, none⟩ l.executed.staged f e g)
    (hlen : Node.capacity < g.cells.length) :
    ∃ separator owner between heir midKey step,
      Parting l.before l.height f e g l.compacted.staged separator owner between
        heir midKey step := by
  obtain ⟨sites, hsites⟩ := r.exists_sites
  obtain ⟨first, hfirst, w, hnotes⟩ := (r.rewritten hsites).alone.exists_ok
  obtain ⟨first', hfirst', hstate, hstaged⟩ := hexecuted
  obtain rfl : first' = first := Except.ok.inj (hfirst'.symm.trans hfirst)
  rw [hstate, hstaged, hnotes] at m hcompacted
  have hg : l.height < height := by
    refine Nat.lt_of_le_of_ne r.within fun hg => ?_
    rw [r.notes_top hsites hg] at m
    cases m
  have hready := r.ready hsites w
  obtain ⟨whole, new, hwhole, hroot, c⟩ := hready.compactFrom_eq_ok
  rw [compact, hwhole] at hcompacted
  have hall : whole.staged = l.compacted.staged :=
    congrArg (·.staged) (Except.ok.inj hcompacted)
  have hascending : Ascending (Edit.keys whole.staged) :=
    (r.compacted hsites w hroot c hg).ascending
  obtain ⟨done, left, rest, edits, step, whole', hsub, rfl, hr, hgather, hgroup,
    hwhole', hpiece⟩ := m.exists_ready hready
  obtain rfl : whole' = whole := Except.ok.inj (hwhole'.symm.trans hwhole)
  obtain ⟨between, heir, midKey, hp⟩ := hr.exists_parting hgather hlen hgroup
    (fun h hh => r.separator hg (hsub.subset hh)) hascending hpiece
  exact ⟨_, _, between, heir, midKey, step, hall ▸ hp⟩

end Falling

end Remove

end LevelIndex
