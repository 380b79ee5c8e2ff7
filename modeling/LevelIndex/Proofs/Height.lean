import LevelIndex.Proofs.Changes
import LevelIndex.Proofs.Reachable

/-!
# How high a tree grows

All nodes of a level but the last are half full (`IsLevel.half_mul_lt`), and a
level has a cell for each node of the level below (`length_contents_succ`). So
going down a level multiplies the cells that it has besides the first by
`Node.half` at least (`Intact.pow_mul_le`). At the bottom these are the pairs
stored.

Removals keep the height, and may leave a high tree with few pairs. But a tree
gets a level when the level under the new root has more cells than fit a node,
and it has stored its share of pairs then (`Reachable.call_height`). By
induction over the calls, any tree with a level above its leaves has had its
share some time (`exists_prefix_length`). The share bounds the height by the
number of slots, and slots are named by words: the share of a tree with twelve
levels above its leaves is more than all leaves can hold
(`Intact.length_items_lt`).
-/

namespace LevelIndex

namespace Store

variable {s : Store} {row : List Handle}

theorem half_mul_length_le (h : ∀ p ∈ row, Node.half ≤ (s.node p).size) :
    Node.half * row.length ≤ (s.contents row).length := by
  induction row with
  | nil => exact Nat.zero_le _
  | cons p row ih =>
      have hp : Node.half ≤ (s.node p).cells.length := h p (by simp)
      have hrow := ih fun q hq => h q (List.mem_cons_of_mem _ hq)
      rw [contents_cons, List.length_append, List.length_cons, Nat.mul_succ]
      omega

theorem length_contents_le :
    (s.contents row).length ≤ Node.capacity * row.length := by
  induction row with
  | nil => exact Nat.zero_le _
  | cons p row ih =>
      have hp : (s.node p).cells.length ≤ Node.capacity := Node.size_le _
      rw [contents_cons, List.length_append, List.length_cons, Nat.mul_succ]
      omega

theorem IsLevel.half_mul_lt {height : Nat} (hl : s.IsLevel height row) :
    Node.half * (row.length - 1) < (s.contents row).length := by
  obtain ⟨p, rest, hrow, -⟩ := hl.exists_cons
  have hne : row ≠ [] := by simp [hrow]
  have hlast : 0 < (s.node (row.getLast hne)).cells.length :=
    List.length_pos_iff.mpr (hl.nonempty _ (List.getLast_mem hne))
  have hfront := half_mul_length_le hl.half
  rw [List.length_dropLast] at hfront
  conv_rhs => rw [← List.dropLast_append_getLast hne, contents_append]
  rw [List.length_append, contents_cons, List.length_append]
  omega

end Store

namespace Tree.Intact

variable {t : Tree} {row : Nat → List Handle} {height : Nat} {items : List Pair}

theorem length_contents_succ (i : t.Intact row height items) {k : Nat}
    (hk : k < height) :
    (t.store.contents (row (k + 1))).length = (row k).length := by
  rw [(i.spans_succ hk).contents_eq, Store.links, List.length_map]

/-- The cells of a level besides the first, multiplied on the way down. The
first is left out since the last node of a level may hold as little as one
cell. -/
theorem pow_mul_le (i : t.Intact row height items) {k : Nat} (hk : k ≤ height) :
    Node.half ^ k * ((t.store.contents (row k)).length - 1) ≤ items.length := by
  induction k with
  | zero => simp [i.leaves, leafCells]
  | succ k ih =>
      have hlt := (i.level k (Nat.le_of_succ_le hk)).half_mul_lt
      have hcells := i.length_contents_succ hk
      calc
        _ = Node.half ^ k * (Node.half * ((row k).length - 1)) := by
          rw [hcells, Nat.pow_succ, Nat.mul_assoc]
        _ ≤ Node.half ^ k * ((t.store.contents (row k)).length - 1) :=
          Nat.mul_le_mul_left _ (Nat.le_pred_of_lt hlt)
        _ ≤ items.length := ih (Nat.le_of_succ_le hk)

theorem length_items_lt (i : t.Intact row height items) :
    items.length < Node.capacity * Handle.nullRaw := by
  have hcells : items.length + 1 ≤ Node.capacity * (row 0).length := by
    have hle : (t.store.contents (row 0)).length ≤
        Node.capacity * (row 0).length := Store.length_contents_le
    rwa [i.leaves, leafCells, List.length_cons, List.length_map] at hle
  have hslots : (row 0).length ≤ t.store.allocated :=
    Store.length_le_allocated (i.level 0 (Nat.zero_le _)).nodup
      (i.level 0 (Nat.zero_le _)).live
  have hnames : t.store.allocated < Handle.nullRaw :=
    Nat.lt_of_le_of_lt t.store.allocated_le i.nameable
  calc
    items.length < Node.capacity * (row 0).length := hcells
    _ ≤ Node.capacity * Handle.nullRaw :=
      Nat.mul_le_mul_left _ (Nat.le_of_lt (Nat.lt_of_le_of_lt hslots hnames))

end Tree.Intact

namespace Index

/-- No call makes a tree lower, and one that makes it higher leaves it with its
share of pairs: the level under the new root has more than `Node.capacity`
cells. -/
theorem Reachable.call_height {x x' : Index} (h : x.Reachable) {c : Call}
    {a : Answer} (hcall : x.call c = .ok (x', a)) :
    ∃ height height', x.tree.height = .ok height ∧
      x'.tree.height = .ok height' ∧ height ≤ height' ∧
      (height < height' → ∃ n, x'.length = .ok n ∧ 2 * 8 ^ height' ≤ n) := by
  obtain ⟨t, r⟩ := h.exists_stores
  obtain ⟨row, height, i⟩ := r.exists_intact
  obtain ⟨t', row', height', i', hchange⟩ := call_changes i hcall
  refine ⟨height, height', i.height_eq, i'.height_eq, ?_⟩
  rcases hchange with hext | ⟨rfl, -⟩
  · refine ⟨hext.height_le, fun hlt => ⟨_, i'.length_eq, ?_⟩⟩
    have hcells : 16 < (x'.tree.store.contents (row' (height' - 1))).length :=
      hext.crowded hlt
    calc
      2 * 8 ^ height' = 8 ^ (height' - 1) * 16 := by
        obtain ⟨k, rfl⟩ := Nat.exists_eq_add_of_lt hlt
        rw [Nat.add_sub_cancel, Nat.pow_succ]
        omega
      _ ≤ Node.half ^ (height' - 1) *
          ((x'.tree.store.contents (row' (height' - 1))).length - 1) :=
        Nat.mul_le_mul_left _ (Nat.le_pred_of_lt hcells)
      _ ≤ t'.items.length := i'.pow_mul_le (Nat.sub_le _ _)
  · exact ⟨Nat.le_refl _, fun hlt => absurd hlt (Nat.lt_irrefl _)⟩

/-- A tree with a level above its leaves has stored its share of pairs some
time: when it got its highest level, and no call has added one since. -/
theorem exists_prefix_length {x : Index} (h : x.Reachable)
    (hflat : x.tree.height = .ok 0) (calls : List Call) :
    ∃ height, (x.after calls).tree.height = .ok height ∧
      (1 ≤ height → ∃ front n, front <+: calls ∧
        (x.after front).length = .ok n ∧ 2 * 8 ^ height ≤ n) := by
  induction calls using List.reverseRecOn with
  | nil => exact ⟨0, hflat, fun hlt => absurd hlt (Nat.not_lt_zero _)⟩
  | append_singleton calls c ih =>
      obtain ⟨height, hheight, hfront⟩ := ih
      have hnext : x.after (calls ++ [c]) = (x.after calls).next c :=
        List.foldl_concat next x c calls
      have hbefore : 1 ≤ height → ∃ front n, front <+: calls ++ [c] ∧
          (x.after front).length = .ok n ∧ 2 * 8 ^ height ≤ n := by
        intro hpos
        obtain ⟨front, n, hpre, hn⟩ := hfront hpos
        exact ⟨front, n, hpre.trans (List.prefix_append _ _), hn⟩
      cases hcall : (x.after calls).call c with
      | error f =>
          have hsame : x.after (calls ++ [c]) = x.after calls := by
            rw [hnext, next, hcall]
          exact ⟨height, hsame ▸ hheight, hbefore⟩
      | ok q =>
          obtain ⟨x', a⟩ := q
          have hlast : x.after (calls ++ [c]) = x' := by
            rw [hnext, next, hcall]
          obtain ⟨height₀, height', hheight₀, hheight', hle, hgrown⟩ :=
            (h.after calls).call_height hcall
          obtain rfl : height₀ = height :=
            Except.ok.inj (hheight₀.symm.trans hheight)
          refine ⟨height', hlast ▸ hheight', fun hpos => ?_⟩
          rcases Nat.eq_or_lt_of_le hle with rfl | hlt
          · exact hbefore hpos
          · obtain ⟨n, hn, hshare⟩ := hgrown hlt
            exact ⟨_, n, List.prefix_refl _, hlast ▸ hn, hshare⟩

/-- **Height.** A call that makes a tree higher leaves it with twice as many
pairs as 8 to the power of its height at least. So, at any time, a tree with
a level above its leaves has had so many pairs some time before, and it has no
more than eleven such levels. -/
theorem height_logarithmic {config : Config} {x : Index} {events : List Event}
    (hx : ofConfig config = .ok (x, events)) (calls : List Call) :
    ∃ height, (x.after calls).tree.height = .ok height ∧ height ≤ 11 ∧
      (1 ≤ height → ∃ front n, front <+: calls ∧
        (x.after front).length = .ok n ∧ 2 * 8 ^ height ≤ n) ∧
      ∀ c x' a height', (x.after calls).call c = .ok (x', a) →
        x'.tree.height = .ok height' → height < height' →
        ∃ n, x'.length = .ok n ∧ 2 * 8 ^ height' ≤ n := by
  have hr : x.Reachable := .new hx
  have hflat : x.tree.height = .ok 0 := by
    obtain ⟨hc, -, htree⟩ := ofConfig_eq_ok hx
    rw [htree]
    rfl
  obtain ⟨height, hheight, hfront⟩ := exists_prefix_length hr hflat calls
  refine ⟨height, hheight, ?_, hfront, ?_⟩
  · by_contra hhigh
    obtain ⟨front, n, -, hn, hshare⟩ := hfront (by omega)
    obtain ⟨row, height', items, i⟩ := (hr.after front).exists_intact
    obtain rfl := Except.ok.inj (hn.symm.trans i.length_eq)
    have hpow : 8 ^ 12 ≤ 8 ^ height :=
      Nat.pow_le_pow_right (by decide) (by omega)
    have hlt : items.length < 16 * 4294967295 := i.length_items_lt
    omega
  · intro c x' a height' hcall hheight' hlt
    obtain ⟨height₀, height₁, hheight₀, hheight₁, -, hgrown⟩ :=
      (hr.after calls).call_height hcall
    obtain rfl := Except.ok.inj (hheight₀.symm.trans hheight)
    obtain rfl := Except.ok.inj (hheight₁.symm.trans hheight')
    exact hgrown hlt

/-- The sixteenth pair makes a leaf overflow. -/
theorem height_logarithmic_sixteen_pairs :
    ∃ x events, ofConfig { storeCapacity := 8 } = .ok (x, events) ∧
      (x.after (oneByOne 15)).tree.height = .ok 0 ∧
      ∃ x' a n, (x.after (oneByOne 15)).call (.insert [⟨15, 0⟩]) = .ok (x', a) ∧
        x'.tree.height = .ok 1 ∧ x'.length = .ok n ∧ n = 16 ∧
        2 * 8 ^ 1 ≤ n := by
  have hc : ({ storeCapacity := 8 } : Config).Valid :=
    ⟨by decide, by decide, by decide, by decide⟩
  obtain ⟨x, events, hx⟩ := exists_ofConfig hc
  have hlow : observe { storeCapacity := 8 } (oneByOne 15)
      (·.tree.height) = some (.ok 0) := by decide +kernel
  have hhigh : observe { storeCapacity := 8 } (oneByOne 15) (fun y =>
      (y.call (.insert [⟨15, 0⟩])).toOption.map fun q =>
        (q.1.tree.height, q.1.length)) =
      some (some (.ok 1, .ok 16)) := by decide +kernel
  simp only [observe, hx, Option.some.injEq] at hlow hhigh
  obtain ⟨height, hheight, -, -, hgrown⟩ := height_logarithmic hx (oneByOne 15)
  obtain rfl : 0 = height := Except.ok.inj (hlow.symm.trans hheight)
  cases hcall : (x.after (oneByOne 15)).call (.insert [⟨15, 0⟩]) with
  | error f =>
      rw [hcall] at hhigh
      cases hhigh
  | ok q =>
      rw [hcall] at hhigh
      obtain ⟨hq, hlen⟩ := Prod.mk.inj (Option.some.inj hhigh)
      obtain ⟨n, hn, hshare⟩ := hgrown _ q.1 q.2 1 hcall hq Nat.zero_lt_one
      exact ⟨x, events, hx, hlow, q.1, q.2, n, hcall, hq, hn,
        Except.ok.inj (hn.symm.trans hlen), hshare⟩

end Index

end LevelIndex
