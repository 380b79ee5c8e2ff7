import LevelIndex.Ascending
import LevelIndex.Node.Merge

/-!
# Cells in key order

The cells of a node, and those of a whole level read from left to right, stand
in strictly increasing key order. Such a list is a finite map: it is determined
by its members (`Increasing.ext`), and merging two of them is the union in which
the new cells win (`mem_mergeCells`). Most laws about merging are read off
these two. Three of them tell a merge without its members:

- where no key occurs twice, merging is sorting (`mergeCells_eq_of_perm`);
- lists that lie apart are merged apart (`mergeCells_append`);
- cells under keys that are there already are merged in place
  (`Replaces.mergeCells_eq`).

`floor k` is the cell at the greatest key not above `k`. Every descent is a
chain of floors, so the laws about it are what routing rests on: of a
concatenation, the right part is asked first (`floor_append`). In a list in key
order the floor stands where the keys cross `k` (`floor_of_split`,
`split_of_floor`).
-/

namespace LevelIndex

/-- Cells whose keys increase strictly. -/
abbrev Increasing (cells : List Cell) : Prop :=
  cells.Pairwise fun a b => a.key < b.key

theorem ascending_map_key {cells : List Cell} :
    Ascending (cells.map (·.key)) ↔ Increasing cells :=
  List.pairwise_map

theorem Increasing.eq_of_key_eq {cells : List Cell} (h : Increasing cells)
    {a b : Cell} (ha : a ∈ cells) (hb : b ∈ cells)
    (hk : a.key = b.key) : a = b := by
  induction cells with
  | nil => cases ha
  | cons c cells ih =>
      rcases List.mem_cons.mp ha with rfl | ha' <;>
        rcases List.mem_cons.mp hb with rfl | hb'
      · rfl
      · exact absurd (hk ▸ List.rel_of_pairwise_cons h hb') Int64.lt_irrefl
      · exact absurd (hk ▸ List.rel_of_pairwise_cons h ha') Int64.lt_irrefl
      · exact ih h.tail ha' hb'

theorem Increasing.nodup {cells : List Cell} (h : Increasing cells) :
    cells.Nodup :=
  List.Pairwise.imp
    (fun {a b} hlt (heq : a = b) => Int64.lt_irrefl (heq ▸ hlt)) h

/-- A list in key order is determined by its members, so an equality of such
lists may be shown element by element. -/
theorem Increasing.ext {l m : List Cell} (hl : Increasing l) (hm : Increasing m)
    (h : ∀ c, c ∈ l ↔ c ∈ m) : l = m :=
  eq_of_ascending_map (ascending_map_key.mpr hl) (ascending_map_key.mpr hm) h

/-! ## Merging -/

theorem length_le_length_mergeCells (old new : List Cell) :
    old.length ≤ (mergeCells old new).length := by
  fun_induction mergeCells old new with
  | case1 new => exact Nat.zero_le _
  | case2 old => exact Nat.le_refl _
  | case3 o old n new _ ih => simpa using ih
  | case4 o old n new _ _ ih => simpa using ih
  | case5 o old n new _ _ ih => exact Nat.le_succ_of_le ih

theorem length_mergeCells_le (old new : List Cell) :
    (mergeCells old new).length ≤ old.length + new.length := by
  fun_induction mergeCells old new with
  | case1 new => simp
  | case2 old => simp
  | case3 o old n new _ ih => simp only [List.length_cons] at *; omega
  | case4 o old n new _ _ ih => simp only [List.length_cons] at *; omega
  | case5 o old n new _ _ ih => simp only [List.length_cons] at *; omega

theorem lt_of_mem_mergeCells {k : Key} {old new : List Cell}
    (ho : ∀ c ∈ old, k < c.key) (hn : ∀ c ∈ new, k < c.key) {c : Cell}
    (hc : c ∈ mergeCells old new) : k < c.key :=
  (mem_or_mem_of_mem_mergeCells hc).elim (ho c) (hn c)

theorem increasing_mergeCells {old new : List Cell} (ho : Increasing old)
    (hn : Increasing new) : Increasing (mergeCells old new) := by
  fun_induction mergeCells old new with
  | case1 new => exact hn
  | case2 old => exact ho
  | case3 o old n new hlt ih =>
      refine List.pairwise_cons.mpr ⟨?_, ih ho.tail hn⟩
      intro c hc
      refine lt_of_mem_mergeCells
        (fun _ h => List.rel_of_pairwise_cons ho h) ?_ hc
      intro d hd
      rcases List.mem_cons.mp hd with rfl | hd
      · exact hlt
      · exact Int64.lt_trans hlt (List.rel_of_pairwise_cons hn hd)
  | case4 o old n new _ heq ih =>
      refine List.pairwise_cons.mpr ⟨?_, ih ho.tail hn.tail⟩
      intro c hc
      exact lt_of_mem_mergeCells
        (fun d h => heq ▸ List.rel_of_pairwise_cons ho h)
        (fun _ h => List.rel_of_pairwise_cons hn h) hc
  | case5 o old n new hlt hne ih =>
      have hno : n.key < o.key := by grind
      refine List.pairwise_cons.mpr ⟨?_, ih ho hn.tail⟩
      intro c hc
      refine lt_of_mem_mergeCells ?_
        (fun _ h => List.rel_of_pairwise_cons hn h) hc
      intro d hd
      rcases List.mem_cons.mp hd with rfl | hd
      · exact hno
      · exact Int64.lt_trans hno (List.rel_of_pairwise_cons ho hd)

/-- Merging is the union of two maps in which the new one wins: of two cells
under one key the old one is gone. -/
theorem mem_mergeCells {old new : List Cell} (ho : Increasing old)
    (hn : Increasing new) {c : Cell} :
    c ∈ mergeCells old new ↔ c ∈ new ∨
      (c ∈ old ∧ ∀ n ∈ new, n.key ≠ c.key) := by
  fun_induction mergeCells old new with
  | case1 new => simp
  | case2 old => simp
  | case3 o old n new hlt ih =>
      have hbelow : ∀ m ∈ n :: new, m.key ≠ o.key := by
        intro m hm
        rcases List.mem_cons.mp hm with rfl | hm
        · grind
        · have := List.rel_of_pairwise_cons hn hm
          grind
      rw [List.mem_cons, ih ho.tail hn]
      constructor
      · rintro (rfl | h | ⟨h, hne⟩)
        · exact Or.inr ⟨by simp, hbelow⟩
        · exact Or.inl h
        · exact Or.inr ⟨List.mem_cons_of_mem _ h, hne⟩
      · rintro (h | ⟨h, hne⟩)
        · exact Or.inr (Or.inl h)
        · rcases List.mem_cons.mp h with rfl | h
          · exact Or.inl rfl
          · exact Or.inr (Or.inr ⟨h, hne⟩)
  | case4 o old n new _ heq ih =>
      rw [List.mem_cons, ih ho.tail hn.tail]
      constructor
      · rintro (rfl | h | ⟨h, hne⟩)
        · exact Or.inl (by simp)
        · exact Or.inl (List.mem_cons_of_mem _ h)
        · refine Or.inr ⟨List.mem_cons_of_mem _ h, ?_⟩
          intro m hm
          rcases List.mem_cons.mp hm with rfl | hm
          · have := List.rel_of_pairwise_cons ho h
            grind
          · exact hne m hm
      · rintro (h | ⟨h, hne⟩)
        · rcases List.mem_cons.mp h with rfl | h
          · exact Or.inl rfl
          · exact Or.inr (Or.inl h)
        · rcases List.mem_cons.mp h with rfl | h
          · exact absurd heq.symm (hne n (by simp))
          · exact Or.inr
              (Or.inr ⟨h, fun m hm => hne m (List.mem_cons_of_mem _ hm)⟩)
  | case5 o old n new hlt hne ih =>
      have hno : n.key < o.key := by grind
      rw [List.mem_cons, ih ho hn.tail]
      constructor
      · rintro (rfl | h | ⟨h, hnew⟩)
        · exact Or.inl (by simp)
        · exact Or.inl (List.mem_cons_of_mem _ h)
        · refine Or.inr ⟨h, ?_⟩
          intro m hm
          rcases List.mem_cons.mp hm with rfl | hm
          · rcases List.mem_cons.mp h with rfl | h
            · grind
            · have := List.rel_of_pairwise_cons ho h
              grind
          · exact hnew m hm
      · rintro (h | ⟨h, hnew⟩)
        · rcases List.mem_cons.mp h with rfl | h
          · exact Or.inl rfl
          · exact Or.inr (Or.inl h)
        · exact Or.inr
            (Or.inr ⟨h, fun m hm => hnew m (List.mem_cons_of_mem _ hm)⟩)

theorem exists_cons_mergeCells (c : Cell) (old new : List Cell)
    (h : ∀ n ∈ new, c.key ≤ n.key) :
    ∃ d rest, mergeCells (c :: old) new = d :: rest ∧ d.key = c.key := by
  cases new with
  | nil => exact ⟨c, old, mergeCells_nil_right _, rfl⟩
  | cons n new =>
      rw [mergeCells_cons_cons]
      split
      · exact ⟨_, _, rfl, rfl⟩
      · next hlt =>
          have heq : c.key = n.key :=
            Int64.le_antisymm (h n (by simp)) (Int64.not_lt.mp hlt)
          rw [if_pos heq]
          exact ⟨_, _, rfl, heq.symm⟩

theorem Increasing.key_ne_of_perm {all old new : List Cell} (h : Increasing all)
    (hp : all.Perm (old ++ new)) {o n : Cell} (ho : o ∈ old) (hn : n ∈ new) :
    o.key ≠ n.key := by
  intro heq
  have hdisj : ∀ a ∈ old, ∀ b ∈ new, a ≠ b :=
    (List.nodup_append.mp (hp.nodup_iff.mp h.nodup)).2.2
  exact hdisj o ho n hn (h.eq_of_key_eq (hp.mem_iff.mpr (by simp [ho]))
    (hp.mem_iff.mpr (by simp [hn])) heq)

theorem mergeCells_eq_of_perm {old new all : List Cell} (ho : Increasing old)
    (hn : Increasing new) (ha : Increasing all) (hp : all.Perm (old ++ new)) :
    mergeCells old new = all := by
  refine (increasing_mergeCells ho hn).ext ha ?_
  intro c
  rw [mem_mergeCells ho hn, hp.mem_iff, List.mem_append]
  constructor
  · rintro (h | ⟨h, -⟩)
    · exact Or.inr h
    · exact Or.inl h
  · rintro (h | h)
    · exact Or.inr ⟨h, fun n hm => (ha.key_ne_of_perm hp h hm).symm⟩
    · exact Or.inl h

/-- Lists that lie apart are merged apart. This is what lets a level be merged
node by node, each with the run that is meant for it. -/
theorem mergeCells_append {o₁ o₂ n₁ n₂ : List Cell} (ho : Increasing (o₁ ++ o₂))
    (hn : Increasing (n₁ ++ n₂)) (hon : ∀ a ∈ o₁, ∀ b ∈ n₂, a.key < b.key)
    (hno : ∀ a ∈ n₁, ∀ b ∈ o₂, a.key < b.key) :
    mergeCells (o₁ ++ o₂) (n₁ ++ n₂) = mergeCells o₁ n₁ ++
      mergeCells o₂ n₂ := by
  obtain ⟨ho₁, ho₂, hoo⟩ := List.pairwise_append.mp ho
  obtain ⟨hn₁, hn₂, hnn⟩ := List.pairwise_append.mp hn
  refine (increasing_mergeCells ho hn).ext ?_ ?_
  · refine List.pairwise_append.mpr
      ⟨increasing_mergeCells ho₁ hn₁, increasing_mergeCells ho₂ hn₂, ?_⟩
    intro a ha b hb
    rcases mem_or_mem_of_mem_mergeCells ha with ha | ha <;>
      rcases mem_or_mem_of_mem_mergeCells hb with hb | hb
    · exact hoo a ha b hb
    · exact hon a ha b hb
    · exact hno a ha b hb
    · exact hnn a ha b hb
  · intro c
    rw [mem_mergeCells ho hn, List.mem_append (s := mergeCells o₁ n₁),
      mem_mergeCells ho₁ hn₁, mem_mergeCells ho₂ hn₂]
    simp only [List.mem_append]
    constructor
    · rintro ((h | h) | ⟨h | h, hne⟩)
      · exact Or.inl (Or.inl h)
      · exact Or.inr (Or.inl h)
      · exact Or.inl (Or.inr ⟨h, fun n hm => hne n (Or.inl hm)⟩)
      · exact Or.inr (Or.inr ⟨h, fun n hm => hne n (Or.inr hm)⟩)
    · rintro ((h | ⟨h, hne⟩) | (h | ⟨h, hne⟩))
      · exact Or.inl (Or.inl h)
      · refine Or.inr ⟨Or.inl h, fun n hm => hm.elim (hne n) ?_⟩
        intro hm heq
        exact Int64.lt_irrefl (heq ▸ hon c h n hm)
      · exact Or.inl (Or.inr h)
      · refine Or.inr ⟨Or.inr h, fun n hm => hm.elim ?_ (hne n)⟩
        intro hm heq
        exact Int64.lt_irrefl (heq ▸ hno n hm c h)

/-- The map puts each of the new cells in the place of an old one with its key,
and leaves the other old cells as they are. -/
structure Replaces (f : Cell → Cell) (old new : List Cell) : Prop where
  key_eq : ∀ c ∈ old, (f c).key = c.key
  mem_or : ∀ c ∈ old, f c ∈ new ∨ f c = c ∧ ∀ n ∈ new, n.key ≠ c.key
  met : ∀ n ∈ new, ∃ c ∈ old, c.key = n.key

/-- Cells under keys that are there are merged in place, so a list keeps its
length and its keys. -/
theorem Replaces.mergeCells_eq {f : Cell → Cell} {old new : List Cell}
    (h : Replaces f old new) (ho : Increasing old) (hn : Increasing new) :
    mergeCells old new = old.map f := by
  have hmap : Increasing (old.map f) :=
    List.pairwise_map.mpr <| ho.imp_of_mem fun ha hb hlt => by
      rwa [h.key_eq _ ha, h.key_eq _ hb]
  refine (increasing_mergeCells ho hn).ext hmap fun c => ?_
  rw [mem_mergeCells ho hn, List.mem_map]
  constructor
  · rintro (hc | ⟨hc, hno⟩)
    · obtain ⟨d, hd, hk⟩ := h.met c hc
      refine ⟨d, hd, ?_⟩
      rcases h.mem_or d hd with hf | ⟨-, hno⟩
      · exact hn.eq_of_key_eq hf hc ((h.key_eq d hd).trans hk)
      · exact absurd hk.symm (hno c hc)
    · refine ⟨c, hc, ?_⟩
      rcases h.mem_or c hc with hf | ⟨hf, -⟩
      · exact absurd (h.key_eq c hc) (hno _ hf)
      · exact hf
  · rintro ⟨d, hd, rfl⟩
    refine (h.mem_or d hd).imp_right ?_
    rintro ⟨hf, hno⟩
    rw [hf]
    exact ⟨hd, hno⟩

/-! ## The cell at or below a key -/

/-- The last of the cells whose key is not above `key`. -/
def floor (key : Key) (cells : List Cell) : Option Cell :=
  (cells.filter fun c => c.key ≤ key).getLast?

@[simp] theorem floor_nil (key : Key) : floor key [] = none := rfl

theorem floor_append (key : Key) (l m : List Cell) :
    floor key (l ++ m) = (floor key m).or (floor key l) := by
  simp [floor, List.getLast?_append]

theorem floor_singleton (key : Key) (c : Cell) :
    floor key [c] = if c.key ≤ key then some c else none := by
  by_cases h : c.key ≤ key <;> simp [floor, h]

theorem floor_cons (key : Key) (c : Cell) (cells : List Cell) :
    floor key (c :: cells) = (floor key cells).or (floor key [c]) :=
  floor_append key [c] cells

theorem floor_eq_none {key : Key} {cells : List Cell}
    (h : ∀ c ∈ cells, key < c.key) : floor key cells = none := by
  rw [floor, List.getLast?_eq_none_iff, List.filter_eq_nil_iff]
  intro c hc
  simpa using h c hc

theorem mem_of_floor {key : Key} {cells : List Cell} {c : Cell}
    (h : floor key cells = some c) : c ∈ cells ∧ c.key ≤ key := by
  simpa using List.mem_filter.mp (List.mem_of_getLast? h)

/-- The floor stands where the keys cross `key`. What comes before it does not
matter, and need not be in order. -/
theorem floor_of_split {key : Key} {l m : List Cell} {c : Cell}
    (hc : c.key ≤ key) (hm : ∀ d ∈ m, key < d.key) :
    floor key (l ++ c :: m) = some c := by
  rw [show l ++ c :: m = l ++ ([c] ++ m) from rfl, floor_append, floor_append,
    floor_eq_none hm, floor_singleton, if_pos hc]
  rfl

theorem split_of_floor {key : Key} {cells : List Cell} {c : Cell}
    (hi : Increasing cells) (h : floor key cells = some c) :
    ∃ l m, cells = l ++ c :: m ∧ c.key ≤ key ∧ ∀ d ∈ m, key < d.key := by
  obtain ⟨hmem, hle⟩ := mem_of_floor h
  obtain ⟨l, m, rfl⟩ := List.append_of_mem hmem
  refine ⟨l, m, rfl, hle, ?_⟩
  intro d hd
  apply Int64.not_le.mp
  intro hdk
  cases hf : floor key m with
  | none =>
      rw [floor, List.getLast?_eq_none_iff, List.filter_eq_nil_iff] at hf
      exact hf d hd (by simpa using hdk)
  | some e =>
      have he : floor key (l ++ c :: m) = some e := by
        rw [show l ++ c :: m = (l ++ [c]) ++ m by simp, floor_append, hf]
        rfl
      obtain rfl := Option.some.inj (h.symm.trans he)
      have hlt : c.key < c.key :=
        List.rel_of_pairwise_cons (List.pairwise_append.mp hi).2.1
          (mem_of_floor hf).1
      exact Int64.lt_irrefl hlt

/-- The floor is the greatest of the cells that are not above the key. Only here
the list has to be in key order; a floor is a cell not above the key without
that. -/
theorem key_le_of_floor {key : Key} {cells : List Cell} {c d : Cell}
    (hi : Increasing cells) (hf : floor key cells = some c) (hd : d ∈ cells)
    (hk : d.key ≤ key) : d.key ≤ c.key := by
  obtain ⟨l, m, rfl, -, hm⟩ := split_of_floor hi hf
  rcases List.mem_append.mp hd with hl | hd
  · exact Int64.le_of_lt ((List.pairwise_append.mp hi).2.2 d hl c (by simp))
  · rcases List.mem_cons.mp hd with rfl | hd
    · exact Int64.le_refl _
    · exact absurd hk (Int64.not_le.mpr (hm d hd))

theorem floor_of_mem {cells : List Cell} {c : Cell} (hi : Increasing cells)
    (hc : c ∈ cells) : floor c.key cells = some c := by
  obtain ⟨l, m, rfl⟩ := List.append_of_mem hc
  exact floor_of_split (Int64.le_refl _) fun d hd =>
    List.rel_of_pairwise_cons (List.pairwise_append.mp hi).2.1 hd

theorem floor_isSome_of_mem {key : Key} {cells : List Cell} {c : Cell}
    (hc : c ∈ cells) (hk : c.key ≤ key) : ∃ d, floor key cells = some d := by
  cases h : floor key cells with
  | some d => exact ⟨d, rfl⟩
  | none =>
      rw [floor, List.getLast?_eq_none_iff, List.filter_eq_nil_iff] at h
      exact absurd (by simpa using hk) (h c hc)

end LevelIndex
