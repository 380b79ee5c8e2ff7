import LevelIndex.Proofs.Level
import LevelIndex.Proofs.Yields
import LevelIndex.Remove.Compact

/-!
# Flagged nodes and their groups

After a level has been rewritten, each of its nodes is either calm, starting
where it did and at least half full unless it is the last, or it is flagged
by an edit of its own, and these edits stand in the order of the nodes
(`Flagged`).

Gathering starts at a node and takes in its right neighbours. `Gathered`
says how far it gets: only the last node taken may be calm, what the nodes
before it hold is less than half a node's, and with the last one it is
enough, or the level ends.
-/

namespace LevelIndex

namespace Remove

/-- The edit that flags a node which started at the key `old` before. -/
def flag (s : Store) (old : Handle → Key) (h : Handle) : Edit :=
  .flagged (old h) (s.node h).firstKey h
    { underflow := (s.node h).underfull
      changeKey := (s.node h).isEmpty || (s.node h).firstKey ≠ old h }

/-- A node that compaction has no need to look at. -/
structure Calm (s : Store) (old : Handle → Key) (h : Handle) : Prop where
  nonempty : (s.node h).cells ≠ []
  firstKey_eq : (s.node h).firstKey = old h

/-- The nodes of a row with the edits that flag some of them. -/
inductive Flagged (s : Store) (old : Handle → Key) : List Handle →
    List Edit → Prop
  | nil : Flagged s old [] []
  | calm {h : Handle} {row : List Handle} {edits : List Edit} :
      Calm s old h → (row ≠ [] → Node.half ≤ (s.node h).size) →
        Flagged s old row edits →
      Flagged s old (h :: row) edits
  | flagged {h : Handle} {row : List Handle} {edits : List Edit} :
      (flag s old h).flags.isEmpty = false → Flagged s old row edits →
      Flagged s old (h :: row) (flag s old h :: edits)

section Flagged

variable {s s' : Store} {old : Handle → Key} {row : List Handle}
  {edits : List Edit}

theorem flag_congr {h : Handle} (hn : s'.node h = s.node h) :
    flag s' old h = flag s old h := by
  simp only [flag, hn]

theorem Flagged.target_mem (hf : Flagged s old row edits) {e : Edit}
    (he : e ∈ edits) : e.target ∈ row := by
  induction hf with
  | nil => cases he
  | calm _ _ _ ih => exact List.mem_cons_of_mem _ (ih he)
  | flagged _ _ ih =>
      rcases List.mem_cons.mp he with rfl | he
      · exact List.mem_cons_self
      · exact List.mem_cons_of_mem _ (ih he)

theorem Flagged.congr (hf : Flagged s old row edits)
    (hn : ∀ h ∈ row, s'.node h = s.node h) : Flagged s' old row edits := by
  induction hf with
  | nil => exact .nil
  | @calm h row edits hc hhalf _ ih =>
      have hh := hn h (by simp)
      refine .calm ⟨hh ▸ hc.nonempty, hh ▸ hc.firstKey_eq⟩
        (fun hne => hh ▸ hhalf hne)
        (ih fun k hk => hn k (List.mem_cons_of_mem _ hk))
  | @flagged h row edits hflags _ ih =>
      have hh : flag s' old h = flag s old h := flag_congr (hn h (by simp))
      rw [← hh] at hflags ⊢
      exact .flagged hflags (ih fun k hk => hn k (List.mem_cons_of_mem _ hk))

/-- Calm nodes come before the first flagged one, and are at least half full, as
the last node of the level is not among them. -/
theorem Flagged.exists_split {e : Edit} (hf : Flagged s old row (e :: edits)) :
    ∃ front h rest, row = front ++ h :: rest ∧ e = flag s old h ∧
      e.flags.isEmpty = false ∧
      (∀ k ∈ front, Calm s old k ∧ Node.half ≤ (s.node k).size) ∧
        Flagged s old rest edits := by
  generalize hall : e :: edits = all at hf
  induction hf with
  | nil => cases hall
  | @calm h row _ hc hhalf _ ih =>
      obtain ⟨front, k, rest, rfl, he, hflags, hfront, hrest⟩ := ih hall
      refine ⟨h :: front, k, rest, rfl, he, hflags, ?_, hrest⟩
      intro j hj
      rcases List.mem_cons.mp hj with rfl | hj
      · exact ⟨hc, hhalf (by simp)⟩
      · exact hfront j hj
  | @flagged h row _ hflags hrest _ =>
      obtain ⟨rfl, rfl⟩ := List.cons.inj hall
      exact ⟨[], h, row, rfl, rfl, hflags, by simp, hrest⟩

theorem Flagged.calm_of_nil (hf : Flagged s old row []) :
    (∀ h ∈ row, Calm s old h) ∧
      ∀ h ∈ row.dropLast, Node.half ≤ (s.node h).size := by
  generalize hall : ([] : List Edit) = edits at hf
  induction hf with
  | nil => simp
  | @calm h row _ hc hhalf _ ih =>
      obtain ⟨hcalm, hdrop⟩ := ih hall
      refine ⟨?_, ?_⟩
      · intro k hk
        rcases List.mem_cons.mp hk with rfl | hk
        · exact hc
        · exact hcalm k hk
      · intro k hk
        cases row with
        | nil => cases hk
        | cons j row =>
            rw [List.dropLast_cons_of_ne_nil (List.cons_ne_nil _ _)] at hk
            rcases List.mem_cons.mp hk with rfl | hk
            · exact hhalf (by simp)
            · exact hdrop k hk
  | flagged => cases hall

end Flagged

/-! ## Gathering -/

/-- What gathering from the first node of `row` on takes: the nodes
`visited` and the node `last`. -/
structure Gathered (s : Store) (old : Handle → Key) (cells : List Cell)
    (row : List Handle) (g : Group) (visited : List Handle) (last : Handle)
    (beyond : List Handle) : Prop where
  row_eq : row = visited ++ last :: beyond
  cells_eq : g.cells = cells ++ s.contents (visited ++ [last])
  tail_eq : g.tail = last
  tailNode_eq : g.tailNode = s.node last
  absorbed_eq : g.absorbed =
    (visited ++ if g.covered then [last] else []).map (flag s old)
  calm : g.covered = false → Calm s old last
  short : visited ≠ [] → (cells ++ s.contents visited).length < Node.half
  enough : beyond = [] ∨ Node.half ≤ g.cells.length
  rest : Flagged s old beyond g.rest

/-- A node without an edit of its own ends the group, be it that it is half full
or that the level ends with it. -/
theorem gather_of_calm {t : Tree} {height : Nat} {cells : List Cell}
    {h : Handle} {edits : List Edit}
    (hread : t.store.read h = .ok (t.store.node h))
    (hne : ∀ e ∈ edits, e.target ≠ h)
    (hstop : ¬((t.store.node h).underfull = true ∧
      (t.store.node h).right ≠ .null)) :
    gather t height cells h edits =
      .ok ⟨[], edits, cells ++ (t.store.node h).cells, h,
        t.store.node h, false⟩ := by
  have hbystander : gather t height cells h edits =
      gather.bystander height h (t.store.node h)
        (cells ++ (t.store.node h).cells) edits := by
    cases edits with
    | nil =>
        rw [gather, hread]
        rfl
    | cons e edits =>
        rw [gather, hread]
        simp only [bind, Except.bind, if_neg (hne e (by simp))]
  rw [hbystander, gather.bystander, if_neg hstop]

theorem gather_eq_ok {t : Tree} {old : Handle → Key} (height : Nat) :
    ∀ {row : List Handle}
    {edits : List Edit} {h : Handle} (cells : List Cell),
    Flagged t.store old (h :: row) edits → t.store.Linked .null (h :: row) →
      (h :: row).Nodup →
    (∀ k ∈ h :: row, t.store.contains k = true) →
    (∀ k ∈ h :: row, Increasing (t.store.node k).cells) →
    ∃ g visited last beyond, gather t height cells h edits = .ok g ∧
      Gathered t.store old cells (h :: row) g visited last beyond := by
  intro row edits h cells hf hlink hnd hlive hincr
  have hread := Store.read_eq_ok (hlive h (by simp)) (hincr h (by simp))
  have hright : (t.store.node h).right ≠ .null ↔ row ≠ [] := by
    rw [hlink.1]
    cases row with
    | nil => simp
    | cons k row => simpa using Store.ne_null_of_contains (hlive k (by simp))
  cases hf with
  | calm hc hhalf hrest =>
      have hstop : ¬((t.store.node h).underfull = true ∧
          (t.store.node h).right ≠ .null) := by
        rw [hright]
        rintro ⟨hunder, hne⟩
        have := hhalf hne
        simp only [Node.underfull, decide_eq_true_eq] at hunder
        omega
      have hother : ∀ e ∈ edits, e.target ≠ h := by
        intro e he heq
        exact (List.nodup_cons.mp hnd).1 (heq ▸ hrest.target_mem he)
      refine ⟨_, [], h, row, gather_of_calm hread hother hstop, rfl, by simp,
        rfl, rfl, rfl, fun _ => hc, fun h => absurd rfl h, ?_, hrest⟩
      by_cases hne : row = []
      · exact Or.inl hne
      · refine Or.inr (Nat.le_trans (hhalf hne) ?_)
        simp [Node.size]
  | @flagged _ _ edits hflags hrest =>
      by_cases hmore : (cells ++ (t.store.node h).cells).length < Node.half ∧
          (t.store.node h).right ≠ .null
      · obtain ⟨k, row, rfl⟩ := List.exists_cons_of_ne_nil (hright.mp hmore.2)
        have hnext : (t.store.node h).right = k := by simpa using hlink.1
        obtain ⟨g, visited, last, beyond, hg, hspec⟩ :=
          gather_eq_ok height (cells ++ (t.store.node h).cells) hrest hlink.2
            (List.nodup_cons.mp hnd).2
            (fun j hj => hlive j (List.mem_cons_of_mem _ hj)) fun j hj =>
            hincr j (List.mem_cons_of_mem _ hj)
        refine ⟨{ g with absorbed := flag t.store old h :: g.absorbed },
          h :: visited, last, beyond, ?_,
          by rw [hspec.row_eq]; rfl, ?_, hspec.tail_eq, hspec.tailNode_eq, ?_,
          hspec.calm, ?_, hspec.enough, hspec.rest⟩
        · rw [gather, hread]
          show (if h = h then _ else _) = _
          rw [if_pos rfl, if_pos hmore, hnext, hg]
          rfl
        · rw [hspec.cells_eq, List.cons_append, Store.contents_cons,
            List.append_assoc]
        · rw [List.cons_append, List.map_cons, hspec.absorbed_eq]
        · intro _
          rw [Store.contents_cons, ← List.append_assoc]
          by_cases hv : visited = []
          · rw [hv, Store.contents_nil, List.append_nil]
            exact hmore.1
          · exact hspec.short hv
      · refine ⟨⟨[flag t.store old h], edits, cells ++ (t.store.node h).cells,
          h, t.store.node h, true⟩, [], h, row, ?_, rfl,
          by simp, rfl, rfl, rfl, fun h => by simp at h,
          fun h => absurd rfl h, ?_, hrest⟩
        · rw [gather, hread]
          show (if h = h then _ else _) = _
          rw [if_pos rfl, if_neg hmore]
        · by_cases hne : row = []
          · exact Or.inl hne
          · refine Or.inr
              (Nat.le_of_not_lt fun hlt => hmore ⟨hlt, hright.mpr hne⟩)

end Remove

end LevelIndex
