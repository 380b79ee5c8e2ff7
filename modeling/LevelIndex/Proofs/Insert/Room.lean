import LevelIndex.Insert.Rewrite
import LevelIndex.Proofs.Batch.Climb
import LevelIndex.Proofs.Store.Twin

/-!
# The room that an insert needs

The number of slots decides only whether an insert runs out of them. Here an
insert that goes through on one tree is followed by the same insert on a
twin with `c` slots: it leads to a twin of the result, or it is `Short` of
slots, that is, it ends in a full store and the result uses more than `c`
slots. For the latter it matters that slots in use never become fewer, so
each statement comes with that.
-/

namespace LevelIndex

namespace Insert

variable {c : Nat} {t u u' : Tree} {height : Nat}

theorem lay_follows (like : Node) :
    ∀ (l : List (List Cell)) {c : Nat} {t u u' : Tree}
    {current : Handle} {staged : List Edit}, t.Twin c u →
      lay u like current l = .ok (u', staged) →
    u.store.allocated ≤ u'.store.allocated ∧
      Yields (Short c u'.store.allocated) (lay t like current l) fun r =>
        r.1.Twin c u' ∧ r.2 = staged
  | [], c, t, u, u', current, staged, w, h => by
      cases h
      exact ⟨Nat.le_refl _, w, rfl⟩
  | [last], c, t, u, u', current, staged, w, h => by
      rw [lay] at h ⊢
      obtain ⟨n, hn, h⟩ := bind_eq_ok.mp h
      obtain ⟨u₁, hcommit, h⟩ := bind_eq_ok.mp h
      cases h
      obtain ⟨hall, t', ht, w'⟩ := w.commit hcommit
      rw [hn, ok_bind, ht]
      exact ⟨Nat.le_of_eq hall.symm, w', rfl⟩
  | chunk :: next :: rest, c, t, u, u', current, staged, w, h => by
      rw [lay] at h ⊢
      obtain ⟨⟨handle, s₁⟩, hnew, h⟩ := bind_eq_ok.mp h
      dsimp only at h
      obtain ⟨n, hn, h⟩ := bind_eq_ok.mp h
      obtain ⟨s₂, hcommit, h⟩ := bind_eq_ok.mp h
      obtain ⟨⟨u₃, staged'⟩, hlay, h⟩ := bind_eq_ok.mp h
      cases h
      obtain ⟨hall₁, hyields⟩ := w.store.allocate hnew
      have hall₂ := ((Store.Twin.refl s₁).commit hcommit).1
      have hall₃ :=
        (lay_follows like (next :: rest) (Tree.Twin.refl ⟨s₂, u.root⟩) hlay).1
      have hle : s₁.allocated ≤ u₃.store.allocated :=
        Nat.le_trans (Nat.le_of_eq hall₂.symm) hall₃
      refine ⟨Nat.le_trans (by omega) hle,
        (hyields.weaken fun f hf => hf.mono hle).bind ?_⟩
      intro r hr
      obtain ⟨rfl, w₁⟩ := hr
      obtain ⟨-, s₂', hs₂', w₂⟩ := w₁.commit hcommit
      have w' : Tree.Twin c ⟨s₂', t.root⟩ ⟨s₂, u.root⟩ := ⟨w.root_eq, w₂⟩
      dsimp only
      rw [hn, ok_bind, hs₂', ok_bind]
      refine (lay_follows like (next :: rest) w' hlay).2.bind ?_
      intro r hr
      obtain ⟨w₃, rfl⟩ := hr
      exact ⟨w₃, rfl⟩

theorem grow_follows (w : t.Twin c u) {handle : Handle} {n : Node}
    (h : grow u height = .ok (handle, n, u')) :
    u.store.allocated ≤ u'.store.allocated ∧
      Yields (Short c u'.store.allocated) (grow t height) fun r =>
        r.1 = handle ∧ r.2.1 = n ∧ r.2.2.Twin c u' := by
  rw [grow] at h ⊢
  obtain ⟨old, hread, h⟩ := bind_eq_ok.mp h
  obtain ⟨above, habove, h⟩ := bind_eq_ok.mp h
  obtain ⟨⟨⟩, hreq, h⟩ := bind_eq_ok.mp h
  obtain ⟨⟨handle', s⟩, hnew, h⟩ := bind_eq_ok.mp h
  cases h
  obtain ⟨hall, hyields⟩ := w.store.allocate hnew
  refine ⟨by simp only; omega, ?_⟩
  have hroot := w.root_eq
  rw [w.store.read_eq, hroot, hread, ok_bind, habove, ok_bind, hreq, ok_bind]
  refine hyields.bind ?_
  intro r hr
  obtain ⟨rfl, w'⟩ := hr
  exact ⟨rfl, rfl, rfl, w'⟩

theorem base_follows (w : t.Twin c u) {target handle : Handle} {n : Node}
    (h : base u height target = .ok (handle, n, u')) :
    u.store.allocated ≤ u'.store.allocated ∧
      Yields (Short c u'.store.allocated) (base t height target) fun r =>
        r.1 = handle ∧ r.2.1 = n ∧ r.2.2.Twin c u' := by
  rw [base] at h ⊢
  split at h
  · next hnull =>
      rw [if_pos hnull]
      exact grow_follows w h
  · next hnull =>
      obtain ⟨m, hread, h⟩ := bind_eq_ok.mp h
      cases h
      rw [if_neg hnull, w.store.read_eq, hread]
      exact ⟨Nat.le_refl _, rfl, rfl, w⟩

theorem rewrite_follows (w : t.Twin c u) {run : List Edit} {step : Step Tree}
    (h : rewrite height u run = .ok step) :
    u.store.allocated ≤ step.state.store.allocated ∧
      Yields (Short c step.state.store.allocated)
        (rewrite height t run) fun r =>
          r.state.Twin c step.state ∧ r.staged = step.staged := by
  rw [rewrite] at h ⊢
  obtain ⟨⟨handle, n, u₁⟩, hbase, h⟩ := bind_eq_ok.mp h
  dsimp only at h
  obtain ⟨⟨⟩, hreq, h⟩ := bind_eq_ok.mp h
  obtain ⟨cells, hcells, h⟩ := bind_eq_ok.mp h
  obtain ⟨⟨u₂, staged⟩, hlay, h⟩ := bind_eq_ok.mp h
  cases h
  obtain ⟨hall₁, hyields⟩ := base_follows w hbase
  have hall₂ := (lay_follows n _ (Tree.Twin.refl u₁) hlay).1
  refine ⟨Nat.le_trans hall₁ hall₂,
    (hyields.weaken fun f hf => hf.mono hall₂).bind ?_⟩
  intro r hr
  obtain ⟨rfl, rfl, w₁⟩ := hr
  dsimp only
  rw [hreq, ok_bind, hcells, ok_bind]
  refine (lay_follows _ _ w₁ hlay).2.bind ?_
  intro r hr
  obtain ⟨w₂, rfl⟩ := hr
  exact ⟨w₂, rfl⟩

theorem sequence_follows :
    ∀ (runs : List (List Edit)) {c : Nat} {t u : Tree} {step : Step Tree},
    t.Twin c u → Step.sequence (rewrite height) u runs = .ok step →
    u.store.allocated ≤ step.state.store.allocated ∧
      Yields (Short c step.state.store.allocated)
        (Step.sequence (rewrite height) t runs) fun r =>
        r.state.Twin c step.state ∧ r.staged = step.staged
  | [], c, t, u, step, w, h => by
      cases h
      exact ⟨Nat.le_refl _, w, rfl⟩
  | run :: runs, c, t, u, step, w, h => by
      rw [Step.sequence] at h ⊢
      obtain ⟨first, hfirst, h⟩ := bind_eq_ok.mp h
      obtain ⟨rest, hrest, h⟩ := bind_eq_ok.mp h
      cases h
      obtain ⟨hall₁, hyields⟩ := rewrite_follows w hfirst
      have hall₂ := (sequence_follows runs (Tree.Twin.refl first.state) hrest).1
      refine ⟨Nat.le_trans hall₁ hall₂,
        (hyields.weaken fun f hf => hf.mono hall₂).bind ?_⟩
      intro r hr
      refine (sequence_follows runs hr.1 hrest).2.bind ?_
      intro r' hr'
      exact ⟨hr'.1, by rw [hr.2, hr'.2]⟩

/-! ## The levels of a batch -/

theorem executeEach_follows : ∀ (slices : List (List Edit)) {c : Nat}
    {t u u' : Tree} {outputs : List Output}, t.Twin c u →
      engine.executeEach height u slices = .ok (u', outputs) →
    u.store.allocated ≤ u'.store.allocated ∧
      Yields (Short c u'.store.allocated)
        (engine.executeEach height t slices) fun r =>
          r.1.Twin c u' ∧ r.2.map (·.staged) = outputs.map (·.staged)
  | [], c, t, u, u', outputs, w, h => by
      cases h
      exact ⟨Nat.le_refl _, w, rfl⟩
  | slice :: slices, c, t, u, u', outputs, w, h => by
      rw [Engine.executeEach] at h ⊢
      obtain ⟨step, hstep, h⟩ := bind_eq_ok.mp h
      obtain ⟨⟨u₁, outputs'⟩, hrest, h⟩ := bind_eq_ok.mp h
      cases h
      obtain ⟨hall₁, hyields⟩ := sequence_follows (Edit.runs slice) w hstep
      have hall₂ :=
        (executeEach_follows slices (Tree.Twin.refl step.state) hrest).1
      refine ⟨Nat.le_trans hall₁ hall₂,
        Yields.bind (hyields.weaken fun f hf => hf.mono hall₂) ?_⟩
      intro r hr
      refine (executeEach_follows slices hr.1 hrest).2.bind ?_
      intro r' hr'
      exact ⟨hr'.1, by rw [List.map_cons, List.map_cons, hr.2, hr'.2]⟩

theorem level_follows (w : t.Twin c u) {pool : Pool} {b b' : Buffers}
    {record : LevelRecord Tree}
    (h : engine.level pool height u b = .ok (record, b')) :
    u.store.allocated ≤ record.compacted.state.store.allocated ∧
      Yields (Short c record.compacted.state.store.allocated)
        (engine.level pool height t b)
        fun r => r.1.compacted.state.Twin c record.compacted.state ∧
          r.1.compacted.staged = record.compacted.staged ∧ r.2 = b' := by
  rw [Engine.level] at h ⊢
  obtain ⟨⟨u₁, outputs⟩, heach, h⟩ := bind_eq_ok.mp h
  dsimp only at h
  obtain ⟨compacted, hcompact, h⟩ := bind_eq_ok.mp h
  cases hcompact
  cases h
  obtain ⟨hall, hyields⟩ := executeEach_follows _ w heach
  refine ⟨hall, hyields.bind ?_⟩
  intro r hr
  obtain ⟨w', hstaged⟩ := hr
  dsimp only
  rw [hstaged]
  exact ⟨w', rfl, rfl⟩

theorem checkStaged_eq (w : t.Twin c u) (edits : List Edit) :
    engine.checkStaged height t edits = engine.checkStaged height u edits := by
  have hbound : engine.bound t = engine.bound u := by
    show (t.height >>= nextHeight) = (u.height >>= nextHeight)
    rw [w.height_eq]
  rw [Engine.checkStaged, Engine.checkStaged, hbound]

theorem climb_follows (pool : Pool) :
    ∀ (count : Nat) {c height : Nat} {t u u' : Tree} {b : Buffers},
    t.Twin c u → (engine.climb pool count height u b).ending = .ok u' →
    u.store.allocated ≤ u'.store.allocated ∧
      Yields (Short c u'.store.allocated)
        (engine.climb pool count height t b).ending
        fun t' => t'.Twin c u'
  | 0, c, height, t, u, u', b, w, h => by cases h
  | count + 1, c, height, t, u, u', b, w, h => by
      obtain ⟨r, b', hlevel, hcases⟩ := Engine.climb_eq_ok h
      obtain ⟨hall, hyields⟩ := level_follows w hlevel
      have hrest : r.compacted.state.store.allocated ≤ u'.store.allocated := by
        obtain ⟨-, rfl⟩ | ⟨-, -, hend⟩ := hcases
        · exact Nat.le_refl _
        · exact (climb_follows pool count (Tree.Twin.refl _) hend).1
      refine ⟨Nat.le_trans hall hrest, ?_⟩
      cases ht : engine.level pool height t b with
      | error f =>
          rw [Engine.climb_of_error ht]
          exact Short.mono hrest (hyields.of_error ht)
      | ok q =>
          obtain ⟨r', c'⟩ := q
          obtain ⟨w', hsame, rfl⟩ := hyields.of_ok ht
          obtain ⟨hstaged, rfl⟩ | ⟨hstaged, hcheck, hend⟩ := hcases
          · rw [Engine.climb_of_eq_nil ht (hsame.trans hstaged)]
            exact w'
          · have hcheck' : engine.checkStaged height r'.compacted.state
                r'.compacted.staged = .ok () := by
              rw [checkStaged_eq w', hsame, hcheck]
            rw [Engine.climb_of_passed ht (hsame ▸ hstaged) hcheck', hsame]
            exact (climb_follows pool count w' hend).2

/-- An insert on a twin leads to a twin, or it runs out of slots that it would
have needed. The steps are those of the engine, from the nodes of a run up to
the loop over the levels, with one lemma for each. -/
theorem run_follows (pool : Pool) (edits : List Edit) (w : t.Twin c u)
    (h : (engine.run pool u edits).ending = .ok u') :
    Yields (Short c u'.store.allocated) (engine.run pool t edits).ending
      fun t' => t'.Twin c u' := by
  unfold Engine.run at h ⊢
  by_cases hne : edits.isEmpty = true
  · rw [if_pos hne] at h ⊢
    cases h
    exact w
  · rw [if_neg hne] at h ⊢
    exact (climb_follows pool _ w h).2

end Insert

end LevelIndex
