import LevelIndex.Proofs.Batch.Shares
import LevelIndex.Proofs.Yields

/-!
# The course of a batch

An engine is *divisible* if it does not see where its edits are cut, as long
as they are cut where the target changes; an engine that works run by run is.
Where equal targets stand together, a level of a divisible engine done by a
pool of workers leads to the state and to the edits of the same level done by
one worker: the records of both have the same outline (`level_outline`). What a
level has executed and compacted is thereby what one worker makes of its edits
(`level_alone`, `level_executed`), and the proofs about a level speak of one
worker only.

Two inductions over the levels of a batch rest on this. Both are given an
invariant of the state and the edits at each height.

* `climb_agrees`: where every level keeps the invariant, the courses under two
  pools have the same outline, and so the same end.
* `climb_yields` has to be told that a level ends well, and that what it
  stages passes the check and meets the invariant one height up, or that the
  batch has come to its end. It gives the end of the batch, and the invariant
  at every level the batch has passed.

That each level goes on from what the one below it has left holds of every
engine (`run_ascends`), and so does what every level hands on to the next
(`run_keeps`). A loop that comes to an end is read backwards by `climb_eq_ok`,
one level at a time, and by `climb_over`, up to a height.
-/

namespace LevelIndex

variable {σ : Type}

theorem Step.sequence_append (work : σ → List Edit → Except Fault (Step σ))
    (s : σ) (l m : List (List Edit)) : Step.sequence work s (l ++ m) = (do
      let first ← Step.sequence work s l
      let rest ← Step.sequence work first.state m
      return {
        state := rest.state
        staged := first.staged ++ rest.staged
        events := first.events ++ rest.events }) := by
  induction l generalizing s with
  | nil =>
      show _ = (Step.sequence work s m >>= fun rest => Except.ok _)
      rw [List.nil_append]
      cases Step.sequence work s m <;> rfl
  | cons piece l ih =>
      rw [List.cons_append, Step.sequence, Step.sequence]
      cases work s piece with
      | error f => rfl
      | ok first =>
          show (Step.sequence work first.state (l ++ m) >>= _) = _
          rw [ih]
          cases hl : Step.sequence work first.state l with
          | error f => simp only [bind, Except.bind, hl]
          | ok second =>
              cases hm : Step.sequence work second.state m with
              | error f => simp only [bind, Except.bind, pure,
                Except.pure, hl, hm]
              | ok third => simp only [bind, Except.bind, pure,
                  Except.pure, hl, hm,
                  List.append_assoc]

/-- A level goes on from what another has left. -/
structure LevelRecord.Leads (r r' : LevelRecord σ) : Prop where
  height_eq : r'.height = r.height + 1
  before_eq : r'.before = r.compacted.state
  edits_eq : r'.edits = r.compacted.staged

/-- The levels go up one by one, from a height, a state and edits. Where they
come to an end it is that of the last. -/
structure Course.Ascends (c : Course σ) (height : Nat) (s : σ)
    (edits : List Edit) : Prop where
  first : ∀ r ∈ c.levels.head?, r.height = height ∧ r.before = s ∧
    r.edits = edits
  chain : c.levels.IsChain LevelRecord.Leads
  last : ∀ t, c.ending = .ok t →
    (c.levels.getLast?.map (·.compacted.state)).getD s = t

namespace Course.Ascends

variable {r : LevelRecord σ} {s : σ} {edits : List Edit}

theorem singleton {height : Nat} {ending : Except Fault σ}
    (h : r.height = height ∧ r.before = s ∧ r.edits = edits)
    (hend : ∀ t, ending = .ok t → r.compacted.state = t) :
    Ascends { levels := [r], ending } height s edits where
  first r' hr' := by
    obtain rfl : r = r' := Option.some.inj hr'
    exact h
  chain := .singleton r
  last := hend

theorem cons {rest : Course σ}
    (h : rest.Ascends (r.height + 1) r.compacted.state r.compacted.staged)
    (hr : r.before = s ∧ r.edits = edits) :
    Ascends { rest with levels := r :: rest.levels } r.height s edits where
  first r' hr' := by
    obtain rfl : r = r' := Option.some.inj hr'
    exact ⟨rfl, hr⟩
  chain := List.isChain_cons.mpr ⟨fun r' hr' =>
    have ⟨hheight, hbefore, hedits⟩ := h.first r' hr'
    ⟨hheight, hbefore, hedits⟩, h.chain⟩
  last t ht := by
    rw [← h.last t ht, List.getLast?_cons]
    cases rest.levels.getLast? <;> rfl

end Course.Ascends

/-- What was staged at a height; nothing, if the batch has not come there. -/
def Course.stagedAt (c : Course σ) (height : Nat) : List Edit :=
  ((c.levels.find? (·.height == height)).map (·.compacted.staged)).getD []

theorem Course.stagedAt_cons {r : LevelRecord σ} {levels : List (LevelRecord σ)}
    {ending : Except Fault σ} {height : Nat} :
    stagedAt ⟨r :: levels, ending⟩ height =
      if r.height = height then r.compacted.staged
      else stagedAt ⟨levels, ending⟩ height := by
  by_cases h : r.height = height
  · rw [if_pos h, stagedAt, List.find?_cons_of_pos (by simpa using h)]
    rfl
  · rw [if_neg h, stagedAt, List.find?_cons_of_neg (by simpa using h)]
    rfl

/-- A record without what depends on the pool: in which mode the level was
done, and what its first worker has logged. -/
def LevelRecord.outline (r : LevelRecord σ) : LevelRecord σ :=
  { r with parallel := false, executed := { r.executed with events := [] } }

/-- A course without what depends on the pool. -/
def Course.outline (c : Course σ) : Course σ :=
  { c with levels := c.levels.map LevelRecord.outline }

theorem Course.exists_of_outline_eq {c d : Course σ} {r : LevelRecord σ}
    (h : c.outline = d.outline) (hr : r ∈ c.levels) :
    ∃ r' ∈ d.levels, r'.outline = r.outline := by
  have hmem : r.outline ∈ d.outline.levels :=
    h ▸ List.mem_map_of_mem hr
  exact List.mem_map.mp hmem

theorem Course.flatMap_levels_eq {c d : Course σ} {β : Type}
    {f : LevelRecord σ → List β} (h : c.outline = d.outline)
    (hf : ∀ r, f r.outline = f r) : c.levels.flatMap f = d.levels.flatMap f := by
  have hout : ∀ c : Course σ, c.levels.flatMap f = c.outline.levels.flatMap f :=
    fun c => by simp [Course.outline, List.flatMap_map, hf]
  rw [hout c, hout d, h]

namespace Engine

/-- What the execution of some edits leads to, its events apart. -/
def outcome (e : Engine σ) (height : Nat) (s : σ) (edits : List Edit) :
    Except Fault (σ × List Edit) :=
  (e.execute s height edits).map fun step => (step.state, step.staged)

/-- What the workers lead to together. -/
def outcomeEach (e : Engine σ) (height : Nat) (s : σ)
    (slices : List (List Edit)) : Except Fault (σ × List Edit) :=
  (e.executeEach height s slices).map fun r => (r.1, r.2.flatMap (·.staged))

/-- The engine does not see where its edits are cut, if that is where the
target changes. -/
def Divisible (e : Engine σ) : Prop :=
  ∀ s height edits r, Edit.CutAt edits r → e.outcome height s edits = (do
    let first ← e.outcome height s (edits.take r)
    let rest ← e.outcome height first.1 (edits.drop r)
    return (rest.1, first.2 ++ rest.2))

/-- The engine carries out the runs of its edits one after the other. -/
def ByRuns (e : Engine σ) (work : Nat → σ → List Edit → Except Fault (Step σ)) :
    Prop :=
  ∀ s height edits, e.execute s height edits = Step.sequence (work height) s
    (Edit.runs edits)

/-- A level done by one worker. -/
def pass (e : Engine σ) (height : Nat) (s : σ) (edits : List Edit) :
    Except Fault (Step σ) := do
  let step ← e.execute s height edits
  e.compact step.state height step.staged

/-- The outline of a level done by one worker. -/
def passOutline (e : Engine σ) (height : Nat) (s : σ) (edits : List Edit) :
    Except Fault (LevelRecord σ) := do
  let (state, staged) ← e.outcome height s edits
  let compacted ← e.compact state height staged
  let executed := { state, staged, events := [] }
  return { height, parallel := false, before := s, edits, executed, compacted }

variable {e : Engine σ} {work : Nat → σ → List Edit → Except Fault (Step σ)}

theorem ByRuns.divisible (he : e.ByRuns work) : e.Divisible := by
  intro s height edits r hr
  have hruns := Edit.runs_append_of_cut hr (edits.drop r) (List.prefix_refl _)
  rw [List.take_append_drop] at hruns
  unfold outcome
  rw [he s height edits, he s height, hruns, Step.sequence_append]
  cases Step.sequence (work height) s (Edit.runs (edits.take r)) with
  | error f => rfl
  | ok first =>
      simp only [bind, Except.bind, Except.map]
      rw [he first.state height]
      cases Step.sequence (work height) first.state
        (Edit.runs (edits.drop r)) <;> rfl

theorem outcomeEach_singleton (height : Nat) (s : σ) (slice : List Edit) :
    e.outcomeEach height s [slice] = e.outcome height s slice := by
  simp only [outcomeEach, outcome, executeEach, bind, Except.bind]
  cases e.execute s height slice with
  | error f => rfl
  | ok step => simp [Except.map, pure, Except.pure]

theorem executeEach_append (height : Nat) (l m : List (List Edit)) (s : σ) :
    e.executeEach height s (l ++ m) = (do
      let first ← e.executeEach height s l
      let rest ← e.executeEach height first.1 m
      return (rest.1, first.2 ++ rest.2)) := by
  induction l generalizing s with
  | nil => simp [executeEach]
  | cons slice l ih => simp [executeEach, ih]

theorem outcomeEach_append (height : Nat) (l m : List (List Edit)) (s : σ) :
    e.outcomeEach height s (l ++ m) = (do
      let first ← e.outcomeEach height s l
      let rest ← e.outcomeEach height first.1 m
      return (rest.1, first.2 ++ rest.2)) := by
  unfold outcomeEach
  rw [executeEach_append]
  cases e.executeEach height s l with
  | error f => rfl
  | ok first =>
      simp only [bind, Except.bind, Except.map]
      cases e.executeEach height first.1 m with
      | error f => rfl
      | ok rest => simp [pure, Except.pure]

section Shares

variable {edits : List Edit} (hc : Clustered (Edit.targets edits))
include hc

/-- The first shares lead together to what all they hold leads to. By induction
on their number: the next share begins where the target changes, and a divisible
engine does not see a cut that is made there. -/
theorem outcomeEach_shares_upto (he : e.Divisible) (height : Nat) (s : σ)
    (workers : Nat) : ∀ count < workers,
    e.outcomeEach height s ((List.range (count + 1)).map fun w =>
      Span.slice edits (share edits workers w))
      = e.outcome height s
        (edits.take (widened edits (edits.length * (count + 1) / workers)))
  | 0, h => by
      rw [List.range_one, List.map_singleton, outcomeEach_singleton,
        slice_share hc h]
      simp [widened]
  | count + 1, h => by
      have hcount := Nat.le_of_succ_le h
      have hcut := (widened_spec hc (cut_le_length edits hcount)).2.2.1
      have hle : edits.length * (count + 1) / workers ≤
          edits.length * (count + 1 + 1) / workers :=
        Nat.div_le_div_right (Nat.mul_le_mul_left _ (Nat.le_succ _))
      have hmono := widened_mono hc hle (cut_le_length edits h)
      rw [List.range_succ, List.map_append, outcomeEach_append,
        outcomeEach_shares_upto he height s workers count hcount,
        List.map_singleton, slice_share hc h,
        he s height _ _ (hcut.take hmono), List.take_take,
        Nat.min_eq_left hmono, List.drop_take]
      simp only [outcomeEach_singleton]

theorem outcomeEach_slices (he : e.Divisible) (pool : Pool) (height : Nat)
    (s : σ) : e.outcomeEach height s (pool.slices height edits) =
      e.outcome height s edits := by
  unfold Pool.slices
  split
  · have hpos := pool.workers_pos
    have hfull := (widened_spec hc (Nat.le_refl edits.length)).1
    have h := outcomeEach_shares_upto hc he height s pool.workers
      (pool.workers - 1) (by omega)
    rw [Nat.sub_add_cancel hpos, Nat.mul_div_cancel _ hpos,
      List.take_of_length_le hfull] at h
    rw [shares, List.map_map]
    exact h
  · exact outcomeEach_singleton height s edits

end Shares

/-- **A level does not depend on how its edits are shared.** But for its mode
and what its first worker logs, its record is that of one worker who has all
edits. -/
theorem level_outline (he : e.Divisible) (pool : Pool) (height : Nat)
    (s : σ) {b : Buffers} (hb : Clustered (Edit.targets b.current)) :
    (e.level pool height s b).map (·.1.outline) =
      e.passOutline height s b.current := by
  have heach := outcomeEach_slices hb he pool height s
  unfold level passOutline
  rw [← heach, outcomeEach]
  cases e.executeEach height s (pool.slices height b.current) with
  | error f => rfl
  | ok r =>
      simp only [bind, Except.bind, Except.map, Buffers.gather, Buffers.fill,
        ← List.flatMap_def]
      cases e.compact r.1 height (r.2.flatMap (·.staged)) <;> rfl

theorem passOutline_compacted (height : Nat) (s : σ) (edits : List Edit) :
    (e.passOutline height s edits).map (·.compacted) =
      e.pass height s edits := by
  unfold passOutline pass outcome
  cases e.execute s height edits with
  | error f => rfl
  | ok step =>
      simp only [bind, Except.bind, Except.map]
      cases e.compact step.state height step.staged <;> rfl

theorem compacted_level (he : e.Divisible) (pool : Pool) (height : Nat)
    (s : σ) {b : Buffers} (hb : Clustered (Edit.targets b.current)) :
    (e.level pool height s b).map (fun r => r.1.compacted) =
      e.pass height s b.current := by
  rw [← passOutline_compacted, ← level_outline he pool height s hb]
  cases e.level pool height s b <;> rfl

/-- What a level has executed and compacted is what one worker executes and
compacts. It is the form in which `level_outline` is used for a level that has
been passed. -/
theorem level_alone (he : e.Divisible) {pool : Pool} {height : Nat} {s : σ}
    {b b' : Buffers} {r : LevelRecord σ}
    (hb : Clustered (Edit.targets b.current))
    (h : e.level pool height s b = .ok (r, b')) :
    e.outcome height s b.current =
        .ok (r.executed.state, r.executed.staged) ∧
      e.compact r.executed.state height r.executed.staged =
        .ok r.compacted := by
  have hout := level_outline he pool height s hb
  rw [h] at hout
  obtain ⟨q, hq, hout⟩ := bind_eq_ok.mp hout.symm
  obtain ⟨compacted, hc, hout⟩ := bind_eq_ok.mp hout
  have hr : _ = r.outline := Except.ok.inj hout
  have hstate : q.1 = r.executed.state := congrArg (·.executed.state) hr
  have hstaged : q.2 = r.executed.staged := congrArg (·.executed.staged) hr
  have hcomp : compacted = r.compacted := congrArg (·.compacted) hr
  rw [hstate, hstaged] at hc
  exact ⟨hq.trans (by rw [← hstate, ← hstaged]), hc.trans (by rw [hcomp])⟩

theorem level_eq_ok {pool : Pool} {height : Nat} {s : σ} {b b' : Buffers}
    {r : LevelRecord σ} (h : e.level pool height s b = .ok (r, b')) :
    r.height = height ∧ r.before = s ∧ r.edits = b.current := by
  unfold level at h
  cases hl : e.executeEach height s (pool.slices height b.current) with
  | error f => rw [hl] at h; cases h
  | ok q =>
      simp only [hl, bind, Except.bind] at h
      split at h
      · cases h
      · cases h
        exact ⟨rfl, rfl, rfl⟩

theorem level_executed (he : e.ByRuns work) {pool : Pool} {height : Nat} {s : σ}
    {b b' : Buffers} {r : LevelRecord σ}
    (hb : Clustered (Edit.targets b.current))
    (h : e.level pool height s b = .ok (r, b')) :
    ∃ step, Step.sequence (work r.height) r.before (Edit.runs r.edits) =
      .ok step ∧ r.executed.state = step.state ∧
      r.executed.staged = step.staged := by
  obtain ⟨rfl, rfl, hedits⟩ := level_eq_ok h
  have hout := (level_alone he.divisible hb h).1
  rw [outcome, he, ← hedits] at hout
  cases hstep : Step.sequence (work r.height) r.before (Edit.runs r.edits) with
  | error f =>
      rw [hstep] at hout
      cases hout
  | ok step =>
      rw [hstep] at hout
      have hsame := Prod.mk.inj (Except.ok.inj hout)
      exact ⟨step, rfl, hsame.1.symm, hsame.2.symm⟩

/-! ## One step of the loop -/

section Step

variable {pool : Pool} {count height : Nat} {s : σ} {b b' : Buffers}
  {r : LevelRecord σ}

theorem climb_of_error {f : Fault} (h : e.level pool height s b = .error f) :
    e.climb pool (count + 1) height s b =
      { levels := [], ending := .error f } := by
  rw [climb, h]

theorem climb_of_eq_nil (h : e.level pool height s b = .ok (r, b'))
    (hstaged : r.compacted.staged = []) :
    e.climb pool (count + 1) height s b =
      { levels := [r], ending := .ok r.compacted.state } := by
  rw [climb, h]
  exact if_pos (by simp [hstaged])

theorem climb_of_refused {f : Fault} (h : e.level pool height s b = .ok (r, b'))
    (hstaged : r.compacted.staged ≠ [])
    (hcheck : e.checkStaged height r.compacted.state r.compacted.staged =
      .error f) :
    e.climb pool (count + 1) height s b =
      { levels := [r], ending := .error f } := by
  rw [climb, h]
  dsimp only
  rw [if_neg (by simpa using hstaged), hcheck]

theorem climb_of_passed (h : e.level pool height s b = .ok (r, b'))
    (hstaged : r.compacted.staged ≠ [])
    (hcheck : e.checkStaged height r.compacted.state r.compacted.staged =
      .ok ()) :
    let rest := e.climb pool count (height + 1) r.compacted.state
      (b'.publish r.compacted.staged)
    e.climb pool (count + 1) height s b =
      { rest with levels := r :: rest.levels } := by
  dsimp only
  rw [climb, h]
  dsimp only
  rw [if_neg (by simpa using hstaged), hcheck]

theorem climb_eq_ok {s' : σ}
    (h : (e.climb pool (count + 1) height s b).ending = .ok s') :
    ∃ r b', e.level pool height s b = .ok (r, b') ∧
      (r.compacted.staged = [] ∧ r.compacted.state = s' ∨
        r.compacted.staged ≠ [] ∧
        e.checkStaged height r.compacted.state r.compacted.staged = .ok () ∧
        (e.climb pool count (height + 1) r.compacted.state
          (b'.publish r.compacted.staged)).ending = .ok s') := by
  cases hl : e.level pool height s b with
  | error f =>
      rw [climb_of_error hl] at h
      cases h
  | ok q =>
      obtain ⟨r, b'⟩ := q
      refine ⟨r, b', rfl, ?_⟩
      by_cases hstaged : r.compacted.staged = []
      · rw [climb_of_eq_nil hl hstaged] at h
        exact Or.inl ⟨hstaged, Except.ok.inj h⟩
      · refine Or.inr ⟨hstaged, ?_⟩
        cases hcheck : e.checkStaged height r.compacted.state
            r.compacted.staged with
        | error f =>
            rw [climb_of_refused hl hstaged hcheck] at h
            cases h
        | ok u =>
            rw [climb_of_passed hl hstaged hcheck] at h
            exact ⟨rfl, h⟩

end Step

theorem exists_level_of_mem {pool : Pool} {r : LevelRecord σ} :
    ∀ {count height : Nat} {s : σ} {b : Buffers},
      r ∈ (e.climb pool count height s b).levels →
      ∃ c c', e.level pool r.height r.before c = .ok (r, c') ∧
        c.current = r.edits
  | 0, height, s, b, hr => absurd hr List.not_mem_nil
  | count + 1, height, s, b, hr => by
      cases hl : e.level pool height s b with
      | error f =>
          rw [climb_of_error hl] at hr
          exact absurd hr List.not_mem_nil
      | ok q =>
          obtain ⟨first, b'⟩ := q
          obtain ⟨rfl, rfl, hedits⟩ := level_eq_ok hl
          have hfirst : r = first → ∃ c c',
              e.level pool r.height r.before c = .ok (r, c') ∧
                c.current = r.edits := by
            rintro rfl
            exact ⟨b, b', hl, hedits.symm⟩
          by_cases hstaged : first.compacted.staged = []
          · rw [climb_of_eq_nil hl hstaged] at hr
            exact hfirst (List.mem_singleton.mp hr)
          · cases hcheck : e.checkStaged first.height first.compacted.state
                first.compacted.staged with
            | error f =>
                rw [climb_of_refused hl hstaged hcheck] at hr
                exact hfirst (List.mem_singleton.mp hr)
            | ok u =>
                rw [climb_of_passed hl hstaged hcheck] at hr
                rcases List.mem_cons.mp hr with hr | hr
                · exact hfirst hr
                · exact exists_level_of_mem hr

/-- A loop that comes to an end has ended at or below a height, where nothing
was staged, or it has gone on over that height with what was staged there. -/
theorem climb_over {pool : Pool} {gap : Nat} {s' : σ} :
    ∀ {count height : Nat} {s : σ} {b : Buffers}, height ≤ gap →
      (e.climb pool count height s b).ending = .ok s' →
    (e.climb pool count height s b).stagedAt gap = [] ∧
      (∃ r ∈ (e.climb pool count height s b).levels, r.height ≤ gap ∧
        r.compacted.staged = [] ∧ r.compacted.state = s') ∨
    ∃ r ∈ (e.climb pool count height s b).levels, r.height = gap ∧
      r.compacted.staged ≠ [] ∧
      (e.climb pool count height s b).stagedAt gap = r.compacted.staged ∧
      ∃ rest b', rest + gap + 1 = count + height ∧
        b'.current = r.compacted.staged ∧
        (e.climb pool rest (gap + 1) r.compacted.state b').ending = .ok s'
  | 0, height, s, b, hle, h => by cases h
  | count + 1, height, s, b, hle, h => by
      obtain ⟨r, b', hl, hcases⟩ := climb_eq_ok h
      obtain ⟨hrh, -, -⟩ := level_eq_ok hl
      obtain ⟨hstaged, hend⟩ | ⟨hstaged, hcheck, hend⟩ := hcases
      · rw [climb_of_eq_nil hl hstaged]
        refine Or.inl ⟨?_, r, List.mem_singleton_self r, by omega, hstaged,
          hend⟩
        rw [Course.stagedAt_cons]
        split
        · exact hstaged
        · rfl
      · rw [climb_of_passed hl hstaged hcheck, Course.stagedAt_cons]
        by_cases hgap : r.height = gap
        · rw [if_pos hgap]
          exact Or.inr ⟨r, List.mem_cons_self, hgap, hstaged, rfl, count,
            b'.publish r.compacted.staged, by omega, rfl, by
              rwa [← hgap, hrh]⟩
        · rw [if_neg hgap]
          refine (climb_over (show height + 1 ≤ gap by omega) hend).imp ?_ ?_
          · exact fun ⟨hnil, r', hr', h⟩ =>
              ⟨hnil, r', List.mem_cons_of_mem _ hr', h⟩
          · rintro ⟨r', hr', hrgap, hne, hat, rest, b'', hrest, h⟩
            exact ⟨r', List.mem_cons_of_mem _ hr', hrgap, hne, hat, rest, b'',
              by omega, h⟩

theorem exists_level_of_run {pool : Pool} {s : σ} {edits : List Edit}
    {r : LevelRecord σ} (hr : r ∈ (e.run pool s edits).levels) :
    ∃ c c', e.level pool r.height r.before c = .ok (r, c') ∧
      c.current = r.edits := by
  rw [run] at hr
  split at hr
  · exact absurd hr List.not_mem_nil
  · exact exists_level_of_mem hr

theorem run_of_pass (he : e.Divisible) {s : σ} {edits : List Edit}
    {step : Step σ} (hc : Clustered (Edit.targets edits)) (hne : edits ≠ [])
    (hpass : e.pass 0 s edits = .ok step) (hstaged : step.staged = [])
    (pool : Pool) : (e.run pool s edits).ending = .ok step.state := by
  have hcomp := compacted_level he pool 0 s (b := .ofEdits edits pool.workers)
    hc
  rw [show (Buffers.ofEdits edits pool.workers).current = edits from rfl,
    hpass] at hcomp
  rw [run, if_neg (by simpa using hne)]
  cases hl : e.level pool 0 s (.ofEdits edits pool.workers) with
  | error f =>
      rw [hl] at hcomp
      cases hcomp
  | ok q =>
      obtain ⟨r, b'⟩ := q
      rw [hl] at hcomp
      obtain rfl : r.compacted = step := Except.ok.inj hcomp
      rw [climb_of_eq_nil hl hstaged]

theorem climb_ascends (pool : Pool) (count height : Nat) (s : σ) (b : Buffers) :
    (e.climb pool count height s b).Ascends height s b.current := by
  induction count generalizing height s b with
  | zero =>
      exact ⟨fun r hr => by simp [climb] at hr, .nil, fun t ht => by cases ht⟩
  | succ count ih =>
      cases hl : e.level pool height s b with
      | error f =>
          rw [climb_of_error hl]
          exact ⟨fun r hr => by simp at hr, .nil, fun t ht => by cases ht⟩
      | ok q =>
          obtain ⟨r, b'⟩ := q
          have hfirst := level_eq_ok hl
          by_cases hstaged : r.compacted.staged = []
          · rw [climb_of_eq_nil hl hstaged]
            exact .singleton hfirst fun t ht => Except.ok.inj ht
          · cases hcheck : e.checkStaged height r.compacted.state
              r.compacted.staged with
            | error f =>
                rw [climb_of_refused hl hstaged hcheck]
                exact .singleton hfirst fun t ht => by cases ht
            | ok u =>
                rw [climb_of_passed hl hstaged hcheck]
                obtain rfl := hfirst.1
                exact (ih _ _ _).cons hfirst.2

/-- **The levels of a batch.** They go up from the leaves, each from what the
one below it has left. -/
theorem run_ascends (e : Engine σ) (pool : Pool) (s : σ) (edits : List Edit) :
    (e.run pool s edits).Ascends 0 s edits := by
  rw [run]
  split
  · exact ⟨fun r hr => by simp at hr, .nil, fun t ht => Except.ok.inj ht⟩
  · exact climb_ascends pool _ 0 s (.ofEdits edits pool.workers)

/-- **The level loop under two pools.** Where every level keeps an invariant
under which equal targets stand together, the pool leaves no trace in the
outline of a course. -/
theorem climb_agrees (he : e.Divisible) {P : Nat → σ → List Edit → Prop}
    (hclustered : ∀ height s edits, height ≤ heightLimit → P height s edits →
      Clustered (Edit.targets edits))
    (hpass : ∀ height s edits step, P height s edits →
      e.pass height s edits = .ok step → step.staged ≠ [] →
      e.checkStaged height step.state step.staged = .ok () →
      P (height + 1) step.state step.staged)
    (p q : Pool) : ∀ {count height : Nat} {s : σ} {b c : Buffers},
      count + height = heightLimit + 1 → b.current = c.current →
      P height s b.current →
      (e.climb p count height s b).outline =
        (e.climb q count height s c).outline
  | 0, height, s, b, c, _, _, _ => rfl
  | count + 1, height, s, b, c, hcount, hcur, hp => by
      have hcl := hclustered height s b.current (by omega) hp
      have hpo := level_outline he p height s hcl
      have hqo := level_outline he q height s (hcur ▸ hcl)
      rw [← hcur, ← hpo] at hqo
      have hcomp := compacted_level he p height s hcl
      cases hl : e.level p height s b <;> cases hm : e.level q height s c <;>
        rw [hl, hm] at hqo
      · rw [climb_of_error hl, climb_of_error hm]
        cases hqo
        rfl
      · cases hqo
      · cases hqo
      · next x y =>
          obtain ⟨r, b'⟩ := x
          obtain ⟨r', c'⟩ := y
          have hout : r'.outline = r.outline := Except.ok.inj hqo
          have hsame : r'.compacted = r.compacted :=
            congrArg (·.compacted) hout
          rw [hl] at hcomp
          by_cases hstaged : r.compacted.staged = []
          · rw [climb_of_eq_nil hl hstaged,
              climb_of_eq_nil hm (hsame ▸ hstaged), hsame]
            simp [Course.outline, hout]
          · cases hcheck : e.checkStaged height r.compacted.state
              r.compacted.staged with
            | error f =>
                rw [climb_of_refused hl hstaged hcheck,
                  climb_of_refused hm (hsame ▸ hstaged) (hsame ▸ hcheck)]
                simp [Course.outline, hout]
            | ok u =>
                rw [climb_of_passed hl hstaged hcheck,
                  climb_of_passed hm (hsame ▸ hstaged) (hsame ▸ hcheck), hsame]
                have hrest := climb_agrees he hclustered hpass p q
                  (b := b'.publish r.compacted.staged)
                  (c := c'.publish r.compacted.staged)
                  (show count + (height + 1) = heightLimit + 1 by omega) rfl
                  (hpass height s b.current _ hp hcomp.symm hstaged hcheck)
                simp only [Course.outline, Course.mk.injEq, List.map_cons,
                  List.cons.injEq] at hrest ⊢
                exact ⟨⟨hout.symm, hrest.1⟩, hrest.2⟩

/-- **The level loop.** An invariant that every level keeps holds at every
level that is passed, and at the end what the last level has shown. What a
level has come to is what one worker alone makes of it. -/
theorem climb_yields (he : e.Divisible) {A : Fault → Prop}
    {P : Nat → σ → List Edit → Prop} {Q : σ → Prop}
    (hheight : ∀ height s edits, P height s edits → height ≤ heightLimit)
    (hclustered : ∀ height s edits, P height s edits →
      Clustered (Edit.targets edits))
    (hpass : ∀ height s edits, P height s edits →
      Yields A (e.pass height s edits) fun r =>
      if r.staged = [] then Q r.state
      else e.checkStaged height r.state r.staged = .ok () ∧
        P (height + 1) r.state r.staged)
    (pool : Pool) : ∀ {count height : Nat} {s : σ} {b : Buffers},
      count + height = heightLimit + 1 → P height s b.current →
      Yields A (e.climb pool count height s b).ending Q ∧
        ∀ r ∈ (e.climb pool count height s b).levels,
          P r.height r.before r.edits ∧
            e.pass r.height r.before r.edits = .ok r.compacted
  | 0, height, s, b, hcount, hp =>
      absurd (hheight height s b.current hp) (by omega)
  | count + 1, height, s, b, hcount, hp => by
      have hcomp := compacted_level he pool height s (hclustered _ _ _ hp)
      have hy := hpass height s b.current hp
      cases hl : e.level pool height s b with
      | error f =>
          rw [hl] at hcomp
          rw [← hcomp] at hy
          rw [climb_of_error hl]
          exact ⟨hy, fun r hr => absurd hr (by simp)⟩
      | ok q =>
          obtain ⟨r, b'⟩ := q
          obtain ⟨hrh, hrs, hre⟩ := level_eq_ok hl
          rw [hl] at hcomp
          have hpr : P r.height r.before r.edits ∧
              e.pass r.height r.before r.edits = .ok r.compacted := by
            rw [hrh, hrs, hre]
            exact ⟨hp, hcomp.symm⟩
          rw [← hcomp] at hy
          simp only [Except.map, yields_ok] at hy
          by_cases hstaged : r.compacted.staged = []
          · rw [if_pos hstaged] at hy
            rw [climb_of_eq_nil hl hstaged]
            exact ⟨hy, fun r' hr' => by rwa [List.mem_singleton.mp hr']⟩
          · rw [if_neg hstaged] at hy
            obtain ⟨hcheck, hnext⟩ := hy
            rw [climb_of_passed hl hstaged hcheck]
            have hnext' : P (height + 1) r.compacted.state
                (b'.publish r.compacted.staged).current := hnext
            have hcount' : count + (height + 1) = heightLimit + 1 := by omega
            obtain ⟨hend, hlevels⟩ :=
              climb_yields he hheight hclustered hpass pool hcount' hnext'
            refine ⟨hend, ?_⟩
            intro r' hr'
            rcases List.mem_cons.mp hr' with rfl | hr'
            · exact hpr
            · exact hlevels r' hr'

/-- What every level hands on to the next holds of the state in which the loop
has come to its end, where nothing was staged. Unlike `climb_yields` this takes
the levels as they come and asks nothing of those that are not met. -/
theorem climb_keeps {P : Nat → σ → List Edit → Prop} {pool : Pool} {s' : σ} :
    ∀ {count height : Nat} {s : σ} {b : Buffers}, b.current ≠ [] →
      P height s b.current →
      (∀ r ∈ (e.climb pool count height s b).levels, r.edits ≠ [] →
        P r.height r.before r.edits →
        P (r.height + 1) r.compacted.state r.compacted.staged) →
      (e.climb pool count height s b).ending = .ok s' → ∃ gap, P gap s' []
  | 0, height, s, b, _, _, _, h => by cases h
  | count + 1, height, s, b, hne, hp, hkeep, h => by
      obtain ⟨r, b', hl, hcases⟩ := climb_eq_ok h
      obtain ⟨rfl, rfl, hedits⟩ := level_eq_ok hl
      have hlevel : r ∈ (e.climb pool (count + 1) r.height r.before b).levels →
          P (r.height + 1) r.compacted.state r.compacted.staged := fun hr =>
        hkeep r hr (hedits ▸ hne) (hedits ▸ hp)
      obtain ⟨hstaged, rfl⟩ | ⟨hstaged, hcheck, hend⟩ := hcases
      · refine ⟨r.height + 1, hstaged ▸ hlevel ?_⟩
        rw [climb_of_eq_nil hl hstaged]
        exact List.mem_singleton_self r
      · rw [climb_of_passed hl hstaged hcheck] at hkeep hlevel
        exact climb_keeps hstaged (hlevel List.mem_cons_self)
          (fun r' hr' => hkeep r' (List.mem_cons_of_mem _ hr')) hend

theorem run_keeps {P : Nat → σ → List Edit → Prop} {pool : Pool} {s s' : σ}
    {edits : List Edit} (hp : P 0 s edits)
    (hkeep : ∀ r ∈ (e.run pool s edits).levels, r.edits ≠ [] →
      P r.height r.before r.edits →
      P (r.height + 1) r.compacted.state r.compacted.staged)
    (h : (e.run pool s edits).ending = .ok s') : ∃ gap, P gap s' [] := by
  rw [run] at hkeep h
  split at h
  · next hnil =>
      obtain rfl : edits = [] := by simpa using hnil
      exact ⟨0, Except.ok.inj h ▸ hp⟩
  · next hne =>
      rw [if_neg hne] at hkeep
      have hedits : edits ≠ [] := by simpa using hne
      exact climb_keeps (b := .ofEdits edits pool.workers) hedits hp hkeep h

theorem checkStaged_eq_ok {height bound : Nat} {s : σ} {edits : List Edit}
    (hb : e.bound s = .ok bound) (hlt : height < bound)
    (ha : Ascending (Edit.keys edits)) :
    e.checkStaged height s edits = .ok () := by
  rw [checkStaged, hb, Edit.disorder?_eq_none_iff.mpr ha]
  show (require (height < bound) _ >>= fun _ => Except.ok ()) = _
  rw [require_pos hlt]
  rfl

end Engine

end LevelIndex
