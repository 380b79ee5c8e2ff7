import LevelIndex.Proofs.Batch.Climb
import LevelIndex.Proofs.Batch.Crew

/-!
# Batches carried out in any order

A batch may climb in many ways: at each level, some crew carries out the runs,
by some division among its workers and in turns of some order, and what is
gathered from it is compacted (`Engine.Passes`). `Engine.Climbs` are the levels
that a batch comes to in any of these ways; the levels of a batch run by a pool
are among them (`climb_climbs`), since a worker alone is a crew
(`exists_finishes`).

`SameForAll` compares what the crews come to with what one worker comes to: if
one worker goes through with a level, then so does every crew, to the same end
up to some relation, and if one worker runs into a fault, then no crew ever gets
done. The relation is equality where a level takes no slots. Where it does,
which slot a node is given depends on the order, and the relation is a renaming
of the slots.

A batch as a whole is compared level by level (`Climbs.follow`), and its law is
put together from what an invariant says of each level
(`OrderFree.of_invariant`).
-/

namespace LevelIndex

variable {σ : Type} {work : σ → List Edit → Except Fault (Step σ)} {s : σ}
  {runs : List (List Edit)}

namespace Crew

/-- The crew has carried out the runs, shared out and in some order. -/
def Finishes (work : σ → List Edit → Except Fault (Step σ)) (s : σ)
    (runs : List (List Edit)) (c : Crew σ) : Prop :=
  ∃ hands schedule, List.flatten hands = runs ∧
    turns work (.ofRuns s hands) schedule = .ok c ∧ c.Done

theorem turns_alone : ∀ (runs : List (List Edit)) {s : σ} (log : RunLog)
    {step : Step σ}, Step.sequence work s runs = .ok step →
    ∃ log', turns work ⟨s, [⟨log, runs⟩]⟩ (List.replicate runs.length 0) =
      .ok ⟨step.state, [⟨log', []⟩]⟩ ∧
      log'.staged = log.staged ++ step.staged
  | [], s, log, step, h => by
      cases h
      exact ⟨log, rfl, (List.append_nil _).symm⟩
  | run :: runs, s, log, step, h => by
      obtain ⟨first, hfirst, h⟩ := bind_eq_ok.mp h
      obtain ⟨rest, hrest, h⟩ := bind_eq_ok.mp h
      cases h
      obtain ⟨log', hturns, hstaged⟩ := turns_alone runs
        (log ++ [(run, first.staged)]) hrest
      refine ⟨log', ?_, ?_⟩
      · show (turn work _ 0 >>= fun c => turns work c _) = _
        rw [turn]
        show (work s run >>= _) >>= _ = _
        rw [hfirst]
        exact hturns
      · rw [hstaged]
        simp [RunLog.staged]

theorem exists_finishes {step : Step σ}
    (h : Step.sequence work s runs = .ok step) :
    ∃ c, Finishes work s runs c ∧ c.state = step.state ∧
      c.log.staged = step.staged := by
  obtain ⟨log, hturns, hstaged⟩ := turns_alone runs [] h
  refine ⟨_, ⟨[runs], _, by simp, hturns, by simp [Done]⟩, rfl, ?_⟩
  simpa [Crew.log, RunLog.staged] using hstaged

end Crew

theorem AnyOrder.of_finishes {A : Fault → Prop} {Q : σ → List Edit → Prop}
    (h : AnyOrder work s runs A Q) {c : Crew σ}
    (hc : Crew.Finishes work s runs c) : Q c.state c.log.staged := by
  obtain ⟨hands, schedule, hruns, hturns, hdone⟩ := hc
  have hcrew := h.crew hands hruns schedule
  rw [hturns] at hcrew
  exact hcrew hdone

/-- Every crew comes to the same end as one worker, up to `Same`; where one
worker runs into a fault, a crew runs into it too, or does not get done. -/
structure SameForAll (work : σ → List Edit → Except Fault (Step σ)) (s : σ)
    (runs : List (List Edit)) (Same : Step σ → Crew σ → Prop) : Prop where
  same : ∀ step, Step.sequence work s runs = .ok step →
    ∀ hands schedule, List.flatten hands = runs →
      ∃ c, Crew.turns work (.ofRuns s hands) schedule = .ok c ∧
        (c.Done → Same step c)
  fault : ∀ f, Step.sequence work s runs = .error f →
    ∀ hands schedule, List.flatten hands = runs →
      Yields (· = f) (Crew.turns work (.ofRuns s hands) schedule)
        fun c => ¬ c.Done

/-- Where every order meets one description, and none meets it that may run
into a fault, all orders come to the same. -/
theorem AnyOrder.sameForAll {g : Fault} {p : Prop} {Q : σ → List Edit → Prop}
    (h : AnyOrder work s runs (fun f => f = g ∧ p) Q)
    (hroom : ∀ s' staged, Q s' staged → ¬ p) :
    SameForAll work s runs fun step c =>
      Q step.state step.staged ∧ Q c.state c.log.staged where
  same step hstep hands schedule hruns := by
    have halone := h.alone
    rw [hstep] at halone
    have hcrew := h.crew hands hruns schedule
    cases hturns : Crew.turns work (.ofRuns s hands) schedule with
    | ok c =>
        rw [hturns] at hcrew
        exact ⟨c, rfl, fun hdone => ⟨halone, hcrew hdone⟩⟩
    | error f =>
        rw [hturns] at hcrew
        exact absurd hcrew.2 (hroom _ _ halone)
  fault f hf hands schedule hruns := by
    have halone := h.alone
    rw [hf] at halone
    obtain ⟨rfl, hp⟩ := halone
    refine ((h.crew hands hruns schedule).weaken fun f hf => hf.1).mono ?_
    exact fun c hc hdone => hroom _ _ (hc hdone) hp

theorem SameForAll.mono {Same Same' : Step σ → Crew σ → Prop}
    (h : SameForAll work s runs Same)
    (himp : ∀ step c, Same step c → Same' step c) :
    SameForAll work s runs Same' where
  same step hstep hands schedule hruns := by
    obtain ⟨c, hc, hsame⟩ := h.same step hstep hands schedule hruns
    exact ⟨c, hc, fun hdone => himp step c (hsame hdone)⟩
  fault := h.fault

namespace Engine

/-- A level carried out by some crew, and compacted. -/
def Passes (e : Engine σ) (work : Nat → σ → List Edit → Except Fault (Step σ))
    (height : Nat) (s : σ) (edits : List Edit) (step : Step σ) : Prop :=
  ∃ c, Crew.Finishes (work height) s (Edit.runs edits) c ∧
    e.compact c.state height c.log.staged = .ok step

/-- A batch that has come to one level comes to another. -/
inductive Climbs (e : Engine σ)
    (work : Nat → σ → List Edit → Except Fault (Step σ)) :
    Nat → σ → List Edit → Nat → σ → List Edit → Prop
  | refl {height : Nat} {s : σ} {edits : List Edit} :
      Climbs e work height s edits height s edits
  | step {height height' : Nat} {s s' : σ} {edits edits' : List Edit}
      {step : Step σ} : e.Passes work height s edits step →
      step.staged ≠ [] →
      e.checkStaged height step.state step.staged = .ok () →
      Climbs e work (height + 1) step.state step.staged height' s' edits' →
      Climbs e work height s edits height' s' edits'

/-- A batch that has come to a level settles there, or further up. -/
def Settles (e : Engine σ) (work : Nat → σ → List Edit → Except Fault (Step σ))
    (height : Nat) (s : σ) (edits : List Edit) (s' : σ) : Prop :=
  ∃ height₁ s₁ edits₁ step, Climbs e work height s edits height₁ s₁ edits₁ ∧
    e.Passes work height₁ s₁ edits₁ step ∧ step.staged = [] ∧ step.state = s'

variable {e : Engine σ} {work : Nat → σ → List Edit → Except Fault (Step σ)}

theorem ByRuns.passes (he : e.ByRuns work) {height : Nat} {s : σ}
    {edits : List Edit} {step : Step σ}
    (h : e.pass height s edits = .ok step) :
    e.Passes work height s edits step := by
  obtain ⟨first, hfirst, hstep⟩ := bind_eq_ok.mp h
  rw [he] at hfirst
  obtain ⟨c, hc, hstate, hstaged⟩ := Crew.exists_finishes hfirst
  exact ⟨c, hc, by rwa [hstate, hstaged]⟩

section Invariant

variable {P : Nat → σ → List Edit → Prop} (he : e.ByRuns work)
  (hclustered : ∀ height s edits, P height s edits →
    Clustered (Edit.targets edits))
  (hpass : ∀ height s edits step, P height s edits →
    e.Passes work height s edits step → step.staged ≠ [] →
    P (height + 1) step.state step.staged)
include hpass

theorem Climbs.invariant {height height' : Nat} {s s' : σ}
    {edits edits' : List Edit}
    (h : Climbs e work height s edits height' s' edits')
    (hP : P height s edits) : P height' s' edits' := by
  induction h with
  | refl => exact hP
  | step hp hne _ _ ih => exact ih (hpass _ _ _ _ hP hp hne)

include he hclustered

/-- The levels of a batch run by a pool are among those it may come to, and what
the workers come to there is what one worker comes to. -/
theorem climb_climbs (pool : Pool) : ∀ {count height : Nat} {s : σ}
    {b : Buffers}, P height s b.current →
    ∀ r ∈ (e.climb pool count height s b).levels,
      Climbs e work height s b.current r.height r.before r.edits ∧
      ∃ step, Step.sequence (work r.height) r.before (Edit.runs r.edits) =
        .ok step ∧ r.executed.state = step.state ∧
        r.executed.staged = step.staged
  | 0, height, s, b, _, r, hr => by cases hr
  | count + 1, height, s, b, hP, r, hr => by
      have hb := hclustered _ _ _ hP
      have hcomp := compacted_level he.divisible pool height s hb
      cases hl : e.level pool height s b with
      | error f =>
          rw [climb_of_error hl] at hr
          cases hr
      | ok q =>
          obtain ⟨first, b'⟩ := q
          have hfirst : Climbs e work height s b.current first.height
              first.before first.edits := by
            obtain ⟨hh, hs, hedits⟩ := level_eq_ok hl
            rw [hh, hs, hedits]
            exact .refl
          have hexecuted := level_executed he hb hl
          rw [hl] at hcomp
          by_cases hstaged : first.compacted.staged = []
          · rw [climb_of_eq_nil hl hstaged] at hr
            rw [List.mem_singleton.mp hr]
            exact ⟨hfirst, hexecuted⟩
          · have hp := he.passes hcomp.symm
            cases hcheck : e.checkStaged height first.compacted.state
              first.compacted.staged with
            | error f =>
                rw [climb_of_refused hl hstaged hcheck] at hr
                rw [List.mem_singleton.mp hr]
                exact ⟨hfirst, hexecuted⟩
            | ok u =>
                rw [climb_of_passed hl hstaged hcheck] at hr
                rcases List.mem_cons.mp hr with rfl | hr
                · exact ⟨hfirst, hexecuted⟩
                · obtain ⟨hrest, hex⟩ := climb_climbs pool (b := b'.publish _)
                    (hpass _ _ _ _ hP hp hstaged) r hr
                  exact ⟨.step hp hstaged hcheck hrest, hex⟩

end Invariant

/-! ## Where a batch ends

The loop of a pool, level by level, beside the levels that some crews have
passed. The two need not go through the same states: a relation between them
that each level keeps is enough. -/

theorem exists_level (he : e.Divisible) (pool : Pool) {height : Nat} {s : σ}
    {b : Buffers} {step : Step σ} (hb : Clustered (Edit.targets b.current))
    (hstep : e.pass height s b.current = .ok step) :
    ∃ r b', e.level pool height s b = .ok (r, b') ∧ r.compacted = step := by
  have hcomp := compacted_level he pool height s hb
  rw [hstep] at hcomp
  cases hl : e.level pool height s b with
  | error f =>
      rw [hl] at hcomp
      cases hcomp
  | ok q =>
      rw [hl] at hcomp
      exact ⟨q.1, q.2, rfl, Except.ok.inj hcomp⟩

section Ending

variable {pool : Pool} {count height : Nat} {s : σ} {b : Buffers}
  {step : Step σ} (he : e.Divisible) (hb : Clustered (Edit.targets b.current))
  (hstep : e.pass height s b.current = .ok step)
include he hb hstep

theorem climb_ending_of_eq_nil (hstaged : step.staged = []) :
    (e.climb pool (count + 1) height s b).ending = .ok step.state := by
  obtain ⟨r, b', hl, rfl⟩ := exists_level he pool hb hstep
  rw [climb_of_eq_nil hl hstaged]

theorem climb_ending_of_check (hstaged : step.staged ≠ [])
    (hcheck : e.checkStaged height step.state step.staged = .ok ()) :
    ∃ b' : Buffers, b'.current = step.staged ∧
      (e.climb pool (count + 1) height s b).ending =
        (e.climb pool count (height + 1) step.state b').ending := by
  obtain ⟨r, b', hl, rfl⟩ := exists_level he pool hb hstep
  exact ⟨b'.publish r.compacted.staged, rfl,
    by rw [climb_of_passed hl hstaged hcheck]⟩

end Ending

/-- **Two runs of a batch.** Let a pool and some crews carry out a batch side by
side. Where a relation between the two is kept by every level that the crews
pass, and the pool then passes it as well, the pool ends where they do. -/
theorem Climbs.follow {R : Nat → σ → List Edit → σ → List Edit → Prop}
    {SameEnd : σ → σ → Prop} (he : e.ByRuns work)
    (hheight : ∀ height s edits s₂ edits₂, R height s edits s₂ edits₂ →
      height ≤ heightLimit ∧ Clustered (Edit.targets edits))
    (hpass : ∀ height s edits s₂ edits₂ step₂, R height s edits s₂ edits₂ →
      e.Passes work height s₂ edits₂ step₂ →
      ∃ step, e.pass height s edits = .ok step ∧
        if step₂.staged = [] then step.staged = [] ∧
          SameEnd step.state step₂.state
        else step.staged ≠ [] ∧
          e.checkStaged height step.state step.staged = .ok () ∧
          R (height + 1) step.state step.staged step₂.state step₂.staged)
    (pool : Pool) {height height' : Nat} {s₂ s₂' : σ}
    {edits₂ edits₂' : List Edit} {last : Step σ}
    (h : Climbs e work height s₂ edits₂ height' s₂' edits₂')
    (hlast : e.Passes work height' s₂' edits₂' last) (hend : last.staged = []) :
    ∀ {count : Nat} {s : σ} {b : Buffers}, count + height = heightLimit + 1 →
      R height s b.current s₂ edits₂ →
      ∃ s', (e.climb pool count height s b).ending = .ok s' ∧
        SameEnd s' last.state := by
  induction h with
  | refl =>
      intro count s b hcount hR
      obtain ⟨hlim, hb⟩ := hheight _ _ _ _ _ hR
      obtain ⟨n, rfl⟩ : ∃ n, count = n + 1 := ⟨count - 1, by omega⟩
      obtain ⟨step, hstep, hrest⟩ := hpass _ _ _ _ _ _ hR hlast
      rw [if_pos hend] at hrest
      exact ⟨_, climb_ending_of_eq_nil he.divisible hb hstep hrest.1, hrest.2⟩
  | step hp hne _ _ ih =>
      intro count s b hcount hR
      obtain ⟨hlim, hb⟩ := hheight _ _ _ _ _ hR
      obtain ⟨n, rfl⟩ : ∃ n, count = n + 1 := ⟨count - 1, by omega⟩
      obtain ⟨step, hstep, hrest⟩ := hpass _ _ _ _ _ _ hR hp
      rw [if_neg hne] at hrest
      obtain ⟨hstaged, hcheck, hR'⟩ := hrest
      obtain ⟨b', hb', heq⟩ :=
        climb_ending_of_check he.divisible hb hstep hstaged hcheck
      rw [heq]
      exact ih hlast (by omega) (hb' ▸ hR')

/-! ## The law of a batch

What is claimed of all orders at once, for either engine. An engine supplies
the invariant of its levels, the law of a single level and what all ends have
in common; the rest is the same for both. -/

/-- **A batch in any order.** Pools of any size lead through the same levels to
the same end. At every level that the batch may come to, whatever the orders
below it, the workers' slices hold the runs of the level, and all crews come
to the same there. However the batch settles, it settles alike. -/
structure OrderFree (e : Engine σ)
    (work : Nat → σ → List Edit → Except Fault (Step σ)) (s : σ)
    (edits : List Edit) (Same : σ → Step σ → Crew σ → Prop)
    (SameEnd : σ → σ → Prop) : Prop where
  pools : ∀ p q, (e.run p s edits).outline = (e.run q s edits).outline
  levels : ∀ p, ∀ r ∈ (e.run p s edits).levels,
    Climbs e work 0 s edits r.height r.before r.edits ∧
    ∃ step, Step.sequence (work r.height) r.before (Edit.runs r.edits) =
      .ok step ∧ r.executed.state = step.state ∧
      r.executed.staged = step.staged
  slices : ∀ height s' edits', Climbs e work 0 s edits height s' edits' →
    ∀ p : Pool, (p.slices height edits').flatMap Edit.runs = Edit.runs edits'
  orders : ∀ height s' edits', Climbs e work 0 s edits height s' edits' →
    SameForAll (work height) s' (Edit.runs edits') (Same s')
  ends : ∀ s'', e.Settles work 0 s edits s'' → ∀ p,
    ∃ s', (e.run p s edits).ending = .ok s' ∧ SameEnd s' s''

/-- What an invariant of the levels has to say for the law of a batch: that
targets stand together, that every level passed keeps it, and that the orders of
one level come to the same. How the batch ends is left to the engine. -/
theorem OrderFree.of_invariant {Same : σ → Step σ → Crew σ → Prop}
    {SameEnd : σ → σ → Prop} {P : Nat → σ → List Edit → Prop} {s : σ}
    {edits : List Edit} (he : e.ByRuns work) (hne : edits ≠ [])
    (hP : P 0 s edits)
    (hclustered : ∀ height s edits, P height s edits →
      Clustered (Edit.targets edits))
    (hpass : ∀ height s edits step, P height s edits →
      e.Passes work height s edits step → step.staged ≠ [] →
      P (height + 1) step.state step.staged)
    (horders : ∀ height s edits, P height s edits →
      SameForAll (work height) s (Edit.runs edits) (Same s))
    (hends : ∀ s'', e.Settles work 0 s edits s'' → ∀ (p : Pool) (b : Buffers),
      b.current = edits → ∃ s',
        (e.climb p (heightLimit + 1) 0 s b).ending = .ok s' ∧ SameEnd s' s'') :
    e.OrderFree work s edits Same SameEnd where
  pools p q := by
    unfold run
    rw [if_neg (by simpa using hne), if_neg (by simpa using hne)]
    refine climb_agrees he.divisible (P := P)
      (fun height s edits _ => hclustered height s edits) ?_ p q
      (b := .ofEdits edits p.workers) rfl rfl hP
    intro height s edits step h hstep hstaged _
    exact hpass height s edits step h (he.passes hstep) hstaged
  levels p := by
    unfold run
    rw [if_neg (by simpa using hne)]
    exact climb_climbs he hclustered hpass p (b := .ofEdits edits p.workers) hP
  slices height s' edits' h p :=
    flatMap_runs_slices (hclustered _ _ _ (h.invariant hpass hP)) p height
  orders height s' edits' h := horders _ _ _ (h.invariant hpass hP)
  ends s'' h p := by
    unfold run
    rw [if_neg (by simpa using hne)]
    exact hends s'' h p _ rfl

end Engine

end LevelIndex
