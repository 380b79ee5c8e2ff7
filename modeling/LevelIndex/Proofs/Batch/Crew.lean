import LevelIndex.Batch.Engine
import LevelIndex.Proofs.Yields
import Mathlib.Data.List.Nodup

/-!
# Workers who take turns

At a level the workers act on one state at the same time. What one of them does
to a node it does alone, so a level is carried out by *turns*: at each turn some
worker carries out the next run of those given to it, on the state that all
turns before have left, and puts what the run stages behind what it has staged
itself. Nothing is said about whose turn it is.

A law about all orders speaks of the *log* of a level: its runs, each with
what was staged for it. Suppose that a property of logs

- holds of the empty log,
- is kept by any run that is not in the log yet, and
- does not see the order of the log.

Then it holds of the log of a crew that is done, taken worker by worker
(`Crew.turns_yields`). In that order the runs of the log are the runs of the
level, and what it stages is what is gathered from the workers. The runs given
out are distinct, so one that waits is not in the log (`Keeps.waiting`), and the
second condition applies at every turn.

`AnyOrder` is such a law for a level as a whole (`AnyOrder.of_inv`): what all
runs come to, whether one worker carries them out or several.
-/

namespace LevelIndex

variable {σ : Type}

/-- Runs with what was staged for each. -/
abbrev RunLog := List (List Edit × List Edit)

namespace RunLog

def runs (log : RunLog) : List (List Edit) := log.map (·.1)

/-- What was staged, in the order of the log. -/
def staged (log : RunLog) : List Edit := log.flatMap (·.2)

@[simp] theorem runs_append (l m : RunLog) :
    RunLog.runs (l ++ m) = l.runs ++ m.runs :=
  List.map_append

@[simp] theorem staged_append (l m : RunLog) :
    RunLog.staged (l ++ m) = l.staged ++ m.staged :=
  List.flatMap_append

theorem staged_eq_flatMap {log : RunLog} {f : List Edit → List Edit}
    (h : ∀ entry ∈ log, entry.2 = f entry.1) :
    log.staged = log.runs.flatMap f := by
  rw [staged, runs, List.flatMap_map, List.flatMap_def, List.flatMap_def,
    List.map_congr_left h]

end RunLog

/-- **One worker alone.** What every run keeps that has not been carried out
yet holds of the log at the end. -/
theorem Step.sequence_yields {work : σ → List Edit → Except Fault (Step σ)}
    {Inv : RunLog → σ → Prop} {A : Fault → Prop} {runs : List (List Edit)}
    (hstep : ∀ log s run, Inv log s → run ∈ runs → run ∉ log.runs →
      Yields A (work s run) fun step =>
        Inv (log ++ [(run, step.staged)]) step.state)
    (hnodup : runs.Nodup) : ∀ (rest : List (List Edit)) {log : RunLog} {s : σ},
    Inv log s → log.runs ++ rest = runs →
    Yields A (Step.sequence work s rest) fun step => ∃ after : RunLog,
      after.runs = rest ∧ step.staged = after.staged ∧
        Inv (log ++ after) step.state
  | [], log, s, h, _ => ⟨[], rfl, rfl, by rwa [List.append_nil]⟩
  | run :: rest, log, s, h, hruns => by
      have hmem : run ∈ runs := by simp [← hruns]
      have hnew : run ∉ log.runs := fun hm =>
        (List.nodup_append.mp (hruns ▸ hnodup)).2.2 run hm run (by simp) rfl
      rw [Step.sequence]
      refine (hstep log s run h hmem hnew).bind fun first hfirst => ?_
      refine (Step.sequence_yields hstep hnodup rest hfirst
        (by simp [← hruns, RunLog.runs])).bind ?_
      intro last hlast
      obtain ⟨after, hafter, hstaged, hinv⟩ := hlast
      refine ⟨(run, first.staged) :: after, ?_, ?_, ?_⟩
      · rw [← hafter]
        rfl
      · show first.staged ++ last.staged = _
        rw [hstaged]
        rfl
      · rwa [List.append_cons]

/-- A worker at a level: what it has done, and the runs it has still to do. -/
structure Hand where
  log : RunLog
  waiting : List (List Edit)

/-- All runs of a worker, done or not. -/
def Hand.runs (h : Hand) : List (List Edit) := h.log.runs ++ h.waiting

/-- The workers at a level, and the state they share. -/
structure Crew (σ : Type) where
  state : σ
  hands : List Hand

namespace Crew

/-- A crew at the beginning of a level. -/
def ofRuns (s : σ) (hands : List (List (List Edit))) : Crew σ :=
  { state := s, hands := hands.map fun waiting => { log := [], waiting } }

/-- What is gathered from the workers, the first worker's first. -/
def log (c : Crew σ) : RunLog := c.hands.flatMap (·.log)

/-- No worker has anything left to do. -/
def Done (c : Crew σ) : Prop := ∀ h ∈ c.hands, h.waiting = []

/-- The turn of a worker; a worker with nothing left to do lets it pass. -/
def turn (work : σ → List Edit → Except Fault (Step σ)) (c : Crew σ)
    (worker : Nat) : Except Fault (Crew σ) :=
  match c.hands[worker]? with
  | some ⟨log, run :: waiting⟩ => do
    let step ← work c.state run
    let hand := { log := log ++ [(run, step.staged)], waiting }
    return { state := step.state, hands := c.hands.set worker hand }
  | _ => .ok c

/-- Turns in the order in which the workers get them. -/
def turns (work : σ → List Edit → Except Fault (Step σ)) (c : Crew σ)
    (schedule : List Nat) : Except Fault (Crew σ) :=
  schedule.foldlM (turn work) c

/-- Of the runs given out, these are done and those wait. -/
structure Keeps (Inv : RunLog → σ → Prop) (hands : List (List (List Edit)))
    (c : Crew σ) : Prop where
  holds : Inv c.log c.state
  runs_eq : c.hands.map Hand.runs = hands

theorem Keeps.waiting {Inv : RunLog → σ → Prop}
    {hands : List (List (List Edit))} {c : Crew σ} (h : Keeps Inv hands c)
    (hnodup : hands.flatten.Nodup) {hand : Hand} (hhand : hand ∈ c.hands)
    {run : List Edit} (hrun : run ∈ hand.waiting) :
    run ∈ hands.flatten ∧ run ∉ c.log.runs := by
  have hall : hands.flatten = c.hands.flatMap Hand.runs := by
    rw [← h.runs_eq, List.flatMap_def]
  have hmem : run ∈ hands.flatten := by
    rw [hall]
    exact List.mem_flatMap.mpr ⟨hand, hhand, List.mem_append_right _ hrun⟩
  refine ⟨hmem, fun hlog => ?_⟩
  obtain ⟨l, m, hl⟩ := List.append_of_mem hhand
  rw [hall, hl, List.flatMap_append, List.flatMap_cons] at hnodup
  obtain ⟨hnd, hm, hlm⟩ := List.nodup_append.mp hnodup
  obtain ⟨hnd', hm', hhm⟩ := List.nodup_append.mp hm
  have hself : run ∈ hand.runs := List.mem_append_right _ hrun
  obtain ⟨entry, hentry, rfl⟩ := List.mem_map.mp hlog
  obtain ⟨other, hother, hentry⟩ := List.mem_flatMap.mp hentry
  have hin : entry.1 ∈ other.log.runs := List.mem_map_of_mem hentry
  have hdone : entry.1 ∈ other.runs := List.mem_append_left _ hin
  rw [hl] at hother
  rcases List.mem_append.mp hother with hother | hother
  · exact hlm _ (List.mem_flatMap.mpr ⟨other, hother, hdone⟩) _
      (List.mem_append_left _ hself) rfl
  · rcases List.mem_cons.mp hother with rfl | hother
    · exact (List.nodup_append.mp hnd').2.2 _ hin _ hrun rfl
    · exact hhm _ hself _ (List.mem_flatMap.mpr ⟨other, hother, hdone⟩) rfl

theorem exists_set {l : List Hand} {worker : Nat} {hand : Hand}
    (h : l[worker]? = some hand) :
    ∃ before after, l = before ++ hand :: after ∧
      ∀ hand', l.set worker hand' = before ++ hand' :: after := by
  obtain ⟨hlt, hget⟩ := List.getElem?_eq_some_iff.mp h
  obtain ⟨before, after, hl, hlen, -⟩ :
      ∃ before after, l = before ++ l[worker] :: after ∧
        before.length = worker ∧
        l.set worker hand = before ++ hand :: after := List.exists_of_set hlt
  rw [hget] at hl
  refine ⟨before, after, hl, fun hand' => ?_⟩
  rw [hl, List.set_append_right _ _ (Nat.le_of_eq hlen), hlen, Nat.sub_self,
    List.set_cons_zero]

section Turns

variable {work : σ → List Edit → Except Fault (Step σ)}
  {Inv : RunLog → σ → Prop} {A : Fault → Prop}
  {hands : List (List (List Edit))}
  (hperm : ∀ l m s, l.Perm m → Inv l s → Inv m s)
  (hstep : ∀ log s run, Inv log s → run ∈ hands.flatten → run ∉ log.runs →
    Yields A (work s run) fun step =>
      Inv (log ++ [(run, step.staged)]) step.state)
  (hnodup : hands.flatten.Nodup)
include hperm hstep hnodup

theorem turn_yields {c : Crew σ} (h : Keeps Inv hands c) (worker : Nat) :
    Yields A (turn work c worker) (Keeps Inv hands) := by
  unfold turn
  split
  · next log run waiting hget =>
      obtain ⟨l, m, hhands, hset⟩ := exists_set hget
      have hlog : c.log = l.flatMap (·.log) ++ (log ++ m.flatMap (·.log)) := by
        rw [Crew.log, hhands, List.flatMap_append, List.flatMap_cons]
      obtain ⟨hmem, hnew⟩ := h.waiting hnodup (List.mem_of_getElem? hget)
        (List.mem_cons_self : run ∈ run :: waiting)
      refine (hstep c.log c.state run h.holds hmem hnew).bind ?_
      intro step hinv
      refine ⟨hperm _ _ _ ?_ hinv, ?_⟩
      · rw [hlog, Crew.log, hset, List.flatMap_append, List.flatMap_cons]
        simp only [List.append_assoc]
        exact (List.perm_append_comm.append_left log).append_left _
      · rw [← h.runs_eq, hset, hhands]
        simp [Hand.runs, RunLog.runs]
  · exact h

theorem turns_yields (schedule : List Nat) {c : Crew σ}
    (h : Keeps Inv hands c) :
    Yields A (turns work c schedule) (Keeps Inv hands) := by
  induction schedule generalizing c with
  | nil => exact h
  | cons worker schedule ih =>
      show Yields A (turn work c worker >>= fun c => turns work c schedule) _
      exact (turn_yields hperm hstep hnodup h worker).bind fun c hc => ih hc

end Turns

/-- When a crew is done, its log has the runs of the level, in order: worker by
worker, whatever the order of the turns was. -/
theorem Keeps.runs_log {Inv : RunLog → σ → Prop}
    {hands : List (List (List Edit))} {c : Crew σ} (h : Keeps Inv hands c)
    (hdone : c.Done) : c.log.runs = hands.flatten := by
  rw [← h.runs_eq, ← List.flatMap_def, log, RunLog.runs, List.map_flatMap]
  rw [List.flatMap_def, List.flatMap_def]
  congr 1
  refine List.map_congr_left fun hand hhand => ?_
  simp [Hand.runs, RunLog.runs, hdone hand hhand]

theorem keeps_ofRuns {Inv : RunLog → σ → Prop} {s : σ} (h : Inv [] s)
    (hands : List (List (List Edit))) : Keeps Inv hands (ofRuns s hands) where
  holds := by
    have hlog : (ofRuns s hands).log = [] :=
      List.flatMap_eq_nil_iff.mpr fun hand hhand => by
        obtain ⟨waiting, -, rfl⟩ := List.mem_map.mp hhand
        rfl
    rw [hlog]
    exact h
  runs_eq := by
    rw [ofRuns, List.map_map]
    exact List.map_id _

/-- A crew that carries out the runs, shared out and in some order, has come
this far. -/
def Reaches (work : σ → List Edit → Except Fault (Step σ)) (s : σ)
    (runs : List (List Edit)) (c : Crew σ) : Prop :=
  ∃ hands schedule, List.flatten hands = runs ∧
    turns work (.ofRuns s hands) schedule = .ok c

theorem Reaches.start (work : σ → List Edit → Except Fault (Step σ)) (s : σ)
    (runs : List (List Edit)) : Reaches work s runs (.ofRuns s [runs]) :=
  ⟨[runs], [], List.append_nil runs, rfl⟩

/-- **In the middle of a level.** What every run keeps holds wherever a crew has
come to, and no run that waits there has been carried out. -/
theorem Reaches.invariant {work : σ → List Edit → Except Fault (Step σ)}
    {P : RunLog → σ → Prop} {A : Fault → Prop} {s : σ}
    {runs : List (List Edit)} {c : Crew σ} (h : Reaches work s runs c)
    (hperm : ∀ l m s, l.Perm m → P l s → P m s)
    (hstep : ∀ log s run, P log s → run ∈ runs → run ∉ log.runs →
      Yields A (work s run) fun step =>
        P (log ++ [(run, step.staged)]) step.state)
    (hnodup : runs.Nodup) (hstart : P [] s) :
    P c.log c.state ∧ ∀ hand ∈ c.hands, ∀ run ∈ hand.waiting,
      run ∈ runs ∧ run ∉ c.log.runs := by
  obtain ⟨hands, schedule, rfl, hturns⟩ := h
  have hkeeps := (turns_yields hperm hstep hnodup schedule
    (keeps_ofRuns hstart hands)).of_ok hturns
  exact ⟨hkeeps.holds, fun hand hhand run hrun =>
    hkeeps.waiting hnodup hhand hrun⟩

end Crew

/-- Whatever the order in which runs are carried out, and by however many
workers, they come to what `Q` says, or to a fault that `A` admits. -/
structure AnyOrder (work : σ → List Edit → Except Fault (Step σ)) (s : σ)
    (runs : List (List Edit)) (A : Fault → Prop) (Q : σ → List Edit → Prop) :
    Prop where
  alone : Yields A (Step.sequence work s runs) fun step =>
    Q step.state step.staged
  crew : ∀ hands : List (List (List Edit)), hands.flatten = runs →
    ∀ schedule, Yields A (Crew.turns work (.ofRuns s hands) schedule) fun c =>
      c.Done → Q c.state c.log.staged

namespace AnyOrder

variable {work : σ → List Edit → Except Fault (Step σ)} {s : σ}
  {runs : List (List Edit)} {A B : Fault → Prop}
  {Q R : σ → List Edit → Prop}

theorem mono (h : AnyOrder work s runs A Q)
    (hQ : ∀ s' staged, Q s' staged → R s' staged) :
    AnyOrder work s runs A R where
  alone := h.alone.mono fun _ => hQ _ _
  crew hands hruns schedule :=
    (h.crew hands hruns schedule).mono fun _ hc hdone => hQ _ _ (hc hdone)

theorem weaken (h : AnyOrder work s runs A Q) (hA : ∀ f, A f → B f) :
    AnyOrder work s runs B Q where
  alone := h.alone.weaken hA
  crew hands hruns schedule := (h.crew hands hruns schedule).weaken hA

/-- A property of logs that does not see their order, and that every run keeps
that was not carried out yet, holds of every order once the runs are all
done. -/
theorem of_inv {I : RunLog → σ → Prop}
    (hperm : ∀ l m s, l.Perm m → I l s → I m s)
    (hstep : ∀ log s run, I log s → run ∈ runs → run ∉ log.runs →
      Yields A (work s run) fun step =>
        I (log ++ [(run, step.staged)]) step.state)
    (hnodup : runs.Nodup) (hstart : I [] s)
    (hend : ∀ log s', I log s' → log.runs = runs → Q s' log.staged) :
    AnyOrder work s runs A Q where
  alone := by
    refine (Step.sequence_yields hstep hnodup runs hstart rfl).mono ?_
    rintro step ⟨log, hlog, hstaged, hinv⟩
    rw [hstaged]
    exact hend log _ hinv hlog
  crew hands hruns schedule := by
    subst hruns
    refine (Crew.turns_yields hperm hstep hnodup schedule
      (Crew.keeps_ofRuns hstart hands)).mono fun c hc hdone => ?_
    exact hend c.log c.state hc.holds (hc.runs_log hdone)

theorem of_single {run : List Edit}
    (h : Yields A (work s run) fun step => Q step.state step.staged) :
    AnyOrder work s [run] A Q := by
  refine .of_inv (I := fun log s' => log = [] ∧ s' = s ∨
    ∃ staged, log = [(run, staged)] ∧ Q s' staged) ?_ ?_
    (List.nodup_singleton run) (Or.inl ⟨rfl, rfl⟩) ?_
  · rintro l m s' hp (⟨rfl, rfl⟩ | ⟨staged, rfl, hq⟩)
    · exact Or.inl ⟨hp.nil_eq.symm, rfl⟩
    · exact Or.inr ⟨staged, List.singleton_perm.mp hp |>.symm, hq⟩
  · rintro log s' run' (⟨rfl, rfl⟩ | ⟨staged, rfl, hq⟩) hrun hnew
    · obtain rfl := List.mem_singleton.mp hrun
      exact h.mono fun step hq => Or.inr ⟨step.staged, rfl, hq⟩
    · exact absurd hrun hnew
  · rintro log s' (⟨rfl, rfl⟩ | ⟨staged, rfl, hq⟩) hruns
    · cases hruns
    · simpa [RunLog.staged] using hq

end AnyOrder

end LevelIndex
