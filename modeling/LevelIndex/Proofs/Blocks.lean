import LevelIndex.Blocks
import LevelIndex.Proofs.Yields

/-!
# Blocks and the plain map

Answering block by block is the same as answering element by element
(`mapBlocks_eq_mapM`): the answers come in order (`mapM_eq_ok_iff`), and of
several failures the first in order shows (`mapM_eq_error_iff`).

The workers answer their blocks at the same time. So a fan-out is carried out by
*turns*: at each turn some worker asks the next question of its block, and
nothing is said about whose turn it is. No turn changes what a block comes to
(`BlockRun.ending_turn`). Once no question is waiting, the blocks are joined in
their order, and what shows is the plain map, even where the first worker to
fail has a later block than another that fails (`BlockRun.join_turns`).
-/

namespace LevelIndex

variable {ε α β : Type}

/-! ## Block by block -/

theorem mapM_mapM_flatten (f : α → Except ε β) (blocks : List (List α)) :
    (blocks.mapM fun block => block.mapM f) >>=
      (fun answers => Except.ok answers.flatten)
      = blocks.flatten.mapM f := by
  induction blocks with
  | nil => rfl
  | cons block blocks ih =>
      rw [List.mapM_cons, List.flatten_cons, List.mapM_append, ← ih]
      cases block.mapM f with
      | error e => rfl
      | ok a =>
          cases blocks.mapM (fun block => block.mapM f) with
          | error e => rfl
          | ok as => rfl

theorem mapBlocks_eq_mapM (workers : Nat) (l : List α) (f : α → Except ε β) :
    mapBlocks workers l f = l.mapM f := by
  have h := mapM_mapM_flatten f (blocks workers l)
  rwa [flatten_blocks] at h

theorem mapBlocks_congr {f g : α → Except ε β} (m n : Nat) (l : List α)
    (h : f = g) : mapBlocks m l f = mapBlocks n l g := by
  rw [mapBlocks_eq_mapM, mapBlocks_eq_mapM, h]

/-! ## Workers who take turns -/

/-- How far a worker has come with its block. -/
inductive BlockRun (ε α β : Type) where
  /-- The answers so far, and the questions still to be asked. -/
  | underway (answers : List β) (waiting : List α)
  | failed (e : ε)

namespace BlockRun

/-- A worker asks its next question, if there is one. At a failure it stops. -/
def turn (f : α → Except ε β) : BlockRun ε α β → BlockRun ε α β
  | underway answers (a :: waiting) =>
    match f a with
    | .ok b => underway (answers ++ [b]) waiting
    | .error e => failed e
  | run => run

def waiting : BlockRun ε α β → List α
  | underway _ waiting => waiting
  | failed _ => []

/-- What a worker has to hand over. -/
def outcome : BlockRun ε α β → Except ε (List β)
  | underway answers _ => .ok answers
  | failed e => .error e

/-- What a block comes to in the end. -/
def ending (f : α → Except ε β) : BlockRun ε α β → Except ε (List β)
  | underway answers waiting => (answers ++ ·) <$> waiting.mapM f
  | failed e => .error e

/-- The blocks before any question is asked. -/
def start (blocks : List (List α)) : List (BlockRun ε α β) :=
  blocks.map (underway [])

/-- Turns in the order in which the workers get them. -/
def turns (f : α → Except ε β) (runs : List (BlockRun ε α β))
    (schedule : List Nat) : List (BlockRun ε α β) :=
  schedule.foldl (fun runs worker => runs.modify worker (turn f)) runs

/-- No question is waiting. -/
def Done (runs : List (BlockRun ε α β)) : Prop := ∀ run ∈ runs, run.waiting = []

/-- What the workers hand over, one after the other in the order of the
blocks. -/
def join (runs : List (BlockRun ε α β)) : Except ε (List β) := do
  let answers ← runs.mapM outcome
  return answers.flatten

section Turns

variable (f : α → Except ε β)

theorem ending_turn (run : BlockRun ε α β) :
    (run.turn f).ending f = run.ending f := by
  cases run with
  | failed e => rfl
  | underway answers waiting =>
      cases waiting with
      | nil => rfl
      | cons a waiting =>
          rw [turn, ending, List.mapM_cons]
          cases f a with
          | error e => rfl
          | ok b =>
              show (answers ++ [b] ++ ·) <$> waiting.mapM f = _
              cases waiting.mapM f with
              | error e => rfl
              | ok bs => exact congrArg Except.ok (List.append_assoc ..)

theorem map_ending_turns (runs : List (BlockRun ε α β)) (schedule : List Nat) :
    (turns f runs schedule).map (ending f) = runs.map (ending f) := by
  induction schedule generalizing runs with
  | nil => rfl
  | cons worker schedule ih =>
      refine (ih _).trans (List.ext_getElem? fun i => ?_)
      rw [List.getElem?_map, List.getElem?_map, List.getElem?_modify]
      cases runs[i]? with
      | none => rfl
      | some run => split <;> simp [ending_turn]

variable {f}

theorem outcome_eq_ending {run : BlockRun ε α β} (h : run.waiting = []) :
    run.outcome = run.ending f := by
  cases run with
  | failed e => rfl
  | underway answers waiting =>
      obtain rfl : waiting = [] := h
      exact congrArg Except.ok (List.append_nil answers).symm

/-- **Whoever comes first.** When no question is waiting, joining the blocks in
their order gives what answering them one after the other gives. -/
theorem join_turns {blocks : List (List α)} {schedule : List Nat}
    (h : Done (turns f (start blocks) schedule)) :
    join (turns f (start blocks) schedule) = blocks.flatten.mapM f := by
  have hend : (turns f (start blocks) schedule).map outcome =
      blocks.map fun block => block.mapM f := by
    rw [List.map_congr_left fun run hrun => outcome_eq_ending (h run hrun),
      map_ending_turns, start, List.map_map]
    refine List.map_congr_left fun block _ => ?_
    show ([] ++ ·) <$> block.mapM f = _
    exact id_map _
  have hjoin := congrArg (List.mapM id) hend
  rw [List.mapM_map, List.mapM_map] at hjoin
  rw [← mapM_mapM_flatten]
  exact congrArg (· >>= fun answers => .ok answers.flatten) hjoin

theorem length_waiting_turn (run : BlockRun ε α β) :
    (run.turn f).waiting.length ≤ run.waiting.length - 1 := by
  cases run with
  | failed e => exact Nat.le_refl _
  | underway answers waiting =>
      cases waiting with
      | nil => exact Nat.le_refl _
      | cons a waiting =>
          rw [turn]
          split
          · exact Nat.le_refl _
          · exact Nat.zero_le _

theorem done_turns {runs : List (BlockRun ε α β)} {schedule : List Nat}
    (h : ∀ i run, runs[i]? = some run →
      run.waiting.length ≤ schedule.count i) :
    Done (turns f runs schedule) := by
  induction schedule generalizing runs with
  | nil =>
      intro run hrun
      obtain ⟨i, hi⟩ := List.mem_iff_getElem?.mp hrun
      exact List.length_eq_zero_iff.mp (Nat.le_zero.mp (h i run hi))
  | cons worker schedule ih =>
      refine ih fun i run hi => ?_
      rw [List.getElem?_modify] at hi
      obtain ⟨before, hbefore, rfl⟩ := Option.map_eq_some_iff.mp hi
      have hcount := h i before hbefore
      rw [List.count_cons] at hcount
      by_cases hw : worker = i
      · rw [if_pos hw]
        rw [if_pos (beq_iff_eq.mpr hw)] at hcount
        have hturn := length_waiting_turn (f := f) before
        omega
      · rw [if_neg hw]
        rwa [if_neg (mt beq_iff_eq.mp hw)] at hcount

end Turns

end BlockRun

/-- The blocks of a list after some turns of the workers. -/
def fanOut (workers : Nat) (l : List α) (f : α → Except ε β)
    (schedule : List Nat) : List (BlockRun ε α β) :=
  BlockRun.turns f (BlockRun.start (blocks workers l)) schedule

/-- **Fan-out is the plain map.** Cut into blocks for any number of workers, a
list is answered as by one map. If no element fails the results are those of
the elements, in order; otherwise the failure is that of the first element that
fails. Nor does it matter in which order the workers take their turns: as many
turns for each as its block is long leave no question waiting, and when none is
left the blocks joined are just this. -/
theorem mapBlocks_is_map (workers : Nat) (l : List α) (f : α → Except ε β) :
    mapBlocks workers l f = l.mapM f ∧
    (∀ answers, mapBlocks workers l f = .ok answers ↔
      l.map f = answers.map .ok) ∧
    (∀ e, mapBlocks workers l f = .error e ↔
      ∃ asked a rest, l = asked ++ a :: rest ∧
        (∀ b ∈ asked, ∃ answer, f b = .ok answer) ∧ f a = .error e) ∧
    ∀ schedule,
      ((∀ i block, (blocks workers l)[i]? = some block →
          block.length ≤ schedule.count i) →
        BlockRun.Done (fanOut workers l f schedule)) ∧
      (BlockRun.Done (fanOut workers l f schedule) →
        BlockRun.join (fanOut workers l f schedule) =
          mapBlocks workers l f) := by
  rw [mapBlocks_eq_mapM]
  refine ⟨rfl, fun _ => mapM_eq_ok_iff, fun _ => mapM_eq_error_iff,
    fun schedule => ⟨fun h => BlockRun.done_turns fun i run hi => ?_,
      fun h => ?_⟩⟩
  · rw [BlockRun.start, List.getElem?_map] at hi
    obtain ⟨block, hblock, rfl⟩ := Option.map_eq_some_iff.mp hi
    exact h i block hblock
  · rw [fanOut, BlockRun.join_turns h, flatten_blocks]

/-- Two blocks with a failure in each, the later of which is met first. -/
theorem mapBlocks_is_map_two_failures :
    let f : Nat → Except Nat Nat := fun n =>
      if n = 2 ∨ n = 3 then .error n else .ok (10 * n)
    let runs := fanOut 2 [1, 2, 3, 4] f [1, 0, 0, 1]
    blocks 2 [1, 2, 3, 4] = [[1, 2], [3, 4]] ∧ BlockRun.Done runs ∧
      BlockRun.join runs = .error 2 ∧ mapBlocks 2 [1, 2, 3, 4] f = .error 2 := by
  intro f runs
  have hblocks : blocks 2 [1, 2, 3, 4] = [[1, 2], [3, 4]] := by
    simp [blocks, blockCount, blocksOf]
  obtain ⟨-, -, hfails, hturns⟩ := mapBlocks_is_map 2 [1, 2, 3, 4] f
  obtain ⟨hdone, hjoin⟩ := hturns [1, 0, 0, 1]
  have hrun : BlockRun.Done runs := hdone fun i block hi => by
    rw [hblocks] at hi
    rcases i with _ | _ | i <;> cases hi <;> decide
  have herror : mapBlocks 2 [1, 2, 3, 4] f = .error 2 :=
    (hfails 2).mpr ⟨[1], 2, [3, 4], rfl, by simp [f], rfl⟩
  exact ⟨hblocks, hrun, (hjoin hrun).trans herror, herror⟩

end LevelIndex
