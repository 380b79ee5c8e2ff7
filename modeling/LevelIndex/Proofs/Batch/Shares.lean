import LevelIndex.Batch.Engine
import Mathlib.Data.List.SplitBy

/-!
# The shares of the workers

Where equal targets stand together, a share begins and ends where the target
changes, and the shares of the workers, in order, are the list. Then the
runs of the shares are the runs of the whole list (`flatMap_runs_slices`):
no run is parted between two workers, and none is met twice.

The end of a share is the even cut, moved on to the end of the run it falls
into (`widened`). All that it is moved over has one target; what follows has
another, or that target would come back behind a different one (`runEnd_spec`).
So the moved cut is the first place from the even cut on where the target
changes (`widened_spec`). An even cut that repeats gives a worker nothing to do,
and moving it gives the same place again, so the moved cuts telescope.
-/

namespace LevelIndex

open List

/-- Equal elements stand together. -/
def Clustered (l : List Handle) : Prop := ∀ a b, [a, b, a] <+ l → b = a

instance (l : List Handle) : Decidable (Clustered l) :=
  decidable_of_iff (∀ a ∈ l, ∀ b ∈ l, [a, b, a] <+ l → b = a)
    ⟨fun h a b hab => h a (hab.subset (by simp)) b (hab.subset (by simp)) hab,
      fun h a _ b _ hab => h a b hab⟩

namespace Span

/-- The span covers the position. -/
def Has (r : Span) (i : Nat) : Prop := r.start ≤ i ∧ i < r.stop

def Nonempty (r : Span) : Prop := r.start < r.stop

instance (r : Span) : Decidable r.Nonempty :=
  inferInstanceAs (Decidable (r.start < r.stop))

end Span

namespace Edit

/-- The targets of edits, in order. -/
def targets (edits : List Edit) : List Handle := edits.map (·.target)

/-- The targets change at the position `r`. -/
def CutAt (edits : List Edit) (r : Nat) : Prop :=
  ∀ x ∈ (edits.take r).getLast?, ∀ y ∈ (edits.drop r).head?,
    (x.target == y.target) = false

theorem runs_append_of_cut {edits : List Edit} {r : Nat} (h : CutAt edits r)
    (l : List Edit) (hl : l <+: edits.drop r) :
    runs (edits.take r ++ l) = runs (edits.take r) ++ runs l := by
  refine splitBy_append fun x hx y hy => h x hx y ?_
  obtain ⟨m, hm⟩ := hl
  rw [← hm]
  cases l with
  | nil => cases hy
  | cons a l => exact hy

end Edit

theorem Edit.CutAt.take {edits : List Edit} {r n : Nat}
    (h : CutAt edits r) (hrn : r ≤ n) : CutAt (edits.take n) r := by
  intro x hx y hy
  rw [take_take, Nat.min_eq_left hrn] at hx
  rw [drop_take] at hy
  refine h x hx y ?_
  cases hd : edits.drop r with
  | nil => simp [hd] at hy
  | cons a l =>
      cases hn : n - r with
      | zero => simp [hd, hn] at hy
      | succ m => simpa [hd, hn] using hy

/-- The place to which an even cut is moved. -/
def widened (edits : List Edit) (cut : Nat) : Nat :=
  if cut = 0 then 0 else runEnd edits (cut - 1)

theorem cut_le_length (edits : List Edit) {workers count : Nat}
    (h : count ≤ workers) : edits.length * count / workers ≤ edits.length :=
  Nat.div_le_of_le_mul (by rw [Nat.mul_comm]; exact Nat.mul_le_mul_right _ h)

section Widened

variable {edits : List Edit} (hc : Clustered (Edit.targets edits))
include hc

theorem runEnd_spec {pre rest : List Edit} {e : Edit}
    (he : edits = pre ++ e :: rest) :
    ∃ run tail, rest = run ++ tail ∧ (∀ x ∈ run, x.target = e.target) ∧
      (∀ x ∈ tail, x.target ≠ e.target) ∧
      runEnd edits pre.length = pre.length + (run.length + 1) := by
  have hrun : ∀ x ∈ rest.takeWhile (·.target == e.target), x.target =
      e.target := fun x hx => by
    simpa using List.all_eq_true.mp List.all_takeWhile x hx
  have htail : ∀ x ∈ rest.dropWhile (·.target == e.target), x.target ≠
      e.target := by
    intro x hx heq
    cases hd : rest.dropWhile (·.target == e.target) with
    | nil => rw [hd] at hx; cases hx
    | cons b tail =>
        have hb : (b.target == e.target) = false := by
          have h := head_dropWhile_not (fun x : Edit => x.target == e.target)
            (l := rest) (by simp [hd])
          simpa [hd] using h
        rw [hd] at hx
        rcases mem_cons.mp hx with rfl | hx
        · simp [heq] at hb
        · have hsub : [e, b, x] <+ edits := by
            rw [he, ← takeWhile_append_dropWhile (p := (·.target == e.target))
              (l := rest), hd]
            refine Sublist.trans ?_ (sublist_append_right _ _)
            refine Sublist.cons_cons _
              (Sublist.trans ?_ (sublist_append_right _ _))
            exact Sublist.cons_cons _ (singleton_sublist.mpr hx)
          have htargets :
              [e.target, b.target, e.target] <+ Edit.targets edits := by
            have h := hsub.map (·.target)
            rwa [map_cons, map_cons, map_cons, map_nil, heq] at h
          simp [hc _ _ htargets] at hb
  refine ⟨_, _, takeWhile_append_dropWhile.symm, hrun, htail, ?_⟩
  have hdrop : edits.drop pre.length = e :: rest := by simp [he]
  have hcount := leadingCount_append (p := fun x : Edit => x.target == e.target)
    (l := e :: rest.takeWhile (·.target == e.target))
    (m := rest.dropWhile (·.target == e.target))
    (fun x hx => by
      rcases mem_cons.mp hx with rfl | hx
      · simp
      · simpa using hrun x hx)
    (fun x hx => by simpa using htail x hx)
  rw [cons_append, takeWhile_append_dropWhile] at hcount
  unfold runEnd
  rw [hdrop]
  exact congrArg _ hcount

/-- A moved cut is where the target changes, and it is the first such place
from the cut on. -/
theorem widened_spec {cut : Nat} (hcut : cut ≤ edits.length) :
    cut ≤ widened edits cut ∧ widened edits cut ≤ edits.length ∧
      Edit.CutAt edits (widened edits cut) ∧
      ∀ r, cut ≤ r → Edit.CutAt edits r → widened edits cut ≤ r := by
  unfold widened
  split
  · next h0 => exact ⟨by omega, by omega, by simp [Edit.CutAt], by omega⟩
  · next h0 =>
      obtain ⟨pre, e, rest, he, hlen⟩ : ∃ pre e rest, edits = pre ++ e :: rest ∧
          pre.length = cut - 1 := by
        have hlt : cut - 1 < edits.length := by omega
        refine ⟨edits.take (cut - 1), edits[cut - 1], edits.drop cut,
          ?_, by simp; omega⟩
        have h := (take_append_drop (cut - 1) edits).symm
        rwa [drop_eq_getElem_cons hlt, show cut - 1 + 1 = cut by omega] at h
      obtain ⟨run, tail, hrest, hrun, htail, hend⟩ := runEnd_spec hc he
      rw [← hlen, hend]
      have hedits : edits = (pre ++ e :: run) ++ tail := by simp [he, hrest]
      have hsize : pre.length + (run.length + 1) =
        (pre ++ e :: run).length := by simp
      refine ⟨by omega, by simp [hedits], ?_, ?_⟩
      · intro x hx y hy
        rw [hsize, hedits, take_left, getLast?_append_cons] at hx
        rw [hsize, hedits, drop_left] at hy
        have hxe : x.target = e.target := by
          rcases mem_cons.mp (mem_of_getLast? hx) with rfl | hx
          · rfl
          · exact hrun x hx
        have := htail y (mem_of_head? hy)
        simp [hxe, Ne.symm this]
      · intro r hr hcutr
        refine Nat.le_of_not_lt ?_
        intro hlt
        obtain ⟨j, rfl⟩ : ∃ j, r = pre.length + (j + 1) :=
          ⟨r - pre.length - 1, by omega⟩
        have hj : j < run.length := by omega
        have hlast : ∃ x ∈ (edits.take (pre.length + (j + 1))).getLast?,
            x.target = e.target := by
          rw [he, take_length_add_append, take_succ_cons, getLast?_append_cons,
            hrest, take_append_of_le_length (by omega)]
          refine ⟨_, getLast?_eq_some_getLast (by simp), ?_⟩
          rcases mem_cons.mp (getLast_mem (cons_ne_nil e (run.take j)))
            with h | h
          · rw [h]
          · exact hrun _ (mem_of_mem_take h)
        have hhead : ∃ y ∈ (edits.drop (pre.length + (j + 1))).head?, y.target =
            e.target := by
          rw [he, drop_length_add_append, drop_succ_cons, hrest,
            drop_append_of_le_length (by omega), drop_eq_getElem_cons hj]
          exact ⟨_, rfl, hrun _ (getElem_mem hj)⟩
        obtain ⟨x, hx, hxe⟩ := hlast
        obtain ⟨y, hy, hye⟩ := hhead
        have := hcutr x hx y hy
        simp [hxe, hye] at this

theorem widened_mono {c d : Nat} (hcd : c ≤ d) (hd : d ≤ edits.length) :
    widened edits c ≤ widened edits d := by
  obtain ⟨hle, -, hcut, -⟩ := widened_spec hc hd
  exact (widened_spec hc (Nat.le_trans hcd hd)).2.2.2 _
    (Nat.le_trans hcd hle) hcut

/-- A share that is not empty goes from one moved cut to the next. Where it is
empty the two are one place, be it that there was nothing to share or that a run
has taken it all. -/
theorem share_cases {workers worker : Nat} (hw : worker < workers) :
    widened edits (edits.length * worker / workers) ≤
        widened edits (edits.length * (worker + 1) / workers) ∧
      ((share edits workers worker).Nonempty →
        share edits workers worker =
          ⟨widened edits (edits.length * worker / workers),
            widened edits (edits.length * (worker + 1) / workers)⟩) ∧
      (¬(share edits workers worker).Nonempty →
        widened edits (edits.length * worker / workers) =
          widened edits (edits.length * (worker + 1) / workers)) := by
  have hle : edits.length * worker / workers ≤
      edits.length * (worker + 1) / workers :=
    Nat.div_le_div_right (Nat.mul_le_mul_left _ (Nat.le_succ _))
  have hmono := widened_mono hc hle (cut_le_length edits hw)
  refine ⟨hmono, ?_⟩
  rcases Nat.eq_or_lt_of_le hle with heq | hlt
  · have hshare : share edits workers worker =
        ⟨edits.length * worker / workers, edits.length * worker / workers⟩ := by
      simp [share, heq]
    rw [hshare]
    exact ⟨fun h => absurd h (Nat.lt_irrefl _), fun _ => by rw [heq]⟩
  · have hright : runEnd edits (edits.length * (worker + 1) / workers - 1) =
        widened edits (edits.length * (worker + 1) / workers) :=
      (if_neg (Nat.ne_of_gt (Nat.zero_lt_of_lt hlt))).symm
    have hshare : share edits workers worker =
        ⟨widened edits (edits.length * worker / workers),
          widened edits (edits.length * (worker + 1) / workers)⟩ := by
      simp only [share, hlt, if_true, hright]
      exact congrArg (Span.mk _) (Nat.max_eq_right hmono)
    rw [hshare]
    exact ⟨fun _ => rfl, fun h => Nat.le_antisymm hmono (Nat.not_lt.mp h)⟩

theorem slice_share {workers worker : Nat} (hw : worker < workers) :
    Span.slice edits (share edits workers worker) =
      (edits.drop (widened edits (edits.length * worker / workers))).take
        (widened edits (edits.length * (worker + 1) / workers)
          - widened edits (edits.length * worker / workers)) := by
  obtain ⟨-, hfull, hempty⟩ := share_cases hc hw
  by_cases hne : (share edits workers worker).Nonempty
  · rw [hfull hne]
    rfl
  · rw [← hempty hne, Nat.sub_self, take_zero, Span.slice,
      Nat.sub_eq_zero_of_le (Nat.not_lt.mp hne), take_zero]

theorem runs_shares_upto (workers : Nat) : ∀ count ≤ workers,
    ((List.range count).map fun w => Span.slice edits
      (share edits workers w)).flatMap Edit.runs
      = Edit.runs (edits.take (widened edits (edits.length * count / workers)))
  | 0, _ => by simp [widened, Edit.runs]
  | count + 1, h => by
      have hcount := Nat.le_of_succ_le h
      have hcut := (widened_spec hc (cut_le_length edits hcount)).2.2.1
      have hle : edits.length * count / workers ≤
          edits.length * (count + 1) / workers :=
        Nat.div_le_div_right (Nat.mul_le_mul_left _ (Nat.le_succ _))
      have hmono := widened_mono hc hle (cut_le_length edits h)
      rw [range_succ, map_append, flatMap_append, runs_shares_upto workers count
        hcount, map_cons, map_nil, flatMap_cons, flatMap_nil, append_nil,
        slice_share hc h, ← Edit.runs_append_of_cut hcut _ ( take_prefix _ _),
        ← take_add, Nat.add_sub_cancel' hmono]

/-- **No run is parted.** The runs of all shares, in the order of the
workers, are the runs of the whole list. -/
theorem flatMap_runs_slices (pool : Pool) (height : Nat) :
    (pool.slices height edits).flatMap Edit.runs = Edit.runs edits := by
  unfold Pool.slices
  split
  · have hfull := (widened_spec hc (Nat.le_refl edits.length)).1
    have h := runs_shares_upto hc pool.workers pool.workers (Nat.le_refl _)
    rw [Nat.mul_div_cancel _ pool.workers_pos, take_of_length_le hfull] at h
    rw [shares, map_map]
    exact h
  · simp

end Widened

end LevelIndex
