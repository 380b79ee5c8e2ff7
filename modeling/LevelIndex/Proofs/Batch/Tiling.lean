import LevelIndex.Proofs.Batch.Shares
import Mathlib.Data.Nat.Find

/-!
# The shares as positions

What the workers have to do is told by the edits in their shares; this is about
where in the batch the shares lie. One that is not empty goes from one moved cut
to the next, and an empty one has both its cuts in one place (`share_cases`). So
the shares that are not empty meet end to end (`tiles_shares_upto`), whatever
the number of workers.

A moved cut is where the target changes, and equal targets stand together, so no
target is met on both sides of it (`Edit.CutAt.target_ne`). Between a position
in the share of one worker and a position in the share of a later one there is a
moved cut. Hence two edits with one target are one worker's
(`worker_le_of_target_eq`, taken both ways round), and the edits with the target
of a position are, from there on, those before the end of its run
(`target_eq_iff_lt_runEnd`).
-/

namespace LevelIndex

open List

theorem Clustered.eq_of_between {l : List Handle} (hc : Clustered l)
    {a b c : Nat} (hab : a ≤ b) (hbc : b ≤ c) (hlt : c < l.length)
    (h : l[a] = l[c]) : l[b] = l[a] := by
  rcases Nat.eq_or_lt_of_le hab with rfl | hab
  · rfl
  · rcases Nat.eq_or_lt_of_le hbc with rfl | hbc
    · exact h.symm
    · have hlist : [(⟨a, by omega⟩ : Fin l.length), ⟨b, by omega⟩,
          ⟨c, hlt⟩].Pairwise (· < ·) := by
        simp [hab, hbc, Nat.lt_trans hab hbc]
      exact hc _ _ (by simpa [← h] using map_getElem_sublist hlist)

namespace Span

/-- The spans are not empty and lie end to end. -/
def Tiles (start stop : Nat) : List Span → Prop
  | [] => start = stop
  | r :: rest => r.start = start ∧ r.Nonempty ∧ Tiles r.stop stop rest

theorem Tiles.concat {start : Nat} {rs : List Span} {r : Span}
    (h : Tiles start r.start rs) (hr : r.Nonempty) :
    Tiles start r.stop (rs ++ [r]) := by
  induction rs generalizing start with
  | nil => exact ⟨h.symm, hr, rfl⟩
  | cons q rs ih => exact ⟨h.1, h.2.1, ih h.2.2⟩

end Span

section Positions

variable {edits : List Edit} (hc : Clustered (Edit.targets edits))
include hc

theorem target_eq_of_between {i b j : Nat} (hib : i ≤ b) (hbj : b ≤ j)
    (hj : j < edits.length) (h : edits[i].target = edits[j].target) :
    edits[b].target = edits[i].target := by
  have hlt : j < (Edit.targets edits).length := by simpa [Edit.targets] using hj
  have heq : (Edit.targets edits)[i] = (Edit.targets edits)[j] := by
    simpa [Edit.targets] using h
  simpa [Edit.targets] using hc.eq_of_between hib hbj hlt heq

/-- Where the targets change none comes back, as edits with one target have no
other between them. -/
theorem Edit.CutAt.target_ne {r i j : Nat} (h : Edit.CutAt edits r)
    (hir : i < r) (hrj : r ≤ j) (hj : j < edits.length) :
    edits[i].target ≠ edits[j].target := by
  intro heq
  have hr : r < edits.length := Nat.lt_of_le_of_lt hrj hj
  have hx : edits[r - 1] ∈ (edits.take r).getLast? := by
    rw [getLast?_eq_getElem?, length_take, Nat.min_eq_left (by omega),
      getElem?_take_of_lt (by omega)]
    simp
  have hy : edits[r] ∈ (edits.drop r).head? := by simp [head?_drop]
  have hne := h _ hx _ hy
  rw [target_eq_of_between hc (by omega) (by omega) hj heq,
    target_eq_of_between hc (by omega) hrj hj heq] at hne
  simp at hne

theorem target_eq_iff_lt_runEnd {i j : Nat} (hij : i ≤ j)
    (hj : j < edits.length) :
    edits[j].target = edits[i].target ↔ j < runEnd edits i := by
  obtain ⟨pre, e, rest, hedits, rfl⟩ :
      ∃ pre e rest, edits = pre ++ e :: rest ∧ pre.length = i := by
    refine ⟨edits.take i, edits[i], edits.drop (i + 1), ?_, by simp; omega⟩
    rw [← drop_eq_getElem_cons (by omega), take_append_drop]
  obtain ⟨run, tail, rfl, hrun, htail, hend⟩ := runEnd_spec hc hedits
  obtain ⟨d, rfl⟩ := Nat.exists_eq_add_of_le hij
  have he : edits[pre.length]? = some e := by
    rw [hedits, getElem?_append_right (Nat.le_refl _)]
    simp
  have hd : edits[pre.length + d]? = ((e :: run) ++ tail)[d]? := by
    rw [hedits, getElem?_append_right (Nat.le_add_right _ _),
      Nat.add_sub_cancel_left, cons_append]
  rw [getElem?_eq_getElem (by omega), Option.some.injEq] at he
  rw [getElem?_eq_getElem hj] at hd
  rw [hend, he]
  by_cases hlt : d < (e :: run).length
  · rw [getElem?_append_left hlt, getElem?_eq_getElem hlt,
      Option.some.injEq] at hd
    refine iff_of_true ?_ (by simp at hlt; omega)
    rcases mem_cons.mp (hd ▸ getElem_mem hlt) with h | h
    · rw [h]
    · exact hrun _ h
  · rw [getElem?_append_right (Nat.not_lt.mp hlt)] at hd
    refine iff_of_false (htail _ (mem_of_getElem? hd.symm)) ?_
    simp at hlt
    omega

theorem exists_run {i : Nat} (hi : i < edits.length) :
    ∃ start ≤ i, i < runEnd edits i ∧ runEnd edits i ≤ edits.length ∧
      ∀ j (hj : j < edits.length), edits[j].target = edits[i].target ↔
        start ≤ j ∧ j < runEnd edits i := by
  classical
  have hself : ∃ j, ∃ hj : j < edits.length,
      edits[j].target = edits[i].target := ⟨i, hi, rfl⟩
  have hcut : i + 1 ≤ edits.length := hi
  obtain ⟨hlt, hle, -⟩ := widened_spec hc hcut
  obtain ⟨hstart, heq⟩ := Nat.find_spec hself
  refine ⟨Nat.find hself, Nat.find_min' hself ⟨hi, rfl⟩, hlt, hle,
    fun j hj => ?_⟩
  rcases Nat.lt_or_ge j (Nat.find hself) with hlow | hge
  · refine iff_of_false (fun h => Nat.find_min hself hlow ⟨hj, h⟩) ?_
    omega
  · rcases Nat.le_total i j with hij | hji
    · rw [and_iff_right hge]
      exact target_eq_iff_lt_runEnd hc hij hj
    · refine iff_of_true ?_ ⟨hge, Nat.lt_of_le_of_lt hji hlt⟩
      rw [target_eq_of_between hc hge hji hi heq, heq]

/-! ## Where the shares lie -/

/-- The shares of the first workers that are not empty lie end to end, up to the
moved cut behind the last of them. -/
theorem tiles_shares_upto (workers : Nat) : ∀ count ≤ workers,
    Span.Tiles 0 (widened edits (edits.length * count / workers))
      (((List.range count).map (share edits workers)).filter
        fun r => decide r.Nonempty)
  | 0, _ => by simp [widened, Span.Tiles]
  | count + 1, h => by
      have ih := tiles_shares_upto workers count (Nat.le_of_succ_le h)
      obtain ⟨-, hfull, hempty⟩ := share_cases hc h
      rw [range_succ, map_append, filter_append, map_singleton]
      by_cases hne : (share edits workers count).Nonempty
      · have hshare := hfull hne
        rw [hshare] at hne ⊢
        rw [filter_cons_of_pos (by simpa using hne), filter_nil]
        exact ih.concat hne
      · rw [filter_cons_of_neg (by simpa using hne), filter_nil, append_nil,
          ← hempty hne]
        exact ih

theorem bounds_of_has {workers worker i : Nat} (hw : worker < workers)
    (h : (share edits workers worker).Has i) :
    widened edits (edits.length * worker / workers) ≤ i ∧
      i < widened edits (edits.length * (worker + 1) / workers) := by
  have hshare := (share_cases hc hw).2.1 (Nat.lt_of_le_of_lt h.1 h.2)
  rw [hshare] at h
  exact h

theorem worker_le_of_target_eq {workers v w i j : Nat} (hv : v < workers)
    (hw : w < workers) (hi : (share edits workers v).Has i)
    (hj : (share edits workers w).Has j) (hil : i < edits.length)
    (hjl : j < edits.length) (h : edits[i].target = edits[j].target) :
    w ≤ v := by
  refine Nat.not_lt.mp fun hvw => ?_
  have hle := cut_le_length edits (Nat.le_of_lt hw)
  have hmono := widened_mono hc
    (Nat.div_le_div_right (Nat.mul_le_mul_left edits.length
      (show v + 1 ≤ w from hvw))) hle
  exact Edit.CutAt.target_ne hc (widened_spec hc hle).2.2.1
    (Nat.lt_of_lt_of_le (bounds_of_has hc hv hi).2 hmono)
    (bounds_of_has hc hw hj).1 hjl h

theorem share_stop_le {workers worker : Nat} (hw : worker < workers) :
    (share edits workers worker).stop ≤ edits.length := by
  by_cases hne : (share edits workers worker).Nonempty
  · rw [(share_cases hc hw).2.1 hne]
    exact (widened_spec hc (cut_le_length edits hw)).2.1
  · refine Nat.le_trans (Nat.not_lt.mp hne) ?_
    unfold share
    dsimp only
    split
    · next hlt =>
        refine (?_ : widened edits _ ≤ edits.length)
        exact (widened_spec hc (cut_le_length edits (Nat.le_of_lt hw))).2.1
    · exact cut_le_length edits (Nat.le_of_lt hw)

/-- **Sharing out.** Where equal targets stand together, the end of the run at a
position is that of all edits with its target. The shares of the workers are in
bounds and have no position in common; the empty ones left out, they lie end to
end over the whole batch; and no two of them have edits with one target. -/
theorem shares_tile {workers : Nat} (hw : 0 < workers) :
    (∀ i (hi : i < edits.length), ∃ start ≤ i, i < runEnd edits i ∧
      runEnd edits i ≤ edits.length ∧
      ∀ j (hj : j < edits.length), edits[j].target = edits[i].target ↔
        start ≤ j ∧ j < runEnd edits i) ∧
    (∀ r ∈ shares edits workers, r.start ≤ r.stop ∧ r.stop ≤ edits.length) ∧
    (shares edits workers).Pairwise (fun r r' => ∀ i, r.Has i → ¬r'.Has i) ∧
    Span.Tiles 0 edits.length
      ((shares edits workers).filter fun r => decide r.Nonempty) ∧
    ∀ v < workers, ∀ w < workers, ∀ i j (hi : i < edits.length)
      (hj : j < edits.length), (share edits workers v).Has i →
      (share edits workers w).Has j → edits[i].target = edits[j].target →
      v = w := by
  refine ⟨fun i => exists_run hc, fun r hr => ?_, ?_, ?_, ?_⟩
  · obtain ⟨w, hmem, rfl⟩ := mem_map.mp hr
    exact ⟨share_start_le_stop _ _ _, share_stop_le hc (mem_range.mp hmem)⟩
  · refine pairwise_map.mpr (pairwise_lt_range.imp_of_mem ?_)
    intro v w hv hw hvw i hi hi'
    have hlt : i < edits.length :=
      Nat.lt_of_lt_of_le hi.2 (share_stop_le hc (mem_range.mp hv))
    exact Nat.not_le.mpr hvw (worker_le_of_target_eq hc (mem_range.mp hv)
      (mem_range.mp hw) hi hi' hlt hlt rfl)
  · have htiles := tiles_shares_upto hc workers workers (Nat.le_refl _)
    have hall := widened_spec hc (Nat.le_refl edits.length)
    rw [Nat.mul_div_cancel _ hw, Nat.le_antisymm hall.2.1 hall.1] at htiles
    exact htiles
  · intro v hv w hw i j hi hj hvi hwj heq
    exact Nat.le_antisymm
      (worker_le_of_target_eq hc hw hv hwj hvi hj hi heq.symm)
      (worker_le_of_target_eq hc hv hw hvi hwj hi hj heq)

end Positions

/-- Six edits for two nodes among five workers: the first run takes the shares
of four of them. -/
theorem shares_tile_long_run :
    let edits := ([1, 1, 1, 1, 2, 2] : List Nat).map
      fun h => Edit.remove 0 (.slot h)
    Clustered (Edit.targets edits) ∧
      Span.Tiles 0 6 ((shares edits 5).filter fun r => decide r.Nonempty) ∧
      (shares edits 5).map (fun r => (r.start, r.stop)) =
        [(0, 4), (4, 4), (4, 4), (4, 4), (4, 6)] := by
  intro edits
  have hc : Clustered (Edit.targets edits) := by decide +kernel
  obtain ⟨-, -, -, htiles, -⟩ := shares_tile hc (show 0 < 5 by decide)
  exact ⟨hc, htiles, by decide +kernel⟩

end LevelIndex
