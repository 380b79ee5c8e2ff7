import LevelIndex.Proofs.Batch.Orders
import LevelIndex.Proofs.Remove.Climb

/-!
# Removals in any order

A removal takes no slots, so nothing is left to the order in which the nodes of
a level are rewritten: all crews come to the same tree and hand the same list to
the compaction (`Falling.same`), and every level starts as if one worker had
done all those below (`Falling.pass_of_passes`).
-/

namespace LevelIndex

namespace Remove

variable {t : Tree} {row : Nat → List Handle} {height gap : Nat}
  {items : List Pair} {edits : List Edit}

/-- The crew has come to what one worker comes to. -/
def Same (_ : Tree) (step : Step Tree) (c : Crew Tree) : Prop :=
  c.state = step.state ∧ c.log.staged = step.staged

namespace Falling

theorem same (r : Falling t row height gap items edits) :
    SameForAll (rewrite gap) t (Edit.runs edits) (Same t) := by
  obtain ⟨sites, hsites⟩ := r.exists_sites
  have hany := (r.rewritten hsites).weaken
    (B := fun f => f = .heightOverflow ∧ False) fun _ => False.elim
  refine (hany.sameForAll fun _ _ _ => id).mono ?_
  rintro step c ⟨⟨w, hstaged⟩, w', hstaged'⟩
  exact ⟨w.unique w', hstaged'.trans hstaged.symm⟩

theorem pass_of_passes (r : Falling t row height gap items edits)
    {step : Step Tree} (h : engine.Passes rewrite gap t edits step) :
    engine.pass gap t edits = .ok step := by
  obtain ⟨sites, hsites⟩ := r.exists_sites
  obtain ⟨c, hc, hcompact⟩ := h
  obtain ⟨w', hstaged'⟩ := (r.rewritten hsites).of_finishes hc
  obtain ⟨first, hfirst, w, hstaged⟩ := (r.rewritten hsites).alone.exists_ok
  show (Step.sequence (rewrite gap) t (Edit.runs edits) >>= fun s =>
    engine.compact s.state gap s.staged) = _
  rw [hfirst, ok_bind, ← w.unique w', hstaged, ← hstaged']
  exact hcompact

theorem passes (r : Falling t row height gap items edits) {step : Step Tree}
    (h : engine.Passes rewrite gap t edits step) (hstaged : step.staged ≠ []) :
    ∃ row', Falling step.state row' height (gap + 1) items step.staged := by
  obtain ⟨step', row', hstep, -, hrest⟩ := r.pass_eq_ok
  rw [r.pass_of_passes h] at hstep
  obtain rfl := Except.ok.inj hstep
  rw [if_neg hstaged] at hrest
  exact ⟨row', hrest.2⟩

/-- **The levels of a removal.** The tree keeps its height. -/
theorem climbs (r : Falling t row height 0 items edits) {t' : Tree}
    {edits' : List Edit} (h : engine.Climbs rewrite 0 t edits gap t' edits') :
    ∃ row', Falling t' row' height gap items edits' := by
  refine h.invariant (P := fun gap t' edits' => ∃ row',
    Falling t' row' height gap items edits') ?_ ⟨row, r⟩
  rintro gap t' edits' step ⟨row', r'⟩ hp hstaged
  exact r'.passes hp hstaged

theorem orderFree (r : Falling t row height 0 items edits) (hne : edits ≠ []) :
    engine.OrderFree rewrite t edits Same Eq := by
  have hruns : engine.ByRuns rewrite := fun _ _ _ => rfl
  have hpass : ∀ gap t' edits step,
      (∃ row', Falling t' row' height gap items edits) →
      engine.Passes rewrite gap t' edits step → step.staged ≠ [] →
      ∃ row', Falling step.state row' height (gap + 1) items step.staged := by
    rintro gap t' edits step ⟨row', r'⟩ h hstaged
    exact r'.passes h hstaged
  refine .of_invariant (P := fun gap t' edits => ∃ row',
    Falling t' row' height gap items edits) hruns hne ⟨row, r⟩ ?_ hpass ?_ ?_
  · rintro gap t' edits ⟨row', r'⟩
    exact r'.clustered
  · rintro gap t' edits ⟨row', r'⟩
    exact r'.same
  · rintro s'' ⟨_, _, _, last, hclimbs, hlast, hend, rfl⟩ p b rfl
    refine hclimbs.follow (R := fun gap t' edits t'' edits' => t'' = t' ∧
      edits' = edits ∧ ∃ row', Falling t' row' height gap items edits)
      hruns ?_ ?_ p hlast hend (Nat.add_zero _) ⟨rfl, rfl, row, r⟩
    · rintro gap t' edits _ _ ⟨-, -, row', r'⟩
      exact ⟨r'.gap_le_heightLimit, r'.clustered⟩
    · rintro gap t' edits _ _ step ⟨rfl, rfl, row', r'⟩ h
      refine ⟨step, r'.pass_of_passes h, ?_⟩
      split
      · next hstaged => exact ⟨hstaged, rfl⟩
      · next hstaged =>
          obtain ⟨row'', r''⟩ := r'.passes h hstaged
          exact ⟨hstaged, r''.checkStaged_eq_ok, rfl, rfl, row'', r''⟩

end Falling

end Remove

end LevelIndex
