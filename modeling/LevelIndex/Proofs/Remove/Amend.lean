import LevelIndex.Proofs.Level
import LevelIndex.Proofs.Yields
import LevelIndex.Remove.Rewrite
import Mathlib.Data.List.Find

/-!
# Cells with edits carried out

`amend edits cells` is what edits that drop and rename keys mean: each cell is
looked up among the edits by itself. `revise` walks both lists once instead, and
on lists in key order that is the same (`revise_eq_ok`), provided that no edit
is missed that has to be met. Only edits of a cell's key concern a cell
(`amended_filter`), so the edits of a level may be split up among its nodes and
put together again.

An edit that renames a key makes it greater, and so two cells might change
places. Edits that are `Paced` put no cell far behind where it was: of three
cells that they have left, the first lies before where the third was
(`Paced.exists_of_amend`). Removals of keys are paced at the leaves, where they
leave all other cells in place (`paced_of_remove`).
-/

namespace LevelIndex

namespace Edit

/-- The key that the edit puts in the place of its own. -/
def renamed (e : Edit) : Key :=
  match e.payload with
  | .key k => k
  | _ => e.key

/-- The edit drops its key, or puts one in its place that is not below. -/
def Alters (e : Edit) : Prop :=
  e.flags.remove = true ∨ ∃ k, e.payload = .key k ∧ e.key ≤ k

theorem filter_key_eq {edits : List Edit} {e : Edit} {key : Key}
    (ha : Ascending (keys edits)) (he : e ∈ edits) (hk : e.key = key) :
    edits.filter (·.key = key) = [e] := by
  subst hk
  obtain ⟨l, m, rfl⟩ := List.append_of_mem he
  rw [keys, List.map_append, List.map_cons] at ha
  obtain ⟨-, hem, hlm⟩ := List.pairwise_append.mp ha
  have hl : l.filter (·.key = e.key) = [] :=
    List.filter_eq_nil_iff.mpr fun d hd => by
      have hlt := hlm d.key (List.mem_map_of_mem hd) e.key List.mem_cons_self
      simpa using Int64.ne_of_lt hlt
  have hm : m.filter (·.key = e.key) = [] :=
    List.filter_eq_nil_iff.mpr fun d hd => by
      have hlt := List.rel_of_pairwise_cons hem (List.mem_map_of_mem hd)
      simpa using (Int64.ne_of_lt hlt).symm
  rw [List.filter_append, List.filter_cons_of_pos (by simp), hl, hm]
  rfl

end Edit

namespace Remove

/-- What the edits make of one cell. -/
def amended (edits : List Edit) (c : Cell) : Option Cell :=
  match edits.find? fun e => e.key = c.key with
  | none => some c
  | some e => if e.flags.remove then none else some ⟨e.renamed, c.entry⟩

/-- The cells with the edits carried out. -/
def amend (edits : List Edit) (cells : List Cell) : List Cell :=
  cells.filterMap (amended edits)

variable {edits : List Edit} {cells : List Cell} {c : Cell}

theorem amended_of_forall_ne (h : ∀ e ∈ edits, e.key ≠ c.key) :
    amended edits c = some c := by
  rw [amended, List.find?_eq_none.mpr fun e he => by simpa using h e he]

theorem amended_cons_of_ne {e : Edit} (h : e.key ≠ c.key) :
    amended (e :: edits) c = amended edits c := by
  rw [amended, amended, List.find?_cons_of_neg (by simpa using h)]

theorem amended_cons_of_eq {e : Edit} (h : e.key = c.key) :
    amended (e :: edits) c = if e.flags.remove then none else some
      ⟨e.renamed, c.entry⟩ := by
  rw [amended, List.find?_cons_of_pos (by simpa using h)]

theorem entry_of_amended {d : Cell} (h : amended edits c = some d) :
    d.entry = c.entry := by
  rw [amended] at h
  split at h
  · cases h
    rfl
  · split at h
    · cases h
    · cases h
      rfl

theorem amended_append_left {l m : List Edit} (h : ∀ e ∈ l, e.key ≠ c.key) :
    amended (l ++ m) c = amended m c := by
  rw [amended, amended, List.find?_append,
    List.find?_eq_none.mpr fun e he => by simpa using h e he, Option.none_or]

theorem amended_append_right {l m : List Edit} (h : ∀ e ∈ m, e.key ≠ c.key) :
    amended (l ++ m) c = amended l c := by
  rw [amended, amended, List.find?_append,
    show m.find? (fun e => e.key = c.key) = none from
      List.find?_eq_none.mpr fun e he => by simpa using h e he, Option.or_none]

theorem amended_filter {p : Edit → Bool}
    (h : ∀ e ∈ edits, e.key = c.key → p e = true) :
    amended (edits.filter p) c = amended edits c := by
  rw [amended, amended, List.find?_filter, List.find?_congr fun e he => ?_]
  by_cases hk : e.key = c.key
  · simp [hk, h e he hk]
  · simp [hk]

@[simp] theorem amend_nil_left : amend [] cells = cells := by
  simp [amend, show amended [] = some from rfl]

@[simp] theorem amend_nil_right : amend edits [] = [] := rfl

theorem amend_append (l m : List Cell) :
    amend edits (l ++ m) = amend edits l ++ amend edits m :=
  List.filterMap_append

theorem amend_congr {l m : List Edit}
    (h : ∀ c ∈ cells, amended l c = amended m c) :
    amend l cells = amend m cells :=
  List.filterMap_congr h

theorem amend_cons_of_lt {e : Edit} (h : ∀ d ∈ cells, e.key < d.key) :
    amend (e :: edits) cells = amend edits cells :=
  amend_congr fun d hd => amended_cons_of_ne fun heq =>
    Int64.lt_irrefl (heq ▸ h d hd)

theorem length_amend_le : (amend edits cells).length ≤ cells.length :=
  List.length_filterMap_le _ _

/-- A cell comes from one whose key is not above its own, with the same entry:
keys are dropped, or they grow. -/
theorem exists_of_mem_amend (ha : ∀ e ∈ edits, e.Alters)
    (hc : c ∈ amend edits cells) :
    ∃ d ∈ cells, d.key ≤ c.key ∧ d.entry = c.entry := by
  obtain ⟨d, hd, hdc⟩ := List.mem_filterMap.mp hc
  refine ⟨d, hd, ?_⟩
  rw [amended] at hdc
  split at hdc
  · cases hdc
    exact ⟨Int64.le_refl _, rfl⟩
  · next e he =>
      have hkey : e.key = d.key := by simpa using List.find?_some he
      split at hdc
      · cases hdc
      · next hrem =>
          obtain ⟨k, hk, hle⟩ :=
            (ha e (List.mem_of_find?_eq_some he)).resolve_left hrem
          cases hdc
          refine ⟨?_, rfl⟩
          simp only [Edit.renamed, hk]
          exact hkey ▸ hle

/-- Edits that rename keys do so within bounds: of three cells that stay, the
first does not get as far as the third was. -/
def Paced (edits : List Edit) (cells : List Cell) : Prop :=
  ∀ a b c, [a, b, c].Sublist cells → ∀ a' b' c',
    amended edits a = some a' → amended edits b = some b' →
    amended edits c = some c' → a'.key < c.key

theorem Paced.sublist {l : List Cell} (h : Paced edits cells)
    (hl : l.Sublist cells) : Paced edits l :=
  fun a b c habc => h a b c (habc.trans hl)

theorem paced_of_remove (hi : Increasing cells)
    (h : ∀ e ∈ edits, e.flags.remove = true) : Paced edits cells := by
  intro a b c habc a' b' c' ha _ _
  have hsame : a' = a := by
    rw [amended] at ha
    split at ha
    · exact (Option.some.inj ha).symm
    · next e he =>
        rw [if_pos (h e (List.mem_of_find?_eq_some he))] at ha
        cases ha
  rw [hsame]
  exact List.rel_of_pairwise_cons (hi.sublist habc) (by simp)

/-- Of three cells that edits have left, the first lies before where the third
was. -/
theorem Paced.exists_of_amend (h : Paced edits cells) {a b c : Cell}
    (habc : [a, b, c].Sublist (amend edits cells)) :
    ∃ d ∈ cells, a.key < d.key := by
  obtain ⟨l, hl, hmap⟩ := List.sublist_filterMap_iff.mp habc
  obtain ⟨l₁, x, m₁, rfl, -, hx, hm₁⟩ := List.filterMap_eq_cons_iff.mp hmap.symm
  obtain ⟨l₂, y, m₂, rfl, -, hy, hm₂⟩ := List.filterMap_eq_cons_iff.mp hm₁
  obtain ⟨l₃, z, m₃, rfl, -, hz, -⟩ := List.filterMap_eq_cons_iff.mp hm₂
  have hxyz : [x, y, z].Sublist (l₁ ++ x :: (l₂ ++ y :: (l₃ ++ z :: m₃))) := by
    refine List.Sublist.trans ?_ (List.sublist_append_right _ _)
    refine List.Sublist.cons_cons x (.trans ?_ (List.sublist_append_right _ _))
    refine List.Sublist.cons_cons y (.trans ?_ (List.sublist_append_right _ _))
    simp
  have hxyz' := hxyz.trans hl
  exact ⟨z, hxyz'.subset (by simp), h x y z hxyz' a b c hx hy hz⟩

theorem absent_cons {e x : Edit} (heq : e.key = c.key)
    (hk : Ascending (Edit.keys (e :: edits))) (hx : x ∈ edits)
    (hno : ∀ d ∈ cells, d.key ≠ x.key) : ∀ d ∈ c :: cells, d.key ≠ x.key := by
  have hex : e.key < x.key :=
    List.rel_of_pairwise_cons hk (List.mem_map_of_mem hx)
  intro d hd
  rcases List.mem_cons.mp hd with rfl | hd
  · exact fun h => Int64.lt_irrefl (h ▸ heq ▸ hex)
  · exact hno d hd

/-- Walking both lists once does what looking every cell up does. Either list is
in key order, so an edit that the walk has passed is met by no later cell. -/
theorem revise_eq_ok {missing : Edit → Except Fault Unit}
    (hi : Increasing cells) (hk : Ascending (Edit.keys edits))
    (ha : ∀ e ∈ edits, e.Alters)
    (hm : ∀ e ∈ edits, (∀ d ∈ cells, d.key ≠ e.key) → missing e = .ok ()) :
    revise missing cells edits = .ok (amend edits cells) := by
  fun_induction revise missing cells edits with
  | case1 edits =>
      rw [forM_eq_ok fun e he => hm e he (by simp)]
      rfl
  | case2 cells => rw [amend_nil_left]
  | case3 c cells e edits hlt ih =>
      have hbelow : ∀ d ∈ c :: cells, e.key < d.key := by
        intro d hd
        rcases List.mem_cons.mp hd with rfl | hd
        · exact hlt
        · exact Int64.lt_trans hlt (List.rel_of_pairwise_cons hi hd)
      rw [hm e (by simp) fun d hd heq => Int64.lt_irrefl (heq ▸ hbelow d hd),
        amend_cons_of_lt hbelow]
      exact ih hi hk.tail (fun x hx => ha x (List.mem_cons_of_mem _ hx))
        fun x hx => hm x (List.mem_cons_of_mem _ hx)
  | case4 c cells e edits _ heq hrem ih =>
      have hbelow : ∀ d ∈ cells, e.key < d.key := by
        intro d hd
        exact heq ▸ List.rel_of_pairwise_cons hi hd
      rw [ih hi.tail hk.tail (fun x hx => ha x (List.mem_cons_of_mem _ hx)) ?_]
      · rw [show amend (e :: edits) (c :: cells) = amend (e :: edits) cells by
          simp [amend, amended_cons_of_eq heq, hrem], amend_cons_of_lt hbelow]
      · exact fun x hx hno => hm x (List.mem_cons_of_mem _ hx)
          (absent_cons heq hk hx hno)
  | case5 c cells e edits _ heq hrem ih =>
      have hbelow : ∀ d ∈ cells, e.key < d.key := by
        intro d hd
        exact heq ▸ List.rel_of_pairwise_cons hi hd
      obtain ⟨k, hpay, -⟩ := (ha e (by simp)).resolve_left hrem
      have hnew : e.newKey = .ok e.renamed := by
        simp [Edit.newKey, Edit.renamed, hpay]
      rw [hnew]
      show (revise missing cells edits >>= fun rest => _) = _
      rw [ih hi.tail hk.tail (fun x hx => ha x (List.mem_cons_of_mem _ hx)) ?_]
      · rw [show amend (e :: edits) (c :: cells) =
            ⟨e.renamed, c.entry⟩ :: amend (e :: edits) cells by
              simp [amend, amended_cons_of_eq heq, hrem],
          amend_cons_of_lt hbelow]
        rfl
      · exact fun x hx hno => hm x (List.mem_cons_of_mem _ hx)
          (absent_cons heq hk hx hno)
  | case6 c cells e edits hlt hne ih =>
      have hce : c.key < e.key := by grind
      have habove : ∀ x ∈ e :: edits, c.key < x.key := by
        intro x hx
        rcases List.mem_cons.mp hx with rfl | hx
        · exact hce
        · exact Int64.lt_trans hce
            (List.rel_of_pairwise_cons hk (List.mem_map_of_mem hx))
      rw [ih hi.tail hk ha ?_]
      · rw [show amend (e :: edits) (c :: cells) =
          c :: amend (e :: edits) cells by
          simp [amend, amended_of_forall_ne fun x hx heq => Int64.lt_irrefl
            (heq ▸ habove x hx)]]
        rfl
      · intro x hx hno
        refine hm x hx ?_
        intro d hd
        rcases List.mem_cons.mp hd with rfl | hd
        · exact fun h => Int64.lt_irrefl (h ▸ habove x hx)
        · exact hno d hd

end Remove

end LevelIndex
