import LevelIndex.Fault
import LevelIndex.Require

/-!
# Computations and the faults they may end in

`Yields A x Q` says that the computation `x` ends in a value that satisfies `Q`,
or in a fault that `A` admits. With nothing admitted it says that `x` succeeds
(`Yields.exists_ok`). An insert admits one fault, a full store; a removal admits
none. Both engines are run by one level loop, and its laws are stated once, for
any `A`.

`Alike f x y` compares two computations: both fail, or both succeed and `f`
takes the value of the one to that of the other. Lists of computations are read
element by element. One succeeds where each element does (`mapM_eq_ok_iff`) and
fails with the first failure otherwise (`mapM_eq_error_iff`).
-/

namespace LevelIndex

/-- `x` ends in a value with `Q`, or in a fault that `A` admits. -/
def Yields {α : Type} (A : Fault → Prop) (x : Except Fault α) (Q : α → Prop) :
    Prop :=
  match x with
  | .ok a => Q a
  | .error f => A f

/-- There are `c` slots, and that is less than the `n` needed. -/
def Short (c n : Nat) (f : Fault) : Prop := f = .storeFull c ∧ c < n

theorem Short.mono {c m n : Nat} (h : m ≤ n) {f : Fault} (hs : Short c m f) :
    Short c n f :=
  ⟨hs.1, Nat.lt_of_lt_of_le hs.2 h⟩

variable {α β : Type} {A : Fault → Prop} {Q R : α → Prop}

@[simp] theorem yields_ok {a : α} : Yields A (.ok a) Q ↔ Q a := Iff.rfl

@[simp] theorem yields_error {f : Fault} :
    Yields A (.error f : Except Fault α) Q ↔ A f := Iff.rfl

theorem Yields.mono {x : Except Fault α} (h : Yields A x Q)
    (hQ : ∀ a, Q a → R a) : Yields A x R := by
  cases x with
  | ok a => exact hQ a h
  | error f => exact h

theorem Yields.bind {x : Except Fault α} {f : α → Except Fault β} {S : β → Prop}
    (h : Yields A x Q) (hf : ∀ a, Q a → Yields A (f a) S) :
    Yields A (x >>= f) S := by
  cases x with
  | ok a => exact hf a h
  | error e => exact h

theorem Yields.weaken {A' : Fault → Prop} {x : Except Fault α}
    (h : Yields A x Q) (hA : ∀ f, A f → A' f) : Yields A' x Q := by
  cases x with
  | ok a => exact h
  | error f => exact hA f h

theorem Yields.exists_ok {x : Except Fault α}
    (h : Yields (fun _ => False) x Q) : ∃ a, x = .ok a ∧ Q a := by
  cases x with
  | ok a => exact ⟨a, rfl, h⟩
  | error f => exact h.elim

theorem Yields.of_ok {x : Except Fault α} (h : Yields A x Q) {a : α}
    (hx : x = .ok a) : Q a := by
  rwa [hx] at h

theorem Yields.of_error {x : Except Fault α} (h : Yields A x Q) {f : Fault}
    (hx : x = .error f) : A f := by
  rwa [hx] at h

theorem yields_of_eq_ok {x : Except Fault α} {a : α} (hx : x = .ok a)
    (ha : Q a) : Yields A x Q := hx ▸ ha

@[simp] theorem ok_bind {ε : Type} (a : α) (f : α → Except ε β) :
    ((.ok a : Except ε α) >>= f) = f a := rfl

theorem bind_eq_ok {ε : Type} {x : Except ε α} {f : α → Except ε β} {b : β} :
    (x >>= f) = .ok b ↔ ∃ a, x = .ok a ∧ f a = .ok b := by
  cases x with
  | ok a => simp
  | error e => exact ⟨fun h => (by cases h), fun ⟨_, h, _⟩ => (by cases h)⟩

theorem bind_eq_error {ε : Type} {x : Except ε α} {f : α → Except ε β} {e : ε} :
    (x >>= f) = .error e ↔
      x = .error e ∨ ∃ a, x = .ok a ∧ f a = .error e := by
  cases x with
  | ok a => simp
  | error e' =>
      constructor
      · intro h
        cases h
        exact Or.inl rfl
      · rintro (h | ⟨_, h, -⟩) <;> cases h
        rfl

/-- A step that only passes or fails has one value to go on with, so a chain of
checks is a conjunction. -/
theorem unit_bind_eq_ok {ε : Type} {x : Except ε Unit} {f : Unit → Except ε β}
    {b : β} : (x >>= f) = .ok b ↔ x = .ok () ∧ f () = .ok b := by
  rw [bind_eq_ok]
  exact ⟨fun ⟨(), hx, hf⟩ => ⟨hx, hf⟩, fun ⟨hx, hf⟩ => ⟨(), hx, hf⟩⟩

theorem unit_bind_eq_error {ε : Type} {x : Except ε Unit}
    {f : Unit → Except ε β} {e : ε} :
    (x >>= f) = .error e ↔ x = .error e ∨ x = .ok () ∧ f () = .error e := by
  rw [bind_eq_error]
  exact or_congr_right
    ⟨fun ⟨(), hx, hf⟩ => ⟨hx, hf⟩, fun ⟨hx, hf⟩ => ⟨(), hx, hf⟩⟩

theorem mapError_eq_ok {ε ε' : Type} {x : Except ε α} {f : ε → ε'} {a : α} :
    x.mapError f = .ok a ↔ x = .ok a := by
  cases x with
  | ok b => exact ⟨fun h => (by cases h; rfl), fun h => (by cases h; rfl)⟩
  | error e => exact ⟨fun h => (by cases h), fun h => (by cases h)⟩

/-! ## Two computations -/

/-- Both computations end in values, the second in what `f` makes of the value
of the first, or both in faults. -/
def Alike (f : α → β) : Except Fault α → Except Fault β → Prop
  | .ok a, .ok b => b = f a
  | .error _, .error _ => True
  | _, _ => False

namespace Alike

variable {γ δ : Type} {f : α → β} {g : γ → δ}

theorem bind {x : Except Fault α} {y : Except Fault β}
    {k : α → Except Fault γ} {l : β → Except Fault δ} (h : Alike f x y)
    (hkl : ∀ a, x = .ok a → Alike g (k a) (l (f a))) :
    Alike g (x >>= k) (y >>= l) := by
  cases x with
  | error e => cases y with
    | error e' => trivial
    | ok b => exact h.elim
  | ok a => cases y with
    | error e' => exact h.elim
    | ok b =>
        obtain rfl : b = f a := h
        exact hkl a rfl

theorem map {x : Except Fault α} {y : Except Fault β} {k : α → γ} {l : β → δ}
    (h : Alike f x y) (hkl : ∀ a, l (f a) = g (k a)) :
    Alike g (k <$> x) (l <$> y) :=
  h.bind (k := fun a => .ok (k a)) (l := fun b => .ok (l b)) fun a _ => hkl a

theorem mapM {k : α → Except Fault γ} {l : β → Except Fault δ}
    (h : ∀ a, Alike g (k a) (l (f a))) : ∀ as : List α,
    Alike (List.map g) (as.mapM k) ((as.map f).mapM l)
  | [] => rfl
  | a :: as => by
      rw [List.map_cons, List.mapM_cons, List.mapM_cons]
      exact (h a).bind fun c _ => (mapM h as).bind fun cs _ => rfl

theorem eq_ok {x : Except Fault α} {y : Except Fault β} {a : α}
    (h : Alike f x y) (hx : x = .ok a) : y = .ok (f a) := by
  subst hx
  cases y with
  | ok b => exact congrArg Except.ok h
  | error e => exact h.elim

end Alike

/-! ## Lists of computations -/

section Lists

variable {ε : Type} {f : α → Except ε β} {l : List α}

/-- A list of computations succeeds where each of them does, with their values
in order. -/
theorem mapM_eq_ok_iff {bs : List β} :
    l.mapM f = .ok bs ↔ l.map f = bs.map .ok := by
  induction l generalizing bs with
  | nil => cases bs <;> simp [pure, Except.pure]
  | cons a l ih =>
      rw [List.mapM_cons, bind_eq_ok]
      constructor
      · rintro ⟨b, hb, h⟩
        obtain ⟨bs', hbs, h⟩ := bind_eq_ok.mp h
        cases h
        rw [List.map_cons, List.map_cons, hb, ih.mp hbs]
      · intro h
        cases bs with
        | nil => cases h
        | cons b bs =>
            obtain ⟨hb, hbs⟩ := List.cons.inj h
            exact ⟨b, hb, bind_eq_ok.mpr ⟨bs, ih.mpr hbs, rfl⟩⟩

/-- A list of computations fails where one of them does, with the failure of the
first. -/
theorem mapM_eq_error_iff {e : ε} :
    l.mapM f = .error e ↔ ∃ before a rest, l = before ++ a :: rest ∧
      (∀ c ∈ before, ∃ b, f c = .ok b) ∧ f a = .error e := by
  induction l with
  | nil => simp [pure, Except.pure]
  | cons a l ih =>
      rw [List.mapM_cons, bind_eq_error]
      constructor
      · rintro (h | ⟨b, hb, h⟩)
        · exact ⟨[], a, l, rfl, by simp, h⟩
        · rcases bind_eq_error.mp h with h | ⟨_, _, h⟩
          · obtain ⟨before, c, rest, rfl, hbefore, hc⟩ := ih.mp h
            exact ⟨a :: before, c, rest, rfl,
              List.forall_mem_cons.mpr ⟨⟨b, hb⟩, hbefore⟩, hc⟩
          · cases h
      · rintro ⟨before, c, rest, hl, hbefore, hc⟩
        cases before with
        | nil =>
            obtain ⟨rfl, rfl⟩ := List.cons.inj hl
            exact Or.inl hc
        | cons d before =>
            obtain ⟨rfl, rfl⟩ := List.cons.inj hl
            obtain ⟨⟨b, hb⟩, hbefore⟩ := List.forall_mem_cons.mp hbefore
            refine Or.inr ⟨b, hb, bind_eq_error.mpr (Or.inl ?_)⟩
            exact ih.mpr ⟨before, c, rest, rfl, hbefore, hc⟩

theorem mapM_eq_ok {g : α → β} (h : ∀ a ∈ l, f a = .ok (g a)) :
    l.mapM f = .ok (l.map g) := by
  rw [mapM_eq_ok_iff, List.map_map]
  exact List.map_congr_left h

theorem exists_ok_of_mapM {bs : List β} (h : l.mapM f = .ok bs) {a : α}
    (ha : a ∈ l) : ∃ b, f a = .ok b := by
  have hmem : f a ∈ bs.map .ok := mapM_eq_ok_iff.mp h ▸ List.mem_map_of_mem ha
  obtain ⟨b, -, hb⟩ := List.mem_map.mp hmem
  exact ⟨b, hb.symm⟩

end Lists

theorem forM_eq_ok {ε : Type} {f : α → Except ε Unit} {l : List α}
    (h : ∀ a ∈ l, f a = .ok ()) : l.forM f = .ok () := by
  induction l with
  | nil => rfl
  | cons a l ih =>
      show (f a >>= fun _ => l.forM f) = _
      rw [h a (by simp)]
      exact ih fun b hb => h b (List.mem_cons_of_mem _ hb)

end LevelIndex
