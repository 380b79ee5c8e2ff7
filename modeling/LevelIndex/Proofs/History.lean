import LevelIndex.Proofs.Index
import LevelIndex.Proofs.SortedPairs

/-!
# Histories

A history is a list of calls. What an index answers to each of them is compared
with sorted pairs that are told of the same calls: they turn down what has to be
turned down, for reasons that only the call itself gives (`Call.rejection?`),
and carry out the rest (`SortedPairs.call`). A call that is turned down is not
told to them at all, so they hold what the batches that went through have left.

A table stands between the two:

- one call of an index that stores a table comes to what the table does with it,
  unless the store is full (`Stores.call_cases`);
- one call of the sorted pairs of a table comes to the same (`Table.call_eq`).
  Bisection needs the pairs in order, and a table that an index stores has them
  in order (`Stores.sorted`).

By induction over the history the answers are the same for as long as the store
does not fill up (`Stores.answers_eq`), and every index that can be reached
stores some table (`Reachable.exists_stores`).
-/

namespace LevelIndex

/-- A call of an index. -/
inductive Call where
  | insert (batch : List Pair)
  | remove (keys : List Key)
  | apply (ops : List Operation)
  | get (keys : List Key)
  | predecessor (keys : List Key)
  | containsKey (key : Key)
  | length
  | isEmpty
  | items
deriving DecidableEq

/-- What a call returns. -/
inductive Answer where
  | done
  | outcome (o : BatchOutcome)
  | values (vs : List (Option Value))
  | pairs (ps : List Pair)
  | flag (b : Bool)
  | count (n : Nat)
deriving DecidableEq

/-! ## Why a call is turned down -/

namespace Operation

/-- The position of the first operation of another kind, with its kind: what the
search over positions and operations together comes to. -/
theorem firstStranger?_eq (kind : Kind) (ops : List Operation) :
    firstStranger? kind ops =
      (ops.findIdx? fun op => op.kind ≠ kind).bind fun i =>
      ops[i]?.map fun op => (i, op.kind) := by
  have h : ∀ (l : List Operation) (k : Nat),
      (l.zipIdx k).find? (fun q => q.1.kind ≠ kind) =
        (l.findIdx? fun op => op.kind ≠ kind).bind fun i => l[i]?.map fun op =>
          (op, i + k) := by
    intro l
    induction l with
    | nil => exact fun _ => rfl
    | cons op l ih =>
        intro k
        by_cases hop : op.kind = kind
        · rw [List.zipIdx_cons, List.find?_cons_of_neg (by simpa using hop),
            ih (k + 1), List.findIdx?_cons, if_neg (by simpa using hop),
            Option.bind_map]
          refine Option.bind_congr ?_
          intro i _
          simp [Nat.add_comm 1 k, Nat.add_assoc]
        · rw [List.zipIdx_cons, List.find?_cons_of_pos (by simpa using hop),
            List.findIdx?_cons, if_pos (by simpa using hop)]
          simp
  show ((ops.zipIdx.find? fun q => q.1.kind ≠ kind).map fun q =>
    (q.2, q.1.kind)) = _
  rw [h, Option.map_bind]
  refine Option.bind_congr ?_
  intro i _
  simp [Function.comp_def]

theorem map_key_pairs {kind : Kind} (hkind : kind = .update ∨ kind = .insert)
    {ops : List Operation} (h : ∀ op ∈ ops, op.kind = kind) :
    (ops.filterMap (·.pair?)).map (·.key) = ops.map (·.key) := by
  induction ops with
  | nil => rfl
  | cons op ops ih =>
      obtain ⟨hop, hops⟩ := List.forall_mem_cons.mp h
      obtain ⟨p, hp, hkey⟩ : ∃ p, op.pair? = some p ∧ p.key = op.key := by
        rw [← hop] at hkind
        cases op <;> simp [Operation.kind, pair?, key] at hkind ⊢
      rw [List.filterMap_cons_some hp, List.map_cons, List.map_cons, hkey,
        ih hops]

end Operation

namespace Call

/-- A batch with the sentinel's key is turned down. -/
def reserved? (operation : String) (keys : List Key) : Option Error :=
  if minKey ∈ keys then some { cause := .reservedKey operation minKey }
    else none

/-- Why operations of one kind are turned down. -/
def rejectionOf? (kind : Operation.Kind) (keys : List Key) : Option Error :=
  match kind with
  | .get | .predecessor => none
  | .update | .insert => reserved? "insert" keys
  | .remove => reserved? "remove" keys

/-- Why a call is turned down, whatever is stored. Mixed kinds come first. -/
def rejection? : Call → Option Error
  | .insert batch => reserved? "insert" (batch.map (·.key))
  | .remove keys => reserved? "remove" keys
  | .apply [] => none
  | .apply (first :: rest) =>
    match (first :: rest).findIdx? fun op => op.kind ≠ first.kind with
    | none => rejectionOf? first.kind ((first :: rest).map (·.key))
    | some i => (first :: rest)[i]?.map fun op =>
        { cause := .mixedBatch first.kind.name op.kind.name i }
  | _ => none

theorem reserved?_eq_none_iff {operation : String} {keys : List Key} :
    reserved? operation keys = none ↔ minKey ∉ keys := by
  rw [reserved?]
  split <;> simp [*]

theorem rejection?_apply_eq_none {first : Operation} {rest : List Operation}
    (h : rejection? (.apply (first :: rest)) = none) :
    (∀ op ∈ first :: rest, op.kind = first.kind) ∧
      rejectionOf? first.kind ((first :: rest).map (·.key)) = none := by
  rw [rejection?] at h
  split at h
  · next hi => exact ⟨by simpa using List.findIdx?_eq_none_iff.mp hi, h⟩
  · next i hi =>
      obtain ⟨hlt, -⟩ := List.findIdx?_eq_some_iff_getElem.mp hi
      rw [List.getElem?_eq_getElem hlt] at h
      cases h

end Call

/-! ## Tables and sorted pairs

A table is total, while sorted pairs may be asked for a position that they do
not have. Both are told of the same calls, and only of those that are not turned
down. That the table is in order keeps its sorted pairs within bounds. -/

namespace Table

/-- Carries out operations of one kind. -/
def applyKind (t : Table) (kind : Operation.Kind) (ops : List Operation) :
    Table × BatchOutcome :=
  match kind with
  | .get => (t, .values (ops.map fun op => t.get? op.key))
  | .predecessor => (t, .predecessors (ops.map fun op => t.predecessor op.key))
  | .update | .insert => (t.insert (ops.filterMap (·.pair?)), .applied)
  | .remove => (t.remove (ops.map (·.key)), .applied)

/-- Carries out a call that is not turned down. -/
def call (t : Table) : Call → Table × Answer
  | .insert batch => (t.insert batch, .done)
  | .remove keys => (t.remove keys, .done)
  | .apply [] => (t, .outcome .applied)
  | .apply (first :: rest) =>
    let (t, o) := t.applyKind first.kind (first :: rest)
    (t, .outcome o)
  | .get keys => (t, .values (keys.map t.get?))
  | .predecessor keys => (t, .pairs (keys.map t.predecessor))
  | .containsKey key => (t, .flag (t.get? key).isSome)
  | .length => (t, .count t.length)
  | .isEmpty => (t, .flag t.isEmpty)
  | .items => (t, .pairs t.items)

end Table

namespace SortedPairs

/-- Carries out operations of one kind. -/
def applyKind (s : SortedPairs) (kind : Operation.Kind) (ops : List Operation) :
    Option (SortedPairs × BatchOutcome) :=
  match kind with
  | .get => do
    let values ← s.get (ops.map (·.key))
    return (s, .values values)
  | .predecessor => do
    let pairs ← s.predecessors (ops.map (·.key))
    return (s, .predecessors pairs)
  | .update | .insert => do
    let s ← s.insert (ops.filterMap (·.pair?))
    return (s, .applied)
  | .remove => return (s.remove (ops.map (·.key)), .applied)

/-- Carries out a call that is not turned down. -/
def call (s : SortedPairs) : Call → Option (SortedPairs × Answer)
  | .insert batch => do
    let s ← s.insert batch
    return (s, .done)
  | .remove keys => return (s.remove keys, .done)
  | .apply [] => return (s, .outcome .applied)
  | .apply (first :: rest) => do
    let (s, o) ← s.applyKind first.kind (first :: rest)
    return (s, .outcome o)
  | .get keys => do
    let values ← s.get keys
    return (s, .values values)
  | .predecessor keys => do
    let pairs ← s.predecessors keys
    return (s, .pairs pairs)
  | .containsKey key => do
    let values ← s.get [key]
    return (s, .flag (values.any (·.isSome)))
  | .length => do
    let n ← s.length
    return (s, .count n)
  | .isEmpty => do
    let b ← s.isEmpty
    return (s, .flag b)
  | .items => do
    let pairs ← s.items
    return (s, .pairs pairs)

/-- The answers to a history. Of a call that is turned down the pairs are not
told. -/
def answers (s : SortedPairs) : List Call → Option (List (Except Error Answer))
  | [] => some []
  | c :: calls =>
    match c.rejection? with
    | some e => do
      let rest ← s.answers calls
      return .error e :: rest
    | none => do
      let (s, a) ← s.call c
      let rest ← s.answers calls
      return .ok a :: rest

end SortedPairs

namespace Table

variable {t : Table}

theorem applyKind_eq (h : t.Sorted) {kind : Operation.Kind}
    {ops : List Operation} (hops : ∀ op ∈ ops, op.kind = kind)
    (hr : Call.rejectionOf? kind (ops.map (·.key)) = none) :
    t.sortedPairs.applyKind kind ops =
      some ((t.applyKind kind ops).1.sortedPairs, (t.applyKind kind ops).2) := by
  have hinsert (hkind : kind = .update ∨ kind = .insert)
      (hb : minKey ∉ ops.map (·.key)) :
      t.sortedPairs.insert (ops.filterMap (·.pair?)) =
        some (t.insert (ops.filterMap (·.pair?))).sortedPairs :=
    SortedPairs.insert_eq h (by rwa [Operation.map_key_pairs hkind hops])
  cases kind with
  | get =>
      rw [SortedPairs.applyKind, SortedPairs.get_eq h, List.map_map]
      rfl
  | predecessor =>
      rw [SortedPairs.applyKind, SortedPairs.predecessors_eq h, List.map_map]
      rfl
  | update =>
      rw [SortedPairs.applyKind,
        hinsert (Or.inl rfl) (Call.reserved?_eq_none_iff.mp hr)]
      rfl
  | insert =>
      rw [SortedPairs.applyKind,
        hinsert (Or.inr rfl) (Call.reserved?_eq_none_iff.mp hr)]
      rfl
  | remove =>
      rw [SortedPairs.applyKind, SortedPairs.remove_eq h]
      rfl

/-- The sorted pairs of a table answer a call as the table does, and are those
of the table after the call. -/
theorem call_eq (h : t.Sorted) {c : Call} (hc : c.rejection? = none) :
    t.sortedPairs.call c = some ((t.call c).1.sortedPairs, (t.call c).2) := by
  cases c with
  | insert batch =>
      rw [SortedPairs.call,
        SortedPairs.insert_eq h (Call.reserved?_eq_none_iff.mp hc)]
      rfl
  | remove keys =>
      rw [SortedPairs.call, SortedPairs.remove_eq h]
      rfl
  | apply ops =>
      cases ops with
      | nil => rfl
      | cons first rest =>
          obtain ⟨hops, hr⟩ := Call.rejection?_apply_eq_none hc
          rw [SortedPairs.call, applyKind_eq h hops hr]
          rfl
  | get keys =>
      rw [SortedPairs.call, SortedPairs.get_eq h]
      rfl
  | predecessor keys =>
      rw [SortedPairs.call, SortedPairs.predecessors_eq h]
      rfl
  | containsKey key =>
      rw [SortedPairs.call, SortedPairs.get_eq h]
      simp [call]
  | length => rfl
  | isEmpty =>
      rw [SortedPairs.call, SortedPairs.isEmpty_eq]
      rfl
  | items => rfl

end Table

/-! ## Indexes -/

namespace Index

/-- Carries out a call. -/
def call (x : Index) : Call → Except Failure (Index × Answer)
  | .insert batch => do
    let (x, _) ← x.insert batch
    return (x, .done)
  | .remove keys => do
    let (x, _) ← x.remove keys
    return (x, .done)
  | .apply ops => do
    let (x, o, _) ← x.apply ops
    return (x, .outcome o)
  | .get keys => do
    let values ← (x.get keys).mapError .fatal
    return (x, .values values)
  | .predecessor keys => do
    let pairs ← (x.predecessor keys).mapError .fatal
    return (x, .pairs pairs)
  | .containsKey key => do
    let found ← (x.containsKey key).mapError .fatal
    return (x, .flag found)
  | .length => do
    let n ← x.length.mapError .fatal
    return (x, .count n)
  | .isEmpty => do
    let b ← x.isEmpty.mapError .fatal
    return (x, .flag b)
  | .items => do
    let pairs ← x.items.mapError .fatal
    return (x, .pairs pairs)

/-- The index after a call. A call that ends in a failure hands no other
index back. -/
def next (x : Index) (c : Call) : Index :=
  match x.call c with
  | .ok (x', _) => x'
  | .error _ => x

/-- The index after a history. -/
def after (x : Index) (calls : List Call) : Index := calls.foldl next x

/-- The answers to a history. -/
def answers (x : Index) : List Call → List (Except Failure Answer)
  | [] => []
  | c :: calls => (x.call c).map (·.2) :: (x.next c).answers calls

/-- The store has no slot left for what a call has to allocate. -/
def full (x : Index) : Failure := .aborted (.storeFull x.config.storeCapacity)

/-- The indexes that calls lead to. -/
inductive Reachable : Index → Prop
  | new {config : Config} {x : Index} {events : List Event} :
      ofConfig config = .ok (x, events) → Reachable x
  | call {x x' : Index} {c : Call} {a : Answer} :
      Reachable x → x.call c = .ok (x', a) → Reachable x'

section Rejection

variable {x : Index}

theorem insert_eq_error {batch : List Pair} (h : minKey ∈ batch.map (·.key)) :
    x.insert batch =
      .error (.rejected { cause := .reservedKey "insert" minKey }) := by
  rw [insert, rejectReserved, require_neg (not_not.mpr h)]
  rfl

theorem remove_eq_error {keys : List Key} (h : minKey ∈ keys) :
    x.remove keys =
      .error (.rejected { cause := .reservedKey "remove" minKey }) := by
  rw [remove, rejectReserved, require_neg (not_not.mpr h)]
  rfl

theorem minKey_not_mem_of_insert {batch : List Pair} {r : Index × List Event}
    (h : x.insert batch = .ok r) : minKey ∉ batch.map (·.key) := by
  intro hb
  rw [insert_eq_error hb] at h
  cases h

theorem minKey_not_mem_of_remove {keys : List Key} {r : Index × List Event}
    (h : x.remove keys = .ok r) : minKey ∉ keys := by
  intro hk
  rw [remove_eq_error hk] at h
  cases h

end Rejection

/-! ### One call

For each kind of call one lemma says what it comes to, and `call_cases` is all
that the inductions over a history know of the calls of an index. -/

namespace Stores

variable {x : Index} {t : Table}

/-- What a call comes to: it is turned down, it goes through, or the store
is full. -/
def Comes (x : Index) (reason : Option Error)
    (result : Except Failure (Index × Answer)) (next : Table × Answer) : Prop :=
  match reason with
  | some e => result = .error (.rejected e)
  | none => (∃ x', result = .ok (x', next.2) ∧ x'.config = x.config ∧
      x'.Stores next.1) ∨
      result = .error x.full

theorem call_insert (r : x.Stores t) (batch : List Pair) (a : Answer) :
    Comes x (Call.reserved? "insert" (batch.map (·.key)))
      (x.insert batch >>= fun y => .ok (y.1, a)) (t.insert batch, a) := by
  by_cases hb : minKey ∈ batch.map (·.key)
  · rw [Call.reserved?, if_pos hb, insert_eq_error hb]
    rfl
  · rw [Call.reserved?, if_neg hb]
    rcases r.insert_cases hb with ⟨x', events, h, hc, r'⟩ | h
    · exact Or.inl ⟨x', by rw [h]; rfl, hc, r'⟩
    · exact Or.inr (by rw [h]; rfl)

theorem call_remove (r : x.Stores t) (keys : List Key) (a : Answer) :
    Comes x (Call.reserved? "remove" keys)
      (x.remove keys >>= fun y => .ok (y.1, a)) (t.remove keys, a) := by
  by_cases hk : minKey ∈ keys
  · rw [Call.reserved?, if_pos hk, remove_eq_error hk]
    rfl
  · rw [Call.reserved?, if_neg hk]
    obtain ⟨x', events, h, hc, -, -, r'⟩ := r.remove_eq_ok hk
    exact Or.inl ⟨x', by rw [h]; rfl, hc, r'⟩

theorem call_question (r : x.Stores t) {α : Type} {question : Except Fault α}
    {a : α} (h : question = .ok a) (f : α → Answer) :
    Comes x none
      ((question.mapError Failure.fatal) >>= fun a => .ok (x, f a)) (t, f a) :=
  Or.inl ⟨x, by rw [h]; rfl, rfl, r⟩

theorem call_applyKind (r : x.Stores t) {kind : Operation.Kind}
    {ops : List Operation} (h : ∀ op ∈ ops, op.kind = kind) :
    Comes x (Call.rejectionOf? kind (ops.map (·.key)))
      (x.applyKind kind ops >>= fun y => .ok (y.1, .outcome y.2.1))
      ((t.applyKind kind ops).1, .outcome (t.applyKind kind ops).2) := by
  have hinsert : kind = .update ∨ kind = .insert →
      Comes x (Call.reserved? "insert" (ops.map (·.key)))
        ((x.insert (ops.filterMap (·.pair?)) >>= fun y =>
          .ok (y.1, .applied, y.2)) >>= fun y => .ok (y.1, .outcome y.2.1))
        (t.insert (ops.filterMap (·.pair?)), .outcome .applied) := by
    intro hkind
    rw [bind_assoc, ← Operation.map_key_pairs hkind h]
    exact r.call_insert _ (.outcome .applied)
  cases kind with
  | get =>
      have hget := r.call_question (r.get_eq (ops.map (·.key))) fun vs =>
        .outcome (.values vs)
      rw [List.map_map] at hget
      rw [applyKind, bind_assoc]
      exact hget
  | predecessor =>
      have hpred := r.call_question (r.predecessor_eq (ops.map (·.key)))
        fun ps => .outcome (.predecessors ps)
      rw [List.map_map] at hpred
      rw [applyKind, bind_assoc]
      exact hpred
  | update => exact hinsert (Or.inl rfl)
  | insert => exact hinsert (Or.inr rfl)
  | remove =>
      rw [applyKind, bind_assoc]
      exact r.call_remove (ops.map (·.key)) (.outcome .applied)

theorem call_apply (r : x.Stores t) (ops : List Operation) :
    Comes x (Call.rejection? (.apply ops)) (x.call (.apply ops))
      (t.call (.apply ops)) := by
  cases ops with
  | nil => exact Or.inl ⟨x, rfl, rfl, r⟩
  | cons first rest =>
      show Comes x _
        (x.apply (first :: rest) >>= fun y => .ok (y.1, .outcome y.2.1)) _
      rw [apply, Operation.firstStranger?_eq, Call.rejection?]
      cases hi : (first :: rest).findIdx? fun op => op.kind ≠ first.kind with
      | some i =>
          obtain ⟨hlt, -⟩ := List.findIdx?_eq_some_iff_getElem.mp hi
          dsimp only [Option.bind_some]
          rw [List.getElem?_eq_getElem hlt]
          rfl
      | none =>
          exact r.call_applyKind
            (by simpa using List.findIdx?_eq_none_iff.mp hi)

theorem call_cases (r : x.Stores t) (c : Call) :
    Comes x c.rejection? (x.call c) (t.call c) := by
  cases c with
  | insert batch => exact r.call_insert batch .done
  | remove keys => exact r.call_remove keys .done
  | apply ops => exact r.call_apply ops
  | get keys => exact r.call_question (r.get_eq keys) .values
  | predecessor keys => exact r.call_question (r.predecessor_eq keys) .pairs
  | containsKey key => exact r.call_question (r.containsKey_eq key) .flag
  | length => exact r.call_question r.length_eq .count
  | isEmpty => exact r.call_question r.isEmpty_eq .flag
  | items => exact r.call_question r.items_eq .pairs

/-! ### Histories -/

/-- As long as the store does not fill up, the answers are those of the sorted
pairs of the table. By induction over the calls; one that is turned down leaves
the index as it is and is not told to the pairs. -/
theorem answers_eq (r : x.Stores t) {calls : List Call}
    (h : ∀ a ∈ x.answers calls, a ≠ .error x.full) :
    ∃ as, t.sortedPairs.answers calls = some as ∧
      x.answers calls = as.map (Except.mapError .rejected) := by
  induction calls generalizing x t with
  | nil => exact ⟨[], rfl, rfl⟩
  | cons c calls ih =>
      have hc := r.call_cases c
      rw [answers] at h ⊢
      rw [SortedPairs.answers]
      cases hr : c.rejection? with
      | some e =>
          rw [hr] at hc
          have hcall : x.call c = .error (.rejected e) := hc
          have hnext : x.next c = x := by rw [next, hcall]
          rw [hnext] at h ⊢
          obtain ⟨as, hpairs, has⟩ :=
            ih r fun a ha => h a (List.mem_cons_of_mem _ ha)
          refine ⟨.error e :: as, ?_, ?_⟩
          · rw [hpairs]
            rfl
          · rw [has, hcall]
            rfl
      | none =>
          rw [hr] at hc
          rcases hc with ⟨x', hcall, hconfig, r'⟩ | hcall
          · have hnext : x.next c = x' := by rw [next, hcall]
            have hfull : x'.full = x.full := by rw [full, full, hconfig]
            rw [hnext] at h ⊢
            obtain ⟨as, hpairs, has⟩ :=
              ih r' fun a ha => hfull ▸ h a (List.mem_cons_of_mem _ ha)
            refine ⟨.ok (t.call c).2 :: as, ?_, ?_⟩
            · rw [Table.call_eq r.sorted hr]
              show ((t.call c).1.sortedPairs.answers calls >>= fun _ => _) = _
              rw [hpairs]
              rfl
            · rw [has, hcall]
              rfl
          · refine absurd ?_ (h _ List.mem_cons_self)
            rw [hcall]
            rfl

end Stores

/-- Whatever calls lead to stores some table. -/
theorem Reachable.exists_stores {x : Index} (h : x.Reachable) :
    ∃ t, x.Stores t := by
  induction h with
  | new hx => exact ⟨_, (Stores.of_config hx).2⟩
  | @call x x' c a _ hcall ih =>
      obtain ⟨t, r⟩ := ih
      have hc := r.call_cases c
      rw [hcall] at hc
      cases hr : c.rejection? with
      | some e =>
          rw [hr] at hc
          cases hc
      | none =>
          rw [hr] at hc
          rcases hc with ⟨x'', heq, -, r'⟩ | heq
          · cases heq
            exact ⟨_, r'⟩
          · cases heq

theorem Reachable.after {x : Index} (h : x.Reachable) (calls : List Call) :
    (x.after calls).Reachable := by
  induction calls generalizing x with
  | nil => exact h
  | cons c calls ih =>
      refine ih ?_
      rw [next]
      split
      · next x' a hcall => exact h.call hcall
      · exact h

/-- **Histories.** A valid configuration yields an index that answers every
history as sorted pairs do that replay the batches that went through, for as
long as its store does not fill up. A call is turned down if and only if it
names a reason of its own (`Call.rejection?`), it is turned down for that
reason, and it leaves the tree as it is, slot by slot. -/
theorem history_agrees {config : Config} (hc : config.Valid) :
    ∃ x events, ofConfig config = .ok (x, events) ∧ ∀ calls : List Call,
      (∀ a ∈ x.answers calls,
        a ≠ .error (.aborted (.storeFull config.storeCapacity))) →
      (∃ answers, SortedPairs.new.answers calls = some answers ∧
        x.answers calls = answers.map (Except.mapError .rejected)) ∧
      ∀ front c rest, calls = front ++ c :: rest →
        ∀ e, c.rejection? = some e →
          (x.after front).call c = .error (.rejected e) ∧
            (x.after (front ++ [c])).tree = (x.after front).tree := by
  obtain ⟨x, events, hx⟩ := exists_ofConfig hc
  obtain ⟨hconfig, r⟩ := Stores.of_config hx
  refine ⟨x, events, hx, fun calls hroom => ⟨r.answers_eq ?_, ?_⟩⟩
  · rw [full, hconfig]
    exact hroom
  · intro front c rest _ e he
    obtain ⟨t, r'⟩ := ((Reachable.new hx).after front).exists_stores
    have hcall := r'.call_cases c
    rw [he] at hcall
    have hcall : (x.after front).call c = .error (.rejected e) := hcall
    have hnext : x.after (front ++ [c]) = (x.after front).next c :=
      List.foldl_concat next x c front
    exact ⟨hcall, by rw [hnext, next, hcall]⟩

/-- A replaced value, mixed kinds and the sentinel's key. -/
def mixedHistory : List Call :=
  [.insert [⟨5, 1⟩], .insert [⟨3, 2⟩], .apply [.update ⟨5, 7⟩],
    .apply [.get 5, .remove 3], .remove [minKey], .remove [3],
    .predecessor [4, 6], .items]

theorem history_agrees_two_slots :
    ∃ x events, ofConfig { storeCapacity := 2 } = .ok (x, events) ∧
      x.answers mixedHistory = [.ok .done, .ok .done, .ok (.outcome .applied),
        .error (.rejected { cause := .mixedBatch "get" "remove" 1 }),
        .error (.rejected { cause := .reservedKey "remove" minKey }), .ok .done,
        .ok (.pairs [.sentinel, ⟨5, 7⟩]), .ok (.pairs [⟨5, 7⟩])] := by
  have hc : ({ storeCapacity := 2 } : Config).Valid :=
    ⟨by decide, by decide, by decide, by decide⟩
  obtain ⟨x, events, hx, h⟩ := history_agrees hc
  have hroom : (match ofConfig { storeCapacity := 2 } with
      | .ok (y, _) =>
          decide (∀ a ∈ y.answers mixedHistory,
            a ≠ .error (.aborted (.storeFull 2)))
      | .error _ => false) = true := by decide +kernel
  rw [hx] at hroom
  obtain ⟨answers, hpairs, hanswers⟩ :=
    (h mixedHistory (of_decide_eq_true hroom)).1
  have hreplay : SortedPairs.new.answers mixedHistory =
      some [.ok .done, .ok .done, .ok (.outcome .applied),
        .error { cause := .mixedBatch "get" "remove" 1 },
        .error { cause := .reservedKey "remove" minKey }, .ok .done,
        .ok (.pairs [.sentinel, ⟨5, 7⟩]), .ok (.pairs [⟨5, 7⟩])] := by
    decide +kernel
  obtain rfl := Option.some.inj (hpairs.symm.trans hreplay)
  exact ⟨x, events, hx, hanswers⟩

end Index

end LevelIndex
