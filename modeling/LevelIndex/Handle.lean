/-!
# Node handles

A handle names a node without owning it: it is the number of a slot of the
store, or null. Handles travel as 32-bit words, and the greatest word means
null, so slots are numbered below `Handle.nullRaw`.

Two texts are written: a short one (`#7`, `null`) and a tagged one for the
places where a handle stands inside a larger value (`NodeId(7)`).
-/

namespace LevelIndex

/-- The name of a node: a slot number, or null. -/
inductive Handle where
  | null
  | slot (index : Nat)
deriving DecidableEq

namespace Handle

/-- The word that means null: the greatest of 32 bits. -/
def nullRaw : Nat := 4294967295

/-- The first slot, where the first root of a tree is put. -/
def first : Handle := slot 0

def raw : Handle → Nat
  | null => nullRaw
  | slot i => i

def ofRaw (n : Nat) : Handle :=
  if n = nullRaw then null else slot n

/-- The handle of slot `i`, if slots of that number can be named. -/
def ofIndex? (i : Nat) : Option Handle :=
  if i < nullRaw then some (slot i) else none

def isNull : Handle → Bool
  | null => true
  | slot _ => false

@[simp] theorem raw_ofRaw (n : Nat) : (ofRaw n).raw = n := by
  unfold ofRaw
  split
  · next h => exact h.symm
  · rfl

theorem ofIndex?_eq_some_iff {i : Nat} {h : Handle} :
    ofIndex? i = some h ↔ i < nullRaw ∧ h = slot i := by
  unfold ofIndex?
  split
  · next hi => simp [hi, eq_comm]
  · next hi => simp [hi]

@[simp] theorem isNull_iff {h : Handle} : h.isNull = true ↔ h = null := by
  cases h <;> simp [isNull]

/-- `#7`, or `null`. -/
def text : Handle → String
  | null => "null"
  | slot i => s!"#{i}"

/-- `NodeId(7)`, or `NodeId(null)`. -/
def inspect : Handle → String
  | null => "NodeId(null)"
  | slot i => s!"NodeId({i})"

end Handle

instance : ToString Handle := ⟨Handle.text⟩

end LevelIndex
