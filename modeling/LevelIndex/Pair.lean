/-!
# Keys, values and pairs

Keys and values are 64-bit signed words. The least key is taken: it belongs to
the *sentinel*, a pair that sits below everything an index stores, so that
"the greatest pair not above `k`" has an answer for every key `k`. The same
word is the value that the sentinel reports.

Main statement: `minKey_le`, no key lies below the sentinel's.
-/

namespace LevelIndex

abbrev Key := Int64

abbrev Value := Int64

/-- The least key, reserved for the sentinel. -/
def minKey : Key := Int64.minValue

/-- The value reported where none is stored. -/
def nullValue : Value := Int64.minValue

theorem minKey_le (k : Key) : minKey ≤ k := Int64.minValue_le k

/-- A key with the value stored under it. -/
structure Pair where
  key : Key
  value : Value
deriving DecidableEq

/-- The answer of a query below every stored key. -/
def Pair.sentinel : Pair := ⟨minKey, nullValue⟩

end LevelIndex
