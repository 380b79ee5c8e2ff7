import LevelIndex.Node.Basic

/-!
# The text of a node

A fault that concerns a node shows it whole: one line with its links, then one
indented line for each cell. Every line ends in a newline, the last included.
-/

namespace LevelIndex

/-- What a dump writes after the key of a cell. -/
def Entry.label : Entry → String
  | .null => "null"
  | .value v => s!"value={v}"
  | .child h => s!"child={h}"

namespace Node

def cellLine (slot : Nat) (c : Cell) : String :=
  s!"  [{slot}] key={c.key} {c.entry.label}\n"

def dump (n : Node) : String :=
  s!"height={n.height} size={n.size} parent={n.parent} right={n.right}\n"
    ++ String.join (n.cells.zipIdx.map fun (c, slot) => cellLine slot c)

end Node

/-- The keys of a node in brackets, as reports list them. -/
def bracketed (keys : List Key) : String :=
  "[" ++ ", ".intercalate (keys.map toString) ++ "]"

end LevelIndex
