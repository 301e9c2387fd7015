-- Memory cells: a finite map from addresses to values, kept in order of the addresses.
import Quadlang.Memory.Layout
import Quadlang.Value
import Std.Data.TreeMap

namespace Quadlang

/-- The cells of a memory that hold a value. -/
abbrev Cells := Std.TreeMap Addr Value

namespace Cells

/-- No cell holds a value. -/
def empty : Cells := ∅

/-- The cells of a list, a later entry in place of an earlier one at the same address. -/
def ofList (entries : List (Addr × Value)) : Cells :=
  entries.foldl (fun cells (a, v) => cells.insert a v) empty

@[simp]
theorem getElem?_write (cells : Cells) (a b : Addr) (v : Value) :
    (cells.insert a v)[b]? = if a = b then some v else cells[b]? := by
  simp [Std.TreeMap.getElem?_insert]

end Cells

end Quadlang
