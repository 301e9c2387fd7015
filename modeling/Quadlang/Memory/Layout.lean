-- The memory layout: which range of addresses belongs to which segment and type. The
-- compiler allocates from the ranges, and the machine finds the owner of an address.
import Quadlang.Ty

namespace Quadlang

abbrev Addr := Int64

/-- A part of memory by its use: constants and other globals, variables of the program,
return slots of functions, temporaries, and variables of functions. Any other number may
stand where a segment is asked for; it names none. -/
inductive Segment
  | globals
  | locals
  | stack
  | temps
  | functions
  | other (code : Int64)
  deriving DecidableEq, Repr

namespace Segment

/-- All the segments that have a name, in the order of the layout. -/
def named : List Segment := [.globals, .locals, .stack, .temps, .functions]

/-- The segment with a given number. -/
def ofCode (code : Int64) : Segment :=
  if code < 0 then .other code else (named[code.toNatClampNeg]?).getD (.other code)

/-- How a segment is written in listings and messages. -/
def name : Segment → Bytes
  | .globals => ascii "global"
  | .locals => ascii "local"
  | .stack => ascii "stack"
  | .temps => ascii "temp"
  | .functions => ascii "function"
  | .other code => ascii "segment(" ++ Bytes.ofWord code ++ ascii ")"

end Segment

/-! ## Slots -/

/-- A range of addresses, both ends included, and its owner. -/
structure Slot where
  segment : Segment
  ty : Ty
  low : Addr
  high : Addr
  deriving DecidableEq, Repr

namespace Slot

/-- Whether an address lies in the range. -/
def contains (s : Slot) (a : Addr) : Bool := s.low ≤ a && a ≤ s.high

/-- Whether the range belongs to a segment and type. -/
def owns (s : Slot) (segment : Segment) (ty : Ty) : Bool := s.segment = segment && s.ty = ty

/-- The number of addresses in the range, as a machine word. -/
def size (s : Slot) : Int64 := s.high - s.low + 1

end Slot

/-! ## Layouts -/

/-- The ranges of a memory. A segment and type own at most one of them. -/
structure Layout where
  slots : List Slot
  deriving DecidableEq, Repr

namespace Layout

/-- Gives a range to its owner, in place of the one it had. -/
def insert (l : Layout) (s : Slot) : Layout :=
  if l.slots.any (·.owns s.segment s.ty) then
    ⟨l.slots.map fun t => if t.owns s.segment s.ty then s else t⟩
  else ⟨l.slots ++ [s]⟩

/-- The layout of some ranges, a later one in place of an earlier one of the same owner. -/
def ofSlots (slots : List Slot) : Layout := slots.foldl insert ⟨[]⟩

/-- The types that have a range in a segment. Return slots of functions without a value
need one of their own. -/
def typesOf : Segment → List Ty
  | .locals | .stack => Ty.primitives ++ [.void]
  | _ => Ty.primitives

/-- The layout of compiled programs: ranges of five thousand addresses back to back, the
first one from address five thousand on. -/
def standard : Layout :=
  let owners := Segment.named.flatMap fun segment => (typesOf segment).map fun ty => (segment, ty)
  ⟨owners.zipIdx.map fun ((segment, ty), i) =>
    { segment, ty, low := 5000 + 5000 * Int64.ofNat i, high := 9999 + 5000 * Int64.ofNat i }⟩

def range? (l : Layout) (segment : Segment) (ty : Ty) : Option Slot :=
  l.slots.find? (·.owns segment ty)

/-- The range that holds an address. -/
def locate? (l : Layout) (a : Addr) : Option Slot := l.slots.find? (·.contains a)

/-- The number of addresses in the widest range. -/
def widest (l : Layout) : Int64 :=
  l.slots.foldl (fun n s => if n < s.size then s.size else n) 0

end Layout

/-! ## Tables -/

/-- The ranges of a layout in ascending order of their addresses, for repeated lookups. -/
structure Table where
  slots : Array Slot

def Layout.table (l : Layout) : Table := ⟨(l.slots.mergeSort fun s t => s.low ≤ t.low).toArray⟩

namespace Table

/-- The first range between positions `start` and `stop` that ends at or after an address,
or `stop` if there is none. The middle range decides which half to look in. -/
def search (t : Table) (a : Addr) (start stop : Nat) (within : stop ≤ t.slots.size) : Nat :=
  if h : start < stop then
    let middle := (start + stop) / 2
    if a ≤ t.slots[middle].high then search t a start middle (by omega)
    else search t a (middle + 1) stop within
  else start
termination_by stop - start

/-- The range that holds an address. -/
def locate? (t : Table) (a : Addr) : Option Slot :=
  match t.slots[t.search a 0 t.slots.size (Nat.le_refl _)]? with
  | some s => if s.low ≤ a then some s else none
  | none => none

end Table

end Quadlang
