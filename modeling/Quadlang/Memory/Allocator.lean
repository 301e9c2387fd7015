-- The allocator: every range of a layout has a cursor, and an allocation takes the next
-- addresses after it. Constants are allocated once each.
import Quadlang.Memory.Cells

namespace Quadlang

/-- A range of the layout and its first free address. The cursor wraps around when the
range ends at the largest address and is full. -/
structure Region extends Slot where
  next : Addr
  deriving DecidableEq, Repr

/-- The number of addresses still free, as a machine word. -/
def Region.left (r : Region) : Int64 := r.high - r.next + 1

/-- A constant and where it stands. -/
structure Constant where
  ty : Ty
  value : Value
  address : Addr
  deriving DecidableEq

/-- The memory of a program under compilation. The newest constant comes first. -/
structure Memory where
  regions : List Region
  constants : List Constant
  deriving DecidableEq

/-! ## Failures -/

/-- Why addresses cannot be allocated. -/
inductive AllocError
  | noRange (ty : Ty) (segment : Segment)
  | badSize (n : Int64)
  | exhausted (segment : Segment) (ty : Ty) (need left : Int64)
  deriving DecidableEq, Repr

namespace AllocError

def category : AllocError → Option Category
  | .exhausted .. => some .addressSpaceExhausted
  | _ => none

/-- What a failed allocation is about. -/
def detail : AllocError → Bytes
  | .noRange ty segment =>
    ascii "no " ++ ty.name ++ ascii " range in " ++ segment.name ++ ascii " segment"
  | .badSize n => ascii "bad allocation size: " ++ Bytes.ofWord n
  | .exhausted segment ty need left =>
    segment.name ++ ascii " " ++ ty.name ++ ascii ": need " ++ Bytes.ofWord need ++
    ascii ", left " ++
      Bytes.ofWord left

def message (e : AllocError) : Bytes := Category.describe e.category e.detail

end AllocError

/-- A constant for which there is no room. -/
structure ConstantError where
  value : Value
  cause : AllocError
  deriving DecidableEq

def ConstantError.message (e : ConstantError) : Bytes :=
  Bytes.within (ascii "constant " ++ e.value.shown) e.cause.message

namespace Memory

/-! ## Allocation -/

/-- A memory with nothing allocated. -/
def ofLayout (l : Layout) : Memory := ⟨l.slots.map fun s => { s with next := s.low }, []⟩

/-- The ranges of a memory. -/
def layout (m : Memory) : Layout := ⟨m.regions.map (·.toSlot)⟩

def region? (m : Memory) (segment : Segment) (ty : Ty) : Option Region :=
  m.regions.find? (·.owns segment ty)

/-- Moves the cursor of a segment and type. -/
def advance (m : Memory) (segment : Segment) (ty : Ty) (n : Int64) : Memory :=
  { m with
    regions := m.regions.map fun r =>
      if r.owns segment ty then { r with next := r.next + n } else r }

/-- Takes `n` consecutive addresses of a type: the first of them, and the memory after. -/
def alloc (m : Memory) (ty : Ty) (segment : Segment) (n : Int64) :
    Except AllocError (Addr × Memory) :=
  match m.region? segment ty with
  | none => .error (.noRange ty segment)
  | some r =>
    if n < 1 then .error (.badSize n)
    else if r.left < n then .error (.exhausted segment ty n r.left)
    else .ok (r.next, m.advance segment ty n)

/-! ## Constants -/

/-- The address of a constant that has one. -/
def constant? (m : Memory) (ty : Ty) (v : Value) : Option Addr :=
  (m.constants.find? fun c => c.ty = ty && c.value.same v).map (·.address)

/-- Takes the address of a constant, a new one unless it has one already. -/
def intern (m : Memory) (ty : Ty) (v : Value) : Except ConstantError (Addr × Memory) :=
  match m.constant? ty v with
  | some a => .ok (a, m)
  | none =>
    match m.alloc ty .globals 1 with
    | .error e => .error ⟨v, e⟩
    | .ok (a, m) => .ok (a, { m with constants := ⟨ty, v, a⟩ :: m.constants })

/-- The constants as cells. -/
def values (m : Memory) : Cells :=
  m.constants.foldr (fun c cells => cells.insert c.address c.value) Cells.empty

/-! ## Laws -/

@[simp]
theorem layout_ofLayout (l : Layout) : (ofLayout l).layout = l := by
  simp [ofLayout, layout, Function.comp_def]

@[simp]
theorem layout_advance (m : Memory) (segment : Segment) (ty : Ty) (n : Int64) :
    (m.advance segment ty n).layout = m.layout := by
  simp only [advance, layout, List.map_map, Layout.mk.injEq, List.map_inj_left]
  intro r _
  simp only [Function.comp_apply]
  split <;> rfl

/-- An allocation moves a cursor and leaves the ranges alone. -/
theorem layout_alloc {m m' : Memory} {ty : Ty} {segment : Segment} {n : Int64} {a : Addr}
    (h : m.alloc ty segment n = .ok (a, m')) : m'.layout = m.layout := by
  grind [alloc, layout_advance]

end Memory

end Quadlang
