-- Expressions in the machine: outside of calls the code of an expression works out the value that
-- the expression has in the source. Where the source comes to a mishap, the machine fails, then or
-- as soon as the value is used. On the way only new temporaries are written.
import Mathlib.Data.List.Nodup
import Mathlib.Data.List.Pairwise
import Quadlang.Proofs.Machine.Soundness
import Quadlang.Proofs.Program.Meaning

namespace Quadlang

open Source Success

variable {r x y : Operand} {i j : Nat} {mem mem' : Memory} {q : Quad} {cause : RunFault} {a : Addr}
  {ty : Ty} {c : Constant} {p : Placement} {v : Value} {ds : List Dim} {P : Machine → Prop}
  {is : List Int64} {segment : Segment} {n : Int64} {op : BinaryOp} {d : Dim} {code : List Quad}

/-! ## Runs -/

def Machine.Reaches (im : Image) (m m' : Machine) : Prop := ∃ n, ∀ k, m.run im (n + k) = m'.run im k

/-- A machine comes to an instruction that fails, with something written so far. -/
def Machine.Breaks (im : Image) (m : Machine) (written : Bytes) : Prop :=
  ∃ n ip op cause m', (∀ k, m.run im (n + k) = (.failed ip op cause, m')) ∧ m'.written = written

section

variable {im : Image} {quads : List Quad} {m m₁ m₂ : Machine}

theorem Machine.Reaches.refl (im : Image) (m : Machine) : m.Reaches im m :=
  ⟨0, fun k => by rw [Nat.zero_add]⟩

theorem Machine.Reaches.trans (h : m.Reaches im m₁) (h' : m₁.Reaches im m₂) : m.Reaches im m₂ := by
  obtain ⟨n, hn⟩ := h
  obtain ⟨n', hn'⟩ := h'
  refine ⟨n + n', fun k => ?_⟩
  rw [Nat.add_assoc, hn, hn']

theorem Machine.Reaches.breaks (h : m.Reaches im m₁) {written : Bytes} (h' : m₁.Breaks im written) :
    m.Breaks im written := by
  obtain ⟨n, hn⟩ := h
  obtain ⟨n', ip, op, cause, m', hn', hwritten⟩ := h'
  refine ⟨n + n', ip, op, cause, m', fun k => ?_, hwritten⟩
  rw [Nat.add_assoc, hn, hn']

section

variable (him : im.Standard quads) (hip : m.ip = i)

include him hip

theorem Machine.isDone_of_lt (hlt : i < quads.length) : m.isDone im = false := by
  have hsize : im.quads.size = quads.length := by rw [← him.1, Array.length_toList]
  apply decide_eq_false
  omega

section

variable (hq : quads[i]? = some q)

include hq

theorem Machine.fetch?_of_quad : im.fetch? m.ip = some q := by
  rw [hip]
  show im.quads[i]? = some q
  rw [← Array.getElem?_toList, him.1]
  exact hq

theorem Machine.run_of_ok (h : Execute.exec im q m.advance = .ok () m₁) (k : Nat) :
    m.run im (k + 1) = m₁.run im k := by
  have hdone := Machine.isDone_of_lt him hip (List.getElem?_eq_some_iff.1 hq).1
  have hstep : m.step im = (none, m₁) := by
    unfold Machine.step
    simp only [Machine.fetch?_of_quad him hip hq, h]
  simp [Machine.run, hdone, hstep]

theorem Machine.reaches_step (h : Execute.exec im q m.advance = .ok () m₁) : m.Reaches im m₁ := by
  refine ⟨1, fun k => ?_⟩
  rw [Nat.add_comm, Machine.run_of_ok him hip hq h]

theorem Machine.breaks_step (h : Execute.exec im q m.advance = .error cause m₁) :
    m.Breaks im m₁.written := by
  have hdone := Machine.isDone_of_lt him hip (List.getElem?_eq_some_iff.1 hq).1
  have hstep : m.step im = (some (.failed m.ip q.op cause), m₁) := by
    unfold Machine.step
    simp only [Machine.fetch?_of_quad him hip hq, h]
  refine ⟨1, m.ip, q.op, cause, m₁, fun k => ?_, rfl⟩
  rw [Nat.add_comm]
  simp [Machine.run, hdone, hstep]

/-- An instruction that fails at once leaves everything as it is. -/
theorem Machine.breaks_here (h : Execute.exec im q m.advance = .error cause m.advance) :
    m.Breaks im m.written := by
  have hbreaks := Machine.breaks_step him hip hq h
  exact hbreaks

end

end

end

/-! ## What evaluation leaves alone -/

/-- An address is no temporary, or one that is taken. -/
def Memory.Settled (mem : Memory) (a : Addr) : Prop :=
  ∀ ty, Layout.standard.Holds .temps ty a → mem.Taken .temps ty a

theorem Memory.Settled.mono (h : mem.Settled a) (hext : mem.Extends mem') :
    mem'.Settled a := fun ty hholds => hext.taken (h ty hholds)

/-- What is stored elsewhere is no temporary. -/
theorem Memory.settled_of_holds (h : Layout.standard.Holds segment ty a)
    (hsegment : segment ≠ .temps) : mem.Settled a := by
  intro ty' hholds
  exact absurd (Layout.standard_holds_inj h hholds).1 hsegment

theorem Memory.Allocated.holds_first (h : mem.Allocated segment ty n a mem')
    (hlayout : mem.layout = Layout.standard) : Layout.standard.Holds segment ty a := by
  rw [← hlayout]
  exact h.holds h.first

/-- A machine has gone on and has written temporaries only, none of those taken before. -/
structure Machine.Evaluated (mem : Memory) (m m' : Machine) : Prop where
  frames : m'.frames = m.frames
  room : m'.room = m.room
  input : m'.input = m.input
  output : m'.output = m.output
  globals : ∀ a, mem.Settled a → m'.globals[a]? = m.globals[a]?

section

variable {mem mem₁ : Memory} {m m₁ m₂ : Machine}

theorem Machine.Evaluated.refl (mem : Memory) (m : Machine) : m.Evaluated mem m :=
  ⟨rfl, rfl, rfl, rfl, fun _ _ => rfl⟩

theorem Machine.Evaluated.trans (h : m.Evaluated mem m₁) (h' : m₁.Evaluated mem₁ m₂)
    (hext : mem.Extends mem₁) : m.Evaluated mem m₂ where
  frames := h'.frames.trans h.frames
  room := h'.room.trans h.room
  input := h'.input.trans h.input
  output := h'.output.trans h.output
  globals := fun a ha => (h'.globals a (ha.mono hext)).trans (h.globals a ha)

theorem Machine.Evaluated.advance (mem : Memory) (m : Machine) : m.Evaluated mem m.advance :=
  ⟨rfl, rfl, rfl, rfl, fun _ _ => rfl⟩

theorem Machine.Evaluated.written (h : m.Evaluated mem m₁) : m₁.written = m.written := by
  unfold Machine.written
  rw [h.output]

theorem Machine.get?_of_frames (h : m.frames = []) (a : Addr) : m.get? a = m.globals[a]? := by
  unfold Machine.get?
  rw [h]
  rfl

/-- Outside of calls every cell is one of the program. -/
theorem Machine.put_of_frames (h : m.frames = []) (segment : Segment) (a : Addr) (v : Value) :
    m.put segment a v = { m with globals := m.globals.insert a v } := by
  unfold Machine.put Machine.setCurrent Machine.setGlobal
  rw [h]
  cases segment <;> rfl

theorem Memory.Extends.mem_constants (h : mem.Extends mem₁) (hc : c ∈ mem.constants) :
    c ∈ mem₁.constants := by
  obtain ⟨new, hnew⟩ := h.constants
  rw [hnew]
  exact List.mem_append_right new hc

end

/-! ## What a machine mirrors -/

def Placement.element (p : Placement) (is : List Int64) : Addr :=
  .ofInt (p.address.toInt + Dim.offset p.dims is)

/-- Outside of calls a machine holds the constants and what the variables hold in the source, has
the same input left and has written the same. -/
structure Machine.Mirrors (ps : List Placement) (last : Memory) (s : State) (m : Machine) :
    Prop where
  frames : m.frames = []
  room : m.room = none
  input : m.input = s.input
  written : m.written = s.output
  constants : ∀ c ∈ last.constants, m.globals[c.address]? = some c.value
  elements : ∀ p ∈ ps, ∀ is, Quadlang.Within p.dims is →
    m.globals[p.element is]? = s.store ⟨p.path, is⟩
  typed : StoreTyped ps s.store

/-- Where the code of a main body runs: the names lead to variables that have their places, apart
from one another, and the constants are those of the last memory. -/
structure Surroundings (im : Image) (quads : List Quad) (names : Names) (ps : List Placement)
    (fs : List (Callee × List Param)) (last : Memory) : Prop where
  image : im.Standard quads
  sound : names.Sound ps [] fs
  paths : (ps.map (·.path)).Nodup
  apart : ps.Pairwise Placement.Apart
  shaped : ∀ p ∈ ps, p.Shaped
  stored : ∀ p ∈ ps, ∀ a, InBlock p.address p.size a → Layout.standard.Holds .locals p.ty a
  valid : last.Valid
  layout : last.layout = Layout.standard
  literals : ∀ c ∈ last.constants, Literal c.ty c.value

section

variable {im : Image} {quads : List Quad} {names : Names} {ps : List Placement}
  {fs : List (Callee × List Param)} {last mem : Memory} {s : State} {m m' : Machine}

section

variable (h : Surroundings im quads names ps fs last)

include h

theorem Surroundings.holds_constant (hc : c ∈ last.constants) :
    Layout.standard.Holds .globals c.ty c.address := by
  rw [← h.layout]
  exact h.valid.holds_of_taken (h.valid.constants c hc)

theorem Surroundings.layout_of_extends (hext : mem.Extends last) :
    mem.layout = Layout.standard := hext.layout.symm.trans h.layout

theorem Surroundings.element_toInt (hp : p ∈ ps)
    (his : Within p.dims is) : (p.element is).toInt = p.address.toInt + Dim.offset p.dims is := by
  have hstrided := (h.shaped p hp).2
  obtain ⟨hlow, hhigh⟩ := block_bounds hstrided.positive fun a h₁ h₂ => h.stored p hp a ⟨h₁, h₂⟩
  have hoffset := hstrided.offset_bounds his
  exact Int64.toInt_ofInt_of_le (by omega) (by omega)

theorem Surroundings.element_inBlock (hp : p ∈ ps)
    (his : Within p.dims is) : InBlock p.address p.size (p.element is) := by
  have hoffset := (h.shaped p hp).2.offset_bounds his
  have hvalue := h.element_toInt hp his
  constructor
  · omega
  · omega

theorem Surroundings.element_holds (hp : p ∈ ps)
    (his : Within p.dims is) : Layout.standard.Holds .locals p.ty (p.element is) :=
  h.stored p hp _ (h.element_inBlock hp his)

/-- Every element has an address of its own. -/
theorem Surroundings.element_inj {q : Placement}
    (hp : p ∈ ps) (hq : q ∈ ps) {js : List Int64} (his : Within p.dims is) (hjs : Within q.dims js)
    (heq : p.element is = q.element js) : p = q ∧ is = js := by
  have hsame : p = q := by
    by_contra hne
    have : Std.Symm Placement.Apart := ⟨fun _ _ hapart a ha => hapart a ha.symm⟩
    apply h.apart.forall hp hq hne (p.element is)
    refine ⟨h.element_inBlock hp his, ?_⟩
    rw [heq]
    exact h.element_inBlock hq hjs
  subst hsame
  refine ⟨rfl, (h.shaped p hp).2.offset_inj his hjs ?_⟩
  have h₁ := h.element_toInt hp his
  have h₂ := h.element_toInt hp hjs
  rw [heq] at h₁
  omega

end

theorem Machine.Mirrors.evaluated (h : m.Mirrors ps last s)
    (hs : Surroundings im quads names ps fs last)
    (hm : m.Evaluated mem m') : m'.Mirrors ps last s where
  frames := hm.frames.trans h.frames
  room := hm.room.trans h.room
  input := hm.input.trans h.input
  written := hm.written.trans h.written
  constants := by
    intro c hc
    rw [hm.globals c.address (Memory.settled_of_holds (hs.holds_constant hc) (by decide))]
    exact h.constants c hc
  elements := by
    intro p hp is his
    rw [hm.globals _ (Memory.settled_of_holds (hs.element_holds hp his) (by decide))]
    exact h.elements p hp is his
  typed := h.typed

/-- An element gets a value in the machine and in the source. -/
theorem Machine.Mirrors.put (h : m.Mirrors ps last s) (hs : Surroundings im quads names ps fs last)
    (hp : p ∈ ps) (his : Quadlang.Within p.dims is) (hv : v.HasType p.ty) :
    Machine.Mirrors ps last
      { s with store := fun e => if e = ⟨p.path, is⟩ then some v else s.store e }
      { m with globals := m.globals.insert (p.element is) v } where
  frames := h.frames
  room := h.room
  input := h.input
  written := h.written
  constants := by
    intro c hc
    have hne : p.element is ≠ c.address := by
      intro heq
      have hconst := hs.holds_constant hc
      rw [← heq] at hconst
      exact absurd (Layout.standard_holds_inj hconst (hs.element_holds hp his)).1 (by decide)
    simp only [Cells.getElem?_write, if_neg hne]
    exact h.constants c hc
  elements := by
    intro q hq js hjs
    simp only [Cells.getElem?_write]
    by_cases heq : p.element is = q.element js
    · obtain ⟨rfl, rfl⟩ := hs.element_inj hp hq his hjs heq
      rw [if_pos rfl, if_pos rfl]
    · have hne : (⟨q.path, js⟩ : Element) ≠ ⟨p.path, is⟩ := by
        intro hsame
        obtain ⟨hpath, rfl⟩ := Element.mk.inj hsame
        apply heq
        rw [List.inj_on_of_nodup_map hs.paths hq hp hpath]
      rw [if_neg heq, if_neg hne]
      exact h.elements q hq js hjs
  typed := by
    intro q hq js w hw
    by_cases hsame : (⟨q.path, js⟩ : Element) = ⟨p.path, is⟩
    · simp only [hsame, if_true, Option.some.injEq] at hw
      rw [← hw, List.inj_on_of_nodup_map hs.paths hq hp (Element.mk.inj hsame).1]
      exact hv
    · simp only [if_neg hsame] at hw
      exact h.typed q hq js w hw

end

/-! ## Instructions -/

section

variable {im : Image} {quads : List Quad} {m : Machine}

namespace Execute

theorem load_cell_of_get? (h : m.get? a = some v) : load (.cell a) m = .ok v m := by
  rw [load_cell]
  exact cell_of_get? h

theorem exec_binary_eq (op : BinaryOp) (him : im.Standard quads)
    (ha : Layout.standard.Holds .temps ty a) {w : Value} (hx : load x m = .ok v m)
    (hy : load y m = .ok w m) :
    exec im { op := op.opcode, arg1 := x, arg2 := y, res := .cell a } m =
      match Value.binary op v w with
      | .ok u => .ok () (m.put .temps a (u.convert ty))
      | .error cause => .error cause m := by
  rw [exec_binary]
  unfold binary
  rw [bind_of_ok hx, bind_of_ok hy, bind_of_ok (address_cell a m)]
  cases Value.binary op v w with
  | error cause => rfl
  | ok u =>
    rw [bind_of_ok (show lift (.ok u) m = .ok u m from rfl)]
    unfold storeAs
    rw [him.typeOf ha, store_eq him ha]

theorem exec_binary_left (hx : load x m = .error cause m) :
    exec im { op := op.opcode, arg1 := x, arg2 := y, res := r } m = .error cause m := by
  rw [exec_binary]
  exact bind_of_error hx

theorem exec_binary_right (hx : load x m = .ok v m) (hy : load y m = .error cause m) :
    exec im { op := op.opcode, arg1 := x, arg2 := y, res := r } m = .error cause m := by
  rw [exec_binary]
  exact (bind_of_ok hx).trans (bind_of_error hy)

theorem exec_unary_eq (him : im.Standard quads) {op : UnaryOp}
    (ha : Layout.standard.Holds .temps ty a)
    {u : Value} (hx : load x m = .ok v m) (hu : Value.unary op v = .ok u) :
    exec im { op := op.opcode, arg1 := x, res := .cell a } m = .ok () (m.put .temps a u) := by
  rw [exec_unary]
  unfold unary
  rw [bind_of_ok hx, bind_of_ok (address_cell a m), hu,
    bind_of_ok (show lift (.ok u) m = .ok u m from rfl), store_eq him ha]

theorem exec_unary_error {op : UnaryOp} (hx : load x m = .error cause m) :
    exec im { op := op.opcode, arg1 := x, res := r } m = .error cause m := by
  rw [exec_unary]
  exact bind_of_error hx

theorem exec_check_eq (im : Image) (d : Dim) {i : Int64} (hx : load x m = .ok (.int i) m) :
    exec im (d.check x) m = if i < 0 ∨ d.size ≤ i then .error (.outOfBounds i d.size) m
      else .ok () { m with indices := ⟨i, d.stride⟩ :: m.indices } := by
  show ver x (Operand.literal d.size).word (Operand.literal d.stride).word m = _
  unfold ver
  rw [Operand.word_literal, Operand.word_literal, bind_of_ok hx]
  by_cases hout : i < 0 ∨ d.size ≤ i
  · simp only [if_pos hout]
    rfl
  · simp only [if_neg hout]
    rfl

/-- The indices of an element are those checked last. -/
theorem exec_element_eq (him : im.Standard quads) {base p : Addr}
    (hp : Layout.standard.Holds .temps .int p) (hds : ds ≠ []) {is rest : List Index}
    (hlength : is.length = ds.length) (hindices : m.indices = is.reverse ++ rest) :
    exec im (elementQuad ds.length base p) m =
      .ok () (Machine.put { m with indices := rest } .temps p
        (.int (is.foldl (fun a i => a + i.index * i.stride) base))) := by
  show addDim im ds.length (Operand.literal base).word (Operand.cell p).word m = _
  have hlength' : is.reverse.length = ds.length := by rw [List.length_reverse, hlength]
  have henough : ds.length ≤ m.indices.length := by
    rw [hindices, List.length_append]
    omega
  rw [Operand.word_literal, Operand.word_cell, addDim_eq (List.length_pos_iff.2 hds) henough,
    hindices, ← hlength', List.take_left, List.drop_left, List.reverse_reverse, store_eq him hp]

end Execute

end

/-! ## Going on -/

/-- A machine evaluates something up to a position. -/
def Machine.Goes (im : Image) (m : Machine) (position : Nat) (mem : Memory) (P : Machine → Prop) :
    Prop :=
  ∃ m', m.Reaches im m' ∧ m'.ip = position ∧ m.Evaluated mem m' ∧ P m'

section

variable {im : Image} {quads : List Quad} {mem mem₁ mem' : Memory} {m m₁ : Machine} {i j : Nat}
  {P Q : Machine → Prop}

theorem Machine.Goes.trans (h : m.Goes im i mem P) (hext : mem.Extends mem₁)
    (h' : ∀ m' : Machine, m'.ip = i → m.Evaluated mem m' → P m' → m'.Goes im j mem₁ Q) :
    m.Goes im j mem Q := by
  obtain ⟨m₁, hreaches, hip, heval, hP⟩ := h
  obtain ⟨m₂, hreaches', hip', heval', hQ⟩ := h' m₁ hip heval hP
  exact ⟨m₂, hreaches.trans hreaches', hip', heval.trans heval' hext, hQ⟩

theorem Machine.Goes.breaks (h : m.Goes im i mem P)
    (h' : ∀ m' : Machine, m'.ip = i → m.Evaluated mem m' → P m' → m'.Breaks im m'.written) :
    m.Breaks im m.written := by
  obtain ⟨m₁, hreaches, hip, heval, hP⟩ := h
  rw [← heval.written]
  exact hreaches.breaks (h' m₁ hip heval hP)

theorem Machine.goes_fill (him : im.Standard quads) (halloc : mem.Allocated .temps ty 1 a mem')
    (hlayout : mem.layout = Layout.standard) (hframes : m.frames = []) (hip : m.ip = i)
    (hq : quads[i]? = some q) (hm₁ : m.Evaluated mem m₁) (hip₁ : m₁.ip = m.ip + 1)
    (h : Execute.exec im q m.advance = .ok () (m₁.put .temps a v)) :
    m.Goes im (i + 1) mem fun m' =>
      m'.indices = m₁.indices ∧ ∀ m'', m'.Evaluated mem' m'' → m''.get? a = some v := by
  have hholds := halloc.holds_first hlayout
  rw [Machine.put_of_frames (hm₁.frames.trans hframes)] at h
  refine ⟨_, Machine.reaches_step him hip hq h, ?_, ?_, rfl, ?_⟩
  · show m₁.ip = _
    omega
  · refine ⟨hm₁.frames, hm₁.room, hm₁.input, hm₁.output, fun b hb => ?_⟩
    have hne : a ≠ b := by
      rintro rfl
      exact halloc.fresh halloc.first (hb ty hholds)
    simp only [Cells.getElem?_write, if_neg hne]
    exact hm₁.globals b hb
  · intro m'' heval
    have hsettled : mem'.Settled a := by
      intro ty' hholds'
      obtain ⟨-, rfl⟩ := Layout.standard_holds_inj hholds hholds'
      exact halloc.taken.2 (.inr ⟨rfl, rfl, halloc.first⟩)
    rw [Machine.get?_of_frames (heval.frames.trans (hm₁.frames.trans hframes)),
      heval.globals a hsettled]
    simp only [Cells.getElem?_write, if_true]

end

/-! ## Operands -/

/-- An operand has a value, or no use of it succeeds. -/
def Loads (x : Operand) (m : Machine) : Except Mishap Value → Prop
  | .ok v => Execute.load x m = .ok v m
  | .error _ => ∃ cause, Execute.load x m = .error cause m

/-- A machine comes to a position where an operand has a value, also after further evaluations, or
it fails on the way to a mishap. -/
def Machine.Arrives (im : Image) (m : Machine) (position : Nat) (mem mem' : Memory) (x : Operand)
    (r : Except Mishap Value) : Prop :=
  (m.Goes im position mem fun m' =>
    m'.indices = m.indices ∧ ∀ m'', m'.Evaluated mem' m'' → Loads x m'' r) ∨
    (∃ e, r = .error e) ∧ m.Breaks im m.written

/-- A machine comes to a position where it has checked some indices, or it fails. -/
def Machine.Indexes (im : Image) (m : Machine) (position : Nat) (mem : Memory) (ds : List Dim) :
    Except Mishap (List Int64) → Prop
  | .ok is => m.Goes im position mem fun m' =>
    ∃ checked, m'.indices = checked.reverse ++ m.indices ∧ Checked checked ds ∧
    checked.map (·.index) = is
  | .error _ => m.Breaks im m.written

/-- A machine comes to a position where an operand names an element, also after further evaluations,
or it fails. -/
def Machine.Locates (im : Image) (m : Machine) (position : Nat) (mem mem' : Memory) (x : Operand)
    (p : Placement) : Except Mishap (List Int64) → Prop
  | .ok is => m.Goes im position mem fun m' => m'.indices = m.indices ∧
    ∀ m'', m'.Evaluated mem' m'' → Execute.address x m'' = .ok (p.element is) m''
  | .error _ => m.Breaks im m.written

section

variable {im : Image} {quads : List Quad} {names : Names} {ps : List Placement}
  {fs : List (Callee × List Param)} {last mem mem₁ mem' : Memory} {s : State}
  {m : Machine} {i : Nat}

/-- A value that comes to a mishap makes the instruction fail that uses it. -/
theorem Machine.Arrives.breaks (him : im.Standard quads) {e : Mishap}
    (h : m.Arrives im i mem mem' x (.error e)) (hq : quads[i]? = some q)
    (hfails : ∀ m' cause, Execute.load x m' = .error cause m' →
      Execute.exec im q m' = .error cause m') :
    m.Breaks im m.written := by
  rcases h with h | ⟨-, h⟩
  · refine h.breaks fun m' hip _ hloads => ?_
    obtain ⟨cause, hload⟩ := hloads.2 m'.advance (.advance mem' m')
    exact Machine.breaks_here him hip hq (hfails m'.advance cause hload)
  · exact h

/-- A variable that is no array is found without code. -/
theorem Machine.locates_variable (hip : m.ip = i) (p : Placement) :
    m.Locates im i mem mem (.cell p.address) p (.ok []) := by
  refine ⟨m, .refl im m, hip, .refl mem m, rfl, fun m'' _ => ?_⟩
  have helement : p.element [] = p.address := by
    unfold Placement.element
    simp [Dim.offset]
  rw [helement]
  exact Execute.address_cell p.address m''

section

variable (hs : Surroundings im quads names ps fs last)

include hs

/-- From its indices the machine works out the address of an element. -/
theorem Machine.Indexes.locates (hp : p ∈ ps)
    (hdims : p.dims ≠ []) (hframes : m.frames = []) {r : Except Mishap (List Int64)}
    (h : m.Indexes im i mem p.dims r) {pointer : Addr} (hext : mem.Extends mem₁)
    (halloc : mem₁.Allocated .temps .int 1 pointer mem') (hlayout : mem₁.layout = Layout.standard)
    (hq : quads[i]? = some (elementQuad p.dims.length p.address pointer)) :
    m.Locates im (i + 1) mem mem' (.pointer pointer) p r := by
  cases r with
  | error e => exact h
  | ok is =>
    refine h.trans hext fun m₁ hip heval hm₁ => ?_
    obtain ⟨checked, hindices, hchecked, his⟩ := hm₁
    have hholds := halloc.holds_first hlayout
    have heval₁ : m₁.Evaluated mem₁ { m₁.advance with indices := m.indices } :=
      ⟨rfl, rfl, rfl, rfl, fun _ _ => rfl⟩
    obtain ⟨m₂, hreaches, hip₂, heval₂, hindices₂, hget⟩ :=
      Machine.goes_fill hs.image halloc hlayout
      (heval.frames.trans hframes) hip hq heval₁ rfl
      (Execute.exec_element_eq hs.image hholds hdims hchecked.length_eq hindices)
    refine ⟨m₂, hreaches, hip₂, heval₂, hindices₂, fun m'' heval'' => ?_⟩
    have haddress : checked.foldl (fun a i => a + i.index * i.stride) p.address = p.element is := by
      have hstrided := (hs.shaped p hp).2
      obtain ⟨hlow, hhigh⟩ := block_bounds hstrided.positive fun a h₁ h₂ =>
        hs.stored p hp a ⟨h₁, h₂⟩
      have hsum := hchecked.foldl_eq hstrided hlow hhigh
      rw [his] at hsum
      unfold Placement.element
      rw [← hsum, Int64.ofInt_toInt]
    rw [← haddress]
    exact Execute.address_pointer (hget m'' heval'')

/-- The value of a variable is what the element holds. -/
theorem Machine.Locates.arrives (hp : p ∈ ps)
    {r : Except Mishap (List Int64)} (h : m.Locates im i mem mem' x p r)
    (hwithin : Sensible (Quadlang.Within p.dims) r) (hm : m.Mirrors ps last s)
    (hload : ∀ m', Execute.load x m' = (Execute.address x >>= Execute.cell) m') :
    m.Arrives im i mem mem' x (r >>= fun is => s.store.fetch ⟨p.path, is⟩) := by
  cases r with
  | error e => exact .inr ⟨⟨e, rfl⟩, h⟩
  | ok is =>
    obtain ⟨m₁, hreaches, hip, heval, hindices, haddress⟩ := h
    refine .inl ⟨m₁, hreaches, hip, heval, hindices, fun m'' heval'' => ?_⟩
    have hmirrors := (hm.evaluated hs heval).evaluated hs heval''
    have hget : m''.get? (p.element is) = s.store ⟨p.path, is⟩ := by
      rw [Machine.get?_of_frames hmirrors.frames]
      exact hmirrors.elements p hp is hwithin
    have hcell := (hload m'').trans (bind_of_ok (haddress m'' heval''))
    show Loads x m'' (s.store.fetch ⟨p.path, is⟩)
    unfold Store.fetch
    cases hstore : s.store ⟨p.path, is⟩ with
    | some v => exact hcell.trans (Execute.cell_of_get? (hget.trans hstore))
    | none => exact ⟨_, hcell.trans (Execute.cell_of_none (hget.trans hstore))⟩

theorem Machine.arrives_variable (hp : p ∈ ps)
    (hdims : p.dims = []) (hip : m.ip = i) (hm : m.Mirrors ps last s) :
    m.Arrives im i mem mem (.cell p.address) (s.store.fetch ⟨p.path, []⟩) := by
  have hlocates : m.Locates im i mem mem (.cell p.address) p (.ok []) :=
    Machine.locates_variable hip p
  have hwithin : Quadlang.Within p.dims [] := by
    rw [hdims]
    exact .nil
  exact hlocates.arrives hs hp hwithin hm fun m' => rfl

theorem Machine.arrives_constant (hm : m.Mirrors ps last s) (hip : m.ip = i)
    (hc : c ∈ last.constants) :
    m.Arrives im i mem mem' (.cell c.address) (.ok c.value) := by
  refine .inl ⟨m, .refl im m, hip, .refl mem m, rfl, fun m'' heval => ?_⟩
  have hmirrors := hm.evaluated hs heval
  apply Execute.load_cell_of_get?
  rw [Machine.get?_of_frames hmirrors.frames]
  exact hmirrors.constants c hc

end

theorem Machine.Goes.fill (him : im.Standard quads) (h : m.Goes im i mem P)
    (hindices : ∀ m' : Machine, P m' → m'.indices = m.indices) (hext : mem.Extends mem₁)
    (halloc : mem₁.Allocated .temps ty 1 a mem') (hlayout : mem₁.layout = Layout.standard)
    (hframes : m.frames = []) (hq : quads[i]? = some q)
    (hexec : ∀ m' : Machine, P m' → Execute.exec im q m'.advance = .ok ()
      (m'.advance.put .temps a v)) :
    m.Arrives im (i + 1) mem mem' (.cell a) (.ok v) := by
  refine .inl (h.trans hext fun m₁ hip heval hm₁ => ?_)
  obtain ⟨m₂, hreaches, hip₂, heval₂, hindices₂, hget⟩ := Machine.goes_fill him halloc hlayout
    (heval.frames.trans hframes) hip hq (.advance mem₁ m₁) rfl (hexec m₁ hm₁)
  refine ⟨m₂, hreaches, hip₂, heval₂, hindices₂.trans (hindices m₁ hm₁), fun m'' heval'' => ?_⟩
  exact Execute.load_cell_of_get? (hget m'' heval'')

theorem Machine.Arrives.unary (hs : Surroundings im quads names ps fs last) {op : UnaryOp}
    {x : Operand} {tx ty : Ty} {r : Except Mishap Value} (h : m.Arrives im i mem mem₁ x r)
    (hr : Sensible (·.HasType tx) r) (hty : Typing.unary op tx = some ty) (hext : mem.Extends mem₁)
    {a : Addr} (halloc : mem₁.Allocated .temps ty 1 a mem')
    (hlayout : mem₁.layout = Layout.standard) (hframes : m.frames = [])
    (hq : quads[i]? = some { op := op.opcode, arg1 := x, res := .cell a }) :
    m.Arrives im (i + 1) mem mem' (.cell a)
      (r >>= fun v => (Value.unary op v).mapError Mishap.ofFault) := by
  cases r with
  | error e => exact .inr ⟨⟨e, rfl⟩, h.breaks hs.image hq fun m' cause => Execute.exec_unary_error⟩
  | ok v =>
    obtain ⟨u, hu, -⟩ := Value.unary_hasType hty hr
    have hvalue : (Except.ok v >>= fun v => (Value.unary op v).mapError Mishap.ofFault) =
      .ok u := by
      show (Value.unary op v).mapError Mishap.ofFault = _
      rw [hu]
      rfl
    have hholds := halloc.holds_first hlayout
    rw [hvalue]
    rcases h with h | ⟨⟨e, he⟩, -⟩
    · refine h.fill hs.image (fun m' hm' => hm'.1) hext halloc hlayout hframes hq fun m' hm' => ?_
      exact Execute.exec_unary_eq hs.image hholds (hm'.2 _ (.advance mem₁ m')) hu
    · cases he

theorem Machine.Arrives.both {r r' : Except Mishap Value} (hl : m.Arrives im i mem mem₁ x r)
    (hext : mem.Extends mem₁)
    (hr : ∀ m₁ : Machine, m₁.ip = i → m.Evaluated mem m₁ → m₁.Arrives im j mem₁ mem' y r') :
    (m.Goes im j mem fun m' => m'.indices = m.indices ∧ Loads x m'.advance r ∧
      Loads y m'.advance r') ∨ ((∃ e, r = .error e) ∨ ∃ e, r' = .error e) ∧
        m.Breaks im m.written := by
  rcases hl with ⟨m₁, hreaches, hip, heval, hindices, hloads⟩ | ⟨he, hbreaks⟩
  · rcases hr m₁ hip heval with ⟨m₂, hreaches', hip', heval', hindices', hloads'⟩ | ⟨he, hbreaks⟩
    · refine .inl ⟨m₂, hreaches.trans hreaches', hip', heval.trans heval' hext,
        hindices'.trans hindices, hloads _ ?_, hloads' _ (.advance mem' m₂)⟩
      exact heval'.trans (.advance mem₁ m₂) (.refl mem₁)
    · rw [heval.written] at hbreaks
      exact .inr ⟨.inr he, hreaches.breaks hbreaks⟩
  · exact .inr ⟨.inl he, hbreaks⟩

theorem Machine.Arrives.binary (hs : Surroundings im quads names ps fs last) {op : BinaryOp}
    {x y : Operand} {tx ty t : Ty} {r r' : Except Mishap Value} {mem₂ : Memory} {j : Nat}
    (hl : m.Arrives im i mem mem₁ x r) (hext : mem.Extends mem₁)
    (hr : ∀ m₁ : Machine, m₁.ip = i → m.Evaluated mem m₁ → m₁.Arrives im j mem₁ mem₂ y r')
    (htl : Sensible (·.HasType tx) r) (htr : Sensible (·.HasType ty) r')
    (hty : Typing.binary op tx ty = some t) (hext' : mem.Extends mem₂) {a : Addr}
    (halloc : mem₂.Allocated .temps t 1 a mem') (hlayout : mem₂.layout = Layout.standard)
    (hframes : m.frames = [])
    (hq : quads[j]? = some { op := op.opcode, arg1 := x, arg2 := y, res := .cell a }) :
    m.Arrives im (j + 1) mem mem' (.cell a)
      (r >>= fun v => r' >>= fun w => (Value.binary op v w).mapError Mishap.ofFault) := by
  have hholds := halloc.holds_first hlayout
  rcases hl.both hext hr with hgoes | ⟨he, hbreaks⟩
  · cases r with
    | error e =>
      refine .inr ⟨⟨e, rfl⟩, hgoes.breaks fun m' hip _ hloads => ?_⟩
      obtain ⟨-, ⟨cause, hx⟩, -⟩ := hloads
      exact Machine.breaks_here hs.image hip hq (Execute.exec_binary_left hx)
    | ok v =>
      cases r' with
      | error e =>
        refine .inr ⟨⟨e, rfl⟩, hgoes.breaks fun m' hip _ hloads => ?_⟩
        obtain ⟨-, hx, ⟨cause, hy⟩⟩ := hloads
        exact Machine.breaks_here hs.image hip hq (Execute.exec_binary_right hx hy)
      | ok w =>
        show m.Arrives im (j + 1) mem mem' (.cell a) ((Value.binary op v w).mapError Mishap.ofFault)
        have hyields := Value.binary_yields hty htl htr
        cases hu : Value.binary op v w with
        | error cause =>
          refine .inr ⟨⟨_, rfl⟩, hgoes.breaks fun m' hip _ hloads => ?_⟩
          have hexec := Execute.exec_binary_eq op hs.image hholds hloads.2.1 hloads.2.2
          rw [hu] at hexec
          exact Machine.breaks_here hs.image hip hq hexec
        | ok u =>
          have hut : u.HasType t := by
            rw [hu] at hyields
            cases hyields
            assumption
          refine hgoes.fill hs.image (fun m' hm' => hm'.1) hext' halloc hlayout hframes hq
            fun m' hm' => ?_
          rw [Execute.exec_binary_eq op hs.image hholds hm'.2.1 hm'.2.2, hu]
          show EStateM.Result.ok () (m'.advance.put .temps a (u.convert t)) = _
          rw [Value.convert_eq_self hut]
  · refine .inr ⟨?_, hbreaks⟩
    rcases he with ⟨e, rfl⟩ | ⟨e, rfl⟩
    · exact ⟨e, rfl⟩
    · cases r with
      | error e' => exact ⟨e', rfl⟩
      | ok v => exact ⟨e, rfl⟩

theorem Machine.Goes.check (him : im.Standard quads) (h : m.Goes im i mem P)
    (hindices : ∀ m' : Machine, P m' → m'.indices = m.indices)
    (hload : ∀ m' : Machine, P m' → Execute.load x m'.advance = .ok (.int n) m'.advance)
    (hq : quads[i]? = some (d.check x)) (hn : ¬ (n < 0 ∨ d.size ≤ n)) :
    m.Goes im (i + 1) mem fun m' => m'.indices = ⟨n, d.stride⟩ :: m.indices := by
  refine h.trans (.refl mem) fun m₁ hip heval hm₁ => ?_
  have hexec := Execute.exec_check_eq im d (hload m₁ hm₁)
  rw [if_neg hn] at hexec
  refine ⟨_, Machine.reaches_step him hip hq hexec, ?_, ⟨rfl, rfl, rfl, rfl, fun _ _ => rfl⟩, ?_⟩
  · show m₁.ip + 1 = _
    omega
  · show _ :: m₁.indices = _
    rw [hindices m₁ hm₁]

/-- An index is checked, and then the others. -/
theorem Machine.Arrives.check (hs : Surroundings im quads names ps fs last)
    {r : Except Mishap Value} {r' : Except Mishap (List Int64)} (h : m.Arrives im i mem mem₁ x r)
    (hr : Sensible (·.HasType .int) r) (hq : quads[i]? = some (d.check x)) (hext : mem.Extends mem₁)
    (hrest : ∀ m₁ : Machine, m₁.ip = (i + 1 : Nat) → m.Evaluated mem m₁ →
      m₁.Indexes im j mem₁ ds r') :
    m.Indexes im j mem (d :: ds)
      (r >>= fun v => checkIndex d.size v >>= fun n => r' >>= fun is => pure (n :: is)) := by
  cases r with
  | error e => exact h.breaks hs.image hq fun m' cause => bind_of_error
  | ok v =>
    rcases h with h | ⟨⟨e, he⟩, -⟩
    · cases v with
      | int n =>
        show m.Indexes im j mem (d :: ds) (checkIndex d.size (.int n) >>= _)
        have hbounds := checkIndex_sensible hr d.size
        by_cases hout : n < 0 ∨ d.size ≤ n
        · rw [show checkIndex d.size (.int n) = .error (.outOfBounds n d.size) from if_pos hout]
          refine h.breaks fun m' hip _ hm' => ?_
          have hexec := Execute.exec_check_eq im d (hm'.2 _ (.advance mem₁ m'))
          rw [if_pos hout] at hexec
          exact Machine.breaks_here hs.image hip hq hexec
        · have hcheck : checkIndex d.size (.int n) = .ok n := if_neg hout
          have hgoes := h.check hs.image (fun m' hm' => hm'.1) (fun m' hm' =>
            hm'.2 _ (.advance mem₁ m'))
            hq hout
          rw [hcheck] at hbounds ⊢
          cases r' with
          | error e => exact hgoes.breaks fun m' hip heval _ => hrest m' hip heval
          | ok is =>
            refine hgoes.trans hext fun m₂ hip heval hm₂ => ?_
            obtain ⟨m₃, hreaches, hip₃, heval₃, checked, hindices, hchecked, his⟩ :=
              hrest m₂ hip heval
            refine ⟨m₃, hreaches, hip₃, heval₃, ⟨n, d.stride⟩ :: checked, ?_,
              .cons hbounds.1 hbounds.2 rfl hchecked, ?_⟩
            · rw [hindices, hm₂, List.reverse_cons, List.append_assoc]
              rfl
            · rw [List.map_cons, his]
      | _ => cases hr
    · cases he

end

/-! ## Expressions -/

section

variable {im : Image} {quads : List Quad} {names : Names} {ps : List Placement}
  {fs : List (Callee × List Param)} {last : Memory}

theorem IndicesCode.dims_ne_nil {es : List Expr} (h : IndicesCode names ds es mem code mem')
    (hes : es ≠ []) : ds ≠ [] := by
  rw [← List.length_pos_iff] at hes ⊢
  rw [h.length_eq]
  exact hes

-- The recursion is that of the code. Code reads and extends the memory of the compilation, so that
-- the cells it fills are new, and the constants it finds are among the last ones.
mutual

/-- The code of an expression without calls works out its value. -/
theorem ExprCode.arrives (hs : Surroundings im quads names ps fs last) {e : Expr} {x : TypedOperand}
    {mem mem' : Memory} {code : List Quad} : ExprCode names e mem x code mem' → e.calls = [] →
    e.Literals (fun ty v => Literal ty (v.convert ty)) → mem.Valid → mem'.Extends last →
    {base : Nat} → {m : Machine} → {s : State} → Placed quads base code → m.ip = base →
    m.Mirrors ps last s →
    m.Arrives im (base + code.length) mem mem' x.operand (e.eval (ps.map Placement.leaf) s.store)
  | .constant hi, _, hlit, hv, hext, _, _, _, _, hip, hm => by
    have hsubset : ∀ c ∈ _, c ∈ last.constants := fun c hc => hext.mem_constants hc
    obtain ⟨c, hc, rfl, hvalue⟩ := hv.intern_literal hi hlit fun c hc =>
      hs.literals c (hsubset c hc)
    unfold Expr.eval
    rw [← hvalue]
    exact Machine.arrives_constant hs hm hip (hsubset c hc)
  | .group he, hcalls, hlit, hv, hext, _, _, _, hplaced, hip, hm =>
    he.arrives hs hcalls hlit hv hext hplaced hip hm
  | .call _ _ _ _, hcalls, _, _, _, _, _, _, _, _, _ => by cases hcalls
  | .variable hreach hkind _ hdims, _, _, _, _, _, _, s, _, hip, hm => by
    obtain ⟨hmem, hleaf⟩ := hs.sound.leaf? hs.paths hreach hkind
    unfold Expr.eval
    rw [hleaf, hdims]
    exact Machine.arrives_variable hs hmem hdims hip hm
  | .element hreach hkind _ hne his ha, hcalls, hlit, hv, hext, _, _, s, hplaced, hip, hm => by
    obtain ⟨hmem, hleaf⟩ := hs.sound.leaf? hs.paths hreach hkind
    have hgrowth := his.growth (T := IsTemporary) (P := Literal) hv hlit
    have halloc := hgrowth.valid.alloc ha
    have hext₁ := halloc.extends.trans hext
    obtain ⟨hcode, hquad⟩ := hplaced.append
    have hindexes := his.indexes hs hcalls hlit hv hext₁ hcode hip hm
    have hlocates := hindexes.locates hs hmem (his.dims_ne_nil hne) hm.frames hgrowth.memory halloc
      (hs.layout_of_extends hext₁) hquad.head
    unfold Expr.eval
    rw [hleaf, List.length_append]
    exact hlocates.arrives hs hmem (his.sensible hs.sound hs.paths hm.typed hcalls hlit) hm
      fun m' => rfl
  | .unary he hty ha, hcalls, hlit, hv, hext, _, _, s, hplaced, hip, hm => by
    have hgrowth := he.growth (T := IsTemporary) (P := Literal) hv hlit
    have halloc := hgrowth.valid.alloc ha
    have hext₁ := halloc.extends.trans hext
    obtain ⟨hcode, hquad⟩ := hplaced.append
    have harrives := he.arrives hs hcalls hlit hv hext₁ hcode hip hm
    have hsensible := he.sensible hs.sound hs.paths hm.typed hcalls hlit
    rw [List.length_append]
    exact harrives.unary hs hsensible hty hgrowth.memory halloc (hs.layout_of_extends hext₁)
      hm.frames
      hquad.head
  | .binary hl hr hty ha, hcalls, hlit, hv, hext, _, _, s, hplaced, hip, hm => by
    obtain ⟨hlcalls, hrcalls⟩ := List.append_eq_nil_iff.1 hcalls
    have hgrowth := hl.growth (T := IsTemporary) (P := Literal) hv hlit.1
    have hgrowth' := hr.growth (T := IsTemporary) (P := Literal) hgrowth.valid hlit.2
    have halloc := hgrowth'.valid.alloc ha
    have hext₂ := halloc.extends.trans hext
    have hext₁ := hgrowth'.memory.trans hext₂
    obtain ⟨hcode, hquad⟩ := hplaced.append
    obtain ⟨hcode, hcode'⟩ := hcode.append
    have harrives := hl.arrives hs hlcalls hlit.1 hv hext₁ hcode hip hm
    have hsensible := hl.sensible hs.sound hs.paths hm.typed hlcalls hlit.1
    have hsensible' := hr.sensible hs.sound hs.paths hm.typed hrcalls hlit.2
    rw [List.length_append, ← Nat.add_assoc] at hquad
    rw [List.length_append, List.length_append, ← Nat.add_assoc, ← Nat.add_assoc]
    refine harrives.binary hs hgrowth.memory (fun m₁ hip₁ heval => ?_) hsensible hsensible' hty
      (hgrowth.memory.trans hgrowth'.memory) halloc (hs.layout_of_extends hext₂) hm.frames
      hquad.head
    exact hr.arrives hs hrcalls hlit.2 hgrowth.valid hext₂ hcode' hip₁ (hm.evaluated hs heval)

theorem IndicesCode.indexes (hs : Surroundings im quads names ps fs last) {ds : List Dim}
    {es : List Expr} {mem mem' : Memory} {code : List Quad} :
    IndicesCode names ds es mem code mem' →
    Expr.allCalls es = [] → Expr.allLiterals (fun ty v => Literal ty (v.convert ty)) es →
      mem.Valid →
    mem'.Extends last → {base : Nat} → {m : Machine} → {s : State} → Placed quads base code →
      m.ip = base →
    m.Mirrors ps last s →
    m.Indexes im (base + code.length) mem ds
      (Expr.evalIndices (ps.map Placement.leaf) s.store (ds.map (·.size)) es)
  | .nil, _, _, _, _, _, m, _, _, hip, _ =>
    ⟨m, .refl im m, hip, .refl _ m, [], rfl, .nil, rfl⟩
  | .cons he hty hes, hcalls, hlit, hv, hext, _, _, s, hplaced, hip, hm => by
    obtain ⟨hecalls, hescalls⟩ := List.append_eq_nil_iff.1 hcalls
    have hgrowth := he.growth (T := IsTemporary) (P := Literal) hv hlit.1
    have hgrowth' := hes.growth (T := IsTemporary) (P := Literal) hgrowth.valid hlit.2
    obtain ⟨hcode, hrest⟩ := hplaced.append
    have harrives := he.arrives hs hecalls hlit.1 hv (hgrowth'.memory.trans hext) hcode hip hm
    have hsensible := he.sensible hs.sound hs.paths hm.typed hecalls hlit.1
    rw [hty] at hsensible
    rw [List.map_cons, List.length_append, List.length_cons, Nat.add_comm _ 1, ← Nat.add_assoc,
      ← Nat.add_assoc]
    refine harrives.check hs hsensible hrest.head hgrowth.memory fun m₁ hip₁ heval => ?_
    exact hes.indexes hs hescalls hlit.2 hgrowth.valid hext hrest.tail hip₁ (hm.evaluated hs heval)

end

/-- The code of a place without calls finds the element that the place stands for. -/
theorem ExprCode.locates (hs : Surroundings im quads names ps fs last) {p : Place}
    {x : TypedOperand} (h : ExprCode names p.expr mem x code mem') (hcalls : p.expr.calls = [])
    (hlit : p.expr.Literals fun ty v => Literal ty (v.convert ty)) (hv : mem.Valid)
    (hext : mem'.Extends last)
    {base : Nat} {m : Machine} {s : State} (hplaced : Placed quads base code) (hip : m.ip = base)
    (hm : m.Mirrors ps last s) :
    ∃ v ∈ ps, ∃ r, v.ty = x.ty ∧ Sensible (Within v.dims) r ∧
      p.element (ps.map Placement.leaf) s.store = (r >>= fun is => .ok (v.leaf, ⟨v.path, is⟩)) ∧
      m.Locates im (base + code.length) mem mem' x.operand v r := by
  obtain ⟨name, members, indices⟩ := p
  unfold Place.element
  cases h with
  | «variable» hreach hkind _ hdims =>
    obtain ⟨hmem, hleaf⟩ := hs.sound.leaf? hs.paths hreach hkind
    refine ⟨_, hmem, .ok [], rfl, ?_, ?_, Machine.locates_variable hip ⟨_, _, _, _⟩⟩
    · show Within _ []
      rw [hdims]
      exact .nil
    · rw [hleaf, hdims]
      rfl
  | element hreach hkind _ hne his ha =>
    obtain ⟨hmem, hleaf⟩ := hs.sound.leaf? hs.paths hreach hkind
    have hgrowth := his.growth (T := IsTemporary) (P := Literal) hv hlit
    have halloc := hgrowth.valid.alloc ha
    have hext₁ := halloc.extends.trans hext
    obtain ⟨hcode, hquad⟩ := hplaced.append
    have hindexes := his.indexes hs hcalls hlit hv hext₁ hcode hip hm
    refine ⟨_, hmem, _, rfl, his.sensible hs.sound hs.paths hm.typed hcalls hlit, ?_, ?_⟩
    · rw [hleaf]
      rfl
    · rw [List.length_append]
      exact hindexes.locates hs hmem (his.dims_ne_nil hne) hm.frames hgrowth.memory halloc
        (hs.layout_of_extends hext₁) hquad.head

end

end Quadlang
