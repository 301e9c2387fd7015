-- The typing of machines: every cell holds a value of the type of its address, pointers lead
-- to elements of their arrays, and the calls under way stand as the chart of the program says.
import Quadlang.Machine.Run
import Quadlang.Proofs.Program.Charted

namespace Quadlang

open Success

variable {a p : Addr} {quads : List Quad} {v : Value} {segment : Segment} {ty : Ty}
  {o : Option Addr} {im : Image} {x : Operand}

/-! ## Cells -/

/-- The value may stand at the address: it is of the type of the address, and where pointers to
elements of an array are kept it is the address of one. -/
def Suits (quads : List Quad) (a : Addr) (v : Value) : Prop :=
  ∃ segment ty, Layout.standard.Holds segment ty a ∧ v.HasType ty ∧
    ∀ n base, elementQuad n base a ∈ quads → ∀ segment' ty',
    Layout.standard.Holds segment' ty' base →
      ∃ b, v = .int b ∧ Layout.standard.Holds segment' ty' b

/-- Every cell holds what may stand at its address. -/
def CellsSuit (quads : List Quad) (cells : Cells) : Prop :=
  ∀ a v, cells[a]? = some v → Suits quads a v

theorem CellsSuit.insert {cells : Cells} (h : CellsSuit quads cells) (hv : Suits quads a v) :
    CellsSuit quads (cells.insert a v) := by
  intro b w hw
  rw [Cells.getElem?_write] at hw
  split at hw
  · rename_i hab
    cases hw
    rw [← hab]
    exact hv
  · exact h b w hw

theorem cellsSuit_empty (quads : List Quad) : CellsSuit quads Cells.empty := by
  intro a v hv
  simp [Cells.empty] at hv

theorem Suits.hasType (h : Suits quads a v) (ha : Layout.standard.Holds segment ty a) :
    v.HasType ty := by
  obtain ⟨segment', ty', ha', hv, -⟩ := h
  obtain ⟨-, rfl⟩ := Layout.standard_holds_inj ha ha'
  exact hv

/-! ## Calls under way -/

/-- The calls under way below the innermost activation, with the records and the indices that
wait for them: each returns behind the instruction that entered its function, to where the
chart says that these records and indices are under way. -/
inductive Returns (quads : List Quad) :
    Option Addr → List Frame → List Frame → List Index → Prop
  | program : Returns quads none [] [] []
  | call {f : Frame} {frames own rest : List Frame} {indices indices' : List Index} {position : Nat}
      {g : Callee} :
      f.returnTo = position → 1 ≤ position → quads[position - 1]? = some g.gosub →
      g.address = f.callee → own.map (·.callee) = (standing quads position).calls →
      Checked indices (standing quads position).dims →
      Returns quads (owner quads position) frames rest indices' →
      Returns quads (some f.callee) (f :: frames) (own ++ rest) (indices ++ indices')

/-- The calls under way at a position. -/
def Stacked (quads : List Quad) (i : Nat) (frames pending : List Frame) (indices : List Index) :
    Prop :=
  ∃ own rest is is', pending = own ++ rest ∧ indices = is ++ is' ∧
    own.map (·.callee) = (standing quads i).calls ∧ Checked is (standing quads i).dims ∧
    Returns quads (owner quads i) frames rest is'

theorem Returns.frames_ne_nil {frames pending : List Frame} {indices : List Index}
    (h : Returns quads o frames pending indices) : o.isSome = true → frames ≠ [] := by
  cases h <;> simp

/-- The value that a return put aside is of the type of the return slot. -/
def StagedSuits (f : Frame) : Prop :=
  ∀ v, f.staged = some v → ∃ ty, Layout.standard.Holds .stack ty f.callee ∧ v.HasType ty

/-- The cells of a machine hold what may stand at their addresses. The program itself keeps no
variables of functions, and a record that was not entered yet has no result. -/
structure Machine.Suited (quads : List Quad) (m : Machine) : Prop where
  globals : CellsSuit quads m.globals
  shared : ∀ a v ty, m.globals[a]? = some v → ¬ Layout.standard.Holds .functions ty a
  frames : ∀ f ∈ m.frames, CellsSuit quads f.cells ∧ StagedSuits f
  pending : ∀ f ∈ m.pending, CellsSuit quads f.cells ∧ f.staged = none

/-! ## Reading and writing -/

variable {quads : List Quad} {m : Machine}

theorem Machine.Suited.get? (h : m.Suited quads) (hv : m.get? a = some v) : Suits quads a v := by
  unfold Machine.get? at hv
  split at hv
  · rename_i w hw
    cases hv
    obtain ⟨f, hf, hw⟩ := List.exists_of_findSome?_eq_some hw
    exact (h.frames f hf).1 a v hw
  · exact h.globals a v hv

/-- The cell that an operand names. -/
def Machine.reach? (m : Machine) (o : Operand) : Option Addr :=
  match o.kind with
  | .address => some o.word
  | .pointer =>
    match m.get? o.word with
    | some (.int a) => some a
    | _ => none
  | _ => none

theorem Machine.reach?_congr {m₀ : Machine} {x : Operand}
    (h : x.kind = .pointer → m₀.get? x.word = m.get? x.word) : m₀.reach? x = m.reach? x := by
  unfold Machine.reach?
  cases hkind : x.kind with
  | pointer => rw [h hkind]
  | _ => rfl

/-- Writes a cell of a segment. -/
def Machine.put (m : Machine) (segment : Segment) (a : Addr) (v : Value) : Machine :=
  match segment with
  | .functions | .temps | .stack => m.setCurrent a v
  | _ => m.setGlobal a v

/-- The machine of a program with the standard layout. -/
def Image.Standard (im : Image) (quads : List Quad) : Prop :=
  im.quads.toList = quads ∧ im.table = Layout.standard.table

theorem Image.Standard.locate? (him : im.Standard quads) (ha : Layout.standard.Holds segment ty a) :
    ∃ s, im.table.locate? a = some s ∧ s.segment = segment ∧ s.ty = ty := by
  rw [him.2]
  exact Layout.standard_disjoint.locate?_of_holds ha

theorem Image.Standard.typeOf (him : im.Standard quads) (ha : Layout.standard.Holds segment ty a) :
    im.typeOf a = ty := by
  obtain ⟨s, hs, -, hty⟩ := him.locate? ha
  unfold Image.typeOf
  rw [hs]
  exact hty

namespace Execute

theorem store_eq (him : im.Standard quads) (ha : Layout.standard.Holds segment ty a) (v : Value)
    (m : Machine) : store im a v m = .ok () (m.put segment a v) := by
  obtain ⟨s, hs, rfl, -⟩ := him.locate? ha
  unfold store Machine.put
  rw [hs]
  cases hsegment : s.segment <;> simp only [hsegment] <;> rfl

theorem address_cell (a : Addr) (m : Machine) : address (.cell a) m = .ok a m := by
  exact congrArg (fun b => EStateM.Result.ok b m) (Operand.word_cell a)

theorem address_pointer (h : m.get? p = some (.int a)) : address (.pointer p) m = .ok a m := by
  simp only [address, Operand.pointer]
  rw [get_bind, show (⟨.pointer, p.toInt⟩ : Operand).word = p from Operand.word_pointer p, h]
  rfl

theorem address_pointer_none (h : m.get? p = none) :
    address (.pointer p) m = .error (.uninitializedPointer p) m := by
  simp only [address, Operand.pointer]
  rw [get_bind, show (⟨.pointer, p.toInt⟩ : Operand).word = p from Operand.word_pointer p, h]
  rfl

/-- What stands for a value names a cell of its type, unless a pointer to it was not found yet. -/
theorem address_of_denotes (h : m.Suited quads) (hx : x.Denotes quads o ty) :
    (∃ a segment, m.reach? x = some a ∧ address x m = .ok a m ∧ Layout.standard.Holds segment ty a ∧
      segment ≠ .stack ∧ (segment = .functions → o.isSome = true) ∧
      (x = .cell a ∨ segment ≠ .temps ∧ segment ≠ .globals)) ∨
      ∃ p, address x m = .error (.uninitializedPointer p) m := by
  cases hx with
  | @cell segment a ha hstack hfun =>
    exact .inl ⟨a, segment, by simp [Machine.reach?, Operand.cell,
      Operand.word], address_cell a m, ha, hstack, hfun, .inl rfl⟩
  | @pointer segment n base p hp hbase hsegment =>
    cases hget : m.get? p with
    | none => exact .inr ⟨p, address_pointer_none hget⟩
    | some v =>
      obtain ⟨_, _, -, -, helement⟩ := h.get? hget
      obtain ⟨b, rfl, hb⟩ := helement n base hp segment ty hbase
      refine .inl ⟨b, segment, ?_, address_pointer hget, hb, ?_⟩
      rotate_left
      · rcases hsegment with rfl | ⟨rfl, hfun⟩ <;> simp [*]
      simp only [Machine.reach?, Operand.pointer]
      rw [show (⟨.pointer, p.toInt⟩ : Operand).word = p from Operand.word_pointer p, hget]

theorem cell_of_get? (h : m.get? a = some v) : cell a m = .ok v m := by
  unfold cell
  rw [get_bind, h]
  rfl

theorem cell_of_none (h : m.get? a = none) : cell a m = .error (.uninitialized a) m := by
  unfold cell
  rw [get_bind, h]
  rfl

theorem load_cell (a : Addr) (m : Machine) : load (.cell a) m = cell a m := by
  show (address (.cell a) >>= cell) m = _
  rw [bind_of_ok (address_cell a m)]

/-- What stands for a value has one of its type, unless it was not written yet. -/
theorem load_of_denotes (h : m.Suited quads) (hx : x.Denotes quads o ty) :
    (∃ a v, m.reach? x = some a ∧ m.get? a = some v ∧ load x m = .ok v m ∧ v.HasType ty) ∨
      ∃ e, load x m = .error e m ∧ e.category = some .uninitialized := by
  have hload : load x m = (address x >>= cell) m := by cases hx <;> rfl
  rcases address_of_denotes h hx with ⟨a, segment, hreach, haddress, ha, -⟩ | ⟨p, herror⟩
  · rw [bind_of_ok haddress] at hload
    cases hget : m.get? a with
    | none => exact .inr ⟨_, hload.trans (cell_of_none hget), rfl⟩
    | some v =>
      exact .inl ⟨a, v, hreach, hget, hload.trans (cell_of_get? hget), (h.get? hget).hasType ha⟩
  · exact .inr ⟨_, hload.trans (bind_of_error herror), rfl⟩

theorem write_eq (h : load x m = .ok v m) :
    write x m = if m.room = some 0 then .error .closedOutput m else
      .ok ()
        { m with output := (v.text ++ ascii "\n") :: m.output, room := m.room.map (· - 1) } := by
  unfold write
  rw [bind_of_ok h, get_bind]
  match hroom : m.room with
  | some 0 => rfl
  | some (n + 1) => rfl
  | none => rfl

theorem read_eq (h : address x m = .ok a m) :
    read im x m = if m.input.isEmpty then .error .endOfInput m else
      match Value.read (im.typeOf a) (trimLine (splitLine m.input).1) with
      | .ok v => store im a v { m with input := (splitLine m.input).2 }
      | .error e => .error (.badLine e) { m with input := (splitLine m.input).2 } := by
  unfold read
  rw [bind_of_ok h, get_bind]
  by_cases hempty : m.input.isEmpty = true
  · rw [if_pos hempty, if_pos hempty]
    rfl
  · rw [if_neg hempty, if_neg hempty]
    generalize splitLine m.input = parts
    obtain ⟨line, rest⟩ := parts
    show ((modify fun s => { s with input := rest } : Execute PUnit) >>= _) m = _
    cases Value.read (im.typeOf a) (trimLine line) <;> rfl

theorem addDim_eq {n : Nat} {base : Addr} (hn : 0 < n) (h : n ≤ m.indices.length) :
    addDim im n base p m =
      store im p (.int ((m.indices.take n).reverse.foldl (fun a i => a + i.index * i.stride) base))
        { m with indices := m.indices.drop n } := by
  have henough : ¬ ((n : Int) < 1 ∨ (m.indices.length : Int) < n) := by omega
  unfold addDim
  rw [get_bind, if_neg henough]
  rfl

end Execute

/-! ## Steps -/

section

variable {im : Image} {m' : Machine} {q : Quad}

theorem Machine.step_of_ok (hfetch : im.fetch? m.ip = some q)
    (h : Execute.exec im q m.advance = .ok () m') : m.step im = (none, m') := by
  unfold Machine.step
  simp only [hfetch, h]

theorem Machine.step_of_error (hfetch : im.fetch? m.ip = some q) {e : RunFault}
    (h : Execute.exec im q m.advance = .error e m') :
    m.step im = (some (.failed m.ip q.op e), m') := by
  unfold Machine.step
  simp only [hfetch, h]

end

end Quadlang
