-- What the instructions of a charted program do to a machine in order: each of them has the
-- effect that its kind has, or fails in one of the ways that a program may fail.
import Quadlang.Proofs.Machine.Typing

namespace Quadlang

open Success

variable {t tx ty : Ty} {a base : Addr} {x y : Operand} {q : Quad} {segment : Segment} {f : Callee}

/-! ## Effects -/

/-- The kinds of faults that a program can meet through no fault of the compiler. -/
def Category.expected : List Category :=
  [.stackOverflow, .indexOutOfBounds, .uninitialized, .divisionByZero, .badInput]

/-- The faults that a run of a compiled program can meet. -/
def RunFault.Expected (e : RunFault) : Prop :=
  e = .closedOutput ∨ ∃ c ∈ Category.expected, e.category = some c

/-- A machine with the result of a call, if there is one, in the return slot. -/
def Machine.receive (m : Machine) (slot : Addr) : Option Value → Machine
  | some v => m.setCurrent slot v
  | none => m

/-- What an instruction at a position does to a machine. -/
inductive Effect (quads : List Quad) (i : Nat) (m : Machine) : Quad → Machine → Prop
  | store {q : Quad} {segment : Segment} {ty : Ty} {a : Addr} {v : Value} :
      q.op.stores = true → q.op ≠ .read → q.op ≠ .addDim → m.reach? q.res = some a →
      Layout.standard.Holds segment ty a → segment ≠ .globals →
      (segment = .functions → (owner quads i).isSome = true) → Suits quads a v →
      Effect quads i m q (m.advance.put segment a v)
  | read {x : Operand} {segment : Segment} {ty : Ty} {a : Addr} {v : Value} {rest : Bytes} :
      m.reach? x = some a → Layout.standard.Holds segment ty a → segment ≠ .globals →
      (segment = .functions → (owner quads i).isSome = true) → Suits quads a v →
      Effect quads i m (readQuad x) ({ m.advance with input := rest }.put segment a v)
  | write {x : Operand} {line : Bytes} {room : Option Nat} :
      Effect quads i m (writeQuad x) { m.advance with output := line :: m.output, room }
  | jump {q : Quad} {target : Nat} : q.op = .goto ∨ q.op = .gotoFalse → Landing quads i target →
      Effect quads i m q { m.advance with ip := target }
  | pass {x : Operand} {target : Nat} : Effect quads i m (skipQuad x target) m.advance
  | era {f : Callee} :
      Effect quads i m f.era { m.advance with pending := { callee := f.address } :: m.pending }
  | param {p : Param} {x : Operand} {r : Frame} {rest : List Frame} {v : Value} :
      (standing quads i).calls ≠ [] → m.pending = r :: rest →
      Execute.load x m.advance = .ok v m.advance → Suits quads p.address v →
      Effect quads i m (p.bind x)
        { m.advance with pending := { r with cells := r.cells.insert p.address v } :: rest }
  | gosub {f : Callee} {r : Frame} {rest : List Frame} {calls : List Addr} :
      (standing quads i).calls = f.address :: calls → m.pending = r :: rest → r.callee = f.address →
      Entry quads f → Effect quads i m f.gosub
        { m.advance with
          pending := rest
          frames := { r with returnTo := m.advance.ip } :: m.frames
          ip := f.target }
  | ret {x : Operand} {f : Callee} {r : Frame} {rest : List Frame} {staged : Option Value}
      {position : Nat} :
      m.frames = r :: rest → (x.kind = .empty ∧ staged = r.staged ∨ x.kind ≠ .empty ∧ ∃ v,
        staged = some v ∧ v.HasType f.ty ∧ Layout.standard.Holds .stack f.ty f.address) →
      r.callee = f.address →
      Landing quads i position → Effect quads i m { op := .ret, arg1 := x, res := .cell f.address }
        { m.advance with frames := { r with staged } :: rest, ip := position }
  | leave {f : Callee} {r : Frame} {rest : List Frame} :
      standing quads i = {} → m.frames = r :: rest → r.callee = f.address →
      Effect quads i m { op := .endFunction, res := .cell f.address }
        ({ m.advance with frames := rest, ip := r.returnTo }.receive f.address r.staged)
  | check {d : Dim} {x : Operand} {n : Int64} :
      0 ≤ n.toInt → n.toInt < d.size.toInt →
      Effect quads i m (d.check x) { m.advance with indices := ⟨n, d.stride⟩ :: m.indices }
  | element {n : Nat} {base p b : Addr} :
      n ≤ (standing quads i).dims.length → Layout.standard.Holds .temps .int p →
      Suits quads p (.int b) → Effect quads i m (elementQuad n base p)
        ({ m.advance with indices := m.indices.drop n }.put .temps p (.int b))

/-- An instruction has its effect, or fails as expected and leaves the cells as they were. -/
inductive Proceeds (quads : List Quad) (i : Nat) (m : Machine) (q : Quad) :
    EStateM.Result RunFault Machine Unit → Prop
  | done {m' : Machine} : Effect quads i m q m' → Proceeds quads i m q (.ok () m')
  | fails {e : RunFault} {m' : Machine} :
      e.Expected → m'.globals = m.globals → m'.frames = m.frames → m'.pending = m.pending →
      Proceeds quads i m q (.error e m')

section

variable {quads : List Quad} {im : Image} {i : Nat} {m : Machine}

theorem Proceeds.uninitialized {e : RunFault} (he : e.category = some .uninitialized) :
    Proceeds quads i m q (.error e m.advance) := .fails (.inr ⟨_, by decide, he⟩) rfl rfl rfl

theorem Machine.Suited.advance (h : m.Suited quads) : m.advance.Suited quads :=
  ⟨h.globals, h.shared, h.frames, h.pending⟩

/-- A value of the type of an address suits it, if it is not a pointer that is written. -/
theorem Chart.suits (hchart : Chart quads) (hq : q ∈ quads) (hop : q.op.stores = true)
    (hop' : q.op ≠ .addDim) {v : Value} (ha : Layout.standard.Holds segment ty a)
    (hres : q.res = .cell a ∨ segment ≠ .temps) (hv : v.HasType ty) : Suits quads a v := by
  refine ⟨segment, ty, ha, hv, ?_⟩
  intro n base helement
  have hpointer := hchart.holds_pointer helement
  exfalso
  rcases hres with hres | hne
  · have hsame := hchart.eq_of_fills hq helement ⟨hop, hres, _, hpointer⟩ ⟨rfl, rfl, _, hpointer⟩
    rw [hsame] at hop'
    exact hop' rfl
  · exact hne (Layout.standard_holds_inj ha hpointer).1

theorem exec_binary (op : BinaryOp) (x y r : Operand) :
    Execute.exec im { op := op.opcode, arg1 := x, arg2 := y, res := r } =
      Execute.binary im op { op := op.opcode, arg1 := x, arg2 := y, res := r } := by
  cases op <;> rfl

theorem exec_unary (op : UnaryOp) (x r : Operand) :
    Execute.exec im { op := op.opcode, arg1 := x, res := r } =
      Execute.unary im op { op := op.opcode, arg1 := x, res := r } := by
  cases op <;> rfl

theorem reach?_cell (a : Addr) (m : Machine) : m.reach? (.cell a) = some a := by
  simp [Machine.reach?, Operand.cell, Operand.word]

/-- What is written by name is no constant. -/
theorem Operand.NotConstant.segment_ne (h : x.NotConstant)
    (hx : x = .cell a ∨ segment ≠ .temps ∧ segment ≠ .globals)
    (ha : Layout.standard.Holds segment ty a) :
    segment ≠ .globals := by
  rintro rfl
  rcases hx with hx | hx
  · exact h a ty hx ha
  · exact hx.2 rfl

/-- An instruction that goes on with the value of an operand fails if there is none. -/
theorem Proceeds.load {go : Value → Execute Unit} (hsuited : m.Suited quads)
    (hx : x.Denotes quads (owner quads i) tx)
    (hgo : ∀ v, v.HasType tx → Execute.load x m.advance = .ok v m.advance →
      Proceeds quads i m q (go v m.advance)) :
    Proceeds quads i m q ((Execute.load x >>= go) m.advance) := by
  rcases Execute.load_of_denotes hsuited.advance hx with ⟨b, v, -, -, hload, hv⟩ | ⟨e, hload, he⟩
  · rw [bind_of_ok hload]
    exact hgo v hv hload
  · rw [bind_of_error hload]
    exact .uninitialized he

section

variable (him : im.Standard quads) (hchart : Chart quads)

include him hchart

/-- An instruction that stores a value of the type of a temporary in it has its effect. -/
theorem store_proceeds {v : Value} (hq : q ∈ quads) (hop : q.op.stores = true)
    (hread : q.op ≠ .read) (hdim : q.op ≠ .addDim) (hres : q.res = .cell a)
    (ha : Layout.standard.Holds .temps ty a) (hv : v.HasType ty) :
    Proceeds quads i m q (Execute.store im a v m.advance) := by
  rw [Execute.store_eq him ha]
  exact .done (.store hop hread hdim (hres ▸ reach?_cell a m) ha (by simp) (by simp)
    (hchart.suits hq hop hdim ha (.inl hres) hv))

variable (hsuited : m.Suited quads)

include hsuited

theorem binary_proceeds {op : BinaryOp}
    (hq : { op := op.opcode, arg1 := x, arg2 := y, res := .cell a } ∈ quads)
    (hx : x.Denotes quads (owner quads i) tx) (hy : y.Denotes quads (owner quads i) ty)
    (hty : Typing.binary op tx ty = some t) (ha : Layout.standard.Holds .temps t a) :
    Proceeds quads i m { op := op.opcode, arg1 := x, arg2 := y, res := .cell a }
      (Execute.exec im { op := op.opcode, arg1 := x, arg2 := y, res := .cell a } m.advance) := by
  rw [exec_binary]
  unfold Execute.binary
  refine .load hsuited hx fun v hv _ => .load hsuited hy fun w hw _ => ?_
  have hyield := Value.binary_yields hty hv hw
  rw [bind_of_ok (Execute.address_cell a _)]
  cases hyields : Value.binary op v w with
  | ok u =>
    have hu : u.HasType t := by
      rw [hyields] at hyield
      cases hyield
      assumption
    rw [bind_of_ok (show Execute.lift (.ok u) m.advance = .ok u m.advance from rfl)]
    unfold Execute.storeAs
    rw [him.typeOf ha, Value.convert_eq_self hu]
    exact store_proceeds him hchart hq op.opcode_stores (by cases op <;> simp [BinaryOp.opcode])
      (by cases op <;> simp [BinaryOp.opcode]) rfl ha hu
  | error e =>
    rw [hyields] at hyield
    cases hyield
    exact .fails (.inr ⟨_, by decide, rfl⟩) rfl rfl rfl

theorem unary_proceeds {op : UnaryOp} (hq : { op := op.opcode, arg1 := x, res := .cell a } ∈ quads)
    (hx : x.Denotes quads (owner quads i) tx) (hty : Typing.unary op tx = some t)
    (ha : Layout.standard.Holds .temps t a) :
    Proceeds quads i m { op := op.opcode, arg1 := x, res := .cell a }
      (Execute.exec im { op := op.opcode, arg1 := x, res := .cell a } m.advance) := by
  rw [exec_unary]
  unfold Execute.unary
  refine .load hsuited hx fun v hv _ => ?_
  obtain ⟨u, hyields, hu⟩ := Value.unary_hasType hty hv
  rw [bind_of_ok (Execute.address_cell a _), hyields,
    bind_of_ok (show Execute.lift (.ok u) m.advance = .ok u m.advance from rfl)]
  exact store_proceeds him hchart hq op.opcode_stores (by cases op <;> simp [UnaryOp.opcode])
    (by cases op <;> simp [UnaryOp.opcode]) rfl ha hu

theorem copy_proceeds (hq : copyQuad y x ∈ quads) (hy : y.Denotes quads (owner quads i) ty)
    (hx : x.Denotes quads (owner quads i) tx) (hplain : x.NotConstant)
    (hassign : Typing.assignable tx ty = true) :
    Proceeds quads i m (copyQuad y x) (Execute.exec im (copyQuad y x) m.advance) := by
  show Proceeds quads i m (copyQuad y x) (Execute.assign im y x m.advance)
  unfold Execute.assign
  refine .load hsuited hy fun v hv _ => ?_
  rcases Execute.address_of_denotes hsuited.advance hx with
    ⟨a, segment, hreach, haddress, ha, -, hfun, hres⟩ | ⟨p, haddress⟩
  · rw [bind_of_ok haddress]
    unfold Execute.storeAs
    rw [him.typeOf ha, Execute.store_eq him ha]
    have hsuits := hchart.suits hq rfl (by simp [copyQuad]) ha (hres.imp_right And.left)
      (Value.convert_hasType hv hassign)
    exact .done (.store rfl (by simp [copyQuad]) (by simp [copyQuad]) hreach ha
      (hplain.segment_ne hres ha) hfun hsuits)
  · rw [bind_of_error haddress]
    exact .uninitialized rfl

theorem result_proceeds {slot : Addr} (hq : copyQuad (.cell slot) (.cell a) ∈ quads)
    (hslot : Layout.standard.Holds .stack ty slot) (ha : Layout.standard.Holds .temps ty a) :
    Proceeds quads i m (copyQuad (.cell slot) (.cell a))
      (Execute.exec im (copyQuad (.cell slot) (.cell a)) m.advance) := by
  show Proceeds quads i m _ (Execute.assign im (.cell slot) (.cell a) m.advance)
  unfold Execute.assign
  cases hget : m.advance.get? slot with
  | none =>
    rw [bind_of_error (by rw [Execute.load_cell]; exact Execute.cell_of_none hget)]
    exact .uninitialized rfl
  | some v =>
    have hv := (hsuited.advance.get? hget).hasType hslot
    rw [bind_of_ok (by rw [Execute.load_cell]; exact Execute.cell_of_get? hget),
      bind_of_ok (Execute.address_cell a _)]
    unfold Execute.storeAs
    rw [him.typeOf ha, Value.convert_eq_self hv]
    exact store_proceeds him hchart hq rfl (by simp [copyQuad]) (by simp [copyQuad]) rfl ha hv

theorem read_proceeds (hq : readQuad x ∈ quads) (hx : x.Denotes quads (owner quads i) ty)
    (hplain : x.NotConstant) :
    Proceeds quads i m (readQuad x) (Execute.exec im (readQuad x) m.advance) := by
  show Proceeds quads i m (readQuad x) (Execute.read im x m.advance)
  rcases Execute.address_of_denotes hsuited.advance hx with
    ⟨a, segment, hreach, haddress, ha, -, hfun, hres⟩ | ⟨p, haddress⟩
  · rw [Execute.read_eq haddress, him.typeOf ha]
    split
    · exact .fails (.inr ⟨_, by decide, rfl⟩) rfl rfl rfl
    · split
      · rename_i v hread
        rw [Execute.store_eq him ha]
        have hsuits := hchart.suits hq rfl (by simp [readQuad]) ha (hres.imp_right And.left)
          (Value.read_hasType hread)
        exact .done (.read hreach ha (hplain.segment_ne hres ha) hfun hsuits)
      · exact .fails (.inr ⟨_, by decide, rfl⟩) rfl rfl rfl
  · unfold Execute.read
    rw [bind_of_error haddress]
    exact .uninitialized rfl

end

theorem write_proceeds (hsuited : m.Suited quads) (hx : x.Denotes quads (owner quads i) ty) :
    Proceeds quads i m (writeQuad x) (Execute.exec im (writeQuad x) m.advance) := by
  show Proceeds quads i m (writeQuad x) (Execute.write x m.advance)
  rcases Execute.load_of_denotes hsuited.advance hx with ⟨b, v, -, -, hload, -⟩ | ⟨e, hload, he⟩
  · rw [Execute.write_eq hload]
    split
    · exact .fails (.inl rfl) rfl rfl rfl
    · exact .done .write
  · unfold Execute.write
    rw [bind_of_error hload]
    exact .uninitialized he

theorem skip_proceeds (hsuited : m.Suited quads) {target : Nat}
    (hx : x.Denotes quads (owner quads i) .bool) (hlanding : Landing quads i target) :
    Proceeds quads i m (skipQuad x target) (Execute.exec im (skipQuad x target) m.advance) := by
  show Proceeds quads i m _ (Execute.jumpIfFalse x (.label target) m.advance)
  unfold Execute.jumpIfFalse
  refine .load hsuited hx fun v hv _ => ?_
  cases v with
  | bool b =>
    cases b with
    | true => exact .done .pass
    | false => exact .done (.jump (.inr rfl) hlanding)
  | _ => cases hv

/-! ## Calls -/

theorem era_proceeds : Proceeds quads i m f.era (Execute.exec im f.era m.advance) := by
  show Proceeds quads i m f.era (Execute.era im (Operand.cell f.address).word m.advance)
  unfold Execute.era
  rw [Operand.word_cell, get_bind]
  split
  · exact .fails (.inr ⟨_, by decide, rfl⟩) rfl rfl rfl
  · exact .done .era

theorem param_proceeds (him : im.Standard quads) (hchart : Chart quads) (hsuited : m.Suited quads)
    (hstack : Stacked quads i m.frames m.pending m.indices) {p : Param}
    (hx : x.Denotes quads (owner quads i) p.ty)
    (hp : Layout.standard.Holds .functions p.ty p.address)
    (hcalls : (standing quads i).calls ≠ []) :
    Proceeds quads i m (p.bind x) (Execute.exec im (p.bind x) m.advance) := by
  show Proceeds quads i m (p.bind x) (Execute.param im x (Operand.cell p.address).word m.advance)
  obtain ⟨own, rest, is, is', hpending, -, hown, -, -⟩ := hstack
  unfold Execute.param
  rw [Operand.word_cell, get_bind]
  cases own with
  | nil => exact absurd hown.symm hcalls
  | cons r own =>
    have hpending' : m.advance.pending = r :: (own ++ rest) := hpending
    rw [hpending']
    refine .load hsuited hx fun v hv hload => ?_
    rw [him.typeOf hp, Value.convert_eq_self hv]
    refine .done (.param hcalls hpending hload ⟨_, _, hp, hv, ?_⟩)
    intro n base helement
    exact absurd (Layout.standard_holds_inj hp (hchart.holds_pointer helement)).1 (by simp)

theorem gosub_proceeds (hstack : Stacked quads i m.frames m.pending m.indices) {rest : List Addr}
    (hcalls : (standing quads i).calls = f.address :: rest) (hentry : Entry quads f) :
    Proceeds quads i m f.gosub (Execute.exec im f.gosub m.advance) := by
  show Proceeds quads i m f.gosub (Execute.gosub f.target m.advance)
  obtain ⟨own, rest', is, is', hpending, -, hown, -, -⟩ := hstack
  unfold Execute.gosub
  rw [get_bind]
  cases own with
  | nil =>
    rw [hcalls] at hown
    cases hown
  | cons r own =>
    have hpending' : m.advance.pending = r :: (own ++ rest') := hpending
    rw [hpending']
    rw [hcalls, List.map_cons] at hown
    exact .done (.gosub hcalls hpending (List.cons.inj hown).1 hentry)

/-- A position in a function is followed by the end of the function. -/
theorem functionEnd?_of_owner (him : im.Standard quads) {i : Nat} (h : owner quads i = some a) :
    ∃ j q, im.functionEnd? a i = some j ∧ i ≤ j ∧ quads[j]? = some q ∧ q.op = .endFunction ∧
      owner quads j = some a := by
  fun_induction Image.functionEnd? im a i with
  | case1 position hlt q hq =>
    have hget : quads[position]? = some q := by
      rw [← him.1, Array.getElem?_toList, Array.getElem?_eq_getElem hlt]
    exact ⟨position, q, rfl, Nat.le_refl _, hget, hq.1, h⟩
  | case2 position hlt q hq ih =>
    have hget : quads[position]? = some q := by
      rw [← him.1, Array.getElem?_toList, Array.getElem?_eq_getElem hlt]
    have hop : q.op ≠ .endFunction := by
      intro hop
      rw [owner_leave hget hop] at h
      exact hq ⟨hop, Option.some.inj h⟩
    obtain ⟨j, q', hj, hle, hrest⟩ := ih (by rw [owner_succ hget hop]; exact h)
    exact ⟨j, q', hj, by omega, hrest⟩
  | case3 position hge =>
    have hlength : quads.length ≤ position := by
      rw [← him.1, Array.length_toList]
      omega
    rw [owner, List.drop_eq_nil_of_le hlength] at h
    cases h

/-- Where a function ends, nothing is under way. -/
theorem Chart.clear_leave (hchart : Chart quads) {j : Nat} (hj : 1 ≤ j) (hq : quads[j]? = some q)
    (hop : q.op = .endFunction) : Clear quads j := by
  have hfits := hchart.fits j q hj hq
  cases hfits with
  | @binary op => cases op <;> cases hop
  | @unary op => cases op <;> cases hop
  | leave _ hclear => exact hclear
  | _ => cases hop

/-- A return lands at the end of its function. -/
theorem landing_of_owner (him : im.Standard quads) (hchart : Chart quads) (hi : 1 ≤ i)
    (howner : owner quads i = some a) (hidle : standing quads i = {}) (hq : quads[i]? = some q)
    (hop : q.op ≠ .endFunction) : ∃ j, im.functionEnd? a (i + 1) = some j ∧ Landing quads i j := by
  have hnext : owner quads (i + 1) = some a := by
    rw [owner_succ hq hop]
    exact howner
  obtain ⟨j, q', hj, hle, hq', hop', howner'⟩ := functionEnd?_of_owner him hnext
  exact ⟨j, hj, hchart.clear_leave (by omega) hq' hop', hidle, howner'.trans howner.symm⟩

/-- The innermost activation is one of the function that is executed. -/
theorem Stacked.frame {frames pending : List Frame} {indices : List Index}
    (h : Stacked quads i frames pending indices) (howner : owner quads i = some a) :
    ∃ r rest, frames = r :: rest ∧ r.callee = a := by
  obtain ⟨_, _, _, _, -, -, -, -, hreturns⟩ := h
  rw [howner] at hreturns
  cases hreturns
  exact ⟨_, _, rfl, rfl⟩

theorem Operand.Denotes.kind {o : Option Addr} (h : x.Denotes quads o ty) :
    x.kind ≠ .empty := by cases h <;> simp [Operand.cell, Operand.pointer]

section

variable (him : im.Standard quads) (hchart : Chart quads) (hip : m.ip = i)
  (hstack : Stacked quads i m.frames m.pending m.indices) (hi : 1 ≤ i)
  (howner : owner quads i = some f.address) (hidle : standing quads i = {})

include him hchart hip hstack hi howner hidle

theorem retNone_proceeds (hq : quads[i]? = some { op := .ret, res := .cell f.address }) :
    Proceeds quads i m { op := .ret, res := .cell f.address }
      (Execute.exec im { op := .ret, res := .cell f.address } m.advance) := by
  show Proceeds quads i m _ (Execute.ret im Operand.none (Operand.cell f.address).word m.advance)
  obtain ⟨r, rest, hframes, hcallee⟩ := hstack.frame howner
  obtain ⟨j, hj, hlanding⟩ := landing_of_owner him hchart hi howner hidle hq (by simp)
  have hnext : m.advance.ip.toNat = i + 1 := by
    show (m.ip + 1).toNat = i + 1
    omega
  unfold Execute.ret
  rw [Operand.word_cell, get_bind, show m.advance.frames = r :: rest from hframes]
  show Proceeds quads i m _ (((get : Execute Machine) >>= _) m.advance)
  rw [get_bind, hnext, hj]
  have heffect : Effect quads i m { op := .ret, res := .cell f.address } _ :=
    .ret hframes (.inl ⟨rfl, rfl⟩) hcallee hlanding
  have hsame : { r with staged := r.staged } :: rest = m.advance.frames := hframes.symm
  rw [hsame] at heffect
  exact .done heffect

theorem retSome_proceeds (hsuited : m.Suited quads)
    (hq : quads[i]? = some { op := .ret, arg1 := x, res := .cell f.address })
    (hx : x.Denotes quads (owner quads i) f.ty)
    (hslot : Layout.standard.Holds .stack f.ty f.address) :
    Proceeds quads i m { op := .ret, arg1 := x, res := .cell f.address }
      (Execute.exec im { op := .ret, arg1 := x, res := .cell f.address } m.advance) := by
  show Proceeds quads i m _ (Execute.ret im x (Operand.cell f.address).word m.advance)
  obtain ⟨r, rest, hframes, hcallee⟩ := hstack.frame howner
  obtain ⟨j, hj, hlanding⟩ := landing_of_owner him hchart hi howner hidle hq (by simp)
  have hnext : (m.ip + 1).toNat = i + 1 := by omega
  unfold Execute.ret
  rw [Operand.word_cell, get_bind, show m.advance.frames = r :: rest from hframes]
  simp only [if_pos hx.kind]
  refine .load hsuited hx fun v hv _ => ?_
  rw [him.typeOf hslot, Value.convert_eq_self hv, modify_bind, get_bind]
  have hend : im.functionEnd? f.address m.advance.ip.toNat = some j := by
    rw [← hj, ← hnext]
    rfl
  simp only [hend]
  exact .done (.ret hframes (.inr ⟨hx.kind, v, rfl, hv, hslot⟩) hcallee hlanding)

end

theorem leave_proceeds (hstack : Stacked quads i m.frames m.pending m.indices)
    (howner : owner quads i = some f.address) (hidle : standing quads i = {}) :
    Proceeds quads i m { op := .endFunction, res := .cell f.address }
      (Execute.exec im { op := .endFunction, res := .cell f.address } m.advance) := by
  show Proceeds quads i m _ (Execute.endFunction (Operand.cell f.address).word m.advance)
  obtain ⟨r, rest, hframes, hcallee⟩ := hstack.frame howner
  have heffect : Effect quads i m { op := .endFunction, res := .cell f.address } _ :=
    .leave hidle hframes hcallee
  unfold Execute.endFunction
  rw [Operand.word_cell, get_bind, show m.advance.frames = r :: rest from hframes]
  show Proceeds quads i m _ (((set (_ : Machine) : Execute PUnit) >>= _) m.advance)
  cases hstaged : r.staged with
  | none =>
    rw [hstaged] at heffect
    exact .done heffect
  | some v =>
    rw [hstaged] at heffect
    exact .done heffect

/-! ## Arrays -/

theorem check_proceeds (hsuited : m.Suited quads) {d : Dim}
    (hx : x.Denotes quads (owner quads i) .int) :
    Proceeds quads i m (d.check x) (Execute.exec im (d.check x) m.advance) := by
  show Proceeds quads i m _ (Execute.ver x (Operand.literal d.size).word
    (Operand.literal d.stride).word
    m.advance)
  unfold Execute.ver
  rw [Operand.word_literal, Operand.word_literal]
  refine .load hsuited hx fun v hv _ => ?_
  cases v with
  | int n =>
    by_cases hn : n < 0 ∨ d.size ≤ n
    · simp only [if_pos hn]
      exact .fails (.inr ⟨_, by decide, rfl⟩) rfl rfl rfl
    · simp only [if_neg hn]
      rw [not_or, Int64.not_lt, Int64.not_le, Int64.le_iff_toInt_le, Int64.lt_iff_toInt_lt] at hn
      exact .done (.check hn.1 hn.2)
  | _ => cases hv

theorem standard_bounds (h : Layout.standard.Holds segment ty a) :
    0 ≤ a.toInt ∧ a.toInt < 0x4000000000000000 := by
  have hall : ∀ s ∈ Layout.standard.slots, 0 ≤ s.low.toInt ∧ s.high.toInt < 2 ^ 62 := by
    decide +kernel
  obtain ⟨s, hs, -, hcontains⟩ := h
  have := hall s hs
  have := Slot.contains_iff.1 hcontains
  omega

/-- An array stays clear of the end of the addresses. -/
theorem block_bounds {total : Int} (hpos : 1 ≤ total)
    (hblock : ∀ b : Addr, base.toInt ≤ b.toInt → b.toInt < base.toInt + total →
      Layout.standard.Holds segment ty b) :
    0 ≤ base.toInt ∧ base.toInt + total ≤ 0x4000000000000000 := by
  have hbase := standard_bounds (hblock base (Int.le_refl _) (by omega))
  refine ⟨hbase.1, Int.not_lt.1 fun hlt => ?_⟩
  have htop : (0x4000000000000000 : Int64).toInt = 0x4000000000000000 := by decide
  have := standard_bounds (hblock 0x4000000000000000 (by omega) (by omega))
  omega

theorem element_proceeds (him : im.Standard quads) (hchart : Chart quads)
    (hstack : Stacked quads i m.frames m.pending m.indices) {ds rest : List Dim} {total : Int}
    {p : Addr} (hq : elementQuad ds.length base p ∈ quads) (hds : ds ≠ [])
    (hdims : (standing quads i).dims = ds.reverse ++ rest) (hstrided : Strided ds total)
    (hblock : ∀ b : Addr, base.toInt ≤ b.toInt → b.toInt < base.toInt + total →
      Layout.standard.Holds segment ty b)
    (hp : Layout.standard.Holds .temps .int p) :
    Proceeds quads i m (elementQuad ds.length base p)
      (Execute.exec im (elementQuad ds.length base p) m.advance) := by
  show Proceeds quads i m _ (Execute.addDim im ds.length (Operand.literal base).word
    (Operand.cell p).word m.advance)
  rw [Operand.word_literal, Operand.word_cell]
  obtain ⟨own, rest', is, is', -, hindices, -, hchecked, -⟩ := hstack
  rw [hdims] at hchecked
  obtain ⟨js, ks, rfl, hjs, -⟩ := hchecked.split
  have hlength : js.length = ds.length := by rw [hjs.length_eq, List.length_reverse]
  have hpos : 0 < ds.length := List.length_pos_iff.2 hds
  have hreverse := hjs.reverse
  rw [List.reverse_reverse] at hreverse
  obtain ⟨hlow, hhigh⟩ := block_bounds hstrided.positive hblock
  have hsum := hreverse.foldl_eq hstrided hlow hhigh
  have hoffset := hstrided.offset_bounds hreverse.within
  have htake : m.advance.indices.take ds.length = js := by
    show m.indices.take ds.length = js
    rw [hindices, List.append_assoc, ← hlength, List.take_left]
  have henough : ds.length ≤ m.advance.indices.length := by
    show ds.length ≤ m.indices.length
    rw [hindices, List.length_append, List.length_append]
    omega
  rw [Execute.addDim_eq hpos henough, htake, Execute.store_eq him hp]
  refine .done (.element (by rw [hdims]; simp) hp ⟨_, _, hp, rfl, ?_⟩)
  intro n base' helement segment' ty' hbase'
  have hsame := hchart.eq_of_fills hq helement ⟨rfl, rfl, _, hp⟩ ⟨rfl, rfl, _, hp⟩
  have hbase : base = base' := by
    have := congrArg (fun q => q.arg2.word) hsame
    simpa [elementQuad] using this
  subst hbase
  have hfirst := hblock base (Int.le_refl _) (by have := hstrided.positive; omega)
  obtain ⟨rfl, rfl⟩ := Layout.standard_holds_inj hbase' hfirst
  refine ⟨_, rfl, hblock _ ?_ ?_⟩
  · rw [hsum]
    omega
  · rw [hsum]
    omega

/-! ## Steps -/

/-- Every instruction of a charted program proceeds on a machine in order. -/
theorem exec_proceeds (him : im.Standard quads) (hchart : Chart quads) (hsuited : m.Suited quads)
    (hip : m.ip = i) (hstack : Stacked quads i m.frames m.pending m.indices) (hi : 1 ≤ i)
    (hq : quads[i]? = some q) : Proceeds quads i m q (Execute.exec im q m.advance) := by
  have hmem := List.mem_of_getElem? hq
  cases hchart.fits i q hi hq with
  | binary hx hy hty ha => exact binary_proceeds him hchart hsuited hmem hx hy hty ha
  | unary hx hty ha => exact unary_proceeds him hchart hsuited hmem hx hty ha
  | copy hy hx hplain hassign => exact copy_proceeds him hchart hsuited hmem hy hx hplain hassign
  | result _ _ hslot ha => exact result_proceeds him hchart hsuited hmem hslot ha
  | read hx hplain _ => exact read_proceeds him hchart hsuited hmem hx hplain
  | write hx => exact write_proceeds hsuited hx
  | jump hlanding => exact .done (.jump (.inl rfl) hlanding)
  | skip hx hlanding => exact skip_proceeds hsuited hx hlanding
  | era => exact era_proceeds
  | param hx _ hp hcalls => exact param_proceeds him hchart hsuited hstack hx hp hcalls
  | gosub hcalls hentry => exact gosub_proceeds hstack hcalls hentry
  | retNone howner hidle => exact retNone_proceeds him hchart hip hstack hi howner hidle hq
  | retSome howner hidle hx _ hslot =>
    exact retSome_proceeds him hchart hip hstack hi howner hidle hsuited hq hx hslot
  | leave howner hclear => exact leave_proceeds hstack howner hclear.standing
  | check hx => exact check_proceeds hsuited hx
  | element hds hdims hstrided hblock _ hp =>
    exact element_proceeds him hchart hstack hmem hds hdims hstrided hblock hp

end

end Quadlang
