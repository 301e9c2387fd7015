-- A chart of the instructions of a program: what is under way at each of them, read off the
-- instructions before it, the function that it belongs to, read off those after it, and what
-- each instruction needs of its place to be executed without confusion.
import Quadlang.Proofs.Program.Sources

namespace Quadlang

open Source

variable {code quads : List Quad} {base i : Nat} {q : Quad}

/-! ## Standings -/

/-- What is under way: the calls whose arguments are being passed, and the dimensions whose
indices were checked, the newest first. -/
structure Standing where
  calls : List Addr := []
  dims : List Dim := []

/-- What is under way after an instruction. -/
def Standing.after (s : Standing) (q : Quad) : Standing :=
  match q.op with
  | .era => { s with calls := q.res.word :: s.calls }
  | .gosub => { s with calls := s.calls.tail }
  | .ver => { s with dims := ⟨q.arg2.word, q.res.word⟩ :: s.dims }
  | .addDim => { s with dims := s.dims.drop q.arg1.value.toNat }
  | _ => s

/-- What is under way at a position, as the text of the program has it. -/
def standing (quads : List Quad) (i : Nat) : Standing := (quads.take i).foldl Standing.after {}

theorem standing_succ (h : quads[i]? = some q) :
    standing quads (i + 1) = (standing quads i).after q := by
  unfold standing
  rw [List.take_add_one, h, List.foldl_append]
  rfl

/-- The function that a position belongs to, by its return slot: the one that ends next. -/
def owner (quads : List Quad) (i : Nat) : Option Addr :=
  (quads.drop i).findSome? fun q => if q.op = .endFunction then some q.res.word else none

theorem owner_succ (h : quads[i]? = some q) (hq : q.op ≠ .endFunction) :
    owner quads (i + 1) = owner quads i := by
  obtain ⟨hi, rfl⟩ := List.getElem?_eq_some_iff.1 h
  unfold owner
  rw [List.drop_eq_getElem_cons hi, List.findSome?_cons, if_neg hq]

theorem owner_leave (h : quads[i]? = some q) (hq : q.op = .endFunction) :
    owner quads i = some q.res.word := by
  obtain ⟨hi, rfl⟩ := List.getElem?_eq_some_iff.1 h
  unfold owner
  rw [List.drop_eq_getElem_cons hi, List.findSome?_cons, if_pos hq]

/-! ## Pieces of a program -/

/-- Some instructions stand in a program from a position on. -/
def Placed (quads : List Quad) (base : Nat) (code : List Quad) : Prop :=
  ∀ i q, code[i]? = some q → quads[base + i]? = some q

theorem Placed.append {quads : List Quad} {base : Nat} {code code' : List Quad}
    (h : Placed quads base (code ++ code')) :
    Placed quads base code ∧ Placed quads (base + code.length) code' := by
  constructor
  · intro i q hq
    obtain ⟨hi, -⟩ := List.getElem?_eq_some_iff.1 hq
    apply h
    rw [List.getElem?_append_left hi]
    exact hq
  · intro i q hq
    rw [Nat.add_assoc]
    apply h
    rw [List.getElem?_append_right (Nat.le_add_right ..), Nat.add_sub_cancel_left]
    exact hq

theorem end_append_cons (base : Nat) (code : List Quad) (q : Quad) (code' : List Quad) :
    base + (code ++ q :: code').length = base + code.length + 1 + code'.length := by
  simp only [List.length_append, List.length_cons]
  omega

theorem Placed.head (h : Placed quads base (q :: code)) : quads[base]? = some q := h 0 q rfl

theorem Placed.tail (h : Placed quads base (q :: code)) : Placed quads (base + 1) code := by
  intro i q' hq'
  have := h (i + 1) q' hq'
  rwa [Nat.add_comm i 1, ← Nat.add_assoc] at this

section

variable {quads : List Quad} {base : Nat} {code : List Quad} (h : Placed quads base code)
  (quads' : List Quad)

include h

theorem Placed.left : Placed (quads ++ quads') base code := by
  intro i q hq
  have hi := h i q hq
  obtain ⟨hlt, -⟩ := List.getElem?_eq_some_iff.1 hi
  rw [List.getElem?_append_left hlt]
  exact hi

theorem Placed.right : Placed (quads' ++ quads) (quads'.length + base) code := by
  intro i q hq
  rw [Nat.add_assoc, List.getElem?_append_right (Nat.le_add_right ..), Nat.add_sub_cancel_left]
  exact h i q hq

end

theorem Placed.mem (h : Placed quads base code) (hq : q ∈ code) : q ∈ quads := by
  obtain ⟨i, hi⟩ := List.mem_iff_getElem?.1 hq
  exact List.mem_of_getElem? (h i q hi)

theorem Placed.trans {code' : List Quad} {start : Nat} (h : Placed quads base code)
    (h' : Placed code start code') : Placed quads (base + start) code' := by
  intro i q hq
  rw [Nat.add_assoc]
  exact h _ q (h' i q hq)

/-- What stands between the ends of a piece is an instruction of it. -/
theorem Placed.inside (h : Placed quads base code) {i : Nat} (hle : base ≤ i)
    (hlt : i < base + code.length) (hq : quads[i]? = some q) :
    ∃ k, i = base + k ∧ code[k]? = some q := by
  obtain ⟨k, rfl⟩ := Nat.exists_eq_add_of_le hle
  have hk := List.getElem?_eq_getElem (l := code) (i := k) (by omega)
  rw [h k _ hk] at hq
  exact ⟨k, rfl, hk.trans hq⟩

theorem Placed.of_append (pre code post : List Quad) :
    Placed (pre ++ code ++ post) pre.length code := by
  intro i q hq
  obtain ⟨hi, -⟩ := List.getElem?_eq_some_iff.1 hq
  rw [List.append_assoc, List.getElem?_append_right (Nat.le_add_right ..), Nat.add_sub_cancel_left,
    List.getElem?_append_left hi]
  exact hq

theorem Placed.standing (h : Placed quads base code) :
    standing quads (base + code.length) = code.foldl Standing.after (standing quads base) := by
  induction code generalizing base with
  | nil => rfl
  | cons q code ih =>
    rw [List.foldl_cons, ← standing_succ h.head, ← ih h.tail, List.length_cons, Nat.add_assoc,
      Nat.add_comm 1]

/-- A piece of a program in which no function ends belongs to one function. -/
theorem Placed.owner (h : Placed quads base code) (hstays : ∀ q ∈ code, q.op ≠ .endFunction)
    {k : Nat} (hk : k ≤ code.length) : owner quads (base + k) = owner quads base := by
  induction k with
  | zero => rfl
  | succ k ih =>
    have hq := h k code[k] (List.getElem?_eq_getElem hk)
    rw [← Nat.add_assoc, owner_succ hq (hstays _ (List.getElem_mem hk)), ih (Nat.le_of_lt hk)]

/-- From a position on, every temporary is filled before it is used. -/
def SelfContained (quads : List Quad) (start : Nat) : Prop :=
  ∀ k q, start ≤ k → quads[k]? = some q → ∀ a, q.Uses a →
    ∃ k' q', start ≤ k' ∧ k' < k ∧ quads[k']? = some q' ∧ q'.Fills a

/-- Code that fills its own temporaries may stand before what does. -/
theorem SelfContained.back {m : Memory} (h : SelfContained quads (base + code.length))
    (hplaced : Placed quads base code) (hclosed : Closed m code) : SelfContained quads base := by
  intro k q hk hq a huse
  by_cases hlt : k < base + code.length
  · obtain ⟨i, rfl⟩ := Nat.exists_eq_add_of_le hk
    have hi : i < code.length := Nat.lt_of_add_lt_add_left hlt
    have hcode := List.getElem?_eq_getElem hi
    rw [hplaced i _ hcode] at hq
    rw [hq] at hcode
    obtain ⟨q', hq', hfill⟩ := hclosed.filled i q hcode a huse
    obtain ⟨i', hi'⟩ := List.mem_iff_getElem?.1 hq'
    obtain ⟨hbound, -⟩ := List.getElem?_eq_some_iff.1 hi'
    rw [List.length_take] at hbound
    rw [List.getElem?_take_of_lt (by omega)] at hi'
    exact ⟨base + i', q', Nat.le_add_right .., by omega, hplaced i' q' hi', hfill⟩
  · obtain ⟨k', q', hstart, hbefore, hq', hfill⟩ := h k q (Nat.not_lt.1 hlt) hq a huse
    exact ⟨k', q', by omega, hbefore, hq', hfill⟩

/-! ## Places that instructions fit -/

/-- The operand stands for a value of a type: a cell, or the element that a pointer found. The
variables of functions are named inside of functions only, and return slots never. -/
inductive Operand.Denotes (quads : List Quad) (function : Option Addr) (ty : Ty) : Operand → Prop
  | cell {segment : Segment} {a : Addr} :
      Layout.standard.Holds segment ty a → segment ≠ .stack →
      (segment = .functions → function.isSome = true) → Denotes quads function ty (.cell a)
  | pointer {segment : Segment} {n : Nat} {base p : Addr} :
      elementQuad n base p ∈ quads → Layout.standard.Holds segment ty base →
      segment = .locals ∨ segment = .functions ∧ function.isSome = true →
      Denotes quads function ty (.pointer p)

/-- The operand names no constant. -/
def Operand.NotConstant (x : Operand) : Prop :=
  ∀ a ty, x = .cell a → ¬ Layout.standard.Holds .globals ty a

/-- The instruction takes the value of a return slot. -/
def Quad.TakesResult (q : Quad) : Prop :=
  q.op = .assign ∧ ∃ a ty, q.arg1 = .cell a ∧ Layout.standard.Holds .stack ty a

/-- A position where nothing is under way, no result is waited for, and nothing worked out before
is still to be used. -/
structure Clear (quads : List Quad) (i : Nat) : Prop where
  first : 1 ≤ i
  last : i ≤ quads.length
  standing : standing quads i = {}
  plain : ∀ q, quads[i]? = some q → ¬ q.TakesResult
  contained : SelfContained quads i

/-- A position that a jump may go to: in the same function. -/
structure Landing (quads : List Quad) (i target : Nat) : Prop extends Clear quads target where
  idle : Quadlang.standing quads i = {}
  owner : owner quads target = owner quads i

/-- The position that calls of a function enter. -/
structure Entry (quads : List Quad) (f : Callee) : Prop extends Clear quads f.target where
  owner : owner quads f.target = some f.address

/-- What an instruction needs of its place in a program. -/
inductive Fits (quads : List Quad) (i : Nat) : Quad → Prop
  | binary {op : BinaryOp} {x y : Operand} {tx ty t : Ty} {a : Addr} :
      x.Denotes quads (owner quads i) tx → y.Denotes quads (owner quads i) ty →
      Typing.binary op tx ty = some t → Layout.standard.Holds .temps t a →
      Fits quads i { op := op.opcode, arg1 := x, arg2 := y, res := .cell a }
  | unary {op : UnaryOp} {x : Operand} {tx t : Ty} {a : Addr} :
      x.Denotes quads (owner quads i) tx → Typing.unary op tx = some t →
      Layout.standard.Holds .temps t a → Fits quads i { op := op.opcode, arg1 := x, res := .cell a }
  | copy {x y : Operand} {tx ty : Ty} :
      y.Denotes quads (owner quads i) ty → x.Denotes quads (owner quads i) tx →
      x.NotConstant → Typing.assignable tx ty = true → Fits quads i (copyQuad y x)
  | result {f : Callee} {a : Addr} :
      1 ≤ i → quads[i - 1]? = some f.gosub → Layout.standard.Holds .stack f.ty f.address →
      Layout.standard.Holds .temps f.ty a → Fits quads i (copyQuad (.cell f.address) (.cell a))
  | read {x : Operand} {ty : Ty} :
      x.Denotes quads (owner quads i) ty → x.NotConstant → Typing.isPrimitive ty = true →
      Fits quads i (readQuad x)
  | write {x : Operand} {ty : Ty} :
      x.Denotes quads (owner quads i) ty → Fits quads i (writeQuad x)
  | jump {target : Nat} : Landing quads i target → Fits quads i (jumpQuad target)
  | skip {x : Operand} {target : Nat} :
      x.Denotes quads (owner quads i) .bool → Landing quads i target →
      Fits quads i (skipQuad x target)
  | era {f : Callee} : Fits quads i f.era
  | param {p : Param} {x : Operand} :
      x.Denotes quads (owner quads i) p.ty → Typing.isPrimitive p.ty = true →
      Layout.standard.Holds .functions p.ty p.address → (standing quads i).calls ≠ [] →
      Fits quads i (p.bind x)
  | gosub {f : Callee} {rest : List Addr} :
      (standing quads i).calls = f.address :: rest → Entry quads f → Fits quads i f.gosub
  | retNone {f : Callee} :
      owner quads i = some f.address → standing quads i = {} →
      Fits quads i { op := .ret, res := .cell f.address }
  | retSome {f : Callee} {x : Operand} :
      owner quads i = some f.address → standing quads i = {} →
      x.Denotes quads (owner quads i) f.ty → Typing.isPrimitive f.ty = true →
      Layout.standard.Holds .stack f.ty f.address →
      Fits quads i { op := .ret, arg1 := x, res := .cell f.address }
  | leave {f : Callee} :
      owner quads i = some f.address → Clear quads i →
      Fits quads i { op := .endFunction, res := .cell f.address }
  | check {d : Dim} {x : Operand} :
      x.Denotes quads (owner quads i) .int → Fits quads i (d.check x)
  | element {ds rest : List Dim} {total : Int} {segment : Segment} {ty : Ty} {base p : Addr} :
      ds ≠ [] → (standing quads i).dims = ds.reverse ++ rest → Strided ds total →
      (∀ b : Addr, base.toInt ≤ b.toInt → b.toInt < base.toInt + total →
        Layout.standard.Holds segment ty b) →
      segment ≠ .stack → Layout.standard.Holds .temps .int p →
      Fits quads i (elementQuad ds.length base p)

end Quadlang
