-- Elements of arrays in compiled code: the index expressions of an access are worked out and
-- checked one after the other, then the element is found. Every access of the source has a place of
-- its own, and every instruction that checks an index or finds an element belongs to one of them.
import Quadlang.Proofs.Program.Operations
import Quadlang.Proofs.Program.Spans

namespace Quadlang

open Source

variable {code quads : List Quad} {q : Quad} {es : List Expr} {i : Nat}

/-! ## Accesses of a tree -/

/-- An access to an element: a name, the fields that lead from it to an array, and the index
expressions. -/
structure Source.Access where
  name : Bytes
  members : List Bytes
  indices : List Expr

mutual

def Source.Expr.accesses : Expr → List Access
  | .constant _ _ => []
  | .group e => e.accesses
  | .call _ args => allAccesses args
  | .reference name members indices =>
    (if indices.isEmpty then [] else [⟨name, members, indices⟩]) ++ allAccesses indices
  | .unary _ e => e.accesses
  | .binary _ l r => l.accesses ++ r.accesses

def Source.Expr.allAccesses : List Expr → List Access
  | [] => []
  | e :: es => e.accesses ++ allAccesses es

end

mutual

def Source.Stmt.accesses : Stmt → List Access
  | .assign p e => p.expr.accesses ++ e.accesses
  | .call _ args => Expr.allAccesses args
  | .read places => Expr.allAccesses (places.map Place.expr)
  | .write values => Expr.allAccesses values
  | .ret none => []
  | .ret (some e) => e.accesses
  | .branch c body => c.accesses ++ allAccesses body
  | .branchElse c body other => c.accesses ++ (allAccesses body ++ allAccesses other)
  | .loop c body => c.accesses ++ allAccesses body

def Source.Stmt.allAccesses : List Stmt → List Access
  | [] => []
  | s :: ss => s.accesses ++ allAccesses ss

end

/-! ## Places of accesses -/

/-- Where an index is worked out, from `first` on, and checked against a dimension. -/
structure Mark where
  first : Nat
  operand : Operand
  dim : Dim
  position : Nat

/-- An index expression is worked out and checked there. -/
structure Mark.In (names : Names) (e : Expr) (quads : List Quad) (mark : Mark) : Prop where
  code : ∃ code, names.Works e mark.operand code ∧ Placed quads mark.first code ∧
    mark.first + code.length = mark.position
  check : quads[mark.position]? = some (mark.dim.check mark.operand)

/-- Index expressions are worked out and checked one after the other, from one position up to
another. -/
inductive Marks (names : Names) (quads : List Quad) : Nat → List Expr → List Mark → Nat → Prop
  | nil {i : Nat} : Marks names quads i [] [] i
  | cons {mark : Mark} {marks : List Mark} {e : Expr} {es : List Expr} {stop : Nat} :
      mark.In names e quads → Marks names quads (mark.position + 1) es marks stop →
      Marks names quads mark.first (e :: es) (mark :: marks) stop

/-- Where an element of an array is found: its indices are checked from `start` on, and the
instruction at `position` leaves a pointer to it. -/
structure ElementSite where
  access : Access
  array : Placement
  marks : List Mark
  pointer : Addr
  start : Nat
  position : Nat

/-- The element is found there. The array is the one that the names of the access lead to. It has
its sizes in row-major order, and its addresses are all for values of its type. -/
structure ElementSite.In (names : Names) (quads : List Quad) (s : ElementSite) : Prop where
  path : s.array.path = s.access.name :: s.access.members
  finds : names.Finds s.array
  dims : s.marks.map (·.dim) = s.array.dims
  indexed : s.marks ≠ []
  marks : Marks names quads s.start s.access.indices s.marks s.position
  quad : quads[s.position]? = some (elementQuad s.array.dims.length s.array.address s.pointer)
  pointer : Layout.standard.Holds .temps .int s.pointer
  strided : Strided s.array.dims s.array.size.toInt
  block : ∃ segment, (segment = .locals ∨ segment = .functions) ∧
    ∀ b, InBlock s.array.address s.array.size b → Layout.standard.Holds segment s.array.ty b

/-- The instruction checks an index there, or finds the element. -/
def ElementSite.Ends (s : ElementSite) (i : Nat) (op : Opcode) : Prop :=
  op = .ver ∧ (∃ mark ∈ s.marks, mark.position = i) ∨ op = .addDim ∧ s.position = i

/-- Some elements are found in a piece of a program, each at a place of its own. Each instruction
of the piece that checks an index or finds an element belongs to one of them, or is one of some
checks of an access around them. -/
structure Sited (names : Names) (places : List Placement) (quads : List Quad)
    (sites : List ElementSite) (own : List Mark) (base : Nat) (code : List Quad) : Prop where
  found : ∀ s ∈ sites, s.In names quads ∧ s.array ∈ places
  inside : ∀ s ∈ sites, base ≤ s.position ∧ s.position < base + code.length
  apart : (sites.map (·.position)).Nodup
  belongs : ∀ k q, code[k]? = some q → q.op = .ver ∨ q.op = .addDim →
    (∃ s ∈ sites, s.Ends (base + k) q.op) ∨ q.op = .ver ∧ ∃ mark ∈ own, mark.position = base + k

/-- A piece of a program has a place for each of some accesses. -/
def Covers (names : Names) (places : List Placement) (quads : List Quad) (accesses : List Access)
    (own : List Mark) (base : Nat) (code : List Quad) : Prop :=
  ∃ sites, sites.map (·.access) = accesses ∧ Sited names places quads sites own base code

section

variable {names : Names} {places : List Placement} {quads : List Quad} {as as' : List Access}
  {own own' : List Mark} {base : Nat} {code code' : List Quad}

theorem covers_nil : Covers names places quads [] [] base [] :=
  ⟨[], rfl, by simp, by simp, by simp, by simp⟩

theorem covers_single (hver : q.op ≠ .ver) (hadd : q.op ≠ .addDim) :
    Covers names places quads [] [] base [q] := by
  refine ⟨[], rfl, by simp, by simp, by simp, ?_⟩
  intro k q' hq' hop
  obtain rfl := List.mem_singleton.1 (List.mem_of_getElem? hq')
  rcases hop with hop | hop
  · exact absurd hop hver
  · exact absurd hop hadd

theorem Covers.append (h : Covers names places quads as own base code)
    (h' : Covers names places quads as' own' (base + code.length) code') :
    Covers names places quads (as ++ as') (own ++ own') base (code ++ code') := by
  obtain ⟨sites, rfl, h⟩ := h
  obtain ⟨sites', rfl, h'⟩ := h'
  refine ⟨sites ++ sites', List.map_append, ?_, ?_, ?_, ?_⟩
  · intro s hs
    exact (List.mem_append.1 hs).elim (h.found s) (h'.found s)
  · intro s hs
    rw [List.length_append]
    rcases List.mem_append.1 hs with hs | hs
    · have := h.inside s hs
      omega
    · have := h'.inside s hs
      omega
  · rw [List.map_append]
    refine h.apart.append h'.apart ?_
    intro i hi hi'
    obtain ⟨s, hs, rfl⟩ := List.mem_map.1 hi
    obtain ⟨s', hs', heq : s'.position = s.position⟩ := List.mem_map.1 hi'
    have := h.inside s hs
    have := h'.inside s' hs'
    omega
  · intro k q hq hop
    by_cases hk : k < code.length
    · rw [List.getElem?_append_left hk] at hq
      rcases h.belongs k q hq hop with ⟨s, hs, hends⟩ | ⟨hver, mark, hmark, hposition⟩
      · exact .inl ⟨s, List.mem_append_left _ hs, hends⟩
      · exact .inr ⟨hver, mark, List.mem_append_left _ hmark, hposition⟩
    · rw [List.getElem?_append_right (Nat.not_lt.1 hk)] at hq
      have hbelongs := h'.belongs _ q hq hop
      rw [Nat.add_assoc, Nat.add_sub_cancel' (Nat.not_lt.1 hk)] at hbelongs
      rcases hbelongs with ⟨s, hs, hends⟩ | ⟨hver, mark, hmark, hposition⟩
      · exact .inl ⟨s, List.mem_append_right _ hs, hends⟩
      · exact .inr ⟨hver, mark, List.mem_append_right _ hmark, hposition⟩

theorem Covers.cons {q : Quad} (hver : q.op ≠ .ver) (hadd : q.op ≠ .addDim)
    (h : Covers names places quads as own (base + 1) code) :
    Covers names places quads as own base (q :: code) :=
  (covers_single hver hadd).append h

theorem Covers.concat (h : Covers names places quads as [] base code) (hver : q.op ≠ .ver)
    (hadd : q.op ≠ .addDim) : Covers names places quads as [] base (code ++ [q]) := by
  have happend := h.append (covers_single hver hadd)
  rw [List.append_nil] at happend
  exact happend

/-- The check of an index of an access around. -/
theorem covers_check {mark : Mark} (hop : q.op = .ver) (hposition : mark.position = base) :
    Covers names places quads [] [mark] base [q] := by
  refine ⟨[], rfl, by simp, by simp, by simp, ?_⟩
  intro k q' hq' _
  obtain ⟨hk, -⟩ := List.getElem?_eq_some_iff.1 hq'
  obtain rfl : k = 0 := Nat.lt_one_iff.1 hk
  obtain rfl := Option.some.inj hq'
  exact .inr ⟨hop, mark, List.mem_singleton_self _, hposition⟩

/-- The checks of an access belong to it, once it is complete. -/
theorem Covers.element {s : ElementSite} {q : Quad}
    (h : Covers names places quads as s.marks base code)
    (hsite : s.In names quads) (harray : s.array ∈ places) (hq : q.op = .addDim)
    (hposition : s.position = base + code.length) :
    Covers names places quads (s.access :: as) [] base (code ++ [q]) := by
  obtain ⟨sites, rfl, h⟩ := h
  refine ⟨s :: sites, rfl, ?_, ?_, ?_, ?_⟩
  · intro s' hs'
    rcases List.mem_cons.1 hs' with rfl | hs'
    · exact ⟨hsite, harray⟩
    · exact h.found s' hs'
  · intro s' hs'
    rw [List.length_append, List.length_singleton]
    rcases List.mem_cons.1 hs' with rfl | hs'
    · omega
    · have := h.inside s' hs'
      omega
  · refine List.nodup_cons.2 ⟨?_, h.apart⟩
    intro hmem
    obtain ⟨s', hs', heq : s'.position = s.position⟩ := List.mem_map.1 hmem
    have := h.inside s' hs'
    omega
  · intro k q' hq' hop
    by_cases hk : k < code.length
    · rw [List.getElem?_append_left hk] at hq'
      rcases h.belongs k q' hq' hop with ⟨s', hs', hends⟩ | ⟨hver, hmark⟩
      · exact .inl ⟨s', List.mem_cons_of_mem _ hs', hends⟩
      · exact .inl ⟨s, List.mem_cons_self .., .inl ⟨hver, hmark⟩⟩
    · obtain ⟨hlt, -⟩ := List.getElem?_eq_some_iff.1 hq'
      rw [List.length_append, List.length_singleton] at hlt
      obtain rfl : k = code.length := by omega
      rw [List.getElem?_append_right (Nat.le_refl _), Nat.sub_self] at hq'
      obtain rfl := Option.some.inj hq'
      exact .inl ⟨s, List.mem_cons_self .., .inr ⟨hq, hposition⟩⟩

end

section

variable {names : Names} {outer inner : List Placement} {fs : List (Callee × List Param)}
  {quads : List Quad}

/-- The variable that a name leads to, as an array. -/
theorem Names.Ready.array {m : Memory} (h : names.Ready outer inner fs m) {name : Bytes}
    {members : List Bytes} {sym : Symbol} {a : Addr} (hreach : names.reach? name members = some sym)
    (hkind : sym.kind = .variable (some a)) :
    (⟨name :: members, sym.ty, sym.dims, a⟩ : Placement) ∈ outer ++ inner ∧
      Strided sym.dims (Dim.total sym.dims).toInt ∧
      ∃ segment, (segment = .locals ∨ segment = .functions) ∧
        ∀ b, InBlock a (Dim.total sym.dims) b → Layout.standard.Holds segment sym.ty b := by
  obtain ⟨segment, hsegment, hshaped, hin⟩ := h.reach hreach hkind
  exact ⟨List.mem_append.2 (h.sound.stored hreach hkind), hshaped.2, segment,
    hsegment.imp_right And.left, fun b hb => h.holds (hin.2 b hb)⟩

theorem Marks.length_eq {start stop : Nat} {marks : List Mark}
    (h : Marks names quads start es marks stop) : marks.length = es.length := by
  induction h with
  | nil => rfl
  | cons _ _ ih => simp [ih]

mutual

theorem ExprCode.covers {e : Expr} {x : TypedOperand} {m m' : Memory} {code : List Quad}
    {base : Nat} : ExprCode names e m x code m' → names.Ready outer inner fs m →
    Placed quads base code → Covers names (outer ++ inner) quads e.accesses [] base code
  | .constant _, _, _ => covers_nil
  | .group he, hready, hplaced => he.covers hready hplaced
  | @ExprCode.call _ _ _ f a code _ _ _ _ hargs _ _, hready, hplaced => by
    rw [f.append_result] at hplaced ⊢
    refine Covers.concat (.concat (.cons (by simp [Callee.era]) (by simp [Callee.era]) ?_)
      (by simp [Callee.gosub]) (by simp [Callee.gosub])) (by simp [copyQuad]) (by simp [copyQuad])
    exact hargs.covers hready hplaced.append.1.append.1.tail
  | .variable _ _ _ _, _, _ => covers_nil
  | @ExprCode.element _ name members es sym a p code _ _ _ hreach hkind _ hes his ha,
      hready, hplaced => by
    obtain ⟨hindices, helement⟩ := hplaced.append
    obtain ⟨marks, hmarks, hdims, hcovers⟩ := his.covers hready hindices
    obtain ⟨harray, hstrided, hblock⟩ := hready.array hreach hkind
    have hpointer := (his.ready hready).temporary ha
    have hindexed : marks ≠ [] := by
      intro hnil
      have := hmarks.length_eq
      rw [hnil] at this
      exact hes (List.length_eq_zero_iff.1 this.symm)
    rw [Expr.accesses, if_neg (by simpa using hes)]
    exact hcovers.element (s := ⟨⟨name, members, es⟩, ⟨name :: members, sym.ty, sym.dims, a⟩, marks,
      p, base, base + code.length⟩)
      ⟨rfl, ⟨name, members, sym, rfl, hreach, hkind, rfl⟩, hdims, hindexed, hmarks,
        helement.head, hpointer, hstrided, hblock⟩ harray rfl rfl
  | @ExprCode.unary _ op _ _ _ _ _ _ _ _ he _ _, hready, hplaced => by
    refine (he.covers hready hplaced.append.1).concat ?_ ?_
    · cases op <;> simp [UnaryOp.opcode]
    · cases op <;> simp [UnaryOp.opcode]
  | @ExprCode.binary _ op l r _ _ _ _ _ _ _ _ _ _ hl hr _ _, hready, hplaced => by
    obtain ⟨hleft, hright⟩ := hplaced.append.1.append
    have hready₁ := hl.ready hready
    refine Covers.concat ((hl.covers hready hleft).append (hr.covers hready₁ hright)) ?_ ?_
    · cases op <;> simp [BinaryOp.opcode]
    · cases op <;> simp [BinaryOp.opcode]

theorem ArgsCode.covers {ps : List Param} {es : List Expr} {m m' : Memory} {code : List Quad}
    {base : Nat} : ArgsCode names ps es m code m' →
    names.Ready outer inner fs m → Placed quads base code →
    Covers names (outer ++ inner) quads (Expr.allAccesses es) [] base code
  | .nil, _, _ => covers_nil
  | .cons he _ hes, hready, hplaced => by
    obtain ⟨hfirst, hrest⟩ := hplaced.append
    have hready₁ := he.ready hready
    exact (he.covers hready hfirst).append (.cons (by simp [Param.bind]) (by simp [Param.bind])
      (hes.covers hready₁ hrest.tail))

theorem IndicesCode.covers {ds : List Dim} {es : List Expr} {m m' : Memory} {code : List Quad}
    {base : Nat} : IndicesCode names ds es m code m' →
    names.Ready outer inner fs m → Placed quads base code →
    ∃ marks, Marks names quads base es marks (base + code.length) ∧ marks.map (·.dim) = ds ∧
      Covers names (outer ++ inner) quads (Expr.allAccesses es) marks base code
  | .nil, _, _ => ⟨[], .nil, rfl, covers_nil⟩
  | @IndicesCode.cons _ d _ _ _ x code code' _ _ _ he _ hes, hready, hplaced => by
    obtain ⟨hfirst, hrest⟩ := hplaced.append
    have hready₁ := he.ready hready
    obtain ⟨marks, hmarks, hdims, hcovers⟩ := hes.covers hready₁ hrest.tail
    have hmark : Mark.In names _ quads ⟨base, x.operand, d, base + code.length⟩ :=
      ⟨⟨code, he.works hready, hfirst, rfl⟩, hrest.head⟩
    have hcheck : Covers names (outer ++ inner) quads [] [⟨base, x.operand, d, base + code.length⟩]
        (base + code.length) [d.check x.operand] := covers_check rfl rfl
    refine ⟨⟨base, x.operand, d, base + code.length⟩ :: marks, ?_, congrArg (List.cons d) hdims, ?_⟩
    · rw [end_append_cons]
      exact .cons hmark hmarks
    · rw [Expr.allAccesses]
      exact (he.covers hready hfirst).append (hcheck.append hcovers)

end

theorem UsesCode.covers {use : Operand → Quad} {m m' : Memory} {base : Nat}
    (h : UsesCode names use es m code m') (hready : names.Ready outer inner fs m)
    (hplaced : Placed quads base code) (hver : ∀ x, (use x).op ≠ .ver)
    (hadd : ∀ x, (use x).op ≠ .addDim) :
    Covers names (outer ++ inner) quads (Expr.allAccesses es) [] base code := by
  induction h generalizing base with
  | nil => exact covers_nil
  | cons he _ _ ih =>
    obtain ⟨hfirst, hrest⟩ := hplaced.append
    have hready₁ := he.ready hready
    exact (he.covers hready hfirst).append (.cons (hver _) (hadd _) (ih hready₁ hrest.tail))

variable {function : Option Callee}

mutual

theorem StmtCode.covers {start : Nat} {s : Stmt} {m m' : Memory} {code : List Quad} {base : Nat} :
    StmtCode names function start s m code m' → names.Ready outer inner fs m →
    Placed quads base code → Covers names (outer ++ inner) quads s.accesses [] base code
  | .assign hx hy _, hready, hplaced => by
    obtain ⟨hleft, hright⟩ := hplaced.append.1.append
    have hready₁ := hx.ready hready
    exact Covers.concat ((hx.covers hready hleft).append (hy.covers hready₁ hright))
      (by simp [copyQuad]) (by simp [copyQuad])
  | .call _ hargs, hready, hplaced => by
    refine Covers.concat (.cons (by simp [Callee.era]) (by simp [Callee.era]) ?_)
      (by simp [Callee.gosub]) (by simp [Callee.gosub])
    exact hargs.covers hready hplaced.append.1.tail
  | .read huses, hready, hplaced =>
    huses.covers hready hplaced (by simp [readQuad]) (by simp [readQuad])
  | .write huses, hready, hplaced =>
    huses.covers hready hplaced (by simp [writeQuad]) (by simp [writeQuad])
  | .retNone _ _, _, _ => covers_single (by simp) (by simp)
  | .retSome _ hx _ _, hready, hplaced =>
    (hx.covers hready hplaced.append.1).concat (by simp) (by simp)
  | .branch hc _ hbody, hready, hplaced => by
    obtain ⟨hfirst, hrest⟩ := hplaced.append
    have hready₁ := hc.ready hready
    exact (hc.covers hready hfirst).append (.cons (by simp [skipQuad]) (by simp [skipQuad])
      (hbody.covers hready₁ hrest.tail))
  | @StmtCode.branchElse _ _ _ _ _ _ x code code' code'' _ _ _ _ hc _ hbody hother,
      hready, hplaced => by
    obtain ⟨hfirst, hlast⟩ := hplaced.append
    obtain ⟨hcond, hthen⟩ := hfirst.append
    have hready₁ := hc.ready hready
    have hready₂ := hbody.ready hready₁
    rw [Stmt.accesses, ← List.append_assoc]
    refine Covers.append ((hc.covers hready hcond).append (.cons (by simp [skipQuad])
      (by simp [skipQuad]) (hbody.covers hready₁ hthen.tail))) ?_
    exact .cons (by simp [jumpQuad]) (by simp [jumpQuad]) (hother.covers hready₂ hlast.tail)
  | .loop hc _ hbody, hready, hplaced => by
    obtain ⟨hcond, hrest⟩ := hplaced.append.1.append
    have hready₁ := hc.ready hready
    refine Covers.concat ?_ (by simp [jumpQuad]) (by simp [jumpQuad])
    exact (hc.covers hready hcond).append (.cons (by simp [skipQuad]) (by simp [skipQuad])
      (hbody.covers hready₁ hrest.tail))

theorem StmtsCode.covers {start : Nat} {ss : List Stmt} {m m' : Memory} {code : List Quad}
    {base : Nat} : StmtsCode names function start ss m code m' → names.Ready outer inner fs m →
    Placed quads base code → Covers names (outer ++ inner) quads (Stmt.allAccesses ss) [] base code
  | .nil, _, _ => covers_nil
  | .cons hs hss, hready, hplaced => by
    obtain ⟨hfirst, hrest⟩ := hplaced.append
    exact (hs.covers hready hfirst).append (hss.covers (hs.ready hready) hrest)

end

end

/-! ## Accesses of a program -/

/-- A piece of code of a program covers the accesses of a body. The arrays that they lead to are
those that the body sees, and its names lead there when all is declared. -/
def Seated (g : Generator) (quads : List Quad) (body : Scene) (piece : Nat × List Quad) : Prop :=
  ∃ names places, Covers names places quads (Stmt.allAccesses body.statements) [] piece.1 piece.2 ∧
    (∀ a ∈ places, a.dims ≠ [] → a.leaf ∈ body.leaves) ∧ names.Within (g.namesIn body.function)

/-- A body of a compiled program: the names that it was compiled under with the variables that they
lead to, and where the elements are found that it accesses. -/
structure Seat extends Scene where
  names : Names
  places : List Placement
  sites : List ElementSite

/-- Each access of a body has a place of its own in a program. Its array is the one that is found
under the name in the body when all is declared. -/
structure Seat.In (g : Generator) (quads : List Quad) (seat : Seat) : Prop where
  names : seat.names.Within (g.namesIn seat.function)
  arrays : ∀ a ∈ seat.places, a.dims ≠ [] → a.leaf ∈ seat.leaves
  accesses : seat.sites.map (·.access) = Stmt.allAccesses seat.statements
  sites : ∀ s ∈ seat.sites, s.In seat.names quads ∧ s.array ∈ seat.places
  finds : ∀ s ∈ seat.sites, (g.namesIn seat.function).Finds s.array
  apart : (seat.sites.map (·.position)).Nodup

section

variable {g : Generator}

theorem Seat.In.leaf {seat : Seat} (h : seat.In g quads) {s : ElementSite} (hs : s ∈ seat.sites) :
    s.array.leaf ∈ seat.leaves := by
  obtain ⟨hin, harray⟩ := h.sites s hs
  refine h.arrays _ harray ?_
  rw [← hin.dims]
  simpa using hin.indexed

/-- Every instruction of a piece that checks an index or finds an element belongs to an access. -/
def SitedIn (seats : List Seat) (piece : Nat × List Quad) : Prop :=
  ∀ k q, piece.2[k]? = some q → q.op = .ver ∨ q.op = .addDim →
    ∃ seat ∈ seats, ∃ s ∈ seat.sites, s.Ends (piece.1 + k) q.op

theorem exists_seats {bodies : List Scene} {pieces : List (Nat × List Quad)}
    (h : List.Forall₂ (Seated g quads) bodies pieces) :
    ∃ seats : List Seat, seats.map (·.toScene) = bodies ∧
      (∀ seat ∈ seats, seat.In g quads) ∧ ∀ piece ∈ pieces, SitedIn seats piece := by
  induction h with
  | nil => exact ⟨[], rfl, by simp, by simp⟩
  | cons hseated _ ih =>
    obtain ⟨names, places, ⟨sites, haccesses, hsited⟩, harrays, hnames⟩ := hseated
    obtain ⟨seats, rfl, hin, hpieces⟩ := ih
    refine ⟨⟨_, names, places, sites⟩ :: seats, rfl, ?_, ?_⟩
    · intro seat hseat
      rcases List.mem_cons.1 hseat with rfl | hseat
      · exact ⟨hnames, harrays, haccesses, hsited.found,
          fun s hs => hnames.finds (hsited.found s hs).1.finds, hsited.apart⟩
      · exact hin seat hseat
    · intro piece hpiece k q hq hop
      rcases List.mem_cons.1 hpiece with rfl | hpiece
      · rcases hsited.belongs k q hq hop with ⟨s, hs, hends⟩ | ⟨-, mark, hmark, -⟩
        · exact ⟨_, List.mem_cons_self .., s, hs, hends⟩
        · cases hmark
      · obtain ⟨seat, hseat, hs⟩ := hpieces piece hpiece k q hq hop
        exact ⟨seat, List.mem_cons_of_mem _ hseat, hs⟩

end

section

variable {t : Tree} {p : Program} {b : Assembly} {g : Generator}

/-- Where the code of a function stands. -/
def Routine.piece (r : Routine) : Nat × List Quad := (r.callee.target, r.quads)

/-- Where the code of the bodies stands, the main body last. -/
def Assembly.pieces (b : Assembly) : List (Nat × List Quad) :=
  b.routines.map Routine.piece ++ [(1 + b.code.length, b.main)]

section

variable (h : b.Of (fun _ _ => True) t p) (hlasts : b.Lasts g)

include h hlasts

theorem Assembly.Of.seated_routine {r : Routine} (hr : r ∈ b.routines) {body : Scene}
    (hfrom : r.From body) :
    Seated g p.quads.toList body r.piece := by
  obtain ⟨_, -, hcompiled⟩ := h.outline.compiled hr
  have hplaced := h.outline.placed h.placed.1 hr
  have hcovers := (hcompiled.code.covers hcompiled.ready hplaced.append.1).concat
    (q := r.callee.leave) (by simp [Callee.leave]) (by simp [Callee.leave])
  rw [hfrom.statements] at hcovers
  exact ⟨r.names, _, hcovers, hfrom.arrays, hfrom.function ▸ (hlasts.routines r hr).names⟩

theorem Assembly.Of.seated_main :
    Seated g p.quads.toList ⟨none, t.leaves, t.main.statements⟩ (1 + b.code.length, b.main) := by
  refine ⟨b.names, _, h.body.covers h.ready h.placed.2, ?_, hlasts.within_main⟩
  intro a ha _
  rw [List.append_nil] at ha
  show a.leaf ∈ t.leaves
  rw [← h.leaves]
  exact List.mem_map_of_mem ha

theorem Assembly.Of.seated : List.Forall₂ (Seated g p.quads.toList) t.bodies b.pieces := by
  refine List.rel_append ?_ (.cons (h.seated_main hlasts) .nil)
  rw [List.forall₂_map_right_iff]
  refine List.Forall₂.flip (((List.forall₂_and_left _ _).2 ⟨fun r hr => hr, h.bodies⟩).imp ?_)
  rintro r body ⟨hr, hfrom⟩
  exact h.seated_routine hlasts hr hfrom

end

/-- Every instruction but the first is in the code of a body. -/
theorem Assembly.Of.mem_pieces (h : b.Of (fun _ _ => True) t p) (hi : 1 ≤ i)
    (hq : p.quads.toList[i]? = some q) :
    ∃ piece ∈ b.pieces, ∃ k, i = piece.1 + k ∧ piece.2[k]? = some q := by
  rcases h.body_cases hi hq with ⟨r, hr, hk⟩ | hk
  · exact ⟨r.piece, List.mem_append_left _ (List.mem_map_of_mem hr), hk⟩
  · exact ⟨_, List.mem_append_right _ (List.mem_singleton_self _), hk⟩

end

/-- In a compiled program every access has a place of its own, and every instruction that checks an
index or finds an element belongs to an access. -/
theorem compile_seats {text : Bytes} {p : Program} (h : compile text = .ok p) {t : Tree}
    (hread : t.ReadFrom text) :
    ∃ seats : List Seat, seats.map (·.toScene) = t.bodies ∧
      (∀ seat ∈ seats, seat.In (Generator.initial.parse text).2 p.quads.toList) ∧
      ∀ i q, p.quads.toList[i]? = some q → q.op = .ver ∨ q.op = .addDim →
        ∃ seat ∈ seats, ∃ s ∈ seat.sites, s.Ends i q.op := by
  obtain ⟨b, hlasts, hb⟩ := hread.assembled h (fun _ _ => True)
    (hread.literals h fun _ _ _ _ _ _ => trivial)
  obtain ⟨seats, hbodies, hin, hpieces⟩ := exists_seats (hb.seated hlasts)
  refine ⟨seats, hbodies, hin, ?_⟩
  intro i q hq hop
  have hi := hb.one_le hq (by rcases hop with hop | hop <;> simp [hop])
  obtain ⟨piece, hpiece, k, rfl, hk⟩ := hb.mem_pieces hi hq
  exact hpieces piece hpiece k q hk hop

/-! ## The middle of an access -/

section

variable {names : Names} {quads : List Quad} {e : Expr} {mark : Mark}

section

variable (h : mark.In names e quads)

include h

theorem Mark.In.le : mark.first ≤ mark.position := by
  obtain ⟨code, -, -, hlength⟩ := h.code
  omega

/-- Nothing jumps or calls into the code of an index. -/
theorem Mark.In.engaged (hi : mark.first < i) (hi' : i ≤ mark.position) : Engaged quads i := by
  obtain ⟨code, ⟨outer, inner, fs, m, t, m', hready, -, hcode, hoperand⟩, hplaced, hlength⟩ :=
    h.code
  obtain ⟨k, rfl⟩ := Nat.exists_eq_add_of_lt hi
  refine hcode.engaged hready hplaced ?_ (k + 1) (by omega) (by omega)
  intro b hb
  rw [hoperand] at hb
  exact ⟨mark.position, _, by omega, h.check, .inl ⟨mark.operand, List.mem_singleton_self _, hb⟩⟩

/-- While an index is worked out, what was under way before is under way. -/
theorem Mark.In.abides (hi : mark.first ≤ i) (hi' : i ≤ mark.position) :
    (standing quads mark.first).dims <:+ (standing quads i).dims := by
  obtain ⟨code, ⟨_, _, _, _, _, _, -, -, hcode, -⟩, hplaced, hlength⟩ := h.code
  obtain ⟨k, rfl⟩ := Nat.exists_eq_add_of_le hi
  exact ((hcode.leads _).placed hplaced (by omega)).2

theorem Mark.In.standing : standing quads mark.position = standing quads mark.first := by
  obtain ⟨code, ⟨_, _, _, _, _, _, -, -, hcode, -⟩, hplaced, hlength⟩ := h.code
  rw [← hlength]
  exact hcode.standing hplaced

end

/-- Behind a check an index is under way, so nothing jumps or calls there. -/
theorem not_clear_behind {d : Dim} {x : Operand} (h : quads[i]? = some (d.check x)) :
    ¬ Clear quads (i + 1) := by
  intro hclear
  have hstanding := hclear.standing
  rw [standing_succ h] at hstanding
  have hdims := congrArg Standing.dims hstanding
  cases hdims

theorem Mark.In.code_mem (h : mark.In names e quads) (hi : mark.first ≤ i) (hi' : i < mark.position)
    (hq : quads[i]? = some q) : ∃ code, names.Works e mark.operand code ∧ q ∈ code := by
  obtain ⟨code, hworks, hplaced, hlength⟩ := h.code
  obtain ⟨k, -, hk⟩ := hplaced.inside hi (by omega) hq
  exact ⟨code, hworks, List.mem_of_getElem? hk⟩

/-- While an index is worked out and checked, temporaries are filled and calls are made, and nothing
else is done. -/
theorem Mark.In.straight (h : mark.In names e quads) (hi : mark.first ≤ i) (hi' : i ≤ mark.position)
    (hq : quads[i]? = some q) : q.Straight := by
  by_cases hlast : i = mark.position
  · subst hlast
    rw [h.check] at hq
    obtain rfl := Option.some.inj hq
    exact .inr (.inr (.inr (.inr rfl)))
  · obtain ⟨code, hworks, hmem⟩ := h.code_mem hi (by omega) hq
    exact hworks.straight hmem

theorem Mark.In.calls (h : mark.In names e quads) (hcalls : e.calls = []) (hi : mark.first ≤ i)
    (hi' : i ≤ mark.position) (hq : quads[i]? = some q) : q.op ≠ .gosub := by
  intro hop
  by_cases hlast : i = mark.position
  · subst hlast
    rw [h.check] at hq
    obtain rfl := Option.some.inj hq
    cases hop
  · obtain ⟨code, hworks, hmem⟩ := h.code_mem hi (by omega) hq
    exact hworks.ne_gosub hcalls hmem hop

end

section

variable {names : Names} {quads : List Quad} {start stop : Nat} {es : List Expr} {marks : List Mark}

section

variable (h : Marks names quads start es marks stop)

include h

theorem Marks.le : start ≤ stop := by
  induction h with
  | nil => exact Nat.le_refl _
  | cons hmark _ ih =>
    have := hmark.le
    omega

/-- The indices before a mark, and those behind it. -/
theorem Marks.split {mark : Mark} (hmark : mark ∈ marks) :
    ∃ done rest before e after, marks = done ++ mark :: rest ∧ es = before ++ e :: after ∧
      Marks names quads start before done mark.first ∧ mark.In names e quads ∧
      Marks names quads (mark.position + 1) after rest stop := by
  induction h with
  | nil => cases hmark
  | @cons mark' marks e es stop hin hrest ih =>
    rcases List.mem_cons.1 hmark with rfl | hmark
    · exact ⟨[], marks, [], e, es, rfl, rfl, .nil, hin, hrest⟩
    · obtain ⟨done, rest, before, e', after, rfl, rfl, hdone, hin', hrest'⟩ := ih hmark
      exact ⟨mark' :: done, rest, e :: before, e', after, rfl, rfl, .cons hin hdone, hin', hrest'⟩

/-- Every position from the first on is at a mark. -/
theorem Marks.at (hi : start ≤ i) (hi' : i < stop) :
    ∃ mark ∈ marks, ∃ e ∈ es, mark.In names e quads ∧ mark.first ≤ i ∧ i ≤ mark.position := by
  induction h with
  | nil => omega
  | @cons mark marks e es stop hin hrest ih =>
    by_cases hle : i ≤ mark.position
    · exact ⟨mark, List.mem_cons_self .., e, List.mem_cons_self .., hin, hi, hle⟩
    · obtain ⟨mark', hmark', e', he', hin', hbounds⟩ := ih (by omega) hi'
      exact ⟨mark', List.mem_cons_of_mem _ hmark', e', List.mem_cons_of_mem _ he', hin', hbounds⟩

end

end

section

variable {names : Names} {quads : List Quad} {s : ElementSite}

/-- Up to the instruction that finds the element, temporaries are filled and calls are made, and
nothing else is done. -/
theorem ElementSite.In.straight (h : s.In names quads) (hi : s.start ≤ i) (hi' : i ≤ s.position)
    (hq : quads[i]? = some q) : q.Straight := by
  by_cases hlast : i = s.position
  · subst hlast
    rw [h.quad] at hq
    obtain rfl := Option.some.inj hq
    exact .inl ⟨s.pointer, rfl, rfl, _, h.pointer⟩
  · obtain ⟨mark, -, e, -, hin, hfirst, hposition⟩ := h.marks.at hi (by omega)
    exact hin.straight hfirst hposition hq

theorem calls_eq_nil (h : Expr.allCalls es = []) {e : Expr} (he : e ∈ es) : e.calls = [] := by
  induction es with
  | nil => cases he
  | cons e' es ih =>
    rw [Expr.allCalls, List.append_eq_nil_iff] at h
    rcases List.mem_cons.1 he with rfl | he
    · exact h.1
    · exact ih h.2 he

theorem ElementSite.In.calls (h : s.In names quads) (hcalls : Expr.allCalls s.access.indices = [])
    (hi : s.start ≤ i) (hi' : i ≤ s.position) (hq : quads[i]? = some q) : q.op ≠ .gosub := by
  by_cases hlast : i = s.position
  · subst hlast
    rw [h.quad] at hq
    obtain rfl := Option.some.inj hq
    simp [elementQuad]
  · obtain ⟨mark, -, e, he, hin, hfirst, hposition⟩ := h.marks.at hi (by omega)
    exact hin.calls (calls_eq_nil hcalls he) hfirst hposition hq

end

end Quadlang
