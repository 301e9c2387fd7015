-- Calls in compiled code: every instruction that enters a function ends the code of a call of
-- the source, and the record being prepared there is the one that this call began, with an
-- argument passed for each parameter of the function.
import Quadlang.Proofs.Program.Spans

namespace Quadlang

open Source

variable {base i k : Nat} {code quads : List Quad} {q : Quad} {names : Names}
  {P : Ty → Value → Prop} {fs : List (Callee × List Param)} {calls : List (Bytes × List Expr)}
  {name : Bytes} {args : List Expr} {f : Callee} {t : Tree} {p : Program}

/-! ## Code of calls -/

/-- Every instruction of some code that enters a function ends the code of one of some calls. -/
def EndsCalls (names : Names) (calls : List (Bytes × List Expr)) (code : List Quad) : Prop :=
  ∀ k q, code[k]? = some q → q.op = .gosub → ∃ start name args f argsCode, (name, args) ∈ calls ∧
    CallCode names name args f argsCode ∧ Placed code start (f.era :: argsCode ++ [f.gosub]) ∧
    k = start + (1 + argsCode.length)

section

variable {names : Names} {calls : List (Bytes × List Expr)} {code code' : List Quad}

theorem endsCalls_single (hop : q.op ≠ .gosub) : EndsCalls names calls [q] := by
  intro k q' hq' hop'
  obtain rfl := List.mem_singleton.1 (List.mem_of_getElem? hq')
  exact absurd hop' hop

theorem EndsCalls.append (h : EndsCalls names calls code) (h' : EndsCalls names calls code') :
    EndsCalls names calls (code ++ code') := by
  intro k q hq hop
  by_cases hk : k < code.length
  · rw [List.getElem?_append_left hk] at hq
    obtain ⟨start, name, args, f, argsCode, hcall, hcode, hplaced, hstart⟩ := h k q hq hop
    exact ⟨start, name, args, f, argsCode, hcall, hcode, hplaced.left code', hstart⟩
  · rw [List.getElem?_append_right (Nat.not_lt.1 hk)] at hq
    obtain ⟨start, name, args, f, argsCode, hcall, hcode, hplaced, hstart⟩ := h' _ q hq hop
    exact ⟨code.length + start, name, args, f, argsCode, hcall, hcode, hplaced.right code, by omega⟩

theorem EndsCalls.cons {q : Quad} (hop : q.op ≠ .gosub) (h : EndsCalls names calls code) :
    EndsCalls names calls (q :: code) := (endsCalls_single hop).append h

/-- The last instruction of a call ends it, and those of its arguments end theirs. -/
theorem CallCode.endsCalls (h : CallCode names name args f code) (hcall : (name, args) ∈ calls)
    (hargs : EndsCalls names calls code) : EndsCalls names calls (f.era :: code ++ [f.gosub]) := by
  have hbefore : EndsCalls names calls (f.era :: code) := hargs.cons (by simp [Callee.era])
  intro k q hq hop
  by_cases hk : k < (f.era :: code).length
  · rw [List.getElem?_append_left hk] at hq
    obtain ⟨start, name', args', f', argsCode, hcall', hcode, hplaced, hstart⟩ := hbefore k q hq hop
    exact ⟨start, name', args', f', argsCode, hcall', hcode, hplaced.left [f.gosub], hstart⟩
  · obtain ⟨hlt, -⟩ := List.getElem?_eq_some_iff.1 hq
    rw [List.length_append, List.length_cons, List.length_singleton] at hlt
    rw [List.length_cons] at hk
    refine ⟨0, name, args, f, code, hcall, h, ?_, by omega⟩
    intro i q' hq'
    rw [Nat.zero_add]
    exact hq'

theorem Composed.endsCalls {P : Quad → Prop} {os : List Operation}
    (h : Composed names P calls os code) :
    EndsCalls names calls code := by
  induction h with
  | nil => simp [EndsCalls]
  | append _ _ ih ih' => exact ih.append ih'
  | single hop _ => exact endsCalls_single (Opcode.not_call_of_simple hop).2
  | call hcode hcall _ ih => exact hcode.endsCalls hcall ih
  | operation _ _ _ hfill _ _ ih ih' =>
    exact (ih.append ih').append (endsCalls_single hfill.not_call.2)

/-- What works out an expression without calls calls nothing. -/
theorem Names.Works.ne_gosub {e : Expr} {x : Operand} (h : names.Works e x code)
    (hcalls : e.calls = []) (hq : q ∈ code) : q.op ≠ .gosub := by
  intro hop
  obtain ⟨outer, inner, fs, m, t, m', hready, -, hcode, -⟩ := h
  obtain ⟨i, hi⟩ := List.mem_iff_getElem?.1 hq
  have hcomposed := hcode.composed hready (List.Subset.refl _) (List.Subset.refl _)
  obtain ⟨_, _, _, _, _, hnone, -⟩ := hcomposed.endsCalls i q hi hop
  rw [hcalls] at hnone
  cases hnone

end

/-! ## Calls of a program -/

/-- An instruction of some code ends the code of a call of a known function. -/
def EndsCall (names : Names) (fs : List (Callee × List Param)) (calls : List (Bytes × List Expr))
    (code : List Quad) (k : Nat) : Prop :=
  ∃ name args f argsCode start, (name, args) ∈ calls ∧ CallCode names name args f argsCode ∧
    (f, names.params f) ∈ fs ∧ f.name = name ∧ Placed code start (f.era :: argsCode ++ [f.gosub]) ∧
    k = start + (1 + argsCode.length)

theorem EndsCall.mono {fs' : List (Callee × List Param)} (h : EndsCall names fs calls code k)
    (hfs : ∀ f ∈ fs, f ∈ fs') : EndsCall names fs' calls code k := by
  obtain ⟨name, args, f, argsCode, start, hcall, hcode, hf, hrest⟩ := h
  exact ⟨name, args, f, argsCode, start, hcall, hcode, hfs _ hf, hrest⟩

theorem EndsCall.placed (h : EndsCall names fs calls code k) (hcode : Placed quads base code) :
    EndsCall names fs calls quads (base + k) := by
  obtain ⟨name, args, f, argsCode, start, hcall, hargs, hf, hname, hplaced, hk⟩ := h
  exact ⟨name, args, f, argsCode, base + start, hcall, hargs, hf, hname, hcode.trans hplaced,
    by omega⟩

/-- Under names that lead to known functions, what is called is known. -/
theorem EndsCalls.known {outer inner : List Placement} {m : Memory} (h : EndsCalls names calls code)
    (hready : names.Ready outer inner fs m) (hq : code[k]? = some q) (hop : q.op = .gosub) :
    EndsCall names fs calls code k := by
  obtain ⟨start, name, args, f, argsCode, hcall, hcode, hplaced, hk⟩ := h k q hq hop
  exact ⟨name, args, f, argsCode, start, hcall, hcode, hready.sound.called hcode.callee,
    hready.sound.named hcode.callee, hplaced, hk⟩

theorem exists_related {α β : Type} {R : α → β → Prop} {as : List α} {bs : List β} {a : α}
    (h : List.Forall₂ R as bs) (ha : a ∈ as) : ∃ b ∈ bs, R a b := by
  induction h with
  | nil => cases ha
  | @cons a' b' _ _ hrel _ ih =>
    rcases List.mem_cons.1 ha with rfl | ha
    · exact ⟨b', List.mem_cons_self, hrel⟩
    · obtain ⟨b, hb, hrel'⟩ := ih ha
      exact ⟨b, List.mem_cons_of_mem _ hb, hrel'⟩

theorem Assembly.Of.function {b : Assembly} (h : b.Of P t p) {r : Routine} (hr : r ∈ b.routines) :
    ∃ f ∈ t.functions, r.Of f := exists_related h.functions hr

/-- Every instruction of a program that enters a function ends a call of one of its bodies, under
names that lead to what the body's names lead to in the end. -/
theorem Assembly.Of.endsCall {b : Assembly} {g : Generator} (h : b.Of P t p) (hlasts : b.Lasts g)
    (hq : p.quads.toList[k]? = some q) (hop : q.op = .gosub) :
    ∃ body ∈ t.bodies, ∃ names : Names, names.Within (g.namesIn body.function) ∧
      EndsCall names (b.routines.map Routine.known) (Stmt.allCalls body.statements)
        p.quads.toList k := by
  rcases h.body_cases (h.one_le hq (by simp [hop])) hq with ⟨r, hr, k, rfl, hk⟩ | ⟨k, rfl, hk⟩
  · obtain ⟨rs', hsub, hcompiled⟩ := h.outline.compiled hr
    obtain ⟨body, hbody, hfrom⟩ := exists_related h.bodies hr
    have hends := hcompiled.composed.endsCalls.known hcompiled.ready hk hop
    rw [hfrom.statements] at hends
    refine ⟨body, List.mem_append_left _ hbody, r.names,
      hfrom.function ▸ (hlasts.routines r hr).names, ?_⟩
    exact (hends.mono (known_subset hsub hr)).placed (h.outline.placed h.placed.1 hr)
  · exact ⟨_, List.mem_append_right _ (List.mem_singleton_self _), b.names, hlasts.within_main,
      (h.composed.endsCalls.known h.ready hk hop).placed h.placed.2⟩

/-! ## Records being prepared -/

/-- A record that is being prepared: the instruction that makes it, and those that have passed
arguments to it. -/
structure Begun where
  era : Nat
  params : List Nat := []

/-- The records being prepared after an instruction, the newest first. -/
def Begun.after (i : Nat) (q : Quad) (cs : List Begun) : List Begun :=
  match q.op, cs with
  | .era, cs => { era := i } :: cs
  | .param, c :: cs => { c with params := c.params ++ [i] } :: cs
  | .gosub, cs => cs.tail
  | _, cs => cs

/-- The records being prepared at a position, as the text of the program has it. -/
def begun (quads : List Quad) : Nat → List Begun
  | 0 => []
  | i + 1 =>
    match quads[i]? with
    | some q => Begun.after i q (begun quads i)
    | none => begun quads i

theorem begun_succ (h : quads[i]? = some q) :
    begun quads (i + 1) = Begun.after i q (begun quads i) := by
  rw [begun, h]

/-- Whether an instruction is one of those that prepare a call. -/
def Opcode.prepares : Opcode → Bool
  | .era | .param | .gosub => true
  | _ => false

theorem BinaryOp.opcode_prepares (op : BinaryOp) : op.opcode.prepares = false := by cases op <;> rfl

theorem UnaryOp.opcode_prepares (op : UnaryOp) : op.opcode.prepares = false := by cases op <;> rfl

theorem begun_keep (h : quads[i]? = some q) (hop : q.op.prepares = false) :
    begun quads (i + 1) = begun quads i := by
  rw [begun_succ h]
  unfold Begun.after
  cases hk : q.op with
  | era | param | gosub =>
    rw [hk] at hop
    cases hop
  | _ => rfl

theorem length_begun (quads : List Quad) (i : Nat) :
    (begun quads i).length = (standing quads i).calls.length := by
  induction i with
  | zero => rfl
  | succ i ih =>
    cases hq : quads[i]? with
    | none =>
      have hlength := List.getElem?_eq_none_iff.1 hq
      rw [begun, hq]
      unfold standing at ih ⊢
      rw [List.take_of_length_le (by omega)]
      rw [List.take_of_length_le hlength] at ih
      exact ih
    | some q =>
      rw [begun_succ hq, standing_succ hq]
      unfold Begun.after Standing.after
      cases hk : q.op with
      | era => exact congrArg (· + 1) ih
      | param =>
        cases hbegun : begun quads i with
        | nil =>
          rw [hbegun] at ih
          exact ih
        | cons c cs =>
          rw [hbegun] at ih
          exact ih
      | gosub =>
        show (begun quads i).tail.length = (standing quads i).calls.tail.length
        rw [List.length_tail, List.length_tail, ih]
      | _ => exact ih

/-- The passing of an argument: the parameter, the argument and the operand that has its value,
and the position of the instruction. -/
structure Binding where
  param : Param
  arg : Expr
  operand : Operand
  position : Nat

/-- An argument is passed right behind the code that works it out. -/
structure Binding.In (names : Names) (quads : List Quad) (b : Binding) : Prop where
  bind : quads[b.position]? = some (b.param.bind b.operand)
  value : ∃ m x code m' start, ExprCode names b.arg m x code m' ∧ x.operand = b.operand ∧
    Placed quads start code ∧ start + code.length = b.position

/-- The arguments that are passed from one position to another, for some parameters. -/
structure Bindings (names : Names) (quads : List Quad) (base stop : Nat) (ps : List Param)
    (es : List Expr) (bs : List Binding) : Prop where
  params : bs.map (·.param) = ps
  args : bs.map (·.arg) = es
  passed : ∀ b ∈ bs, b.In names quads
  order : (bs.map (·.position)).Pairwise (· < ·)
  range : ∀ b ∈ bs, base ≤ b.position ∧ b.position < stop
  begun : ∀ c cs, begun quads base = c :: cs →
    begun quads stop = { c with params := c.params ++ bs.map (·.position) } :: cs

theorem Bindings.nil : Bindings names quads base base [] [] [] :=
  ⟨rfl, rfl, by simp, .nil, by simp, fun c cs h => by simp [h]⟩

theorem Bindings.cons {names : Names} {quads : List Quad} {base stop : Nat} {ps : List Param}
    {es : List Expr} {bs : List Binding} {b : Binding} (hb : b.In names quads)
    (hbase : base ≤ b.position)
    (hbegun : Quadlang.begun quads b.position = Quadlang.begun quads base)
    (hstop : b.position < stop) (h : Bindings names quads (b.position + 1) stop ps es bs) :
    Bindings names quads base stop (b.param :: ps) (b.arg :: es) (b :: bs) where
  params := by rw [List.map_cons, h.params]
  args := by rw [List.map_cons, h.args]
  passed := by
    intro b' hb'
    rcases List.mem_cons.1 hb' with rfl | hb'
    · exact hb
    · exact h.passed b' hb'
  order := by
    refine List.pairwise_cons.2 ⟨?_, h.order⟩
    intro i hi
    obtain ⟨b', hb', rfl⟩ := List.mem_map.1 hi
    exact (h.range b' hb').1
  range := by
    intro b' hb'
    rcases List.mem_cons.1 hb' with rfl | hb'
    · exact ⟨hbase, hstop⟩
    · have := h.range b' hb'
      omega
  begun := by
    intro c cs hc
    have hnext : Quadlang.begun quads (b.position + 1) =
        { c with params := c.params ++ [b.position] } :: cs := by
      rw [begun_succ hb.bind, hbegun, hc]
      rfl
    rw [h.begun _ cs hnext, List.map_cons, List.append_assoc, List.singleton_append]

mutual

/-- An expression leaves the records being prepared as they were before it. -/
theorem ExprCode.begun {names : Names} {quads : List Quad} {e : Expr} {x : TypedOperand}
    {m m' : Memory} {code : List Quad} {base : Nat} : ExprCode names e m x code m' →
    Placed quads base code → begun quads (base + code.length) = begun quads base
  | .constant _, _ => rfl
  | .group he, hplaced => he.begun hplaced
  | @ExprCode.call _ _ _ f a code _ _ _ _ hargs _ _, hplaced => by
    obtain ⟨hcall, hend⟩ := hplaced.append
    obtain ⟨bs, hbs⟩ := hargs.bindings hcall.tail
    have hera : Quadlang.begun quads (base + 1) = { era := base } :: Quadlang.begun quads base := by
      rw [begun_succ hcall.head]
      rfl
    have hlength : base + (f.era :: code).length = base + 1 + code.length := by
      rw [List.length_cons]
      omega
    rw [hlength] at hend
    have hgosub : Quadlang.begun quads (base + 1 + code.length + 1) =
      Quadlang.begun quads base := by
      rw [begun_succ hend.head, hbs.begun _ _ hera]
      rfl
    have hcopy : Quadlang.begun quads (base + 1 + code.length + 1 + 1) =
      Quadlang.begun quads base := by
      rw [begun_keep hend.tail.head rfl, hgosub]
    rw [List.length_append, ← Nat.add_assoc, hlength]
    exact hcopy
  | .variable _ _ _ _, _ => rfl
  | .element _ _ _ _ his _, hplaced => by
    obtain ⟨hbody, hend⟩ := hplaced.append
    rw [List.length_append, ← Nat.add_assoc]
    exact (begun_keep hend.head rfl).trans (his.begun hbody)
  | .unary he _ _, hplaced => by
    obtain ⟨hbody, hend⟩ := hplaced.append
    rw [List.length_append, ← Nat.add_assoc]
    exact (begun_keep hend.head (UnaryOp.opcode_prepares _)).trans (he.begun hbody)
  | .binary hl hr _ _, hplaced => by
    obtain ⟨hbody, hend⟩ := hplaced.append
    obtain ⟨hleft, hright⟩ := hbody.append
    have hoperands := (hr.begun hright).trans (hl.begun hleft)
    rw [Nat.add_assoc, ← List.length_append] at hoperands
    rw [List.length_append, ← Nat.add_assoc]
    exact (begun_keep hend.head (BinaryOp.opcode_prepares _)).trans hoperands

/-- The arguments of a call are passed one after another to the record of the call. -/
theorem ArgsCode.bindings {names : Names} {quads : List Quad} {ps : List Param} {es : List Expr}
    {m m' : Memory} {code : List Quad} {base : Nat} :
    ArgsCode names ps es m code m' → Placed quads base code →
    ∃ bs, Bindings names quads base (base + code.length) ps es bs
  | .nil, _ => ⟨[], .nil⟩
  | @ArgsCode.cons _ p _ e _ x code code' _ _ _ he _ hes, hplaced => by
    obtain ⟨hbody, hrest⟩ := hplaced.append
    obtain ⟨bs, hbs⟩ := hes.bindings hrest.tail
    have hstop : base + (code ++ p.bind x.operand :: code').length =
        base + code.length + 1 + code'.length := by
      rw [List.length_append, List.length_cons]
      omega
    rw [hstop]
    have hb : (⟨p, e, x.operand, base + code.length⟩ : Binding).In names quads :=
      ⟨hrest.head, _, x, code, _, base, he, rfl, hbody, rfl⟩
    refine ⟨_ :: bs, .cons hb (Nat.le_add_right ..) (he.begun hbody) ?_ hbs⟩
    show base + code.length < _
    omega

theorem IndicesCode.begun {names : Names} {quads : List Quad} {ds : List Dim} {es : List Expr}
    {m m' : Memory} {code : List Quad} {base : Nat} : IndicesCode names ds es m code m' →
    Placed quads base code → begun quads (base + code.length) = begun quads base
  | .nil, _ => rfl
  | .cons he _ hes, hplaced => by
    obtain ⟨hbody, hrest⟩ := hplaced.append
    have hcheck := (begun_keep hrest.head rfl).trans (he.begun hbody)
    have hindices := (hes.begun hrest.tail).trans hcheck
    rw [List.length_append, List.length_cons, Nat.add_comm _ 1, ← Nat.add_assoc, ← Nat.add_assoc]
    exact hindices

end

/-- A call in a program: its function and its arguments, the instruction that makes the record,
the passing of the arguments, and the instruction that enters the function. -/
structure CallSite where
  function : Callee
  args : List Expr
  era : Nat
  bindings : List Binding
  gosub : Nat

/-- The call stands in a program, and passes an argument for each of some parameters, in order. -/
structure CallSite.In (names : Names) (quads : List Quad) (params : List Param) (c : CallSite) :
    Prop where
  era : quads[c.era]? = some c.function.era
  gosub : quads[c.gosub]? = some c.function.gosub
  params : c.bindings.map (·.param) = params
  args : c.bindings.map (·.arg) = c.args
  passed : ∀ b ∈ c.bindings, b.In names quads
  order : (c.era :: (c.bindings.map (·.position) ++ [c.gosub])).Pairwise (· < ·)

/-- Where a function is entered, the newest record being prepared is the one that the call
begins. -/
theorem CallCode.site (h : CallCode names name args f code)
    (hplaced : Placed quads base (f.era :: code ++ [f.gosub])) :
    ∃ bs, CallSite.In names quads (names.params f) ⟨f, args, base, bs, base + (1 + code.length)⟩ ∧
      begun quads (base + (1 + code.length)) = ⟨base, bs.map (·.position)⟩ :: begun quads base := by
  obtain ⟨hcall, hend⟩ := hplaced.append
  obtain ⟨m, m', hargs⟩ := h.args
  obtain ⟨bs, hbs⟩ := hargs.bindings hcall.tail
  have hgosub := hend.head
  rw [List.length_cons, Nat.add_comm code.length 1] at hgosub
  have hera : begun quads (base + 1) = { era := base } :: begun quads base := by
    rw [begun_succ hcall.head]
    rfl
  refine ⟨bs, ⟨hcall.head, hgosub, hbs.params, hbs.args, hbs.passed, ?_⟩, ?_⟩
  · refine List.pairwise_cons.2 ⟨?_, List.pairwise_append.2 ⟨hbs.order, List.pairwise_singleton ..,
      ?_⟩⟩
    · intro i hi
      rcases List.mem_append.1 hi with hi | hi
      · obtain ⟨b, hb, rfl⟩ := List.mem_map.1 hi
        have := hbs.range b hb
        show base < b.position
        omega
      · obtain rfl := List.mem_singleton.1 hi
        show base < base + (1 + code.length)
        omega
    · intro i hi j hj
      obtain ⟨b, hb, rfl⟩ := List.mem_map.1 hi
      obtain rfl := List.mem_singleton.1 hj
      have := hbs.range b hb
      show b.position < base + (1 + code.length)
      omega
  · rw [← Nat.add_assoc, hbs.begun _ _ hera]
    rfl

/-- The call is one of a body of a source, under names that lead to what the body's names lead to
when all is declared. The function is the one that is declared under the name, and the parameters
are those that it is declared with: those of the source, each found in the function at an address of
its own. -/
structure CallSite.Of (t : Tree) (g : Generator) (names : Names) (params : List Param)
    (c : CallSite) : Prop where
  call : ∃ body ∈ t.bodies, (c.function.name, c.args) ∈ Stmt.allCalls body.statements ∧
    names.Within (g.namesIn body.function)
  callee : g.names.callee? c.function.name = some c.function
  function : ∃ f ∈ t.functions, f.name = c.function.name ∧
    List.Forall₂ Param.Declared params f.params
  finds : ∀ p ∈ params, (g.namesIn (some c.function.name)).Finds p.placement
  distinct : (params.map (·.address)).Nodup
  params : g.names.params c.function = params

/-- Every instruction of a compiled program that enters a function belongs to a call of the
source, and the newest record being prepared there is that of this call. -/
theorem compile_callSite {text : Bytes} (h : compile text = .ok p) (hread : t.ReadFrom text)
    (hq : p.quads.toList[i]? = some q) (hop : q.op = .gosub) :
    ∃ (c : CallSite) (names : Names) (params : List Param), c.gosub = i ∧
      c.Of t (Generator.initial.parse text).2 names params ∧
      c.In names p.quads.toList params ∧ ∃ rest, begun p.quads.toList i =
        ⟨c.era, c.bindings.map (·.position)⟩ :: rest := by
  obtain ⟨b, hlasts, hb⟩ := hread.assembled h (fun _ _ => True)
    (hread.literals h fun _ _ _ _ _ _ => trivial)
  obtain ⟨body, hbody, names, hwithin, name, args, f, code, start, hcall, hcode, hf, rfl,
    hplaced, rfl⟩ :=
    hb.endsCall hlasts hq hop
  obtain ⟨bs, hsite, hbegun⟩ := hcode.site hplaced
  -- the function that is called is that of a routine
  obtain ⟨r, hr, hknown⟩ := List.mem_map.1 hf
  obtain ⟨rfl, hparams⟩ := Prod.mk.inj hknown
  refine ⟨_, names, names.params r.callee, rfl, ⟨⟨body, hbody, hcall, hwithin⟩, ?_, ?_, ?_, ?_, ?_⟩,
    hsite, _, hbegun⟩
  · rw [← hlasts.names]
    exact hb.callees r hr
  · obtain ⟨source, hsource, hof⟩ := hb.function hr
    exact ⟨source, hsource, hof.name.symm, hparams ▸ hof.params⟩
  · rw [← hparams]
    exact (hlasts.routines r hr).params
  · exact (hb.ready.functions _ hf).distinct
  · rw [← hlasts.names, hb.params r hr]
    exact hparams

end Quadlang
