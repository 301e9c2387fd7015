-- Statements in the machine: outside of calls the code of a statement does to a machine what the
-- statement does in the source. So a compiled program ends as its source does, with the same output
-- and the same values, fails where the source comes to a mishap, and runs on where the source does.
import Quadlang.Proofs.Machine.Activations
import Quadlang.Proofs.Machine.Evaluation

namespace Quadlang

open Source Success

variable {code : List Quad} {e c : Expr} {p : Place} {x : TypedOperand} {im : Image} {m : Machine}
  {r : EStateM.Result Mishap State Unit} {steps turns : Nat} {cause : Mishap} {names : Names}
  {b : Bool} {l : Leaf} {target : Element} {use : Operand → Quad} {leaves : List Leaf} {s : State}
  {P : State → Bool} {quads : List Quad} {ps : List Placement} {last : Memory}

/-! ## Following the source -/

/-- A machine has not ended after a number of steps. -/
def Machine.RunsOn (im : Image) (m : Machine) (steps : Nat) : Prop :=
  ∃ ip m', m.run im steps = (.canceled ip, m')

/-- A machine does what happens in the source: it comes to a position and mirrors the state there,
it fails with the same output, or it is as far from an end as the source is. -/
def Machine.Follows (im : Image) (m : Machine) (position : Nat) (ps : List Placement)
    (last : Memory) (turns : Nat) : EStateM.Result Mishap State Unit → Prop
  | .ok _ s => ∃ m', m.Reaches im m' ∧ m'.ip = position ∧ m'.Mirrors ps last s
  | .error e s => e = .unfinished ∧ m.RunsOn im turns ∨ e.Foreseen ∧ m.Breaks im s.output

section

variable {i j : Nat} {m₁ : Machine}

theorem Machine.run_add {o : Outcome} (h : m.run im steps = (o, m₁)) (ho : ∀ ip, o ≠ .canceled ip)
    (k : Nat) :
    m.run im (steps + k) = (o, m₁) := by
  induction steps generalizing m with
  | zero =>
    unfold Machine.run at h
    by_cases hdone : m.isDone im = true
    · rw [if_pos hdone] at h
      rw [← h]
      cases k with
      | zero => exact if_pos hdone
      | succ k => exact if_pos hdone
    · rw [if_neg hdone] at h
      exact absurd (Prod.mk.inj h).1.symm (ho m.ip)
  | succ steps ih =>
    rw [Nat.add_right_comm]
    unfold Machine.run at h ⊢
    by_cases hdone : m.isDone im = true
    · rw [if_pos hdone] at h ⊢
      exact h
    · rw [if_neg hdone] at h ⊢
      cases hstep : m.step im with
      | mk outcome m' =>
        rw [hstep] at h
        cases outcome with
        | none => exact ih h
        | some outcome => exact h

theorem Machine.RunsOn.mono {steps' : Nat} (h : m.RunsOn im steps') (hle : steps ≤ steps') :
    m.RunsOn im steps := by
  obtain ⟨ip, m', hrun⟩ := h
  cases hend : m.run im steps with
  | mk o m'' =>
    by_cases ho : ∀ ip, o ≠ .canceled ip
    · have hstays := Machine.run_add hend ho (steps' - steps)
      rw [Nat.add_sub_cancel' hle, hrun] at hstays
      exact absurd (Prod.mk.inj hstays).1.symm (ho ip)
    · simp only [ne_eq, not_forall, not_not] at ho
      obtain ⟨ip', rfl⟩ := ho
      exact ⟨ip', m'', hend⟩

theorem Machine.Reaches.runsOn (h : m.Reaches im m₁) (h' : m₁.RunsOn im steps) :
    m.RunsOn im steps := by
  obtain ⟨n, hn⟩ := h
  obtain ⟨ip, m', hrun⟩ := h'
  have hruns : m.RunsOn im (n + steps) := ⟨ip, m', (hn steps).trans hrun⟩
  exact hruns.mono (Nat.le_add_left steps n)

theorem Machine.Reaches.follows (h : m.Reaches im m₁) (h' : m₁.Follows im i ps last turns r) :
    m.Follows im i ps last turns r := by
  cases r with
  | ok _ s =>
    obtain ⟨m₂, hreaches, hip, hmirrors⟩ := h'
    exact ⟨m₂, h.trans hreaches, hip, hmirrors⟩
  | error e s =>
    rcases h' with ⟨he, hruns⟩ | ⟨he, hbreaks⟩
    · exact .inl ⟨he, h.runsOn hruns⟩
    · exact .inr ⟨he, h.breaks hbreaks⟩

theorem Machine.Follows.mono {turns' : Nat} (h : m.Follows im i ps last turns' r)
    (hle : turns ≤ turns') :
    m.Follows im i ps last turns r := by
  cases r with
  | ok _ s => exact h
  | error e s =>
    rcases h with ⟨he, hruns⟩ | h
    · exact .inl ⟨he, hruns.mono hle⟩
    · exact .inr h

/-- Where a machine is does not matter for what it mirrors. -/
theorem Machine.Mirrors.elsewhere (h : m.Mirrors ps last s) (ip : Int) (steps : Nat) :
    Machine.Mirrors ps last s { m with ip, steps } :=
  ⟨h.frames, h.room, h.input, h.written, h.constants, h.elements, h.typed⟩

theorem Machine.Follows.bind {x : Interpret Unit} {f : Unit → Interpret Unit}
    (h : m.Follows im i ps last turns (x s))
    (h' : ∀ (m' : Machine) (s' : State), m'.ip = i → m'.Mirrors ps last s' →
      m'.Follows im j ps last turns (f () s')) :
    m.Follows im j ps last turns ((x >>= f) s) := by
  cases hx : x s with
  | ok u s' =>
    rw [hx] at h
    obtain ⟨m₁, hreaches, hip, hmirrors⟩ := h
    rw [bind_of_ok hx]
    exact hreaches.follows (h' m₁ s' hip hmirrors)
  | error e s' =>
    rw [hx] at h
    rw [bind_of_error hx]
    exact h

theorem Machine.Follows.step (him : im.Standard quads) (hip : m.ip = i) {q : Quad}
    (hq : quads[i]? = some q) (hexec : Execute.exec im q m.advance = .ok () m₁)
    (h : m₁.Follows im j ps last turns r) :
    m.Follows im j ps last (turns + 1) r := by
  have hreaches := Machine.reaches_step him hip hq hexec
  cases r with
  | ok _ s =>
    obtain ⟨m₂, hreaches', hip', hmirrors⟩ := h
    exact ⟨m₂, hreaches.trans hreaches', hip', hmirrors⟩
  | error e s =>
    rcases h with ⟨he, ip, m', hrun⟩ | ⟨he, hbreaks⟩
    · refine .inl ⟨he, ip, m', ?_⟩
      rw [Machine.run_of_ok him hip hq hexec]
      exact hrun
    · exact .inr ⟨he, hreaches.breaks hbreaks⟩

theorem Machine.Follows.jump (h : m.Follows im i ps last turns r) (him : im.Standard quads)
    (hq : quads[i]? = some (jumpQuad j)) : m.Follows im j ps last turns r := by
  cases r with
  | ok _ s =>
    obtain ⟨m₁, hreaches, hip, hmirrors⟩ := h
    have hexec : Execute.exec im (jumpQuad j) m₁.advance = .ok () { m₁.advance with ip := j } := rfl
    exact ⟨_, hreaches.trans (Machine.reaches_step him hip hq hexec), rfl,
      hmirrors.elsewhere j (m₁.steps + 1)⟩
  | error e s => exact h

/-- A mishap that makes the machine fail. -/
theorem Machine.Breaks.follows (h : m.Breaks im m.written) (hm : m.Mirrors ps last s) {e : Mishap}
    (he : e.Foreseen) : m.Follows im i ps last turns (.error e s) := by
  rw [hm.written] at h
  exact .inr ⟨he, h⟩

end

/-! ## What happens in the source -/

namespace Source.Interpret

theorem value_eq (e : Expr) : value leaves e s = match e.eval leaves s.store with
    | .ok v => .ok v s
    | .error cause => .error cause s := by
  unfold value
  rw [get_bind]
  cases e.eval leaves s.store <;> rfl

theorem element_eq (p : Place) : element leaves p s = match p.element leaves s.store with
    | .ok r => .ok r s
    | .error cause => .error cause s := by
  unfold element
  rw [get_bind]
  cases p.element leaves s.store <;> rfl

theorem condition_of_ok (h : e.eval leaves s.store = .ok (.bool b)) :
    condition leaves e s = .ok b s := by
  unfold condition
  rw [bind_of_ok (a := .bool b) (by rw [value_eq, h])]
  rfl

theorem condition_of_error (h : e.eval leaves s.store = .error cause) :
    condition leaves e s = .error cause s := by
  exact bind_of_error (by rw [value_eq, h])

theorem write_eq (e : Expr) : write leaves e s = match e.eval leaves s.store with
    | .ok v => .ok () { s with output := s.output ++ (v.text ++ ascii "\n") }
    | .error cause => .error cause s := by
  have hvalue : value leaves e s = _ := value_eq e
  unfold write
  cases h : e.eval leaves s.store with
  | ok v =>
    rw [h] at hvalue
    rw [bind_of_ok hvalue]
    rfl
  | error cause =>
    rw [h] at hvalue
    exact bind_of_error hvalue

theorem assign_of_ok (hp : p.element leaves s.store = .ok (l, target)) :
    assign leaves p e s = match e.eval leaves s.store with
      | .ok v => .ok ()
        { s with store := fun e => if e = target then some (v.convert l.ty) else s.store e }
      | .error cause => .error cause s := by
  have hvalue : value leaves e s = _ := value_eq e
  unfold assign
  rw [bind_of_ok (a := (l, target)) (by rw [element_eq, hp])]
  cases h : e.eval leaves s.store with
  | ok v =>
    rw [h] at hvalue
    exact bind_of_ok hvalue
  | error cause =>
    rw [h] at hvalue
    exact bind_of_error hvalue

theorem assign_of_error (hp : p.element leaves s.store = .error cause) :
    assign leaves p e s = .error cause s := by
  exact bind_of_error (by rw [element_eq, hp])

theorem read_of_ok (hp : p.element leaves s.store = .ok (l, target)) :
    read leaves p s = if s.input.isEmpty then .error .endOfInput s else
      match Value.read l.ty (Execute.trimLine (Execute.splitLine s.input).1) with
      | .ok v => .ok ()
        { s with
          input := (Execute.splitLine s.input).2
          store := fun e => if e = target then some v else s.store e }
      | .error cause => .error (.badLine cause)
        { s with input := (Execute.splitLine s.input).2 } := by
  unfold read
  rw [bind_of_ok (a := (l, target)) (by rw [element_eq, hp])]
  show ((get : Interpret State) >>= _) s = _
  rw [get_bind]
  by_cases hempty : s.input.isEmpty = true
  · rw [if_pos hempty, if_pos hempty]
    rfl
  · rw [if_neg hempty, if_neg hempty]
    generalize Execute.splitLine s.input = parts
    obtain ⟨line, rest⟩ := parts
    show ((modify fun s => { s with input := rest } : Interpret PUnit) >>= _) s = _
    cases Value.read l.ty (Execute.trimLine line) <;> rfl

theorem read_of_error (hp : p.element leaves s.store = .error cause) :
    read leaves p s = .error cause s := by
  exact bind_of_error (by rw [element_eq, hp])

end Source.Interpret

/-! ## Instructions -/

section

namespace Execute

theorem exec_copy_eq (him : im.Standard quads) {x y : Operand} {segment : Segment} {ty : Ty}
    {a : Addr} (ha : Layout.standard.Holds segment ty a) {v : Value} (hy : load y m = .ok v m)
    (hx : address x m = .ok a m) :
    exec im (copyQuad y x) m = .ok () (m.put segment a (v.convert ty)) := by
  show assign im y x m = _
  unfold assign storeAs
  rw [bind_of_ok hy, bind_of_ok hx, him.typeOf ha, store_eq him ha]

theorem exec_write_eq (im : Image) {x : Operand} {v : Value} (hx : load x m = .ok v m)
    (hroom : m.room = none) :
    exec im (writeQuad x) m = .ok () { m with output := (v.text ++ ascii "\n") :: m.output } := by
  show write x m = _
  rw [write_eq hx, hroom, if_neg (by simp)]
  rfl

theorem exec_skip_eq (im : Image) {x : Operand} (target : Nat) (hx : load x m = .ok (.bool b) m) :
    exec im (skipQuad x target) m = .ok () (if b then m else { m with ip := target }) := by
  show jumpIfFalse x (.label target) m = _
  unfold jumpIfFalse
  rw [bind_of_ok hx]
  cases b <;> rfl

end Execute

end

/-! ## Statements -/

section

variable {fs : List (Callee × List Param)} {mem mem₁ mem' : Memory} {base : Nat}

section

variable (hs : Surroundings im quads names ps fs last)

include hs

theorem assign_follows {y : TypedOperand}
    {code' : List Quad} (hx : ExprCode names p.expr mem x code mem₁)
    (hy : ExprCode names e mem₁ y code' mem')
    (hassign : Typing.assignable x.ty y.ty = true) (hpcalls : p.expr.calls = [])
    (hecalls : e.calls = []) (hplit : p.expr.Literals fun ty v => Literal ty (v.convert ty))
    (helit : e.Literals fun ty v => Literal ty (v.convert ty)) (hv : mem.Valid)
    (hext : mem'.Extends last)
    (hplaced : Placed quads base (code ++ code' ++ [copyQuad y.operand x.operand]))
    (hip : m.ip = base) (hm : m.Mirrors ps last s) :
    m.Follows im (base + (code ++ code' ++ [copyQuad y.operand x.operand]).length) ps last turns
      (Interpret.assign (ps.map Placement.leaf) p e s) := by
  obtain ⟨hcode, hquad⟩ := hplaced.append
  obtain ⟨hcode, hcode'⟩ := hcode.append
  rw [List.length_append, ← Nat.add_assoc] at hquad
  have hgrowth := hx.growth (T := IsTemporary) (P := Literal) hv hplit
  have hgrowth' := hy.growth (T := IsTemporary) (P := Literal) hgrowth.valid helit
  obtain ⟨v, hvmem, r, hty, hwithin, helement, hlocates⟩ :=
    hx.locates hs hpcalls hplit hv (hgrowth'.memory.trans hext) hcode hip hm
  cases r with
  | error cause =>
    rw [Interpret.assign_of_error helement]
    exact hlocates.follows hm hwithin
  | ok is =>
    rw [Interpret.assign_of_ok helement]
    obtain ⟨m₁, hreaches, hip₁, heval₁, -, haddress⟩ := hlocates
    have hm₁ := hm.evaluated hs heval₁
    have harrives := hy.arrives hs hecalls helit hgrowth.valid hext hcode' hip₁ hm₁
    have hsensible := hy.sensible hs.sound hs.paths hm.typed hecalls helit
    apply hreaches.follows
    cases hvalue : e.eval (ps.map Placement.leaf) s.store with
    | error cause =>
      rw [hvalue] at harrives hsensible
      exact (harrives.breaks hs.image hquad.head fun _ _ => bind_of_error).follows hm₁ hsensible
    | ok w =>
      rw [hvalue] at harrives hsensible
      rcases harrives with ⟨m₂, hreaches₂, hip₂, heval₂, -, hloads⟩ | ⟨⟨_, he⟩, -⟩
      · have hm₂ := (hm₁.evaluated hs heval₂).evaluated hs (.advance mem' m₂)
        have haddress₂ := haddress m₂.advance (heval₂.trans (.advance mem₁ m₂) (.refl mem₁))
        have hexec := Execute.exec_copy_eq hs.image (hs.element_holds hvmem hwithin)
          (hloads _ (.advance mem' m₂)) haddress₂
        have hwty : (w.convert v.ty).HasType v.ty := by
          rw [hty]
          exact Value.convert_hasType hsensible hassign
        refine ⟨_, hreaches₂.trans (Machine.reaches_step hs.image hip₂ hquad.head hexec), ?_,
          hm₂.put hs hvmem hwithin hwty⟩
        show m₂.ip + 1 = _
        rw [hip₂, List.length_append, List.length_append]
        simp only [List.length_singleton]
        omega
      · cases he

theorem write_follows (hx : ExprCode names e mem x code mem')
    (hcalls : e.calls = []) (hlit : e.Literals fun ty v => Literal ty (v.convert ty))
    (hv : mem.Valid) (hext : mem'.Extends last) (hplaced : Placed quads base code)
    (hq : quads[base + code.length]? = some (writeQuad x.operand)) (hip : m.ip = base)
    (hm : m.Mirrors ps last s) :
    m.Follows im (base + code.length + 1) ps last turns
      (Interpret.write (ps.map Placement.leaf) e s) := by
  have harrives := hx.arrives hs hcalls hlit hv hext hplaced hip hm
  have hsensible := hx.sensible hs.sound hs.paths hm.typed hcalls hlit
  rw [Interpret.write_eq]
  cases hvalue : e.eval (ps.map Placement.leaf) s.store with
  | error cause =>
    rw [hvalue] at harrives hsensible
    exact (harrives.breaks hs.image hq fun _ _ => bind_of_error).follows hm hsensible
  | ok v =>
    rw [hvalue] at harrives
    rcases harrives with ⟨m₁, hreaches, hip₁, heval, -, hloads⟩ | ⟨⟨_, he⟩, -⟩
    · have hm₁ := (hm.evaluated hs heval).evaluated hs (.advance mem' m₁)
      have hexec := Execute.exec_write_eq im (hloads _ (.advance mem' m₁)) hm₁.room
      refine ⟨_, hreaches.trans (Machine.reaches_step hs.image hip₁ hq hexec), ?_, ?_⟩
      · show m₁.ip + 1 = _
        omega
      · refine ⟨hm₁.frames, hm₁.room, hm₁.input, ?_, hm₁.constants, hm₁.elements, hm₁.typed⟩
        have hwritten := hm₁.written
        unfold Machine.written at hwritten ⊢
        rw [List.reverse_cons, List.flatten_append, hwritten]
        simp
    · cases he

theorem read_follows (hx : ExprCode names p.expr mem x code mem')
    (hcalls : p.expr.calls = []) (hlit : p.expr.Literals fun ty v => Literal ty (v.convert ty))
    (hv : mem.Valid) (hext : mem'.Extends last) (hplaced : Placed quads base code)
    (hq : quads[base + code.length]? = some (readQuad x.operand)) (hip : m.ip = base)
    (hm : m.Mirrors ps last s) :
    m.Follows im (base + code.length + 1) ps last turns
      (Interpret.read (ps.map Placement.leaf) p s) := by
  obtain ⟨v, hvmem, r, hty, hwithin, helement, hlocates⟩ :=
    hx.locates hs hcalls hlit hv hext hplaced hip hm
  cases r with
  | error cause =>
    rw [Interpret.read_of_error helement]
    exact hlocates.follows hm hwithin
  | ok is =>
    rw [Interpret.read_of_ok helement]
    obtain ⟨m₁, hreaches, hip₁, heval, -, haddress⟩ := hlocates
    have hm₁ := (hm.evaluated hs heval).evaluated hs (.advance mem' m₁)
    have hholds := hs.element_holds hvmem hwithin
    have hexec : Execute.exec im (readQuad x.operand) m₁.advance = _ :=
      Execute.read_eq (haddress _ (.advance mem' m₁))
    rw [hs.image.typeOf hholds, hm₁.input] at hexec
    apply hreaches.follows
    by_cases hempty : s.input.isEmpty = true
    · rw [if_pos hempty] at hexec ⊢
      exact (Machine.breaks_here hs.image hip₁ hq hexec).follows (hm.evaluated hs heval)
        ⟨Mishap.noConfusion, Mishap.noConfusion⟩
    · rw [if_neg hempty] at hexec ⊢
      show m₁.Follows im _ ps last turns
        (match Value.read v.ty _ with | .ok v => _ | .error cause => _)
      cases hread : Value.read v.ty (Execute.trimLine (Execute.splitLine s.input).1) with
      | error cause =>
        rw [hread] at hexec
        have hbreaks := Machine.breaks_step hs.image hip₁ hq hexec
        refine .inr ⟨⟨Mishap.noConfusion, Mishap.noConfusion⟩, ?_⟩
        rw [← hm₁.written]
        exact hbreaks
      | ok w =>
        rw [hread] at hexec
        simp only at hexec
        rw [Execute.store_eq hs.image hholds,
          Machine.put_of_frames (m := { m₁.advance with input := (Execute.splitLine s.input).2 })
          hm₁.frames]
          at hexec
        refine ⟨_, Machine.reaches_step hs.image hip₁ hq hexec, ?_, ?_⟩
        · show m₁.ip + 1 = _
          omega
        · have hput := hm₁.put hs hvmem hwithin (Value.read_hasType hread)
          exact ⟨hput.frames, hput.room, rfl, hput.written, hput.constants, hput.elements,
            hput.typed⟩

end

theorem UsesCode.extends {es : List Expr} (h : UsesCode names use es mem code mem') (hv : mem.Valid)
    (hlit : Expr.allLiterals (fun ty v => Literal ty (v.convert ty)) es) : mem.Extends mem' := by
  induction h with
  | nil => exact .refl _
  | cons he _ _ ih =>
    have hgrowth := he.growth (T := IsTemporary) (P := Literal) hv hlit.1
    exact hgrowth.memory.trans (ih hgrowth.valid hlit.2)

/-- What is done for each item of a list, one instruction after the code of an expression each. -/
theorem UsesCode.follows {α : Type} {expr : α → Expr} {act : α → Interpret Unit}
    (hone : ∀ (a : α) {mem mem' : Memory} {x : TypedOperand} {code : List Quad} {base : Nat}
      {m : Machine} {s : State}, ExprCode names (expr a) mem x code mem' → (expr a).calls = [] →
      (expr a).Literals (fun ty v => Literal ty (v.convert ty)) → mem.Valid → mem'.Extends last →
      Placed quads base code → quads[base + code.length]? = some (use x.operand) → m.ip = base →
      m.Mirrors ps last s → m.Follows im (base + code.length + 1) ps last turns (act a s))
        (as : List α)
    (h : UsesCode names use (as.map expr) mem code mem') (hcalls : Expr.allCalls (as.map expr) = [])
    (hlit : Expr.allLiterals (fun ty v => Literal ty (v.convert ty)) (as.map expr)) (hv : mem.Valid)
    (hext : mem'.Extends last) (hplaced : Placed quads base code) (hip : m.ip = base)
    (hm : m.Mirrors ps last s) :
    m.Follows im (base + code.length) ps last turns (Interpret.each act as s) := by
  induction as generalizing mem base code m s with
  | nil =>
    cases h
    exact ⟨m, .refl im m, hip, hm⟩
  | cons a as ih =>
    cases h with
    | @cons _ _ x code code' _ mem₁ _ he _ hes =>
      obtain ⟨hacalls, hcalls⟩ := List.append_eq_nil_iff.1 hcalls
      obtain ⟨hcode, hrest⟩ := hplaced.append
      have hgrowth := he.growth (T := IsTemporary) (P := Literal) hv hlit.1
      have hext₁ := (hes.extends hgrowth.valid hlit.2).trans hext
      rw [List.length_append, List.length_cons, Nat.add_comm code'.length, ← Nat.add_assoc,
        ← Nat.add_assoc]
      refine (hone a he hacalls hlit.1 hv hext₁ hcode hrest.head hip hm).bind
        fun m' s' hip' hm' => ?_
      exact ih hes hcalls hlit.2 hgrowth.valid hrest.tail hip' hm'

section

variable (hs : Surroundings im quads names ps fs last) (hc : ExprCode names c mem x code mem')
  (hty : x.ty = .bool) (hcalls : c.calls = [])
  (hlit : c.Literals fun ty v => Literal ty (v.convert ty)) (hv : mem.Valid)
  (hext : mem'.Extends last) (hplaced : Placed quads base code)

include hs hc hty hcalls hlit hv hext hplaced

/-- A condition decides where to go on. -/
theorem condition_follows {target position : Nat}
    (hq : quads[base + code.length]? = some (skipQuad x.operand target))
    (hip : m.ip = base) (hm : m.Mirrors ps last s) {f : Bool → Interpret Unit}
    (hf : ∀ (b : Bool) (m' : Machine),
      m'.ip = (if b then base + code.length + 1 else target : Nat) → m'.Mirrors ps last s →
      m'.Follows im position ps last turns (f b s)) :
    m.Follows im position ps last turns
      ((Interpret.condition (ps.map Placement.leaf) c >>= f) s) := by
  have harrives := hc.arrives hs hcalls hlit hv hext hplaced hip hm
  have hsensible := hc.sensible hs.sound hs.paths hm.typed hcalls hlit
  cases hvalue : c.eval (ps.map Placement.leaf) s.store with
  | error cause =>
    rw [hvalue] at harrives hsensible
    rw [bind_of_error (Interpret.condition_of_error hvalue)]
    exact (harrives.breaks hs.image hq fun _ _ => bind_of_error).follows hm hsensible
  | ok v =>
    rw [hvalue] at harrives hsensible
    rcases harrives with ⟨m₁, hreaches, hip₁, heval, -, hloads⟩ | ⟨⟨_, he⟩, -⟩
    · have hm₁ := (hm.evaluated hs heval).evaluated hs (.advance mem' m₁)
      cases v with
      | bool b =>
        have hexec := Execute.exec_skip_eq im target (hloads _ (.advance mem' m₁))
        rw [bind_of_ok (Interpret.condition_of_ok hvalue)]
        apply (hreaches.trans (Machine.reaches_step hs.image hip₁ hq hexec)).follows
        apply hf b
        · cases b with
          | false => rfl
          | true =>
            show m₁.ip + 1 = _
            rw [hip₁]
            simp
        · cases b with
          | false => exact hm₁.elsewhere target (m₁.steps + 1)
          | true => exact hm₁
      | _ =>
        have htype : Value.HasType _ x.ty := hsensible
        rw [hty] at htype
        cases htype
    · cases he

/-- A loop, by induction on the turns it may take. The last jump of a turn is the step that makes up
for the turn. -/
theorem loop_follows {stop : Nat}
    (hq : quads[base + code.length]? = some (skipQuad x.operand (stop + 1)))
    (hjump : quads[stop]? = some (jumpQuad base)) {body : Interpret Unit}
    (hbody : ∀ (m : Machine) (s : State), m.ip = (base + code.length + 1 : Nat) →
      m.Mirrors ps last s → m.Follows im stop ps last turns (body s)) {n : Nat} (hn : n ≤ turns)
        (hip : m.ip = base)
    (hm : m.Mirrors ps last s) :
    m.Follows im (stop + 1) ps last n
      (Interpret.whileHolds (Interpret.condition (ps.map Placement.leaf) c) body n s) := by
  induction n generalizing m s with
  | zero =>
    obtain ⟨hlt, -⟩ := List.getElem?_eq_some_iff.1 hq
    have hdone := Machine.isDone_of_lt hs.image hip (by omega)
    refine .inl ⟨rfl, m.ip, m, ?_⟩
    simp [Machine.run, hdone]
  | succ n ih =>
    refine condition_follows hs hc hty hcalls hlit hv hext hplaced hq hip hm fun b m₁ hip₁ hm₁ => ?_
    cases b with
    | false => exact ⟨m₁, .refl im m₁, hip₁, hm₁⟩
    | true =>
      refine ((hbody m₁ s hip₁ hm₁).mono hn).bind fun m₂ s₂ hip₂ hm₂ => ?_
      have hexec : Execute.exec im (jumpQuad base) m₂.advance = .ok () { m₂.advance with
        ip := base } := rfl
      exact Machine.Follows.step hs.image hip₂ hjump hexec
        (ih (Nat.le_of_succ_le hn) rfl (hm₂.elsewhere base (m₂.steps + 1)))

end

theorem length_skip (base : Nat) (code code' : List Quad) (q : Quad) :
    base + (code ++ q :: code').length = base + code.length + 1 + code'.length := by
  rw [List.length_append, List.length_cons]
  omega

mutual

/-- The code of a statement without calls does what the statement does. -/
theorem StmtCode.follows (hs : Surroundings im quads names ps fs last) {st : Stmt} {base : Nat}
    {mem mem' : Memory} {code : List Quad} :
    StmtCode names none base st mem code mem' → st.calls = [] →
    st.Literals (fun ty v => Literal ty (v.convert ty)) → names.Ready ps [] fs mem →
      mem'.Extends last →
    {m : Machine} → {s : State} → Placed quads base code → m.ip = base → m.Mirrors ps last s →
    m.Follows im (base + code.length) ps last turns (st.exec (ps.map Placement.leaf) turns s)
  | .assign hx hy hassign, hcalls, hlit, hready, hext, _, _, hplaced, hip, hm => by
    obtain ⟨hpcalls, hecalls⟩ := List.append_eq_nil_iff.1 hcalls
    exact assign_follows hs hx hy hassign hpcalls hecalls hlit.1 hlit.2 hready.valid hext
      hplaced hip hm
  | .call _ _, hcalls, _, _, _, _, _, _, _, _ => by cases hcalls
  | .read huses, hcalls, hlit, hready, hext, _, _, hplaced, hip, hm =>
    UsesCode.follows (fun _ => read_follows hs) _ huses hcalls hlit hready.valid hext hplaced hip hm
  | @StmtCode.write _ _ _ values _ _ _ huses, hcalls, hlit, hready, hext, _, _, hplaced,
    hip, hm => by
    rw [← List.map_id values] at huses hcalls hlit
    exact UsesCode.follows (fun _ => write_follows hs) values huses hcalls hlit hready.valid hext
      hplaced hip hm
  | .retNone hf _, _, _, _, _, _, _, _, _, _ => by cases hf
  | .retSome hf _ _ _, _, _, _, _, _, _, _, _, _ => by cases hf
  | .branch hc hty hbody, hcalls, hlit, hready, hext, _, _, hplaced, hip, hm => by
    obtain ⟨hccalls, hbcalls⟩ := List.append_eq_nil_iff.1 hcalls
    have hgrowth := hc.growth (T := IsTemporary) (P := Literal) hready.valid hlit.1
    have hready₁ := hready.mono hgrowth.memory hgrowth.valid
    have hgrowth' := hbody.growth (P := Literal) hready₁ hlit.2
    obtain ⟨hcode, hrest⟩ := hplaced.append
    rw [length_skip]
    refine condition_follows hs hc hty hccalls hlit.1 hready.valid (hgrowth'.memory.trans hext)
      hcode hrest.head
      hip hm fun b m₁ hip₁ hm₁ => ?_
    cases b with
    | false => exact ⟨m₁, .refl im m₁, hip₁, hm₁⟩
    | true => exact hbody.follows hs hbcalls hlit.2 hready₁ hext hrest.tail hip₁ hm₁
  | .branchElse hc hty hbody hother, hcalls, hlit, hready, hext, _, _, hplaced, hip, hm => by
    obtain ⟨hccalls, hcalls⟩ := List.append_eq_nil_iff.1 hcalls
    obtain ⟨hbcalls, hocalls⟩ := List.append_eq_nil_iff.1 hcalls
    have hgrowth := hc.growth (T := IsTemporary) (P := Literal) hready.valid hlit.1
    have hready₁ := hready.mono hgrowth.memory hgrowth.valid
    have hgrowth₁ := hbody.growth (P := Literal) hready₁ hlit.2.1
    have hready₂ := hready₁.mono hgrowth₁.memory hgrowth₁.valid
    have hext₂ := (hother.growth (P := Literal) hready₂ hlit.2.2).memory.trans hext
    obtain ⟨hplaced, hjump⟩ := hplaced.append
    obtain ⟨hcode, hrest⟩ := hplaced.append
    rw [length_skip] at hjump
    rw [length_skip, length_skip]
    refine condition_follows hs hc hty hccalls hlit.1 hready.valid (hgrowth₁.memory.trans hext₂)
      hcode hrest.head
      hip hm fun b m₁ hip₁ hm₁ => ?_
    cases b with
    | false => exact hother.follows hs hocalls hlit.2.2 hready₂ hext hjump.tail hip₁ hm₁
    | true =>
      exact (hbody.follows hs hbcalls hlit.2.1 hready₁ hext₂ hrest.tail hip₁ hm₁).jump hs.image
        hjump.head
  | .loop hc hty hbody, hcalls, hlit, hready, hext, _, _, hplaced, hip, hm => by
    obtain ⟨hccalls, hbcalls⟩ := List.append_eq_nil_iff.1 hcalls
    have hgrowth := hc.growth (T := IsTemporary) (P := Literal) hready.valid hlit.1
    have hready₁ := hready.mono hgrowth.memory hgrowth.valid
    have hgrowth₁ := hbody.growth (P := Literal) hready₁ hlit.2
    obtain ⟨hplaced, hjump⟩ := hplaced.append
    obtain ⟨hcode, hrest⟩ := hplaced.append
    rw [length_skip] at hjump
    rw [List.length_append, ← Nat.add_assoc, length_skip]
    refine loop_follows hs hc hty hccalls hlit.1 hready.valid (hgrowth₁.memory.trans hext) hcode
      hrest.head
      hjump.head (fun m₁ s₁ hip₁ hm₁ => ?_) (Nat.le_refl turns) hip hm
    exact hbody.follows hs hbcalls hlit.2 hready₁ hext hrest.tail hip₁ hm₁

theorem StmtsCode.follows (hs : Surroundings im quads names ps fs last) {ss : List Stmt}
    {base : Nat} {mem mem' : Memory} {code : List Quad} :
    StmtsCode names none base ss mem code mem' →
    Stmt.allCalls ss = [] → Stmt.allLiterals (fun ty v => Literal ty (v.convert ty)) ss →
    names.Ready ps [] fs mem → mem'.Extends last → {m : Machine} → {s : State} →
      Placed quads base code →
    m.ip = base → m.Mirrors ps last s →
    m.Follows im (base + code.length) ps last turns
      (Stmt.execAll (ps.map Placement.leaf) turns ss s)
  | .nil, _, _, _, _, m, _, _, hip, hm => ⟨m, .refl im m, hip, hm⟩
  | .cons hst hss, hcalls, hlit, hready, hext, _, _, hplaced, hip, hm => by
    obtain ⟨hstcalls, hsscalls⟩ := List.append_eq_nil_iff.1 hcalls
    have hgrowth := hst.growth (P := Literal) hready hlit.1
    have hready₁ := hready.mono hgrowth.memory hgrowth.valid
    have hgrowth' := hss.growth (P := Literal) hready₁ hlit.2
    obtain ⟨hcode, hrest⟩ := hplaced.append
    rw [List.length_append, ← Nat.add_assoc]
    refine (hst.follows hs hstcalls hlit.1 hready (hgrowth'.memory.trans hext) hcode hip hm).bind ?_
    intro m' s' hip' hm'
    exact hss.follows hs hsscalls hlit.2 hready₁ hext hrest hip' hm'

end

end

/-! ## Programs -/

section

variable {text : Bytes} {t : Tree} {p : Program} {b : Assembly}

/-- The literals of a text are represented as the machine represents them. -/
theorem Source.Tree.ReadFrom.represented (hread : t.ReadFrom text) (h : compile text = .ok p) :
    t.Literals fun ty v => Literal ty (v.convert ty) := by
  apply hread.literals h
  intro ts hscan tok htok ty v hconst
  have hliteral := literal_of_scan hscan htok hconst
  rw [Value.convert_eq_self hliteral.hasType]
  exact hliteral

theorem Assembly.Of.surroundings (h : b.Of Literal t p) (depth : Int) :
    Surroundings (Image.ofProgram p depth) p.quads.toList b.names b.placements
      (b.routines.map Routine.known) b.after where
  image := ⟨rfl, by rw [← h.layout]; rfl⟩
  sound := h.ready.sound
  paths := h.paths
  apart := h.apart
  shaped := fun v hv => (h.ready.outer v hv).1
  stored := fun v hv a ha => h.ready.holds ((h.ready.outer v hv).2.2 a ha)
  valid := h.growth.valid
  layout := h.growth.memory.layout.trans h.ready.layout
  literals := by
    obtain ⟨-, -, hconstants⟩ := h.outline.growth
    exact h.growth.constants hconstants

/-- In the beginning there are constants only. -/
theorem Assembly.Of.start_mirrors (h : b.Of Literal t p) (input : Bytes) :
    (Machine.start p input none).Mirrors b.placements b.after { input } where
  frames := rfl
  room := rfl
  input := rfl
  written := rfl
  constants := by
    intro c hc
    show p.consts[c.address]? = _
    rw [h.consts, Memory.getElem?_values h.growth.valid.distinct]
    exact ⟨c, hc, rfl, rfl⟩
  elements := by
    intro v hv is his
    show p.consts[v.element is]? = none
    have hs := h.surroundings 0
    rw [h.consts, Option.eq_none_iff_forall_ne_some]
    intro w hw
    obtain ⟨c, hc, haddress, -⟩ := (Memory.getElem?_values h.growth.valid.distinct).1 hw
    have hconstant := hs.holds_constant hc
    rw [haddress] at hconstant
    exact absurd (Layout.standard_holds_inj hconstant (hs.element_holds hv his)).1 (by decide)
  typed := by
    intro v _ is w hw
    cases hw

end

/-- A machine agrees with a run of the source. -/
inductive Machine.Agrees (im : Image) (m : Machine) (names : Names) (leaves : List Leaf)
    (turns : Nat) :
    EStateM.Result Mishap State Unit → Prop
  /-- The run ends: the machine finishes, has written the same, and every element of every variable
  holds what it holds in the source. -/
  | finishes {s : State} {n : Nat} {m' : Machine} :
      (∀ limit, n ≤ limit → m.run im limit = (.finished, m')) → m'.written = s.output →
      (∀ l ∈ leaves, ∃ v : Placement, v.leaf = l ∧ names.Finds v ∧
        ∀ is, Quadlang.Within v.dims is → m'.get? (v.element is) = s.store ⟨l.path, is⟩) →
      Machine.Agrees im m names leaves turns (.ok () s)
  /-- The run comes to a mishap: the machine fails and has written the same. -/
  | fails {e : Mishap} {s : State} {n : Nat} {ip : Int} {op : Opcode} {cause : RunFault}
    {m' : Machine} :
      e ≠ .meaningless → e ≠ .unfinished →
      (∀ limit, n ≤ limit → m.run im limit = (.failed ip op cause, m')) → m'.written = s.output →
      Machine.Agrees im m names leaves turns (.error e s)
  /-- The run does not end within some turns of its loops: nor does the machine within as many
  steps. -/
  | runsOn {s : State} {ip : Int} {m' : Machine} :
      m.run im turns = (.canceled ip, m') →
      Machine.Agrees im m names leaves turns (.error .unfinished s)

theorem Machine.Agrees.finished (h : m.Agrees im names leaves turns r) (hr : r = .ok () s) :
    ∃ n m', (∀ limit, n ≤ limit → m.run im limit = (.finished, m')) ∧ m'.written = s.output ∧
      ∀ l ∈ leaves, ∃ v : Placement, v.leaf = l ∧ names.Finds v ∧
        ∀ is, Quadlang.Within v.dims is → m'.get? (v.element is) = s.store ⟨l.path, is⟩ := by
  subst hr
  cases h with
  | finishes hrun hwritten hvalues => exact ⟨_, _, hrun, hwritten, hvalues⟩

theorem Machine.Agrees.failed (h : m.Agrees im names leaves turns r) {e : Mishap}
    (hr : r = .error e s) (he : e ≠ .unfinished) :
    ∃ n ip op cause m', (∀ limit, n ≤ limit → m.run im limit = (.failed ip op cause, m')) ∧
      m'.written = s.output := by
  subst hr
  cases h with
  | fails _ _ hrun hwritten => exact ⟨_, _, _, _, _, hrun, hwritten⟩
  | runsOn => exact absurd rfl he

theorem Machine.Reaches.finished {m' : Machine} (h : m.Reaches im m')
    (hdone : m'.isDone im = true) :
    ∃ n, ∀ limit, n ≤ limit → m.run im limit = (.finished, m') := by
  obtain ⟨n, hn⟩ := h
  refine ⟨n, fun limit hle => ?_⟩
  obtain ⟨k, rfl⟩ := Nat.exists_eq_add_of_le hle
  rw [hn]
  cases k with
  | zero => exact if_pos hdone
  | succ k => exact if_pos hdone

theorem Machine.Breaks.failed {written : Bytes} (h : m.Breaks im written) :
    ∃ n ip op cause m', (∀ limit, n ≤ limit → m.run im limit = (.failed ip op cause, m')) ∧
      m'.written = written := by
  obtain ⟨n, ip, op, cause, m', hrun, hwritten⟩ := h
  refine ⟨n, ip, op, cause, m', fun limit hle => ?_, hwritten⟩
  obtain ⟨k, rfl⟩ := Nat.exists_eq_add_of_le hle
  exact hrun k

/-- What follows the source up to its end agrees with it. -/
theorem Machine.Follows.agrees {ps : List Placement} {last : Memory}
    (h : m.Follows im im.quads.size ps last turns r) (hfinds : ∀ v ∈ ps, names.Finds v) :
    m.Agrees im names (ps.map Placement.leaf) turns r := by
  cases r with
  | ok _ s =>
    obtain ⟨m', hreaches, hip, hm⟩ := h
    have hdone : m'.isDone im = true := decide_eq_true (Int.le_of_eq hip.symm)
    obtain ⟨n, hn⟩ := hreaches.finished hdone
    refine .finishes hn hm.written fun l hl => ?_
    obtain ⟨v, hv, rfl⟩ := List.mem_map.1 hl
    refine ⟨v, rfl, hfinds v hv, fun is his => ?_⟩
    rw [Machine.get?_of_frames hm.frames]
    exact hm.elements v hv is his
  | error e s =>
    rcases h with ⟨rfl, _, _, hrun⟩ | ⟨he, hbreaks⟩
    · exact .runsOn hrun
    · obtain ⟨n, ip, op, cause, m', hrun, hwritten⟩ := hbreaks.failed
      exact .fails he.1 he.2 hrun hwritten

/-- A program without calls in its main body runs as its source does: its text has a tree, and it
agrees with every tree that the text is read as. -/
theorem compiled_run_agrees {text : Bytes} {p : Program} (h : compile text = .ok p) :
    (∃ ts t, Token.scan text = .ok ts ∧ Tree.Spelled t ts.list ∧ t.ReadFrom text) ∧
      ∀ t : Tree, t.ReadFrom text → Stmt.allCalls t.main.statements = [] →
        ∀ (turns : Nat) (input : Bytes) (depth : Int),
          (Machine.start p input none).Agrees (Image.ofProgram p depth)
            (Generator.initial.parse text).2.names t.leaves turns (t.interpret turns input) := by
  refine ⟨compile_spelled h, fun t hread hcalls turns input depth => ?_⟩
  obtain ⟨b, hlasts, hof⟩ := hread.assembled h Literal (hread.represented h)
  have hfollows : (Machine.start p input none).Follows _ _ _ _ turns _ :=
    hof.body.follows (hof.surroundings depth) hcalls hof.literals hof.ready (.refl b.after)
    hof.placed.2
      hof.entry (hof.start_mirrors input)
  rw [← hof.length_quads, Array.length_toList] at hfollows
  unfold Tree.interpret
  rw [← hlasts.names, ← hof.leaves]
  exact hfollows.agrees hof.finds

/-- A row of an instance is read, compared and looked up. The text has no parentheses around its
operators of logic. -/
def census : Bytes :=
  ascii "program census; class Row \x7b int cells[2]; bool odd; \x7d Row r; int i; main \x7b " ++
    ascii "int k; i = 0; while (i < 2) \x7b read(r.cells[i]); i = i + 1; \x7d " ++
    ascii "r.odd = true || true && r.cells[0] == r.cells[1]; if (r.odd) \x7b write(1); \x7d " ++
    ascii "else \x7b write(r.cells[1]); \x7d read(k); write(r.cells[k]); \x7d"

/-- Whether a run comes to a mishap, or to none, in a state with a property. -/
def Source.comesTo (mishap : Option Mishap) (P : State → Bool) :
    EStateM.Result Mishap State Unit → Bool
  | .ok _ s => mishap = none && P s
  | .error e s => mishap = some e && P s

theorem Source.comesTo_none (h : comesTo none P r = true) : ∃ s, r = .ok () s ∧ P s = true := by
  cases r with
  | ok u s => exact ⟨s, rfl, h⟩
  | error e s => cases h

theorem Source.comesTo_some {e : Mishap} (h : comesTo (some e) P r = true) :
    ∃ s, r = .error e s ∧ P s = true := by
  cases r with
  | ok u s => cases h
  | error e' s =>
    obtain ⟨he, hs⟩ := Bool.and_eq_true_iff.1 h
    obtain rfl := Option.some.inj (of_decide_eq_true he)
    exact ⟨s, rfl, hs⟩

namespace Census

def reference (name : String) : Expr := .reference (ascii name) [] []

def number (k : Int64) : Expr := .constant .int (.int k)

def cell (index : Expr) : Place := ⟨ascii "r", [ascii "cells"], [index]⟩

/-- The tree of the program. The operators of logic are taken from left to right. -/
def tree : Tree where
  name := ascii "census"
  parts := [.record (ascii "Row") [⟨ascii "int", [⟨ascii "cells", [2]⟩]⟩,
    ⟨ascii "bool", [⟨ascii "odd", []⟩]⟩],
    .declaration ⟨ascii "Row", [⟨ascii "r", []⟩]⟩, .declaration ⟨ascii "int", [⟨ascii "i", []⟩]⟩]
  main := ⟨[⟨ascii "int", [⟨ascii "k", []⟩]⟩],
    [.assign ⟨ascii "i", [], []⟩ (number 0),
      .loop (.binary (.compare .lt) (reference "i") (number 2))
        [.read [cell (reference "i")], .assign ⟨ascii "i", [], []⟩
        (.binary (.arith .sum) (reference "i") (number 1))],
      .assign ⟨ascii "r", [ascii "odd"], []⟩
        (.binary (.logic .and)
          (.binary (.logic .or) (.constant .bool (.bool true)) (.constant .bool (.bool true)))
          (.binary (.compare .eq) (cell (number 0)).expr (cell (number 1)).expr)),
      .branchElse (.reference (ascii "r") [ascii "odd"] []) [.write [number 1]]
      [.write [(cell (number 1)).expr]],
      .read [⟨ascii "k", [], []⟩], .write [(cell (reference "k")).expr]]⟩

theorem tree_readFrom : tree.ReadFrom census := Tree.readFrom_of_scan (by decide +kernel)

theorem tree_calls : Stmt.allCalls tree.main.statements = [] := rfl

/-- A run that ends writes the last cell twice, as the truth value came out false. With a place for
the lookup that is not in the row the run fails before the second time. -/
theorem census_agrees : ∃ p, compile census = .ok p ∧ tree.ReadFrom census ∧
    Stmt.allCalls tree.main.statements = [] ∧
    (∃ n m, (∀ limit, n ≤ limit →
        (Machine.start p (ascii "4\n7\n1\n") none).run (Image.ofProgram p 0) limit =
          (.finished, m)) ∧
      m.written = ascii "7\n7\n" ∧ ∃ v : Placement, v.path = [ascii "r", ascii "odd"] ∧
        (Generator.initial.parse census).2.names.Finds v ∧
          m.get? (v.element []) = some (.bool false)) ∧
    ∃ n ip op cause m, (∀ limit, n ≤ limit →
        (Machine.start p (ascii "4\n7\n2\n") none).run (Image.ofProgram p 0) limit =
          (.failed ip op cause, m)) ∧ m.written = ascii "7\n" := by
  obtain ⟨p, hcompile, -⟩ := @exists_image census (fun _ _ => true) (by decide +kernel)
  obtain ⟨s, hends, hs⟩ := comesTo_none (P := fun s => s.output = ascii "7\n7\n" &&
    s.store ⟨[ascii "r", ascii "odd"], []⟩ = some (.bool false))
    (r := tree.interpret 3 (ascii "4\n7\n1\n")) (by decide +kernel)
  obtain ⟨s', hstops, hs'⟩ := comesTo_some (e := .outOfBounds 2 2) (P := fun s =>
    s.output = ascii "7\n")
    (r := tree.interpret 3 (ascii "4\n7\n2\n")) (by decide +kernel)
  obtain ⟨houtput, hodd⟩ := Bool.and_eq_true_iff.1 hs
  have hagrees := (compiled_run_agrees hcompile).2 tree tree_readFrom tree_calls 3
  refine ⟨p, hcompile, tree_readFrom, tree_calls, ?_, ?_⟩
  · obtain ⟨n, m, hm, hwritten, hleaves⟩ := (hagrees (ascii "4\n7\n1\n") 0).finished hends
    obtain ⟨v, hleaf, hfinds, hvalues⟩ := hleaves ⟨[ascii "r", ascii "odd"], .bool, []⟩
      (by decide +kernel)
    refine ⟨n, m, hm, hwritten.trans (of_decide_eq_true houtput), v, congrArg Leaf.path hleaf,
      hfinds, ?_⟩
    have hdims : v.dims = [] := List.map_eq_nil_iff.1 (congrArg Leaf.sizes hleaf)
    have hwithin : Within v.dims [] := by
      rw [hdims]
      exact .nil
    exact (hvalues [] hwithin).trans (of_decide_eq_true hodd)
  · obtain ⟨n, ip, op, cause, m, hm, hwritten⟩ :=
      (hagrees (ascii "4\n7\n2\n") 0).failed hstops (by decide)
    exact ⟨n, ip, op, cause, m, hm, hwritten.trans (of_decide_eq_true hs')⟩

end Census

end Quadlang
