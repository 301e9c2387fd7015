-- Where the functions of a program stand: one right behind the other, each from the position
-- that its calls enter to the one instruction that leaves it. Jumps and returns stay inside of
-- their function, and calls go to functions of the program.
import Mathlib.Data.List.Nodup
import Quadlang.Proofs.Program.Composition

namespace Quadlang

open Source

variable {high low : Nat} {r : Routine} {q : Quad}

/-! ## Spans -/

/-- The part of a program that a function takes up, from the position that its calls enter to
the last one. -/
structure Span where
  callee : Callee
  stop : Nat

def Span.Has (s : Span) (i : Nat) : Prop := s.callee.target ≤ i ∧ i ≤ s.stop

/-- Spans that fill the positions from one up to another, one right behind the other. -/
def Tiles : List Span → Nat → Nat → Prop
  | [], low, high => low = high
  | s :: ss, low, high => s.callee.target = low ∧ low ≤ s.stop ∧ Tiles ss (s.stop + 1) high

section

variable {ss : List Span} (h : Tiles ss low high)

include h

theorem Tiles.concat {s : Span} (htarget : s.callee.target = high) (hstop : high ≤ s.stop) :
    Tiles (ss ++ [s]) low (s.stop + 1) := by
  induction ss generalizing low with
  | nil =>
    obtain rfl : low = high := h
    exact ⟨htarget, hstop, rfl⟩
  | cons s' ss ih =>
    obtain ⟨htarget', hstop', hrest⟩ := h
    exact ⟨htarget', hstop', ih hrest⟩

theorem Tiles.low_le {s : Span} (hs : s ∈ ss) : low ≤ s.callee.target := by
  induction ss generalizing low with
  | nil => cases hs
  | cons s' ss ih =>
    obtain ⟨rfl, hstop, hrest⟩ := h
    rcases List.mem_cons.1 hs with rfl | hs
    · exact Nat.le_refl _
    · exact Nat.le_trans hstop (Nat.le_of_succ_le (ih hrest hs))

theorem Tiles.exists_has {i : Nat} (hlow : low ≤ i) (hhigh : i < high) : ∃ s ∈ ss, s.Has i := by
  induction ss generalizing low with
  | nil =>
    obtain rfl : low = high := h
    omega
  | cons s ss ih =>
    obtain ⟨rfl, -, hrest⟩ := h
    by_cases hi : i ≤ s.stop
    · exact ⟨s, List.mem_cons_self .., hlow, hi⟩
    · obtain ⟨s', hs', hhas⟩ := ih hrest (by omega)
      exact ⟨s', List.mem_cons_of_mem _ hs', hhas⟩

end

/-! ## Routines -/

section

variable {P : Ty → Value → Prop} {rs : List Routine} {code : List Quad} {m : Memory}

def Routine.span (r : Routine) : Span := ⟨r.callee, r.callee.target + r.code.length⟩

/-- The routines fill all positions up to the main body. -/
theorem Outline.tiles (h : Outline P rs code m) :
    Tiles (rs.map Routine.span) 1 (1 + code.length) := by
  induction h with
  | start => rfl
  | gap _ _ _ ih => exact ih
  | @routine rs code r _ hr ih =>
    have hend : 1 + (code ++ r.quads).length = r.span.stop + 1 := by
      simp only [Routine.span, Routine.quads, hr.target, List.length_append, List.length_singleton]
      omega
    rw [List.map_append, hend]
    refine ih.concat hr.target ?_
    show 1 + code.length ≤ r.callee.target + r.code.length
    rw [hr.target]
    omega

/-- Functions return through slots of their own. -/
theorem Outline.slots (h : Outline P rs code m) : (rs.map (·.callee.address)).Nodup := by
  induction h with
  | start => exact .nil
  | gap _ _ _ ih => exact ih
  | @routine rs code r _ hr ih =>
    rw [List.map_append, List.nodup_append]
    refine ⟨ih, List.nodup_singleton _, ?_⟩
    intro a ha b hb hab
    obtain ⟨r', hr', rfl⟩ := List.mem_map.1 ha
    obtain rfl := List.mem_singleton.1 hb
    exact hr.slot r'.known (List.mem_map_of_mem hr') hab

/-- Every routine was compiled behind others. -/
theorem Outline.compiled (h : Outline P rs code m) (hr : r ∈ rs) :
    ∃ rs' : List Routine, (∀ r' ∈ rs', r' ∈ rs) ∧
      r.Compiled P (rs'.map Routine.known) r.callee.target := by
  induction h with
  | start => cases hr
  | gap _ _ _ ih => exact ih hr
  | @routine rs code r' _ hr' ih =>
    rcases List.mem_append.1 hr with hr | hr
    · obtain ⟨rs', hsub, hcompiled⟩ := ih hr
      exact ⟨rs', fun r' hr' => List.mem_append_left _ (hsub r' hr'), hcompiled⟩
    · obtain rfl := List.mem_singleton.1 hr
      refine ⟨rs, fun r' hr' => List.mem_append_left _ hr', ?_⟩
      rw [hr'.target]
      exact hr'

theorem Outline.placed (h : Outline P rs code m) {quads : List Quad} (hplaced : Placed quads 1 code)
    (hr : r ∈ rs) : Placed quads r.callee.target r.quads := by
  induction h with
  | start => cases hr
  | gap _ _ _ ih => exact ih hplaced hr
  | routine _ hr' ih =>
    obtain ⟨hbefore, hlast⟩ := hplaced.append
    rcases List.mem_append.1 hr with hr | hr
    · exact ih hbefore hr
    · obtain rfl := List.mem_singleton.1 hr
      rw [hr'.target]
      exact hlast

end

/-! ## Calls -/

/-- Instructions that make the record of a call or enter a function do so for a function that
the names know. -/
def CallsKnown (names : Names) (code : List Quad) : Prop :=
  ∀ q ∈ code, q.op = .era ∨ q.op = .gosub →
    ∃ name f, names.callee? name = some f ∧ (q = f.era ∨ q = f.gosub)

theorem Composed.callsKnown {names : Names} {P : Quad → Prop} {calls : List (Bytes × List Expr)}
    {os : List Operation} {code : List Quad} (h : Composed names P calls os code) :
    CallsKnown names code := by
  induction h with
  | nil => simp [CallsKnown]
  | append _ _ ih ih' => exact List.forall_mem_append.2 ⟨ih, ih'⟩
  | single hop _ =>
    have hnot := Opcode.not_call_of_simple hop
    exact List.forall_mem_singleton.2 fun hcall => absurd hcall (not_or.2 hnot)
  | @call name _ f _ hcode _ _ ih =>
    refine List.forall_mem_append.2 ⟨List.forall_mem_cons.2 ⟨?_, ih⟩,
      List.forall_mem_singleton.2 ?_⟩
    · exact fun _ => ⟨name, f, hcode.callee, .inl rfl⟩
    · exact fun _ => ⟨name, f, hcode.callee, .inr rfl⟩
  | operation _ _ _ hfill _ _ ih ih' =>
    refine List.forall_mem_append.2 ⟨List.forall_mem_append.2 ⟨ih, ih'⟩, ?_⟩
    exact List.forall_mem_singleton.2 fun hcall => absurd hcall (not_or.2 hfill.not_call)

/-! ## Programs -/

section

variable {P : Ty → Value → Prop} {t : Tree} {p : Program} {b : Assembly} {i : Nat}

section

variable (h : b.Of P t p)

include h

theorem Assembly.Of.owner_span (hr : r ∈ b.routines) (hi : r.span.Has i) :
    owner p.quads.toList i = some r.callee.address := by
  obtain ⟨_, -, hcompiled⟩ := h.outline.compiled hr
  have hplaced := h.outline.placed h.placed.1 hr
  obtain ⟨hcode, hleave⟩ := hplaced.append
  obtain ⟨k, rfl⟩ := Nat.exists_eq_add_of_le hi.1
  have hk : k ≤ r.code.length := Nat.le_of_add_le_add_left hi.2
  show owner p.quads.toList (r.callee.target + k) = _
  rw [hcode.owner hcompiled.growth.stays hk, ← hcode.owner hcompiled.growth.stays (Nat.le_refl _),
    owner_leave hleave.head rfl]
  simp [Callee.leave]

/-- Every position but the first is in the span of a function or in the main body. -/
theorem Assembly.Of.span_or_main (hfirst : 1 ≤ i) :
    (∃ r ∈ b.routines, r.span.Has i) ∨ 1 + b.code.length ≤ i := by
  by_cases hi : i < 1 + b.code.length
  · obtain ⟨s, hs, hhas⟩ := h.outline.tiles.exists_has hfirst hi
    obtain ⟨r, hr, rfl⟩ := List.mem_map.1 hs
    exact .inl ⟨r, hr, hhas⟩
  · exact .inr (Nat.not_lt.1 hi)

theorem Assembly.Of.owner_of_main (hi : 1 + b.code.length ≤ i)
    (hlast : i ≤ p.quads.toList.length) : owner p.quads.toList i = none := by
  obtain ⟨k, rfl⟩ := Nat.exists_eq_add_of_le hi
  rw [h.length_quads] at hlast
  exact h.owner_main (Nat.le_of_add_le_add_left hlast)

theorem Assembly.Of.span_of_owner (hfirst : 1 ≤ i)
    (hlast : i ≤ p.quads.toList.length) {a : Addr} (howner : owner p.quads.toList i = some a) :
    ∃ r ∈ b.routines, r.span.Has i ∧ r.callee.address = a := by
  rcases h.span_or_main hfirst with ⟨r, hr, hhas⟩ | hmain
  · refine ⟨r, hr, hhas, ?_⟩
    rw [h.owner_span hr hhas] at howner
    exact Option.some.inj howner
  · rw [h.owner_of_main hmain hlast] at howner
    cases howner

/-- A position that belongs to no function is in the main body. -/
theorem Assembly.Of.main_of_owner (hfirst : 1 ≤ i)
    (howner : owner p.quads.toList i = none) : 1 + b.code.length ≤ i := by
  rcases h.span_or_main hfirst with ⟨r, hr, hhas⟩ | hmain
  · rw [h.owner_span hr hhas] at howner
    cases howner
  · exact hmain

theorem Assembly.Of.eq_of_address {r' : Routine} (hr : r ∈ b.routines)
    (hr' : r' ∈ b.routines) (haddress : r.callee.address = r'.callee.address) : r = r' :=
  List.inj_on_of_nodup_map h.outline.slots hr hr' haddress

end

/-- A jump goes to a position of the same function. -/
theorem Charted.jump (h : Charted p) (hfirst : 1 ≤ i) {q : Quad} (hq : p.quads.toList[i]? = some q)
    (hop : q.op = .goto ∨ q.op = .gotoFalse) :
    ∃ target, q.res = .label target ∧ Landing p.quads.toList i target := by
  have hfits := h.chart.fits i q hfirst hq
  cases hfits with
  | @jump target hlanding => exact ⟨target, rfl, hlanding⟩
  | @skip x target _ hlanding => exact ⟨target, rfl, hlanding⟩
  | @binary op => cases op <;> simp [BinaryOp.opcode] at hop
  | @unary op => cases op <;> simp [UnaryOp.opcode] at hop
  | _ => simp [copyQuad, readQuad, writeQuad, Callee.era, Param.bind, Callee.gosub, Dim.check,
      elementQuad] at hop

/-- A return names the return slot of the function that it belongs to. -/
theorem Charted.ret (h : Charted p) (hfirst : 1 ≤ i) {q : Quad} (hq : p.quads.toList[i]? = some q)
    (hop : q.op = .ret) : ∃ a, q.res = .cell a ∧ owner p.quads.toList i = some a := by
  have hfits := h.chart.fits i q hfirst hq
  cases hfits with
  | @retNone f howner _ => exact ⟨f.address, rfl, howner⟩
  | @retSome f _ howner _ _ _ _ => exact ⟨f.address, rfl, howner⟩
  | @binary op => cases op <;> simp [BinaryOp.opcode] at hop
  | @unary op => cases op <;> simp [UnaryOp.opcode] at hop
  | _ => simp [copyQuad, readQuad, writeQuad, Callee.era, Param.bind, Callee.gosub, Dim.check,
      elementQuad, jumpQuad, skipQuad] at hop

/-- Under names that lead to the functions of some routines, calls are of these. -/
theorem CallsKnown.routine {names : Names} {outer inner : List Placement} {m : Memory}
    {fs : List (Callee × List Param)} {rs : List Routine} {code : List Quad}
    (h : CallsKnown names code)
    (hready : names.Ready outer inner fs m) (hfs : fs ⊆ rs.map Routine.known) {q : Quad}
    (hq : q ∈ code) (hop : q.op = .era ∨ q.op = .gosub) :
    ∃ r ∈ rs, q = r.callee.era ∨ q = r.callee.gosub := by
  obtain ⟨name, f, hf, hcall⟩ := h q hq hop
  obtain ⟨r, hr, hrf⟩ := List.mem_map.1 (hfs (hready.sound.called hf))
  obtain rfl : r.callee = f := congrArg Prod.fst hrf
  exact ⟨r, hr, hcall⟩

theorem known_subset {rs rs' : List Routine} (hsub : ∀ r' ∈ rs', r' ∈ rs) (hr : r ∈ rs) :
    rs'.map Routine.known ++ [r.known] ⊆ rs.map Routine.known :=
  List.append_subset.2 ⟨List.map_subset _ hsub, List.cons_subset.2 ⟨List.mem_map_of_mem hr,
  List.nil_subset _⟩⟩

/-- Every instruction but the first is in the code of a function or of the main body. -/
theorem Assembly.Of.body_cases (h : b.Of P t p) (hi : 1 ≤ i) (hq : p.quads.toList[i]? = some q) :
    (∃ r ∈ b.routines, ∃ k, i = r.callee.target + k ∧ r.quads[k]? = some q) ∨
      ∃ k, i = 1 + b.code.length + k ∧ b.main[k]? = some q := by
  obtain ⟨hlt, -⟩ := List.getElem?_eq_some_iff.1 hq
  rcases h.span_or_main hi with ⟨r, hr, hhas⟩ | hmain
  · have hlength : i < r.callee.target + r.quads.length := by
      have hstop : i ≤ r.callee.target + r.code.length := hhas.2
      simp only [Routine.quads, List.length_append, List.length_singleton]
      omega
    exact .inl ⟨r, hr, (h.outline.placed h.placed.1 hr).inside hhas.1 hlength hq⟩
  · rw [h.length_quads] at hlt
    exact .inr (h.placed.2.inside hmain hlt hq)

theorem Assembly.Of.one_le (h : b.Of P t p) (hq : p.quads.toList[i]? = some q)
    (hop : q.op ≠ .goto) : 1 ≤ i := by
  refine Nat.pos_of_ne_zero ?_
  rintro rfl
  rw [h.quads] at hq
  obtain rfl := Option.some.inj hq
  exact hop rfl

/-- Calls anywhere in a program are of its functions. -/
theorem Assembly.Of.calls (h : b.Of P t p) (hq : q ∈ p.quads.toList)
    (hop : q.op = .era ∨ q.op = .gosub) :
    ∃ r ∈ b.routines, q = r.callee.era ∨ q = r.callee.gosub := by
  obtain ⟨i, hq⟩ := List.mem_iff_getElem?.1 hq
  have hi := h.one_le hq (by rcases hop with hop | hop <;> simp [hop])
  rcases h.body_cases hi hq with ⟨r, hr, k, -, hk⟩ | ⟨k, -, hk⟩
  · obtain ⟨rs', hsub, hcompiled⟩ := h.outline.compiled hr
    exact hcompiled.composed.callsKnown.routine hcompiled.ready (known_subset hsub hr)
      (List.mem_of_getElem? hk) hop
  · exact h.composed.callsKnown.routine h.ready (List.Subset.refl _) (List.mem_of_getElem? hk) hop

end

end Quadlang
