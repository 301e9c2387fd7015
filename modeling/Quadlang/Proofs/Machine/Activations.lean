-- What a call sees of other calls. The cells of a function and its return slot are looked for in
-- the activation that reads them and then in those around it, so a call sees what another wrote
-- exactly when it wrote nothing itself.
import Quadlang.Proofs.Machine.Journal

namespace Quadlang

variable {a slot : Addr} {i' k : Nat} {ty : Ty} {f : Callee}

variable {quads : List Quad} {i : Nat} {m m' : Machine} {j : Journal}

/-! ## Reading cells -/

/-- Reading a cell that holds a value, or nothing yet. -/
def Execute.found (a : Addr) (v : Option Value) (m : Machine) :
    EStateM.Result RunFault Machine Value :=
  match v with
  | some v => .ok v m
  | none => .error (.uninitialized a) m

theorem Execute.cell_eq (a : Addr) (m : Machine) :
    Execute.cell a m = Execute.found a (m.get? a) m := by
  cases hget : m.get? a with
  | none => exact Execute.cell_of_none hget
  | some v => exact Execute.cell_of_get? hget

theorem Execute.found_inj {v w : Option Value} (h : Execute.found a v m = Execute.found a w m) :
    v = w := by
  cases v <;> cases w <;> simp [Execute.found] at h ⊢
  exact h

/-- What the writers have written to an address: the first that wrote something counts. -/
def Journal.nearest (j : Journal) (writers : List (Option Nat)) (a : Addr) : Option Value :=
  writers.findSome? fun w => j.last w a

theorem Journal.nearest_eq_none {writers : List (Option Nat)} :
    j.nearest writers a = none ↔ ∀ w ∈ writers, j.last w a = none := by
  simp [Journal.nearest]

theorem Machine.Noted.nearest (h : m.Noted j) {segment : Segment}
    (ha : Layout.standard.Holds segment ty a) (hcalls : segment.ofCalls = true) :
    (m.frames.findSome? fun f => f.cells[a]?) = j.nearest (j.frames.map some) a := by
  unfold Journal.nearest
  rw [List.findSome?_map]
  have hframes := h.frames
  generalize m.frames = fs, j.frames = ks at hframes ⊢
  induction hframes with
  | nil => rfl
  | cons hf _ ih =>
    rw [List.findSome?_cons, List.findSome?_cons, ih, hf.1.cells segment ty a ha hcalls]
    rfl

/-- The program keeps no cells of functions, so only activations can have written them. -/
theorem Machine.Noted.get?_function (h : m.Noted j) (hsuited : m.Suited quads)
    (ha : Layout.standard.Holds .functions ty a) : m.get? a = j.nearest (j.frames.map some) a := by
  have hglobal : m.globals[a]? = none := by
    cases hv : m.globals[a]? with
    | none => rfl
    | some v => exact absurd ha (hsuited.shared a v ty hv)
  unfold Machine.get?
  rw [h.nearest ha rfl, hglobal]
  cases j.nearest (j.frames.map some) a <;> rfl

/-- A return slot is written where the call is made: in an activation or in the program. -/
theorem Machine.Noted.get?_slot (h : m.Noted j) (ha : Layout.standard.Holds .stack ty a) :
    m.get? a = j.nearest (j.frames.map some ++ [none]) a := by
  unfold Machine.get?
  rw [h.nearest ha rfl, h.program .stack ty a ha rfl]
  unfold Journal.nearest
  rw [List.findSome?_append]
  cases (j.frames.map some).findSome? fun w => j.last w a with
  | some v => rfl
  | none => simp

/-! ## The cells of a function -/

/-- The activation reads what it wrote itself, and fails where it wrote nothing. -/
def Machine.ReadsOwn (m : Machine) (j : Journal) (k : Nat) (a : Addr) : Prop :=
  Execute.cell a m.advance = Execute.found a (j.last (some k) a) m.advance

theorem Machine.readsOwn_iff : m.ReadsOwn j k a ↔ m.get? a = j.last (some k) a := by
  unfold Machine.ReadsOwn
  rw [Execute.cell_eq]
  constructor
  · exact fun h => Execute.found_inj h
  · intro h
    show Execute.found a (m.get? a) _ = _
    rw [h]

/-- An activation that reads a cell of its function gets what the innermost activation that
wrote it wrote last. That is its own value, or a failure for want of one, if and only if it has
written the cell or no activation around it has. -/
theorem function_cell_read {text : Bytes} {p : Program} (h : compile text = .ok p) {input : Bytes}
    {room : Option Nat} {depth : Int} {n : Nat} {m : Machine} {j : Journal}
    (hrun : (Machine.start p input room).watched (Image.ofProgram p depth) n = some (m, j))
    {k : Nat} {ks : List Nat} (hframes : j.frames = k :: ks) {ty : Ty} {a : Addr}
    (ha : Layout.standard.Holds .functions ty a) :
    Execute.cell a m.advance = Execute.found a (j.nearest (j.frames.map some) a) m.advance ∧
      (m.ReadsOwn j k a ↔
        (j.last (some k) a).isSome = true ∨ ∀ k' ∈ ks, j.last (some k') a = none) := by
  obtain ⟨⟨i, hsound⟩, hnoted⟩ := (compile_charted h).watched hrun
  have hget := hnoted.get?_function hsound.suited ha
  refine ⟨?_, ?_⟩
  · rw [Execute.cell_eq, ← hget]
    rfl
  · rw [Machine.readsOwn_iff, hget, hframes, List.map_cons]
    unfold Journal.nearest
    rw [List.findSome?_cons]
    cases j.last (some k) a with
    | some v => simp
    | none => simp

/-- A text that compiles to a program with a property. The property may ask for the machine of
the program, whose ranges need not be put in order then. -/
theorem exists_image {text : Bytes} {check : Program → Image → Bool}
    (h : ((compile text).toOption.any fun p =>
      check p ⟨p.quads, ⟨Layout.standard.slots.toArray⟩, Image.defaultDepth⟩) = true) :
    ∃ p, compile text = .ok p ∧ check p (Image.ofProgram p 0) = true := by
  obtain ⟨p, hcompile, h⟩ := exists_compiled h
  have himage : Image.ofProgram p 0 =
      ⟨p.quads, ⟨Layout.standard.slots.toArray⟩, Image.defaultDepth⟩ := by
    unfold Image.ofProgram
    rw [(compile_charted hcompile).layout, Layout.standard_table]
    rfl
  exact ⟨p, hcompile, himage ▸ h⟩

/-- A program that compiles and comes to a state with a property. -/
theorem exists_watched {text : Bytes} {n : Nat} {check : Program → Machine → Journal → Bool}
    (h : ((compile text).toOption.any fun p => ((Machine.start p [] none).watched
      ⟨p.quads, ⟨Layout.standard.slots.toArray⟩, Image.defaultDepth⟩ n).any fun s =>
        check p s.1 s.2) = true) :
    ∃ p m j, compile text = .ok p ∧
      (Machine.start p [] none).watched (Image.ofProgram p 0) n = some (m, j) ∧
        check p m j = true := by
  obtain ⟨p, hcompile, h⟩ := @exists_image text (fun p im =>
    ((Machine.start p [] none).watched im n).any fun s => check p s.1 s.2) h
  obtain ⟨⟨m, j⟩, hrun, hcheck⟩ := (Option.any_eq_true _ _).1 h
  exact ⟨p, m, j, hcompile, hrun, hcheck⟩

/-- A function that writes its variable before it calls itself, and reads it in the inner call. -/
def borrowing : Bytes :=
  ascii "program borrowing; func void f(int n) \x7b int x; if (n > 0) \x7b x = 7; f(n - 1); " ++
    ascii "\x7d else \x7b write(x); \x7d \x7d main \x7b f(1); \x7d"

/-- The inner call is about to write its variable out. -/
theorem borrowing_watched : ∃ p m j, compile borrowing = .ok p ∧
    (Machine.start p [] none).watched (Image.ofProgram p 0) 12 = some (m, j) ∧
      (Image.ofProgram p 0).fetch? m.ip = some (writeQuad (.cell 115001)) ∧ j.frames = [1, 0] ∧
      j.last (some 1) 115000 = some (.int 0) ∧ j.last (some 1) 115001 = none ∧
      m.get? 115001 = some (.int 7) := by
  obtain ⟨p, m, j, hcompile, hrun, hcheck⟩ := @exists_watched borrowing 12
    (fun p m j => (Image.ofProgram p 0).fetch? m.ip = some (writeQuad (.cell 115001)) ∧
      j.frames = [1, 0] ∧ j.last (some 1) 115000 = some (.int 0) ∧
      j.last (some 1) 115001 = none ∧ m.get? 115001 = some (.int 7)) (by decide +kernel)
  exact ⟨p, m, j, hcompile, hrun, by simpa using hcheck⟩

/-- The argument of the inner call is its own. -/
theorem borrowing_reads_argument : ∃ p m j, compile borrowing = .ok p ∧
    (Machine.start p [] none).watched (Image.ofProgram p 0) 12 = some (m, j) ∧
      m.ReadsOwn j 1 115000 := by
  obtain ⟨p, m, j, hcompile, hrun, -, hframes, hown, -⟩ := borrowing_watched
  have hread := function_cell_read hcompile hrun hframes
    (show Layout.standard.Holds .functions .int 115000 by decide)
  exact ⟨p, m, j, hcompile, hrun, hread.2.2 (.inl (by rw [hown]; rfl))⟩

/-- The variable of the inner call is not: it has the value that the outer call wrote. -/
theorem borrowing_reads_foreign : ∃ p m j, compile borrowing = .ok p ∧
    (Machine.start p [] none).watched (Image.ofProgram p 0) 12 = some (m, j) ∧
      (Image.ofProgram p 0).fetch? m.ip = some (writeQuad (.cell 115001)) ∧
      j.frames = [1, 0] ∧ Layout.standard.Holds .functions .int 115001 ∧
      j.last (some 1) 115001 = none ∧ Execute.cell 115001 m.advance = .ok (.int 7) m.advance ∧
      ¬ m.ReadsOwn j 1 115001 := by
  obtain ⟨p, m, j, hcompile, hrun, hfetch, hframes, -, hnone, hget⟩ := borrowing_watched
  refine ⟨p, m, j, hcompile, hrun, hfetch, hframes, by decide, hnone, Execute.cell_of_get? hget, ?_⟩
  rw [Machine.readsOwn_iff, hget, hnone]
  simp

/-! ## The results of calls -/

/-- An instruction that takes a result stands behind the one that enters the function. -/
theorem Chart.takesResult (hchart : Chart quads) {q : Quad} (hi : 1 ≤ i) (hq : quads[i]? = some q)
    (hop : q.op = .assign) (hslot : q.arg1 = .cell slot)
    (hstack : Layout.standard.Holds .stack ty slot) :
    ∃ f : Callee, f.address = slot ∧ quads[i - 1]? = some f.gosub := by
  cases hchart.fits i q hi hq with
  | copy hy _ _ _ => exact absurd hstack (hy.not_slot hslot)
  | @result f a _ hgosub _ _ => exact ⟨f, Operand.cell_inj hslot, hgosub⟩
  | @binary op => cases op <;> cases hop
  | @unary op => cases op <;> cases hop
  | read | write | jump | skip | era | param | gosub | retNone | retSome | leave | check
  | element =>
    cases hop

/-- Such an instruction is reached only by leaving the function. -/
theorem Effect.leaves {q q' : Quad} (h : m.SoundAt quads i) (hq : quads[i]? = some q)
    (heffect : Effect quads i m q m') (hip : m'.ip = i') (hq' : quads[i']? = some q')
    (htakes : q'.TakesResult) (hgosub : quads[i' - 1]? = some f.gosub) :
    ∃ r rest, m.frames = r :: rest ∧ q = { op := .endFunction, res := .cell r.callee } ∧
      m' = { m.advance with frames := rest, ip := r.returnTo }.receive r.callee r.staged := by
  have hnext : m'.ip = m.advance.ip → q.op = .gosub := by
    intro hsame
    rw [hip, h.ip_next] at hsame
    obtain rfl : i' = i + 1 := Int.ofNat.inj hsame
    rw [Nat.add_sub_cancel, hq] at hgosub
    rw [Option.some.inj hgosub]
    rfl
  have hclear : ∀ {target : Nat}, m'.ip = target → ¬ Clear quads target := by
    intro target htarget hclear
    rw [hip] at htarget
    obtain rfl : i' = target := Int.ofNat.inj htarget
    exact hclear.plain q' hq' htakes
  cases heffect with
  | store hop _ _ _ _ _ _ _ =>
    rw [hnext (by simp)] at hop
    cases hop
  | read _ _ _ _ _ => cases hnext (by simp)
  | write => cases hnext rfl
  | jump _ hlanding => exact absurd hlanding.toClear (hclear rfl)
  | pass => cases hnext rfl
  | era => cases hnext rfl
  | param _ _ _ _ => cases hnext rfl
  | gosub _ _ _ hentry => exact absurd hentry.toClear (hclear rfl)
  | ret _ _ _ hlanding => exact absurd hlanding.toClear (hclear rfl)
  | @leave g r rest _ hframes hcallee =>
    rw [← hcallee]
    exact ⟨r, rest, hframes, rfl, rfl⟩
  | check _ _ => cases hnext rfl
  | element _ _ _ => cases hnext (by simp)

theorem Machine.Noted.ended (h : m.Noted j) {r : Frame} {rest : List Frame}
    (hframes : m.frames = r :: rest) (slot : Addr) (m' : Machine) :
    ∃ k, (j.watch { op := .endFunction, res := .cell slot } m m').ended = some k ∧
      (j.watch { op := .endFunction, res := .cell slot } m m').entered k = some (r.returnTo - 1) ∧
      (j.watch { op := .endFunction, res := .cell slot } m m').returned k = r.staged := by
  have hnoted := h.frames
  rw [hframes] at hnoted
  obtain ⟨k, ks, ⟨hr, position, hposition, hreturn⟩, -, hj⟩ := List.forall₂_cons_left_iff.1 hnoted
  have hwatch : j.watch { op := .endFunction, res := .cell slot } m m' =
      { j with ended := none }.leave slot r.staged := by simp [Journal.watch, hframes]
  rw [hwatch]
  unfold Journal.leave
  refine ⟨k, ?_, ?_, ?_⟩
  · rw [hj]
    cases r.staged <;> rfl
  · rw [Journal.entered_write, hreturn, Int.add_sub_cancel]
    exact hposition
  · rw [Journal.returned_write, hr.staged]
    rfl

theorem Machine.get?_receive (m : Machine) (slot : Addr) (result : Option Value) :
    (m.receive slot result).get? slot = result.or ((m.receive slot result).get? slot) := by
  cases result with
  | none => rfl
  | some v => exact Machine.get?_setCurrent m slot v

/-- An activation returns behind an instruction that enters its function. -/
theorem Machine.SoundAt.callee_eq (h : m.SoundAt quads i) {r : Frame} {rest : List Frame}
    (hframes : m.frames = r :: rest) (hreturn : r.returnTo = i')
    (hgosub : quads[i' - 1]? = some f.gosub) : r.callee = f.address := by
  obtain ⟨_, _, _, _, -, -, -, -, hreturns⟩ := h.stack
  rw [hframes] at hreturns
  generalize owner quads i = o at hreturns
  cases hreturns with
  | call hposition _ hgosub' hcallee _ _ _ =>
    rw [hreturn] at hposition
    obtain rfl := Int.ofNat.inj hposition
    rw [hgosub] at hgosub'
    rw [← hcallee]
    exact (Operand.cell_inj (congrArg Quad.arg1 (Option.some.inj hgosub'))).symm

theorem Machine.ip_receive (m : Machine) (slot : Addr) (result : Option Value) :
    (m.receive slot result).ip = m.ip := by
  cases result with
  | none => rfl
  | some v => exact Machine.ip_setCurrent m slot v

/-- Where a result is taken, the activation that was entered just before has just ended, and what
it returned is in the return slot. -/
theorem Charted.result_ended {p : Program} (hcharted : Charted p) {input : Bytes}
    {room : Option Nat} {depth : Int} {n : Nat}
    (hrun : p.seen depth input room n = some (m, j))
    (hip : m.ip = i) {q : Quad} (hq : p.quads.toList[i]? = some q) (htakes : q.TakesResult)
    (hgosub : p.quads.toList[i - 1]? = some f.gosub) :
    ∃ k, j.ended = some k ∧ j.entered k = some (m.ip - 1) ∧
      m.get? f.address = (j.returned k).or (m.get? f.address) := by
  cases n with
  | zero =>
    obtain ⟨rfl, -⟩ := Prod.mk.inj (Option.some.inj hrun)
    obtain ⟨e, hentry, hclear, -⟩ := hcharted.entry
    obtain rfl : i = e := Int.ofNat.inj (hip.symm.trans hentry)
    exact absurd htakes (hclear.plain q hq)
  | succ n =>
    obtain ⟨m₀, j₀, q₀, i₀, hbefore, rfl, hsound, hnoted, hq₀, heffect⟩ :=
      hcharted.watched_succ hrun
    obtain ⟨r, rest, hframes, rfl, hm⟩ := heffect.leaves hsound hq₀ hip hq htakes hgosub
    have hreturn : m.ip = r.returnTo := by rw [hm, Machine.ip_receive]
    have hcallee := hsound.callee_eq hframes (hreturn.symm.trans hip) hgosub
    obtain ⟨k, hk, hentered, hreturned⟩ := hnoted.ended hframes r.callee m
    refine ⟨k, hk, by rw [hreturn]; exact hentered, ?_⟩
    rw [hreturned, ← hcallee, hm]
    exact Machine.get?_receive ..

/-- The value taken as the result of a call is the one that its activation returned, and there
is none if it returned none. -/
def Machine.TakesOwn (m : Machine) (j : Journal) (k : Nat) (slot : Addr) : Prop :=
  Execute.cell slot m.advance = Execute.found slot (j.returned k) m.advance

theorem Machine.takesOwn_iff : m.TakesOwn j k slot ↔ m.get? slot = j.returned k := by
  unfold Machine.TakesOwn
  rw [Execute.cell_eq]
  constructor
  · exact fun h => Execute.found_inj h
  · intro h
    show Execute.found slot (m.get? slot) _ = _
    rw [h]

/-- An instruction that takes a result stands behind the one that enters the function and comes
after the end of the activation that was entered there. It takes what that activation returned.
If that is nothing, it takes what an earlier call of the function left in the return slot of the
caller, of an activation around it or of the program. So the result is that of the call, or a
failure for want of one, if and only if the activation returned a value or nothing was left. -/
theorem call_result_taken {text : Bytes} {p : Program} (h : compile text = .ok p) {input : Bytes}
    {room : Option Nat} {depth : Int} {n : Nat} {m : Machine} {j : Journal}
    (hrun : (Machine.start p input room).watched (Image.ofProgram p depth) n = some (m, j))
    {q : Quad} (hfetch : (Image.ofProgram p depth).fetch? m.ip = some q) (hop : q.op = .assign)
    {slot : Addr} {ty : Ty} (hslot : q.arg1 = .cell slot)
    (hstack : Layout.standard.Holds .stack ty slot) :
    ∃ f : Callee, ∃ k : Nat, f.address = slot ∧
      (Image.ofProgram p depth).fetch? (m.ip - 1) = some f.gosub ∧
      j.entered k = some (m.ip - 1) ∧ j.ended = some k ∧
      Execute.load q.arg1 m.advance = Execute.found slot ((j.returned k).or
        (j.nearest (j.frames.map some ++ [none]) slot)) m.advance ∧
      (m.TakesOwn j k slot ↔ (j.returned k).isSome = true ∨
        ∀ w ∈ j.frames.map some ++ [none], j.last w slot = none) := by
  have hcharted := compile_charted h
  have him := hcharted.standard depth
  obtain ⟨⟨i, hsound⟩, hnoted⟩ := hcharted.watched hrun
  have hq : p.quads.toList[i]? = some q := by
    rw [hsound.ip] at hfetch
    rw [Array.getElem?_toList]
    exact hfetch
  obtain ⟨f, hf, hgosub⟩ := hcharted.chart.takesResult hsound.first hq hop hslot hstack
  obtain ⟨k, hended, hentered, hget⟩ :=
    hcharted.result_ended hrun hsound.ip hq ⟨hop, slot, ty, hslot, hstack⟩ hgosub
  rw [hf, hnoted.get?_slot hstack] at hget
  refine ⟨f, k, hf, ?_, hentered, hended, ?_, ?_⟩
  · have hbefore : m.ip - 1 = ((i - 1 : Nat) : Int) := by
      rw [hsound.ip, Int.natCast_sub hsound.first]
      rfl
    rw [hbefore]
    show p.quads[i - 1]? = _
    rw [← Array.getElem?_toList]
    exact hgosub
  · rw [hslot, Execute.load_cell, Execute.cell_eq, ← hget, ← hnoted.get?_slot hstack]
    rfl
  · rw [Machine.takesOwn_iff, hnoted.get?_slot hstack, hget, ← Journal.nearest_eq_none]
    cases j.returned k with
    | some v => simp
    | none => simp

/-- A function that does not always return a value, called twice. -/
def forgetful : Bytes :=
  ascii "program forgetful; func int f(int n) \x7b if (n > 0) \x7b return 5; \x7d \x7d " ++
    ascii "main \x7b write(f(1)); write(f(0)); \x7d"

/-- The result of the first call is about to be taken. -/
theorem forgetful_first_watched : ∃ p m j, compile forgetful = .ok p ∧
    (Machine.start p [] none).watched (Image.ofProgram p 0) 7 = some (m, j) ∧
      (Image.ofProgram p 0).fetch? m.ip = some (copyQuad (.cell 60000) (.cell 90000)) ∧
      j.ended = some 0 ∧ j.returned 0 = some (.int 5) := by
  obtain ⟨p, m, j, hcompile, hrun, hcheck⟩ := @exists_watched forgetful 7
    (fun p m j =>
      (Image.ofProgram p 0).fetch? m.ip = some (copyQuad (.cell 60000) (.cell 90000)) ∧
      j.ended = some 0 ∧ j.returned 0 = some (.int 5)) (by decide +kernel)
  exact ⟨p, m, j, hcompile, hrun, by simpa using hcheck⟩

/-- The result of the second call is about to be taken. -/
theorem forgetful_second_watched : ∃ p m j, compile forgetful = .ok p ∧
    (Machine.start p [] none).watched (Image.ofProgram p 0) 15 = some (m, j) ∧
      (Image.ofProgram p 0).fetch? m.ip = some (copyQuad (.cell 60000) (.cell 90001)) ∧
      j.ended = some 1 ∧ j.returned 1 = none ∧ m.get? 60000 = some (.int 5) := by
  obtain ⟨p, m, j, hcompile, hrun, hcheck⟩ := @exists_watched forgetful 15
    (fun p m j =>
      (Image.ofProgram p 0).fetch? m.ip = some (copyQuad (.cell 60000) (.cell 90001)) ∧
      j.ended = some 1 ∧ j.returned 1 = none ∧ m.get? 60000 = some (.int 5)) (by decide +kernel)
  exact ⟨p, m, j, hcompile, hrun, by simpa using hcheck⟩

/-- The first call gives what it returned. -/
theorem forgetful_takes_first : ∃ p m j, compile forgetful = .ok p ∧
    (Machine.start p [] none).watched (Image.ofProgram p 0) 7 = some (m, j) ∧
      m.TakesOwn j 0 60000 := by
  obtain ⟨p, m, j, hcompile, hrun, hfetch, hended, hreturned⟩ := forgetful_first_watched
  obtain ⟨f, k, -, -, -, hk, -, hiff⟩ := call_result_taken hcompile hrun hfetch rfl rfl
    (show Layout.standard.Holds .stack .int 60000 by decide)
  rw [hended] at hk
  obtain rfl := Option.some.inj hk
  exact ⟨p, m, j, hcompile, hrun, hiff.2 (.inl (by rw [hreturned]; rfl))⟩

/-- The second call returns nothing, and gives what the first one returned. -/
theorem forgetful_takes_foreign : ∃ p m j, compile forgetful = .ok p ∧
    (Machine.start p [] none).watched (Image.ofProgram p 0) 15 = some (m, j) ∧
      (Image.ofProgram p 0).fetch? m.ip = some (copyQuad (.cell 60000) (.cell 90001)) ∧
      Layout.standard.Holds .stack .int 60000 ∧ j.ended = some 1 ∧ j.returned 1 = none ∧
      Execute.cell 60000 m.advance = .ok (.int 5) m.advance ∧ ¬ m.TakesOwn j 1 60000 := by
  obtain ⟨p, m, j, hcompile, hrun, hfetch, hended, hnone, hget⟩ := forgetful_second_watched
  refine ⟨p, m, j, hcompile, hrun, hfetch, by decide, hended, hnone, Execute.cell_of_get? hget, ?_⟩
  rw [Machine.takesOwn_iff, hget, hnone]
  simp

end Quadlang
