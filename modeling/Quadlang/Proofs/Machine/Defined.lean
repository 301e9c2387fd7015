-- Temporaries and constants are always there: what an instruction reads of a temporary its own
-- activation has written, what it reads of a constant is a literal of the text, and constants are
-- never written. So a run fails for want of a value at variables and return slots only.
import Quadlang.Proofs.Machine.Activations
import Quadlang.Proofs.Machine.Reads

namespace Quadlang

open Source

variable {cells globals : Cells} {frames : List Frame} {segment : Segment} {v : Value} {ty : Ty}
  {p : Program}

variable {quads : List Quad} {i : Nat} {m m' : Machine} {j : Journal} {q : Quad} {a : Addr}

/-! ## Temporaries -/

/-- Cells at a position: all temporaries are there that were filled since a position from which on
every temporary is filled before it is used. -/
def Held (quads : List Quad) (cells : Cells) (i : Nat) : Prop :=
  ∃ start ≤ i, SelfContained quads start ∧ ∀ k q a, start ≤ k → k < i → quads[k]? = some q →
    q.Fills a → ∃ v, cells[a]? = some v

/-- The cells of an activation at its position, and those of the activations around it and of the
program where they go on. -/
def Carried (quads : List Quad) : List Frame → Cells → Nat → Prop
  | [], globals, i => Held quads globals i
  | f :: frames, globals, i => Held quads f.cells i ∧
    ∃ position : Nat, f.returnTo = position ∧ Carried quads frames globals position

/-- Cells that have values wherever others have. -/
def Cells.Covers (cells' cells : Cells) : Prop :=
  ∀ (a : Addr) (v : Value), cells[a]? = some v → ∃ w, cells'[a]? = some w

theorem Cells.covers_insert (cells : Cells) (a : Addr) (v : Value) :
    Cells.Covers (cells.insert a v) cells := by
  intro b w hb
  rw [Cells.getElem?_write]
  split
  · exact ⟨v, rfl⟩
  · exact ⟨w, hb⟩

theorem Held.uses (h : Held quads cells i) (hq : quads[i]? = some q) (ha : q.Uses a) :
    ∃ v, cells[a]? = some v := by
  obtain ⟨start, hstart, hcontained, hfilled⟩ := h
  obtain ⟨k, q', hk, hlt, hq', hfill⟩ := hcontained i q hstart hq a ha
  exact hfilled k q' a hk hlt hq' hfill

theorem held_of_contained (cells : Cells) (h : SelfContained quads i) : Held quads cells i :=
  ⟨i, Nat.le_refl _, h, fun _ _ _ hk hlt => absurd hlt (Nat.not_lt.2 hk)⟩

theorem Held.mono {cells' : Cells} (h : Held quads cells i) (hcells : cells'.Covers cells) :
    Held quads cells' i := by
  obtain ⟨start, hstart, hcontained, hfilled⟩ := h
  refine ⟨start, hstart, hcontained, ?_⟩
  intro k q a hk hlt hq hfill
  obtain ⟨v, hv⟩ := hfilled k q a hk hlt hq hfill
  exact hcells a v hv

/-- An instruction adds the temporary that it fills. -/
theorem Held.next (h : Held quads cells i) (hq : quads[i]? = some q)
    (hfills : ∀ a, q.Fills a → ∃ v, cells[a]? = some v) : Held quads cells (i + 1) := by
  obtain ⟨start, hstart, hcontained, hfilled⟩ := h
  refine ⟨start, Nat.le_succ_of_le hstart, hcontained, ?_⟩
  intro k q' a hk hlt hq' hfill
  rcases Nat.lt_succ_iff_lt_or_eq.1 hlt with hlt | rfl
  · exact hfilled k q' a hk hlt hq' hfill
  · rw [hq] at hq'
    obtain rfl := Option.some.inj hq'
    exact hfills a hfill

theorem Carried.current (h : Carried quads m.frames m.globals i) : Held quads m.current i := by
  unfold Machine.current
  generalize m.frames = frames at h ⊢
  cases frames with
  | nil => exact h
  | cons f frames => exact h.1

/-- The innermost activation may go on wherever its cells are enough. -/
theorem Carried.move {i' : Nat} (h : Carried quads frames globals i)
    (hmove : ∀ cells, Held quads cells i → Held quads cells i') :
    Carried quads frames globals i' := by
  cases frames with
  | nil => exact hmove _ h
  | cons f frames => exact ⟨hmove _ h.1, h.2⟩

theorem Carried.next (h : Carried quads frames globals i) (hq : quads[i]? = some q)
    (hop : q.op.stores = false) : Carried quads frames globals (i + 1) := by
  refine h.move fun cells hheld => hheld.next hq ?_
  rintro a ⟨hstores, -⟩
  rw [hop] at hstores
  cases hstores

theorem Carried.covered {globals' : Cells} (h : Carried quads frames globals i)
    (hglobals : globals'.Covers globals) : Carried quads frames globals' i := by
  induction frames generalizing i with
  | nil => exact Held.mono h hglobals
  | cons f frames ih =>
    obtain ⟨hf, position, hreturn, hrest⟩ := h
    exact ⟨hf, position, hreturn, ih hrest⟩

theorem Carried.setCurrent (h : Carried quads m.frames m.globals i) (a : Addr) (v : Value) :
    Carried quads (m.setCurrent a v).frames (m.setCurrent a v).globals i := by
  unfold Machine.setCurrent
  split
  · exact h.covered (m.globals.covers_insert a v)
  · rename_i f rest hframes
    rw [hframes] at h
    exact ⟨h.1.mono (f.cells.covers_insert a v), h.2⟩

theorem Machine.current_setCurrent (m : Machine) (a : Addr) (v : Value) :
    (m.setCurrent a v).current[a]? = some v := by
  unfold Machine.setCurrent
  split
  · rename_i hframes
    simp [Machine.current, hframes]
  · simp [Machine.current]

/-- A write, of the temporary that the instruction fills if it fills one. -/
theorem Carried.put (h : Carried quads m.frames m.globals i) (hq : quads[i]? = some q)
    (hfills : ∀ b, q.Fills b → b = a ∧ segment = .temps) :
    Carried quads (m.put segment a v).frames (m.put segment a v).globals (i + 1) := by
  have hset := h.setCurrent a v
  have hcurrent := m.current_setCurrent a v
  have hkept : segment ≠ .temps → Carried quads m.frames m.globals (i + 1) := fun hne =>
    h.move fun cells hheld => hheld.next hq fun b hb => absurd (hfills b hb).2 hne
  unfold Machine.put
  split
  · exact (hkept (by simp)).setCurrent a v
  · generalize m.setCurrent a v = m₁ at hset hcurrent ⊢
    unfold Machine.current at hcurrent
    generalize m₁.frames = frames at hset hcurrent ⊢
    have hfilled : ∀ cells : Cells, cells[a]? = some v → ∀ b, q.Fills b →
      ∃ w, cells[b]? = some w := by
      intro cells hv b hb
      rw [(hfills b hb).1]
      exact ⟨v, hv⟩
    cases frames with
    | nil => exact Held.next hset hq (hfilled _ hcurrent)
    | cons f frames => exact ⟨hset.1.next hq (hfilled _ hcurrent), hset.2⟩
  · exact (hkept (by simp)).setCurrent a v
  · rename_i hne _
    exact (hkept hne).covered (m.globals.covers_insert a v)

theorem Quad.Fills.reached {b : Addr} (h : q.Fills b) (ha : m.reach? q.res = some a)
    (hholds : Layout.standard.Holds segment ty a) : b = a ∧ segment = .temps := by
  obtain ⟨-, hres, ty', hb⟩ := h
  rw [hres, reach?_cell] at ha
  obtain rfl := Option.some.inj ha
  exact ⟨rfl, (Layout.standard_holds_inj hholds hb).1⟩

/-- Every activation keeps the temporaries that it still needs. -/
theorem Effect.carried (heffect : Effect quads i m q m') (hip : m.ip = i) (hq : quads[i]? = some q)
    (h : Carried quads m.frames m.globals i) :
    ∃ i' : Nat, m'.ip = i' ∧ Carried quads m'.frames m'.globals i' := by
  have hnext : m.advance.ip = (i + 1 : Nat) := by
    show m.ip + 1 = _
    rw [hip]
    rfl
  cases heffect with
  | store _ _ _ hreach ha _ _ _ =>
    refine ⟨i + 1, by rw [Machine.ip_put]; exact hnext, ?_⟩
    exact Carried.put (m := m.advance) h hq fun b hb => hb.reached hreach ha
  | @read _ _ _ _ _ rest hreach ha _ _ _ =>
    refine ⟨i + 1, by rw [Machine.ip_put]; exact hnext, ?_⟩
    exact Carried.put (m := { m.advance with input := rest }) h hq fun b hb => hb.reached hreach ha
  | write => exact ⟨i + 1, hnext, h.next hq rfl⟩
  | jump _ hlanding =>
    exact ⟨_, rfl, h.move fun cells _ => held_of_contained cells hlanding.contained⟩
  | pass => exact ⟨i + 1, hnext, h.next hq rfl⟩
  | era => exact ⟨i + 1, hnext, h.next hq rfl⟩
  | param => exact ⟨i + 1, hnext, h.next hq rfl⟩
  | gosub _ _ _ hentry =>
    exact ⟨_, rfl, held_of_contained _ hentry.contained, i + 1, hnext, h.next hq rfl⟩
  | ret hframes _ _ hlanding =>
    rw [hframes] at h
    exact ⟨_, rfl, held_of_contained _ hlanding.contained, h.2⟩
  | @leave f r rest _ hframes _ =>
    rw [hframes] at h
    obtain ⟨-, position, hreturn, hrest⟩ := h
    cases r.staged with
    | none => exact ⟨position, hreturn, hrest⟩
    | some v =>
      refine ⟨position, by simp only [Machine.receive, Machine.ip_setCurrent]; exact hreturn, ?_⟩
      exact Carried.setCurrent (m := { m.advance with frames := rest, ip := r.returnTo }) hrest _ v
  | check => exact ⟨i + 1, hnext, h.next hq rfl⟩
  | @element n _ p _ _ hp _ =>
    refine ⟨i + 1, by rw [Machine.ip_put]; exact hnext, ?_⟩
    exact Carried.put (m := { m.advance with indices := m.indices.drop n }) h hq fun b hb =>
      hb.reached (reach?_cell p m) hp

/-! ## Constants -/

theorem Layout.not_constant (ha : Layout.standard.Holds segment ty a)
    (hsegment : segment ≠ .globals) (ty' : Ty) : ¬ Layout.standard.Holds .globals ty' a :=
  fun ha' => hsegment (Layout.standard_holds_inj ha ha').1

/-- The machine has its constants as they were, and its records hold cells of calls only. -/
structure Machine.Keeps (consts : Cells) (m : Machine) : Prop where
  globals : ∀ a ty, Layout.standard.Holds .globals ty a → m.globals[a]? = consts[a]?
  records : ∀ f ∈ m.frames ++ m.pending, ∀ segment ty a, Layout.standard.Holds segment ty a →
    segment.ofCalls = false → f.cells[a]? = none

variable {consts : Cells}

theorem Machine.Keeps.get? (h : m.Keeps consts) (ha : Layout.standard.Holds segment ty a)
    (hcalls : segment.ofCalls = false) : m.get? a = m.globals[a]? := by
  have hnone : (m.frames.findSome? fun f => f.cells[a]?) = none := by
    rw [List.findSome?_eq_none_iff]
    exact fun f hf => h.records f (List.mem_append_left _ hf) segment ty a ha hcalls
  unfold Machine.get?
  rw [hnone]

theorem Machine.Keeps.congr (h : m.Keeps consts) (hglobals : m'.globals = m.globals)
    (hframes : ∀ f ∈ m'.frames ++ m'.pending, ∃ f' ∈ m.frames ++ m.pending, f.cells = f'.cells) :
    m'.Keeps consts := by
  refine ⟨?_, ?_⟩
  · rw [hglobals]
    exact h.globals
  · intro f hf segment ty a ha hcalls
    obtain ⟨f', hf', hcells⟩ := hframes f hf
    rw [hcells]
    exact h.records f' hf' segment ty a ha hcalls

theorem Machine.Keeps.same (h : m.Keeps consts) (hglobals : m'.globals = m.globals)
    (hframes : m'.frames = m.frames) (hpending : m'.pending = m.pending) : m'.Keeps consts := by
  refine h.congr hglobals ?_
  rw [hframes, hpending]
  exact fun f hf => ⟨f, hf, rfl⟩

theorem Machine.Keeps.setGlobal (h : m.Keeps consts)
    (ha : ∀ ty, ¬ Layout.standard.Holds .globals ty a)
    (v : Value) : (m.setGlobal a v).Keeps consts := by
  refine ⟨?_, h.records⟩
  intro b ty hb
  have hne : a ≠ b := by
    rintro rfl
    exact ha ty hb
  rw [Machine.setGlobal, Cells.getElem?_write, if_neg hne]
  exact h.globals b ty hb

section

variable {segment : Segment} {ty : Ty}

section

variable (h : m.Keeps consts) (ha : Layout.standard.Holds segment ty a)

include h ha

/-- A write of a cell of calls in one of the records. -/
theorem Machine.Keeps.write (hcalls : segment.ofCalls = true) (v : Value)
    (hglobals : m'.globals = m.globals)
    (hframes : ∀ f ∈ m'.frames ++ m'.pending, ∃ f' ∈ m.frames ++ m.pending,
      f.cells = f'.cells ∨ f.cells = f'.cells.insert a v) : m'.Keeps consts := by
  refine ⟨?_, ?_⟩
  · rw [hglobals]
    exact h.globals
  · intro f hf segment' ty' b hb hcalls'
    have hne : a ≠ b := by
      rintro rfl
      rw [(Layout.standard_holds_inj ha hb).1, hcalls'] at hcalls
      cases hcalls
    obtain ⟨f', hf', hcells | hcells⟩ := hframes f hf
    · rw [hcells]
      exact h.records f' hf' segment' ty' b hb hcalls'
    · rw [hcells, Cells.getElem?_write, if_neg hne]
      exact h.records f' hf' segment' ty' b hb hcalls'

theorem Machine.Keeps.setCurrent (hcalls : segment.ofCalls = true) (v : Value) :
    (m.setCurrent a v).Keeps consts := by
  unfold Machine.setCurrent
  split
  · refine h.setGlobal (Layout.not_constant ha ?_) v
    rintro rfl
    cases hcalls
  · rename_i f rest hframes
    refine h.write ha hcalls v rfl ?_
    intro g hg
    rw [List.cons_append, List.mem_cons] at hg
    rw [hframes]
    rcases hg with rfl | hg
    · exact ⟨f, List.mem_cons_self .., .inr rfl⟩
    · exact ⟨g, List.mem_cons_of_mem _ hg, .inl rfl⟩

theorem Machine.Keeps.put (hsegment : segment ≠ .globals) (v : Value) :
    (m.put segment a v).Keeps consts := by
  unfold Machine.put
  split
  · exact h.setCurrent ha rfl v
  · exact h.setCurrent ha rfl v
  · exact h.setCurrent ha rfl v
  · exact h.setGlobal (Layout.not_constant ha hsegment) v

end

end

theorem Chart.holds_param (hchart : Chart quads) (hi : 1 ≤ i) {p : Param} {x : Operand}
    (hq : quads[i]? = some (p.bind x)) : ∃ ty, Layout.standard.Holds .functions ty p.address := by
  generalize hbind : p.bind x = q at hq
  have hop := congrArg Quad.op hbind
  cases hchart.fits i q hi hq with
  | @binary op => cases op <;> cases hop
  | @unary op => cases op <;> cases hop
  | @param p' _ _ _ hp _ =>
    rw [Operand.cell_inj (congrArg Quad.res hbind)]
    exact ⟨p'.ty, hp⟩
  | _ => cases hop

/-- No instruction changes a constant. -/
theorem Effect.keeps (hchart : Chart quads) (heffect : Effect quads i m q m')
    (hsound : m.SoundAt quads i) (hq : quads[i]? = some q) (h : m.Keeps consts) :
    m'.Keeps consts := by
  cases heffect with
  | store _ _ _ _ ha hsegment _ _ =>
    refine Machine.Keeps.put ?_ ha hsegment _
    exact h.same rfl rfl rfl
  | read _ ha hsegment _ _ =>
    refine Machine.Keeps.put ?_ ha hsegment _
    exact h.same rfl rfl rfl
  | write => exact h.same rfl rfl rfl
  | jump => exact h.same rfl rfl rfl
  | pass => exact h.same rfl rfl rfl
  | era =>
    refine ⟨h.globals, ?_⟩
    intro g hg
    simp only [List.mem_append, List.mem_cons] at hg
    rcases hg with hg | rfl | hg
    · exact h.records g (List.mem_append_left _ hg)
    · simp [Cells.empty]
    · exact h.records g (List.mem_append_right _ hg)
  | @param p x r rest v _ hpending _ _ =>
    obtain ⟨ty, hp⟩ := hchart.holds_param hsound.first hq
    refine h.write hp rfl v rfl ?_
    intro g hg
    simp only [List.mem_append, List.mem_cons] at hg
    rw [hpending]
    rcases hg with hg | rfl | hg
    · exact ⟨g, List.mem_append_left _ hg, .inl rfl⟩
    · exact ⟨r, by simp, .inr rfl⟩
    · exact ⟨g, by simp [hg], .inl rfl⟩
  | @gosub f r rest _ _ hpending _ _ =>
    refine h.congr rfl ?_
    intro g hg
    simp only [List.cons_append, List.mem_cons, List.mem_append] at hg
    rw [hpending]
    rcases hg with rfl | hg | hg
    · exact ⟨r, by simp, rfl⟩
    · exact ⟨g, by simp [hg], rfl⟩
    · exact ⟨g, by simp [hg], rfl⟩
  | @ret _ _ r rest _ _ hframes _ _ _ =>
    refine h.congr rfl ?_
    intro g hg
    simp only [List.cons_append, List.mem_cons] at hg
    rw [hframes]
    rcases hg with rfl | hg
    · exact ⟨r, by simp, rfl⟩
    · exact ⟨g, List.mem_cons_of_mem _ hg, rfl⟩
  | @leave f r rest _ hframes hcallee =>
    have hleft : ({ m.advance with frames := rest, ip := r.returnTo } : Machine).Keeps consts := by
      refine h.congr rfl ?_
      intro g hg
      rw [hframes]
      exact ⟨g, List.mem_cons_of_mem _ hg, rfl⟩
    cases hstaged : r.staged with
    | none => exact hleft
    | some v =>
      obtain ⟨ty, hslot, -⟩ :=
        (hsound.suited.frames r (by rw [hframes]; exact List.mem_cons_self ..)).2 v hstaged
      rw [hcallee] at hslot
      exact hleft.setCurrent hslot rfl v
  | check => exact h.same rfl rfl rfl
  | element _ hp _ =>
    refine Machine.Keeps.put ?_ hp (by simp) _
    exact h.same rfl rfl rfl

/-! ## Writes -/

/-- What an instruction adds to some writes: nothing, or a cell other than a constant. The cells of
the program are changed there at most. -/
inductive Wrote (m m' : Machine) (ws : List Write) : List Write → Prop
  | nothing : m'.globals = m.globals → Wrote m m' ws ws
  | cell {segment : Segment} {ty : Ty} {a : Addr} (w : Option Nat) (v : Value) :
      Layout.standard.Holds segment ty a → segment ≠ .globals →
      m'.globals = m.globals.insert a v ∨ segment.ofCalls = true ∧ m'.globals = m.globals →
      Wrote m m' ws (⟨w, a, v⟩ :: ws)

theorem Machine.globals_setCurrent (m : Machine) (a : Addr) (v : Value) :
    (m.setCurrent a v).globals = m.globals.insert a v ∨ (m.setCurrent a v).globals = m.globals := by
  unfold Machine.setCurrent
  split
  · exact .inl rfl
  · exact .inr rfl

theorem Machine.Keeps.wrote {x : Machine} {segment : Segment} {ty : Ty} (h : m.Keeps consts)
    (hglobals : x.globals = m.globals) (hframes : x.frames = m.frames)
    (hpending : x.pending = m.pending)
    (ha : Layout.standard.Holds segment ty a) (hsegment : segment ≠ .globals) (w : Option Nat)
    (v : Value) :
    Wrote m (x.put segment a v) j.writes
      ({ j with ended := none }.write w a ((x.put segment a v).get? a)).writes := by
  have hx : x.Keeps consts := h.same hglobals hframes hpending
  by_cases hcalls : segment.ofCalls = true
  · have hput : x.put segment a v = x.setCurrent a v := by
      cases segment <;> first | rfl | cases hcalls
    rw [hput, Machine.get?_setCurrent]
    refine .cell w v ha hsegment ?_
    rw [← hglobals]
    exact (x.globals_setCurrent a v).imp_right (⟨hcalls, ·⟩)
  · have hcalls : segment.ofCalls = false := by simpa using hcalls
    have hput : x.put segment a v = x.setGlobal a v := by
      cases segment <;> first | rfl | cases hcalls
    have hcell : (x.setGlobal a v).globals[a]? = some v := by
      rw [Machine.setGlobal, Cells.getElem?_write, if_pos rfl]
    rw [(hx.put ha hsegment v).get? ha hcalls, hput, hcell]
    refine .cell w v ha hsegment (.inl ?_)
    rw [← hglobals]
    rfl

theorem Effect.wrote (hchart : Chart quads) (heffect : Effect quads i m q m')
    (hsound : m.SoundAt quads i) (hq : quads[i]? = some q) (h : m.Keeps consts) (j : Journal) :
    Wrote m m' j.writes (j.watch q m m').writes := by
  cases heffect with
  | store hop _ _ hreach ha hsegment _ _ =>
    rw [Journal.watch_of_stores hop hreach]
    refine h.wrote ?_ ?_ ?_ ha hsegment _ _ <;> rfl
  | read hreach ha hsegment _ _ =>
    rw [Journal.watch_of_stores rfl hreach]
    refine h.wrote ?_ ?_ ?_ ha hsegment _ _ <;> rfl
  | write =>
    rw [Journal.watch_of_plain (.inl rfl)]
    exact .nothing rfl
  | jump hop _ =>
    rw [Journal.watch_of_plain (.inr (hop.imp_right .inl))]
    exact .nothing rfl
  | pass => exact .nothing rfl
  | era => exact .nothing rfl
  | @param p x r rest v _ _ _ _ =>
    obtain ⟨ty, hp⟩ := hchart.holds_param hsound.first hq
    rw [Journal.watch_param]
    exact .cell _ v hp (by simp) (.inr ⟨rfl, rfl⟩)
  | gosub =>
    show Wrote _ _ _ (Journal.enter { j with ended := none } m.ip).writes
    unfold Journal.enter
    split <;> exact .nothing rfl
  | ret =>
    show Wrote _ _ _ (Journal.putAside { j with ended := none } _).writes
    unfold Journal.putAside
    split <;> exact .nothing rfl
  | @leave f r rest _ hframes hcallee =>
    rw [Journal.watch_leave hframes]
    cases hstaged : r.staged with
    | none => exact .nothing rfl
    | some v =>
      obtain ⟨ty, hslot, -⟩ :=
        (hsound.suited.frames r (by rw [hframes]; exact List.mem_cons_self ..)).2 v hstaged
      rw [hcallee] at hslot
      exact .cell _ v hslot (by simp) ((Machine.globals_setCurrent _ _ v).imp_right (⟨rfl, ·⟩))
  | check => exact .nothing rfl
  | element _ hp _ =>
    rw [Journal.watch_of_stores rfl (reach?_cell _ m)]
    refine h.wrote ?_ ?_ ?_ hp (by simp) _ _ <;> rfl

/-- No constant is among the cells that were written. -/
def Journal.Plain (j : Journal) : Prop :=
  ∀ w ∈ j.writes, ∀ ty, ¬ Layout.standard.Holds .globals ty w.address

theorem Journal.Plain.wrote {j' : Journal} (h : j.Plain) (hwrote : Wrote m m' j.writes j'.writes) :
    j'.Plain := by
  unfold Journal.Plain at h ⊢
  generalize j'.writes = ws at hwrote
  cases hwrote with
  | nothing => exact h
  | cell _ _ ha hsegment _ => exact List.forall_mem_cons.2 ⟨Layout.not_constant ha hsegment, h⟩

/-! ## Runs -/

/-- A machine with all temporaries and constants that it still needs, and its journal. -/
structure Machine.Provided (p : Program) (m : Machine) (j : Journal) : Prop where
  carried : ∃ i : Nat, m.ip = i ∧ Carried p.quads.toList m.frames m.globals i
  keeps : m.Keeps p.consts
  plain : j.Plain

theorem Charted.start_provided (h : Charted p) (input : Bytes) (room : Option Nat) :
    (Machine.start p input room).Provided p {} := by
  obtain ⟨e, hentry, hclear, -⟩ := h.entry
  refine ⟨⟨e, hentry, held_of_contained _ hclear.contained⟩, ⟨fun _ _ _ => rfl, ?_⟩, ?_⟩
  · simp [Machine.start]
  · simp [Journal.Plain]

/-- Every state that a compiled program goes through has what it needs. -/
theorem Charted.provided (hcharted : Charted p) {input : Bytes} {room : Option Nat} {depth : Int}
    {n : Nat} (h : p.seen depth input room n = some (m, j)) :
    m.Provided p j := by
  induction n generalizing m j with
  | zero =>
    obtain ⟨rfl, rfl⟩ := Prod.mk.inj (Option.some.inj h)
    exact hcharted.start_provided input room
  | succ n ih =>
    obtain ⟨m₀, j₀, q, i, hbefore, rfl, hsound, -, hq, heffect⟩ :=
      hcharted.watched_succ h
    obtain ⟨⟨i', hip, hcarried⟩, hkeeps, hplain⟩ := ih hbefore
    obtain rfl : i' = i := by
      have := hip.symm.trans hsound.ip
      omega
    exact ⟨heffect.carried hip hq hcarried, heffect.keeps hcharted.chart hsound hq hkeeps,
      hplain.wrote (heffect.wrote hcharted.chart hsound hq hkeeps j₀)⟩

/-! ## Reading -/

/-- An operand of an instruction in its place stands for a value, or names a cell, or is empty. -/
theorem Fits.operand (h : Fits quads i q) {o : Operand} (ho : o ∈ q.sources ++ q.targets) :
    (∃ ty, o.Denotes quads (owner quads i) ty) ∨
      (∃ segment ty a, o = .cell a ∧ Layout.standard.Holds segment ty a) ∨ o.kind = .empty := by
  cases h with
  | @binary op x y tx ty t a hx hy _ ha =>
    have ho : o ∈ [x, y, .cell a] := by cases op <;> exact ho
    simp only [List.mem_cons, List.not_mem_nil, or_false] at ho
    rcases ho with rfl | rfl | rfl
    · exact .inl ⟨_, hx⟩
    · exact .inl ⟨_, hy⟩
    · exact .inr (.inl ⟨_, _, a, rfl, ha⟩)
  | @unary op x tx t a hx _ ha =>
    have ho : o ∈ [x, .cell a] := by cases op <;> exact ho
    simp only [List.mem_cons, List.not_mem_nil, or_false] at ho
    rcases ho with rfl | rfl
    · exact .inl ⟨_, hx⟩
    · exact .inr (.inl ⟨_, _, a, rfl, ha⟩)
  | @copy x y _ _ hy hx _ _ =>
    have ho : o ∈ [y, x] := ho
    simp only [List.mem_cons, List.not_mem_nil, or_false] at ho
    rcases ho with rfl | rfl
    · exact .inl ⟨_, hy⟩
    · exact .inl ⟨_, hx⟩
  | @result f a _ _ hslot ha =>
    have ho : o ∈ [.cell f.address, .cell a] := ho
    simp only [List.mem_cons, List.not_mem_nil, or_false] at ho
    rcases ho with rfl | rfl
    · exact .inr (.inl ⟨_, _, f.address, rfl, hslot⟩)
    · exact .inr (.inl ⟨_, _, a, rfl, ha⟩)
  | read hx =>
    obtain rfl := List.mem_singleton.1 ho
    exact .inl ⟨_, hx⟩
  | write hx =>
    obtain rfl := List.mem_singleton.1 ho
    exact .inl ⟨_, hx⟩
  | skip hx =>
    obtain rfl := List.mem_singleton.1 ho
    exact .inl ⟨_, hx⟩
  | param hx =>
    obtain rfl := List.mem_singleton.1 ho
    exact .inl ⟨_, hx⟩
  | retNone =>
    obtain rfl := List.mem_singleton.1 ho
    exact .inr (.inr rfl)
  | retSome _ _ hx =>
    obtain rfl := List.mem_singleton.1 ho
    exact .inl ⟨_, hx⟩
  | check hx =>
    obtain rfl := List.mem_singleton.1 ho
    exact .inl ⟨_, hx⟩
  | _ => cases ho

theorem Fits.pointer (h : Fits quads i q) (hchart : Chart quads) {o : Operand}
    (ho : o ∈ q.sources ++ q.targets) (hkind : o.kind = .pointer) :
    Layout.standard.Holds .temps .int o.word := by
  rcases h.operand ho with ⟨ty, hdenotes⟩ | ⟨_, _, a, rfl, -⟩ | hempty
  · cases hdenotes with
    | cell => cases hkind
    | pointer helement =>
      rw [Operand.word_pointer]
      exact hchart.holds_pointer helement
  · cases hkind
  · rw [hempty] at hkind
    cases hkind

/-- The cell that an operand names is one of the program. It is a temporary or a constant only if
the operand says so. -/
theorem Fits.reached (h : Fits quads i q) (hsuited : m.Suited quads) {o : Operand}
    (ho : o ∈ q.sources ++ q.targets) (ha : m.reach? o = some a) :
    ∃ segment ty, Layout.standard.Holds segment ty a ∧
      (o = .cell a ∨ segment ≠ .temps ∧ segment ≠ .globals) := by
  rcases h.operand ho with ⟨ty, hdenotes⟩ | ⟨segment, ty, b, rfl, hb⟩ | hempty
  · have haddress := Execute.address_of_reach? ha
    rcases Execute.address_of_denotes hsuited hdenotes with
      ⟨b, segment, hreach, -, hb, -, -, hres⟩ | ⟨p, herror⟩
    · rw [ha] at hreach
      obtain rfl := Option.some.inj hreach
      exact ⟨segment, ty, hb, hres⟩
    · rw [haddress] at herror
      cases herror
  · rw [reach?_cell] at ha
    obtain rfl := Option.some.inj ha
    exact ⟨segment, ty, hb, .inl rfl⟩
  · simp [Machine.reach?, hempty] at ha

/-- What is read is a temporary that the instruction uses, or no temporary, and a constant only if
an operand names it. -/
theorem Machine.Reads.cases (h : m.Reads q a) (hchart : Chart quads) (hfits : Fits quads i q)
    (hsuited : m.Suited quads) :
    (q.Uses a ∧ ∃ ty, Layout.standard.Holds .temps ty a) ∨
      ∃ segment ty, Layout.standard.Holds segment ty a ∧ segment ≠ .temps ∧
        (segment = .globals → .cell a ∈ q.sources) := by
  rcases h with ⟨o, ho, hreach⟩ | ⟨o, ho, hkind, rfl⟩
  · obtain ⟨segment, ty, ha, rfl | ⟨htemps, hglobals⟩⟩ :=
      hfits.reached hsuited (List.mem_append_left _ ho) hreach
    · by_cases hsegment : segment = .temps
      · subst hsegment
        refine .inl ⟨.inl ⟨.cell a, ho, Operand.word_cell a, .inr ⟨rfl, ty, ha⟩⟩, ty, ha⟩
      · exact .inr ⟨segment, ty, ha, hsegment, fun _ => ho⟩
    · exact .inr ⟨segment, ty, ha, htemps, fun heq => absurd heq hglobals⟩
  · refine .inl ⟨?_, _, hfits.pointer hchart ho hkind⟩
    rcases List.mem_append.1 ho with ho | ho
    · exact .inl ⟨o, ho, rfl, .inl hkind⟩
    · exact .inr ⟨o, ho, hkind, rfl⟩

theorem Machine.get?_of_current (h : m.current[a]? = some v) : m.get? a = some v := by
  unfold Machine.current at h
  unfold Machine.get?
  generalize m.frames = frames at h ⊢
  cases frames with
  | nil => exact h
  | cons f frames =>
    rw [List.findSome?_cons]
    simp only [h]

/-- The innermost activation has what it wrote. -/
theorem Machine.Noted.current (h : m.Noted j) (ha : Layout.standard.Holds segment ty a)
    (hcalls : segment.ofCalls = true) : m.current[a]? = j.last j.frames.head? a := by
  have hframes := h.frames
  unfold Machine.current
  generalize m.frames = fs, j.frames = ks at hframes ⊢
  cases hframes with
  | nil => exact h.program segment ty a ha hcalls
  | cons hf _ => exact hf.1.cells segment ty a ha hcalls

section

variable {p : Program}

/-- The temporaries that an instruction uses were written by its own activation. -/
theorem Machine.Provided.uses (h : m.Provided p j) (hsound : m.SoundAt p.quads.toList i)
    (hnoted : m.Noted j) (hq : p.quads.toList[i]? = some q) (huse : q.Uses a)
    (ha : Layout.standard.Holds .temps ty a) :
    ∃ v, m.get? a = some v ∧ j.last j.frames.head? a = some v := by
  obtain ⟨i', hip, hcarried⟩ := h.carried
  obtain rfl : i' = i := by
    have := hip.symm.trans hsound.ip
    omega
  obtain ⟨v, hv⟩ := hcarried.current.uses hq huse
  exact ⟨v, Machine.get?_of_current hv, by rw [← hnoted.current ha rfl]; exact hv⟩

/-- A constant that an instruction names is there. -/
theorem Machine.Provided.constant (h : m.Provided p j) (hcharted : Charted p)
    (hq : q ∈ p.quads.toList) (ho : .cell a ∈ q.sources) {ty : Ty}
    (ha : Layout.standard.Holds .globals ty a) :
    ∃ v, m.get? a = some v ∧ p.consts[a]? = some v := by
  obtain ⟨v, hv⟩ := hcharted.known q hq (.cell a) ho rfl ty (by rw [Operand.word_cell]; exact ha)
  rw [Operand.word_cell] at hv
  exact ⟨v, by rw [h.keeps.get? ha rfl, h.keeps.globals a ty ha]; exact hv, hv⟩

/-- A cell that is read and has no value is none of a temporary or a constant. -/
theorem Machine.Provided.missing (h : m.Provided p j) (hcharted : Charted p)
    (hsound : m.SoundAt p.quads.toList i) (hnoted : m.Noted j) (hq : p.quads.toList[i]? = some q)
    (hreads : m.Reads q a) (hnone : m.get? a = none) :
    ∃ segment ty, Layout.standard.Holds segment ty a ∧ segment ≠ .temps ∧ segment ≠ .globals := by
  have hfits := hcharted.chart.fits i q hsound.first hq
  rcases hreads.cases hcharted.chart hfits hsound.suited with
    ⟨huse, ty, ha⟩ | ⟨segment, ty, ha, htemps, hsource⟩
  · obtain ⟨v, hv, -⟩ := h.uses hsound hnoted hq huse ha
    rw [hnone] at hv
    cases hv
  · refine ⟨segment, ty, ha, htemps, ?_⟩
    rintro rfl
    obtain ⟨v, hv, -⟩ := h.constant hcharted (List.mem_of_getElem? hq) (hsource rfl) ha
    rw [hnone] at hv
    cases hv

end

/-- The ranges of the standard layout are of the five segments of the language. -/
theorem Layout.standard_segment (h : Layout.standard.Holds segment ty a) :
    segment ∈ [Segment.globals, .locals, .stack, .temps, .functions] := by
  have hall : ∀ s ∈ Layout.standard.slots,
      s.segment ∈ [Segment.globals, .locals, .stack, .temps, .functions] := by decide
  obtain ⟨s, hs, howns, -⟩ := h
  rw [← (Slot.owns_iff.1 howns).1]
  exact hall s hs

/-- The text has a literal of a type and a value. -/
def HasLiteral (text : Bytes) (ty : Ty) (v : Value) : Prop :=
  ∃ ts, Token.scan text = .ok ts ∧ ∃ tok ∈ ts.list, constant? tok = some (ty, v)

theorem compile_constant {text : Bytes} (h : compile text = .ok p) (hv : p.consts[a]? = some v) :
    ∃ ty, Layout.standard.Holds .globals ty a ∧ HasLiteral text ty v := by
  obtain ⟨-, t, -, -, hread⟩ := compile_spelled h
  have hlit : t.Literals fun ty v => HasLiteral text ty (v.convert ty) := by
    refine hread.literals h ?_
    intro ts hscan tok htok ty v hconst
    rw [Value.convert_eq_self (constant?_hasType hconst)]
    exact ⟨ts, hscan, tok, htok, hconst⟩
  obtain ⟨b, -, hb⟩ := hread.assembled h (HasLiteral text) hlit
  exact hb.constant hv

theorem Machine.step_failed {im : Image} {ip : Int} {op : Opcode} {e : RunFault}
    (hfetch : im.fetch? m.ip = some q) (hstep : m.step im = (some (.failed ip op e), m')) :
    Execute.exec im q m.advance = .error e m' := by
  unfold Machine.step at hstep
  simp only [hfetch] at hstep
  generalize Execute.exec im q m.advance = result at hstep ⊢
  cases result with
  | ok _ _ => cases hstep
  | error _ _ =>
    cases hstep
    rfl

/-- In every state of every run of a compiled program, the next instruction finds each temporary
that it reads, pointers to elements among them, as its own activation last wrote it, and each
constant that it reads as the literal of the text that the compiler put there. Nothing was ever
written to the address of a constant, also not by an instruction that fails. So an instruction that
fails for want of a value fails at a variable, of the program or of a function, or at a return
slot. -/
theorem temporaries_constants_defined {text : Bytes} {p : Program} (h : compile text = .ok p)
    {input : Bytes} {room : Option Nat} {depth : Int} {n : Nat} {m : Machine} {j : Journal}
    (hrun : (Machine.start p input room).watched (Image.ofProgram p depth) n = some (m, j)) :
    j.Plain ∧ m.Keeps p.consts ∧ ∀ q, (Image.ofProgram p depth).fetch? m.ip = some q →
      (∀ a ty, Layout.standard.Holds .temps ty a → m.Reads q a →
        ∃ v, m.get? a = some v ∧ j.last j.frames.head? a = some v) ∧
      (∀ a ty, Layout.standard.Holds .globals ty a → m.Reads q a →
        ∃ v, m.get? a = some v ∧ p.consts[a]? = some v ∧ HasLiteral text ty v) ∧
      ∀ ip op e m', m.step (Image.ofProgram p depth) = (some (.failed ip op e), m') →
        m'.Keeps p.consts ∧ (e.category = some .uninitialized → ∃ a, e.Misses a ∧ m.Reads q a ∧
          m.get? a = none ∧ ∃ segment ∈ [Segment.locals, .functions, .stack], ∃ ty,
            Layout.standard.Holds segment ty a) := by
  have hcharted := compile_charted h
  obtain ⟨⟨i, hsound⟩, hnoted⟩ := hcharted.watched hrun
  have hprovided := hcharted.provided hrun
  refine ⟨hprovided.plain, hprovided.keeps, ?_⟩
  intro q hfetch
  have hq : p.quads.toList[i]? = some q := by
    rw [hsound.ip] at hfetch
    rw [Array.getElem?_toList]
    exact hfetch
  have hmem := List.mem_of_getElem? hq
  have hfits := hcharted.chart.fits i q hsound.first hq
  refine ⟨?_, ?_, ?_⟩
  · intro a ty ha hreads
    rcases hreads.cases hcharted.chart hfits hsound.suited with ⟨huse, -⟩ | ⟨segment, ty',
      ha', hne, -⟩
    · exact hprovided.uses hsound hnoted hq huse ha
    · exact absurd (Layout.standard_holds_inj ha' ha).1 hne
  · intro a ty ha hreads
    rcases hreads.cases hcharted.chart hfits hsound.suited with ⟨-, ty', ha'⟩ | ⟨segment, ty', ha',
      -, hsource⟩
    · exact absurd (Layout.standard_holds_inj ha ha').1 (by simp)
    · obtain ⟨v, hget, hconst⟩ :=
        hprovided.constant hcharted hmem (hsource (Layout.standard_holds_inj ha' ha).1) ha
      obtain ⟨ty'', ha'', hliteral⟩ := compile_constant h hconst
      rw [(Layout.standard_holds_inj ha ha'').2]
      exact ⟨v, hget, hconst, hliteral⟩
  · intro ip op e m' hstep
    have hexec := Machine.step_failed hfetch hstep
    have hproceeds := exec_proceeds (hcharted.standard depth) hcharted.chart hsound.suited hsound.ip
      hsound.stack hsound.first hq
    rw [hexec] at hproceeds
    cases hproceeds with
    | fails _ hglobals hframes hpending =>
      refine ⟨hprovided.keeps.congr hglobals ?_, ?_⟩
      · rw [hframes, hpending]
        exact fun f hf => ⟨f, hf, rfl⟩
      · intro hcategory
        obtain ⟨a, hreads, hnone, hmisses⟩ := Execute.misses_exec _ q m.advance e m' hexec hcategory
        have hreads : m.Reads q a := hreads
        have hnone : m.get? a = none := hnone
        obtain ⟨segment, ty, ha, htemps, hglobals⟩ :=
          hprovided.missing hcharted hsound hnoted hq hreads hnone
        refine ⟨a, hmisses, hreads, hnone, segment, ?_, ty, ha⟩
        have hall := Layout.standard_segment ha
        simp only [List.mem_cons, List.not_mem_nil, or_false] at hall ⊢
        tauto

/-- A function that reads an element that nothing was written to. -/
def gap : Bytes :=
  ascii "program gap; int a[3]; func int after(int n) \x7b return a[n] + 1; \x7d " ++
    ascii "main \x7b write(after(2)); \x7d"

/-- The sum in the function finds the pointer to the element and the constant, and fails for want
of the element. -/
theorem gap_fails_at_element : ∃ p m j q m', compile gap = .ok p ∧
    (Machine.start p [] none).watched (Image.ofProgram p 0) 5 = some (m, j) ∧
    (Image.ofProgram p 0).fetch? m.ip = some q ∧ m.frames.length = 1 ∧
    m.step (Image.ofProgram p 0) = (some (.failed m.ip q.op (.uninitialized 30002)), m') ∧
    (∃ v, m.get? 90000 = some v ∧ j.last j.frames.head? 90000 = some v) ∧
    (∃ v, m.get? 5000 = some v ∧ p.consts[(5000 : Addr)]? = some v ∧ HasLiteral gap .int v) ∧
    m'.Keeps p.consts ∧ ∃ a, (RunFault.uninitialized 30002).Misses a ∧ m.Reads q a ∧
      m.get? a = none ∧ ∃ segment ∈ [Segment.locals, .functions, .stack], ∃ ty,
        Layout.standard.Holds segment ty a := by
  obtain ⟨p, m, j, hcompile, hrun, hcheck⟩ := @exists_watched gap 5
    (fun p m _ => (Image.ofProgram p 0).fetch? m.ip =
        some { op := .arith .sum, arg1 := .pointer 90000, arg2 := .cell 5000, res := .cell 90001 } ∧
      m.frames.length = 1 ∧
      (m.step (Image.ofProgram p 0)).1 = some (.failed m.ip (.arith .sum) (.uninitialized 30002)))
    (by decide +kernel)
  obtain ⟨hfetch, hframes, hfails⟩ := of_decide_eq_true hcheck
  obtain ⟨-, -, hnext⟩ := temporaries_constants_defined hcompile hrun
  obtain ⟨htemps, hglobals, hstops⟩ := hnext _ hfetch
  have hstep := Prod.ext (y := (_, (m.step (Image.ofProgram p 0)).2)) hfails rfl
  obtain ⟨hkeeps, hmisses⟩ := hstops _ _ _ _ hstep
  refine ⟨p, m, j, _, _, hcompile, hrun, hfetch, hframes, hstep, ?_, ?_, hkeeps, hmisses rfl⟩
  · exact htemps 90000 .int (by decide)
      (.inr ⟨.pointer 90000, by simp [Quad.sources], rfl, by decide⟩)
  · exact hglobals 5000 .int (by decide)
      (.inl ⟨.cell 5000, by simp [Quad.sources], reach?_cell 5000 m⟩)

end Quadlang
