-- Machines stay in order: the effect of every instruction keeps the typing of the cells and the
-- calls under way, so a run never meets a fault that only a wrong program could meet.
import Quadlang.Proofs.Machine.Effects

namespace Quadlang

variable {frames pending rest : List Frame} {a : Addr} {v : Value} {f : Callee}
  {indices : List Index} {q : Quad} {r : Frame}

variable {quads : List Quad} {i : Nat} {m m' : Machine}

/-! ## Writing cells -/

@[simp]
theorem Machine.ip_setCurrent (m : Machine) (a : Addr) (v : Value) :
    (m.setCurrent a v).ip = m.ip := by
  unfold Machine.setCurrent
  split <;> rfl

@[simp]
theorem Machine.pending_setCurrent (m : Machine) (a : Addr) (v : Value) :
    (m.setCurrent a v).pending = m.pending := by
  unfold Machine.setCurrent
  split <;> rfl

@[simp]
theorem Machine.indices_setCurrent (m : Machine) (a : Addr) (v : Value) :
    (m.setCurrent a v).indices = m.indices := by
  unfold Machine.setCurrent
  split <;> rfl

section

variable (m : Machine) (segment : Segment) (a : Addr) (v : Value)

@[simp]
theorem Machine.ip_put : (m.put segment a v).ip = m.ip := by
  cases segment <;> simp [Machine.put, Machine.setGlobal]

@[simp]
theorem Machine.pending_put : (m.put segment a v).pending = m.pending := by
  cases segment <;> simp [Machine.put, Machine.setGlobal]

@[simp]
theorem Machine.indices_put : (m.put segment a v).indices = m.indices := by
  cases segment <;> simp [Machine.put, Machine.setGlobal]

end

theorem Machine.Suited.setGlobal (h : m.Suited quads) (hv : Suits quads a v)
    (ha : ∀ ty, ¬ Layout.standard.Holds .functions ty a) : (m.setGlobal a v).Suited quads := by
  refine ⟨h.globals.insert hv, ?_, h.frames, h.pending⟩
  intro b w ty hw
  rw [Machine.setGlobal, Cells.getElem?_write] at hw
  split at hw
  · rename_i hab
    rw [← hab]
    exact ha ty
  · exact h.shared b w ty hw

theorem Machine.Suited.setCurrent (h : m.Suited quads) (hv : Suits quads a v)
    (ha : m.frames = [] → ∀ ty, ¬ Layout.standard.Holds .functions ty a) :
    (m.setCurrent a v).Suited quads := by
  unfold Machine.setCurrent
  split
  · rename_i hframes
    exact h.setGlobal hv (ha hframes)
  · rename_i f rest hframes
    refine ⟨h.globals, h.shared, ?_, h.pending⟩
    intro g hg
    rcases List.mem_cons.1 hg with rfl | hg
    · have hf := h.frames f (by rw [hframes]; exact List.mem_cons_self ..)
      exact ⟨hf.1.insert hv, hf.2⟩
    · exact h.frames g (by rw [hframes]; exact List.mem_cons_of_mem _ hg)

theorem Machine.Suited.put (h : m.Suited quads) {segment : Segment} {ty : Ty}
    (ha : Layout.standard.Holds segment ty a) (hv : Suits quads a v)
    (hfun : segment = .functions → m.frames ≠ []) : (m.put segment a v).Suited quads := by
  have hprivate : segment ≠ .functions → ∀ ty', ¬ Layout.standard.Holds .functions ty' a :=
    fun hne ty' h' => hne (Layout.standard_holds_inj ha h').1
  unfold Machine.put
  split
  · exact h.setCurrent hv fun hframes => absurd hframes (hfun rfl)
  · exact h.setCurrent hv fun _ => hprivate (by simp)
  · exact h.setCurrent hv fun _ => hprivate (by simp)
  · rename_i hne _ _
    exact h.setGlobal hv (hprivate hne)

/-! ## Calls under way -/

theorem Returns.head {o : Option Addr} {f f' : Frame}
    (h : Returns quads o (f :: frames) pending indices) (hcallee : f'.callee = f.callee)
    (hreturn : f'.returnTo = f.returnTo) : Returns quads o (f' :: frames) pending indices := by
  cases h with
  | call h₁ h₂ h₃ h₄ h₅ h₆ h₇ =>
    rw [← hcallee]
    exact .call (hreturn.trans h₁) h₂ h₃ (h₄.trans hcallee.symm) h₅ h₆ h₇

theorem Returns.setCurrent {o : Option Addr} (h : Returns quads o m.frames pending indices)
    (a : Addr) (v : Value) : Returns quads o (m.setCurrent a v).frames pending indices := by
  unfold Machine.setCurrent
  split
  · exact h
  · rename_i hframes
    rw [hframes] at h
    exact h.head rfl rfl

theorem Stacked.setCurrent {pending : List Frame} {indices : List Index}
    (h : Stacked quads i m.frames pending indices) (a : Addr) (v : Value) :
    Stacked quads i (m.setCurrent a v).frames pending indices := by
  obtain ⟨own, rest, is, is', h₁, h₂, h₃, h₄, h₅⟩ := h
  exact ⟨own, rest, is, is', h₁, h₂, h₃, h₄, h₅.setCurrent a v⟩

theorem Stacked.put (h : Stacked quads i m.frames pending indices) (segment : Segment) (a : Addr)
    (v : Value) : Stacked quads i (m.put segment a v).frames pending indices := by
  unfold Machine.put
  split
  · exact h.setCurrent a v
  · exact h.setCurrent a v
  · exact h.setCurrent a v
  · exact h

section

variable (h : Stacked quads i frames pending indices)

include h

/-- Positions with the same function and the same things under way are alike. -/
theorem Stacked.congr {j : Nat}
    (howner : owner quads j = owner quads i) (hstanding : standing quads j = standing quads i) :
    Stacked quads j frames pending indices := by
  unfold Stacked
  rw [howner, hstanding]
  exact h

theorem Stacked.next (hq : quads[i]? = some q)
    (hop : q.op ≠ .endFunction) (hafter : (standing quads i).after q = standing quads i) :
    Stacked quads (i + 1) frames pending indices :=
  h.congr (owner_succ hq hop) ((standing_succ hq).trans hafter)

theorem Stacked.frames_ne_nil (howner : (owner quads i).isSome = true) : frames ≠ [] := by
  obtain ⟨_, _, _, _, -, -, -, -, hreturns⟩ := h
  exact hreturns.frames_ne_nil howner

end

/-! ## Preservation -/

/-- A machine in order, at a known position. -/
structure Machine.SoundAt (quads : List Quad) (i : Nat) (m : Machine) : Prop where
  ip : m.ip = i
  first : 1 ≤ i
  last : i ≤ quads.length
  stack : Stacked quads i m.frames m.pending m.indices
  suited : m.Suited quads

theorem Standing.after_of_stores (hop : q.op.stores = true) (hop' : q.op ≠ .addDim) (s : Standing) :
    s.after q = s := by
  unfold Standing.after
  cases hk : q.op with
  | addDim => exact absurd hk hop'
  | era | gosub | ver =>
    rw [hk] at hop
    cases hop
  | _ => rfl

theorem ne_endFunction_of_stores (hop : q.op.stores = true) : q.op ≠ .endFunction := by
  intro hk
  rw [hk] at hop
  cases hop

section

variable (h : m.SoundAt quads i)

include h

/-- A write behind which the run goes on with the next instruction. -/
theorem Machine.SoundAt.put (m₁ : Machine) (hq : quads[i]? = some q)
    (hop : q.op.stores = true) (hop' : q.op ≠ .addDim) (hip : m₁.ip = m.ip + 1)
    (hframes : m₁.frames = m.frames) (hpending : m₁.pending = m.pending)
    (hindices : m₁.indices = m.indices) (hsuited : m₁.Suited quads) {segment : Segment} {ty : Ty}
    (ha : Layout.standard.Holds segment ty a) (hv : Suits quads a v)
    (hfun : segment = .functions → (owner quads i).isSome = true) :
    (m₁.put segment a v).SoundAt quads (i + 1) := by
  obtain ⟨hlt, -⟩ := List.getElem?_eq_some_iff.1 hq
  refine ⟨?_, Nat.le_add_left .., hlt, ?_, hsuited.put ha hv ?_⟩
  · rw [Machine.ip_put, hip, h.ip]
    rfl
  · rw [Machine.pending_put, Machine.indices_put, hpending, hindices]
    apply Stacked.put
    rw [hframes]
    exact h.stack.next hq (ne_endFunction_of_stores hop) (Standing.after_of_stores hop hop' _)
  · intro hsegment
    rw [hframes]
    exact h.stack.frames_ne_nil (hfun hsegment)

theorem Machine.SoundAt.ip_next : m.advance.ip = (i + 1 : Nat) := by
  show m.ip + 1 = _
  rw [h.ip]
  rfl

theorem era_sound (hq : quads[i]? = some f.era) :
    ({ m.advance with pending := { callee := f.address } :: m.pending } : Machine).SoundAt quads
      (i + 1) := by
  obtain ⟨hlt, -⟩ := List.getElem?_eq_some_iff.1 hq
  obtain ⟨own, rest, is, is', hpending, hindices, hown, hchecked, hreturns⟩ := h.stack
  refine ⟨h.ip_next, Nat.le_add_left .., hlt, ⟨{ callee := f.address } :: own, rest, is, is', ?_,
    hindices, ?_, ?_, ?_⟩, h.suited.globals, h.suited.shared, h.suited.frames, ?_⟩
  · rw [hpending]
    rfl
  · rw [standing_succ hq, List.map_cons, hown]
    simp [Standing.after, Callee.era]
  · rw [standing_succ hq]
    exact hchecked
  · rw [owner_succ hq (by simp [Callee.era])]
    exact hreturns
  · intro g hg
    rcases List.mem_cons.1 hg with rfl | hg
    · exact ⟨cellsSuit_empty quads, rfl⟩
    · exact h.suited.pending g hg

theorem param_sound {p : Param} {x : Operand} (hq : quads[i]? = some (p.bind x))
    (hpending : m.pending = r :: rest) (hcalls : (standing quads i).calls ≠ [])
    (hv : Suits quads p.address v) :
    ({ m.advance with
      pending := { r with cells := r.cells.insert p.address v } :: rest } : Machine).SoundAt quads
      (i + 1) := by
  obtain ⟨hlt, -⟩ := List.getElem?_eq_some_iff.1 hq
  obtain ⟨own, rest', is, is', hpending', hindices, hown, hchecked, hreturns⟩ := h.stack
  have hr := h.suited.pending r (by rw [hpending]; exact List.mem_cons_self ..)
  refine ⟨h.ip_next, Nat.le_add_left .., hlt, ?_, h.suited.globals, h.suited.shared,
    h.suited.frames, ?_⟩
  · apply Stacked.next _ hq (by simp [Param.bind]) rfl
    cases own with
    | nil => exact absurd hown.symm hcalls
    | cons r' own =>
      rw [hpending, List.cons_append] at hpending'
      obtain ⟨rfl, rfl⟩ := List.cons.inj hpending'
      exact ⟨{ r with cells := r.cells.insert p.address v } :: own, rest', is, is', rfl,
        hindices, hown, hchecked, hreturns⟩
  · intro g hg
    rcases List.mem_cons.1 hg with rfl | hg
    · exact ⟨hr.1.insert hv, hr.2⟩
    · exact h.suited.pending g (by rw [hpending]; exact List.mem_cons_of_mem _ hg)

/-- Entering a function puts what was under way aside. -/
theorem gosub_sound {calls : List Addr} (hq : quads[i]? = some f.gosub)
    (hpending : m.pending = r :: rest) (hcalls : (standing quads i).calls = f.address :: calls)
    (hcallee : r.callee = f.address) (hentry : Entry quads f) :
    ({ m.advance with
      pending := rest
      frames := { r with returnTo := m.advance.ip } :: m.frames
      ip := f.target } : Machine).SoundAt quads f.target := by
  obtain ⟨own, rest', is, is', hpending', hindices, hown, hchecked, hreturns⟩ := h.stack
  have hr := h.suited.pending r (by rw [hpending]; exact List.mem_cons_self ..)
  refine ⟨rfl, hentry.first, hentry.last, ?_, h.suited.globals, h.suited.shared, ?_, ?_⟩
  · cases own with
    | nil =>
      rw [hcalls] at hown
      cases hown
    | cons r' own =>
      rw [hpending, List.cons_append] at hpending'
      obtain ⟨rfl, rfl⟩ := List.cons.inj hpending'
      rw [hcalls, List.map_cons] at hown
      refine ⟨[], own ++ rest', [], is ++ is', rfl, hindices, ?_, ?_, ?_⟩
      · rw [hentry.standing]
        rfl
      · rw [hentry.standing]
        exact .nil
      · rw [hentry.owner, ← hcallee]
        show Returns quads (some ({ r with returnTo := m.advance.ip } : Frame).callee) _ _ _
        refine .call h.ip_next (Nat.le_add_left ..) hq hcallee.symm ?_ ?_ ?_
        · rw [standing_succ hq]
          show _ = (standing quads i).calls.tail
          rw [hcalls]
          exact (List.cons.inj hown).2
        · rw [standing_succ hq]
          exact hchecked
        · rw [owner_succ hq (by simp [Callee.gosub])]
          exact hreturns
  · intro g hg
    rcases List.mem_cons.1 hg with rfl | hg
    · refine ⟨hr.1, ?_⟩
      intro v hv
      have hnone : r.staged = none := hr.2
      rw [hnone] at hv
      cases hv
    · exact h.suited.frames g hg
  · intro g hg
    exact h.suited.pending g (by rw [hpending]; exact List.mem_cons_of_mem _ hg)

theorem ret_sound {staged : Option Value} {position : Nat}
    (hframes : m.frames = r :: rest) (hstaged : StagedSuits { r with staged })
    (hlanding : Landing quads i position) :
    ({ m.advance with frames := { r with staged } :: rest, ip := position } : Machine).SoundAt quads
      position := by
  refine ⟨rfl, hlanding.first, hlanding.last, ?_, h.suited.globals, h.suited.shared, ?_,
    h.suited.pending⟩
  · apply Stacked.congr _ hlanding.owner (hlanding.standing.trans hlanding.idle.symm)
    obtain ⟨own, rest', is, is', h₁, h₂, h₃, h₄, hreturns⟩ := h.stack
    rw [hframes] at hreturns
    exact ⟨own, rest', is, is', h₁, h₂, h₃, h₄, hreturns.head rfl rfl⟩
  · intro g hg
    rcases List.mem_cons.1 hg with rfl | hg
    · exact ⟨(h.suited.frames r (by rw [hframes]; exact List.mem_cons_self ..)).1, hstaged⟩
    · exact h.suited.frames g (by rw [hframes]; exact List.mem_cons_of_mem _ hg)

end

/-- Leaving a function takes up what was put aside when it was entered. -/
theorem leave_sound (hchart : Chart quads) (h : m.SoundAt quads i) (hframes : m.frames = r :: rest)
    (hcallee : r.callee = f.address) (hidle : standing quads i = {}) :
    ∃ j, ({ m.advance with frames := rest, ip := r.returnTo }.receive f.address r.staged).SoundAt
      quads j := by
  obtain ⟨own, rest', is, is', hpending, hindices, hown, hchecked, hreturns⟩ := h.stack
  rw [hidle] at hown hchecked
  obtain rfl := List.map_eq_nil_iff.1 hown
  cases hchecked
  rw [hframes] at hreturns
  generalize howner : owner quads i = o at hreturns
  cases hreturns with
  | @call _ _ own' rest'' is₁ is₂ position g hreturn hfirst hgosub hg hcalls hdims hreturns =>
    have hlast : position ≤ quads.length := by
      obtain ⟨hlt, -⟩ := List.getElem?_eq_some_iff.1 hgosub
      omega
    have hsuited : ({ m.advance with frames := rest, ip := r.returnTo } : Machine).Suited quads :=
      ⟨h.suited.globals, h.suited.shared,
        fun g hg => h.suited.frames g (by rw [hframes]; exact List.mem_cons_of_mem _ hg),
        h.suited.pending⟩
    have hstack : Stacked quads position rest m.pending m.indices :=
      ⟨own', rest'', is₁, is₂, hpending, hindices, hcalls, hdims, hreturns⟩
    refine ⟨position, ?_⟩
    cases hstaged : r.staged with
    | none => exact ⟨hreturn, hfirst, hlast, hstack, hsuited⟩
    | some v =>
      obtain ⟨ty, hslot, hv⟩ :=
        (h.suited.frames r (by rw [hframes]; exact List.mem_cons_self ..)).2 v hstaged
      rw [hcallee] at hslot
      have hsuits : Suits quads f.address v := by
        refine ⟨_, _, hslot, hv, ?_⟩
        intro n base helement
        exact absurd (Layout.standard_holds_inj hslot (hchart.holds_pointer helement)).1 (by simp)
      have hplain : ∀ ty', ¬ Layout.standard.Holds .functions ty' f.address := fun ty' h' =>
        absurd (Layout.standard_holds_inj hslot h').1 (by simp)
      simp only [Machine.receive]
      refine ⟨?_, hfirst, hlast, ?_, hsuited.setCurrent hsuits fun _ => hplain⟩
      · rw [Machine.ip_setCurrent]
        exact hreturn
      · rw [Machine.pending_setCurrent, Machine.indices_setCurrent]
        exact @Stacked.setCurrent _ _ { m.advance with frames := rest, ip := r.returnTo } _ _
          hstack _ _

theorem check_sound (h : m.SoundAt quads i) {d : Dim} {x : Operand} {n : Int64}
    (hq : quads[i]? = some (d.check x)) (hlow : 0 ≤ n.toInt) (hhigh : n.toInt < d.size.toInt) :
    ({ m.advance with indices := ⟨n, d.stride⟩ :: m.indices } : Machine).SoundAt quads (i + 1) := by
  obtain ⟨hlt, -⟩ := List.getElem?_eq_some_iff.1 hq
  obtain ⟨own, rest, is, is', hpending, hindices, hown, hchecked, hreturns⟩ := h.stack
  refine ⟨h.ip_next, Nat.le_add_left .., hlt, ⟨own, rest, ⟨n, d.stride⟩ :: is, is',
    hpending, ?_, ?_, ?_, ?_⟩, h.suited.globals, h.suited.shared, h.suited.frames, h.suited.pending⟩
  · rw [hindices]
    rfl
  · rw [standing_succ hq]
    exact hown
  · rw [standing_succ hq]
    refine .cons hlow ?_ ?_ hchecked
    · simpa [Dim.check] using hhigh
    · simp [Dim.check]
  · rw [owner_succ hq (by simp [Dim.check])]
    exact hreturns

theorem element_sound (h : m.SoundAt quads i) {n : Nat} {base p b : Addr}
    (hq : quads[i]? = some (elementQuad n base p)) (hn : n ≤ (standing quads i).dims.length)
    (hp : Layout.standard.Holds .temps .int p) (hb : Suits quads p (.int b)) :
    (({ m.advance with indices := m.indices.drop n } : Machine).put .temps p (.int b)).SoundAt quads
      (i + 1) := by
  obtain ⟨hlt, -⟩ := List.getElem?_eq_some_iff.1 hq
  obtain ⟨own, rest, is, is', hpending, hindices, hown, hchecked, hreturns⟩ := h.stack
  have hsuited : ({ m.advance with indices := m.indices.drop n } : Machine).Suited quads :=
    ⟨h.suited.globals, h.suited.shared, h.suited.frames, h.suited.pending⟩
  refine ⟨?_, Nat.le_add_left .., hlt, ?_, hsuited.put hp hb (by simp)⟩
  · rw [Machine.ip_put]
    exact h.ip_next
  · rw [Machine.pending_put, Machine.indices_put]
    apply Stacked.put
    refine ⟨own, rest, is.drop n, is', hpending, ?_, ?_, ?_, ?_⟩
    · show m.indices.drop n = _
      rw [hindices, List.drop_append_of_le_length (by rw [hchecked.length_eq]; exact hn)]
    · rw [standing_succ hq]
      exact hown
    · rw [standing_succ hq]
      have := hchecked.drop n
      simpa [Standing.after, elementQuad, Operand.count] using this
    · rw [owner_succ hq (by simp [elementQuad])]
      exact hreturns

/-- The effect of an instruction keeps a machine in order. -/
theorem Effect.sound (hchart : Chart quads) (h : m.SoundAt quads i) (hq : quads[i]? = some q)
    (heffect : Effect quads i m q m') : ∃ j, m'.SoundAt quads j := by
  obtain ⟨hlt, -⟩ := List.getElem?_eq_some_iff.1 hq
  cases heffect with
  | store hop _ hop' _ ha _ hfun hv =>
    exact ⟨i + 1, h.put m.advance hq hop hop' rfl rfl rfl rfl h.suited.advance ha hv hfun⟩
  | @read _ _ _ _ _ rest _ ha _ hfun hv =>
    have hsuited : ({ m.advance with input := rest } : Machine).Suited quads :=
      ⟨h.suited.globals, h.suited.shared, h.suited.frames, h.suited.pending⟩
    exact ⟨i + 1, h.put { m.advance with input := rest } hq rfl (by simp [readQuad]) rfl rfl rfl rfl
      hsuited ha hv hfun⟩
  | write =>
    exact ⟨i + 1, h.ip_next, Nat.le_add_left .., hlt, h.stack.next hq (by simp [writeQuad]) rfl,
      h.suited.globals, h.suited.shared, h.suited.frames, h.suited.pending⟩
  | @jump _ target _ hlanding =>
    refine ⟨target, rfl, hlanding.first, hlanding.last, ?_, h.suited.globals, h.suited.shared,
      h.suited.frames, h.suited.pending⟩
    exact h.stack.congr hlanding.owner (hlanding.standing.trans hlanding.idle.symm)
  | pass =>
    exact ⟨i + 1, h.ip_next, Nat.le_add_left .., hlt, h.stack.next hq (by simp [skipQuad]) rfl,
      h.suited.advance⟩
  | era => exact ⟨i + 1, era_sound h hq⟩
  | param hcalls hpending _ hv => exact ⟨i + 1, param_sound h hq hpending hcalls hv⟩
  | gosub hcalls hpending hcallee hentry =>
    exact ⟨_, gosub_sound h hq hpending hcalls hcallee hentry⟩
  | @ret _ f r _ _ position hframes hstaged hcallee hlanding =>
    refine ⟨position, ret_sound h hframes ?_ hlanding⟩
    rcases hstaged with ⟨-, rfl⟩ | ⟨-, v, rfl, hv, hslot⟩
    · exact (h.suited.frames r (by rw [hframes]; exact List.mem_cons_self ..)).2
    · intro w hw
      obtain rfl := Option.some.inj hw
      exact ⟨f.ty, by rw [hcallee]; exact hslot, hv⟩
  | leave hidle hframes hcallee => exact leave_sound hchart h hframes hcallee hidle
  | check hlow hhigh => exact ⟨i + 1, check_sound h hq hlow hhigh⟩
  | element hn hp hb => exact ⟨i + 1, element_sound h hq hn hp hb⟩

/-! ## Runs -/

theorem Charted.standard {p : Program} (h : Charted p) (depth : Int) :
    (Image.ofProgram p depth).Standard p.quads.toList := ⟨rfl, by rw [← h.layout]; rfl⟩

/-- A machine at the beginning of a charted program is in order. -/
theorem Charted.start_sound {p : Program} (h : Charted p) (input : Bytes) (room : Option Nat) :
    ∃ i, (Machine.start p input room).SoundAt p.quads.toList i := by
  obtain ⟨e, hentry, hclear, howner⟩ := h.entry
  refine ⟨e, hentry, hclear.first, hclear.last, ⟨[], [], [], [], rfl, rfl, ?_, ?_, ?_⟩, ?_, ?_,
    by simp [Machine.start], by simp [Machine.start]⟩
  · rw [hclear.standing]
    rfl
  · rw [hclear.standing]
    exact .nil
  · rw [howner]
    exact .program
  · intro a v hv
    obtain ⟨ty, ha, hty⟩ := h.consts a v hv
    refine ⟨_, ty, ha, hty, ?_⟩
    intro n base helement
    exact absurd (Layout.standard_holds_inj ha (h.chart.holds_pointer helement)).1 (by simp)
  · intro a v ty hv ha
    obtain ⟨ty', ha', -⟩ := h.consts a v hv
    exact absurd (Layout.standard_holds_inj ha ha').1 (by simp)

/-- A step of a machine in order: it goes on in order, or the instruction fails as expected. -/
theorem step_sound {im : Image} (him : im.Standard quads) (hchart : Chart quads)
    (h : m.SoundAt quads i) (hdone : m.isDone im = false) :
    (∃ q m' j, quads[i]? = some q ∧ m.step im = (none, m') ∧ Effect quads i m q m' ∧
      m'.SoundAt quads j) ∨
      ∃ op e m', m.step im = (some (.failed m.ip op e), m') ∧ e.Expected ∧ m'.Suited quads := by
  have hlt : i < quads.length := by
    simp only [Machine.isDone, decide_eq_false_iff_not, Int.not_le] at hdone
    rw [h.ip, ← Array.length_toList, him.1] at hdone
    omega
  have hq := List.getElem?_eq_getElem hlt
  have hfetch : im.fetch? m.ip = some quads[i] := by
    rw [h.ip]
    show im.quads[i]? = _
    rw [← Array.getElem?_toList, him.1, hq]
  have hproceeds := exec_proceeds him hchart h.suited h.ip h.stack h.first hq
  unfold Machine.step
  simp only [hfetch]
  generalize Execute.exec im quads[i] m.advance = result at hproceeds
  cases hproceeds with
  | @done m' heffect =>
    obtain ⟨j, hj⟩ := heffect.sound hchart h hq
    exact .inl ⟨quads[i], m', j, hq, rfl, heffect, hj⟩
  | @fails e m' he hglobals hframes hpending =>
    refine .inr ⟨_, e, m', rfl, he, ?_⟩
    refine ⟨?_, ?_, ?_, ?_⟩
    · rw [hglobals]
      exact h.suited.globals
    · rw [hglobals]
      exact h.suited.shared
    · rw [hframes]
      exact h.suited.frames
    · rw [hpending]
      exact h.suited.pending

/-- The ways in which a run of a compiled program ends. -/
def Outcome.Expected : Outcome → Prop
  | .finished | .canceled _ => True
  | .failed _ _ cause => cause.Expected
  | .crashed => False

/-- A run of a machine in order ends as expected, with all cells in order. -/
theorem run_sound {im : Image} (him : im.Standard quads) (hchart : Chart quads) (limit : Nat)
    (h : m.SoundAt quads i) :
    (m.run im limit).1.Expected ∧ (m.run im limit).2.Suited quads := by
  induction limit generalizing m i with
  | zero =>
    unfold Machine.run
    split
    · exact ⟨trivial, h.suited⟩
    · exact ⟨trivial, h.suited⟩
  | succ limit ih =>
    unfold Machine.run
    by_cases hdone : m.isDone im = true
    · rw [if_pos hdone]
      exact ⟨trivial, h.suited⟩
    · rw [if_neg hdone]
      rcases step_sound him hchart h (by simpa using hdone) with
        ⟨q, m', j, -, hstep, -, hj⟩ | ⟨op, e, m', hstep, he, hsuited⟩
      · rw [hstep]
        exact ih hj
      · rw [hstep]
        exact ⟨he, hsuited⟩

end Quadlang
