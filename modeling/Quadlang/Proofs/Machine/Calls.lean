-- Calls are transparent to their callers: once a function is left, the run goes on behind the
-- instruction that entered it, what was under way there is under way again, and only variables
-- of the program and the return slot of the function may have changed.
import Quadlang.Proofs.Machine.Activations

namespace Quadlang

variable {q : Quad}

variable {quads : List Quad} {i j : Nat} {m x x' : Machine} {slot : Addr}

/-! ## What waits for calls to return -/

/-- How much of what is under way waits for some calls to return. -/
def waiting (quads : List Quad) (size : Standing → Nat) : List Frame → Nat
  | [] => 0
  | f :: frames => size (standing quads f.returnTo.toNat) + waiting quads size frames

theorem waiting_cons (size : Standing → Nat) (f : Frame) (frames : List Frame) :
    waiting quads size (f :: frames) =
      size (standing quads f.returnTo.toNat) + waiting quads size frames := rfl

theorem waiting_append (size : Standing → Nat) (frames frames' : List Frame) :
    waiting quads size (frames ++ frames') = waiting quads size frames +
      waiting quads size frames' := by
  induction frames with
  | nil => simp [waiting]
  | cons f frames ih => simp [waiting, ih, Nat.add_assoc]

theorem Returns.lengths {o : Option Addr} {frames pending : List Frame} {indices : List Index}
    (h : Returns quads o frames pending indices) :
    pending.length = waiting quads (·.calls.length) frames ∧
      indices.length = waiting quads (·.dims.length) frames := by
  induction h with
  | program => exact ⟨rfl, rfl⟩
  | @call f frames own rest indices indices' position g hreturn _ _ _ hown hdims _ ih =>
    have hcalls : own.length = (standing quads position).calls.length := by
      rw [← hown, List.length_map]
    have hposition : f.returnTo.toNat = position := by
      rw [hreturn]
      rfl
    rw [waiting_cons, waiting_cons, hposition, List.length_append, List.length_append, hcalls,
      hdims.length_eq, ih.1, ih.2]
    exact ⟨rfl, rfl⟩

/-- The records and the indices of a machine belong to what is under way where it is and where
its calls return to. -/
theorem Machine.SoundAt.lengths (h : m.SoundAt quads i) :
    m.pending.length =
        (standing quads i).calls.length + waiting quads (·.calls.length) m.frames ∧
      m.indices.length =
        (standing quads i).dims.length + waiting quads (·.dims.length) m.frames := by
  obtain ⟨own, rest, is, is', hpending, hindices, hown, hchecked, hreturns⟩ := h.stack
  have hlengths := hreturns.lengths
  rw [hpending, hindices, List.length_append, List.length_append, hchecked.length_eq, ← hown,
    List.length_map, hlengths.1, hlengths.2]
  exact ⟨rfl, rfl⟩

/-! ## Inside of a call -/

/-- A state inside of a call that was entered in a state `m`: the calls under way then are at the
bottom, and so are the records and the indices that were left then. -/
structure Machine.Within (slot : Addr) (m x : Machine) : Prop where
  frames : ∃ inner r, x.frames = inner ++ r :: m.frames ∧ r.returnTo = m.ip + 1 ∧ r.callee = slot
  pending : m.pending.tail <:+ x.pending
  indices : m.indices <:+ x.indices
  globals : ∀ a, x.globals[a]? = m.globals[a]? ∨ ∃ ty, Layout.standard.Holds .locals ty a

theorem Machine.Within.length_lt (h : m.Within slot x) : m.frames.length < x.frames.length := by
  obtain ⟨inner, r, hframes, -⟩ := h.frames
  rw [hframes, List.length_append, List.length_cons]
  omega

/-- What is under way inside of a call comes on top of what was left when it was entered. -/
theorem Machine.SoundAt.above (hm : m.SoundAt quads i) (hx : x.SoundAt quads j) {f : Callee}
    (hgosub : quads[i]? = some f.gosub) (hcalls : (standing quads i).calls ≠ [])
    {inner : List Frame} {r : Frame} (hframes : x.frames = inner ++ r :: m.frames)
    (hreturn : r.returnTo = m.ip + 1) :
    x.pending.length = (standing quads j).calls.length + waiting quads (·.calls.length) inner +
        m.pending.tail.length ∧
      x.indices.length = (standing quads j).dims.length + waiting quads (·.dims.length) inner +
        m.indices.length := by
  have hnext : standing quads r.returnTo.toNat =
      { standing quads i with calls := (standing quads i).calls.tail } := by
    have hposition : r.returnTo.toNat = i + 1 := by
      rw [hreturn, hm.ip]
      rfl
    rw [hposition, standing_succ hgosub]
    rfl
  have hbefore := hm.lengths
  have hafter := hx.lengths
  have hpositive := List.length_pos_iff.2 hcalls
  rw [hframes, waiting_append, waiting_append, waiting_cons, waiting_cons, hnext] at hafter
  simp only [List.length_tail] at hafter ⊢
  omega

theorem Machine.map_returnTo_setCurrent (m : Machine) (a : Addr) (v : Value) :
    (m.setCurrent a v).frames.map (·.returnTo) = m.frames.map (·.returnTo) := by
  unfold Machine.setCurrent
  split
  · rfl
  · rename_i hframes
    rw [hframes]
    rfl

theorem Machine.map_returnTo_put (m : Machine) (segment : Segment) (a : Addr) (v : Value) :
    (m.put segment a v).frames.map (·.returnTo) = m.frames.map (·.returnTo) := by
  unfold Machine.put
  split
  · exact m.map_returnTo_setCurrent a v
  · exact m.map_returnTo_setCurrent a v
  · exact m.map_returnTo_setCurrent a v
  · rfl

theorem Machine.map_returnTo_receive (m : Machine) (slot : Addr) (result : Option Value) :
    (m.receive slot result).frames.map (·.returnTo) = m.frames.map (·.returnTo) := by
  cases result with
  | none => rfl
  | some v => exact m.map_returnTo_setCurrent slot v

@[simp]
theorem Machine.length_frames_put (m : Machine) (segment : Segment) (a : Addr) (v : Value) :
    (m.put segment a v).frames.length = m.frames.length := by
  simpa using congrArg List.length (m.map_returnTo_put segment a v)

@[simp]
theorem Machine.length_frames_receive (m : Machine) (slot : Addr) (result : Option Value) :
    (m.receive slot result).frames.length = m.frames.length := by
  simpa using congrArg List.length (m.map_returnTo_receive slot result)

theorem Machine.Within.setCurrent (h : m.Within slot x) (a : Addr) (v : Value) :
    m.Within slot (x.setCurrent a v) := by
  obtain ⟨inner, r, hframes, hreturn, hcallee⟩ := h.frames
  cases inner with
  | nil =>
    simp only [Machine.setCurrent, hframes, List.nil_append]
    exact ⟨⟨[], { r with cells := r.cells.insert a v }, rfl, hreturn, hcallee⟩, h.pending,
      h.indices, h.globals⟩
  | cons f inner =>
    simp only [Machine.setCurrent, hframes, List.cons_append]
    exact ⟨⟨{ f with cells := f.cells.insert a v } :: inner, r, rfl, hreturn, hcallee⟩, h.pending,
      h.indices, h.globals⟩

/-- Every range of the standard layout belongs to a segment with a name. -/
theorem Layout.standard_named {code : Int64} {ty : Ty} {a : Addr} :
    ¬ Layout.standard.Holds (.other code) ty a := by
  rintro ⟨s, hs, howns, -⟩
  obtain ⟨hsegment, -⟩ := Slot.owns_iff.1 howns
  have hnamed : ∀ s ∈ Layout.standard.slots, s.segment ∈ Segment.named := by decide
  have := hnamed s hs
  rw [hsegment] at this
  simp [Segment.named] at this

/-- Inside of a call, only variables of the program are written outside of it. -/
theorem Machine.Within.put (h : m.Within slot x) {segment : Segment} {ty : Ty} {a : Addr}
    (ha : Layout.standard.Holds segment ty a) (hsegment : segment ≠ .globals) (v : Value) :
    m.Within slot (x.put segment a v) := by
  cases segment with
  | globals => exact absurd rfl hsegment
  | other code => exact absurd ha Layout.standard_named
  | locals =>
    refine ⟨h.frames, h.pending, h.indices, ?_⟩
    intro b
    show (x.globals.insert a v)[b]? = _ ∨ _
    rw [Cells.getElem?_write]
    split
    · rename_i hab
      rw [← hab]
      exact .inr ⟨ty, ha⟩
    · exact h.globals b
  | stack | temps | functions => exact h.setCurrent a v

/-- The effect of an instruction inside of a call stays inside of it, as long as more calls are
under way than when it was entered. -/
theorem Effect.within (h : m.Within slot x) (heffect : Effect quads j x q x')
    (hpending : m.pending.tail.length + (standing quads j).calls.length ≤ x.pending.length)
    (hindices : m.indices.length + (standing quads j).dims.length ≤ x.indices.length)
    (hdeeper : m.frames.length < x'.frames.length) : m.Within slot x' := by
  have hadvance : m.Within slot x.advance := ⟨h.frames, h.pending, h.indices, h.globals⟩
  -- The newest record may be changed or taken if it was made inside of the call.
  have hnewest : (standing quads j).calls ≠ [] → ∀ {r : Frame} {rest : List Frame},
      x.pending = r :: rest → m.pending.tail <:+ rest := by
    intro hcalls r rest hx
    have hpositive := List.length_pos_iff.2 hcalls
    rw [hx, List.length_cons] at hpending
    have hsuffix := h.pending
    rw [hx] at hsuffix
    exact List.suffix_of_suffix_length_le hsuffix (List.suffix_cons r rest) (by omega)
  cases heffect with
  | store _ _ _ _ ha hsegment _ _ => exact hadvance.put ha hsegment _
  | @read _ _ _ _ _ rest _ ha hsegment _ _ =>
    have hread : m.Within slot { x.advance with input := rest } :=
      ⟨h.frames, h.pending, h.indices, h.globals⟩
    exact hread.put ha hsegment _
  | write => exact ⟨h.frames, h.pending, h.indices, h.globals⟩
  | jump _ _ => exact ⟨h.frames, h.pending, h.indices, h.globals⟩
  | pass => exact hadvance
  | era => exact ⟨h.frames, h.pending.trans (List.suffix_cons ..), h.indices, h.globals⟩
  | param hcalls hx _ _ =>
    exact ⟨h.frames, (hnewest hcalls hx).trans (List.suffix_cons ..), h.indices, h.globals⟩
  | @gosub f r rest calls hcalls hx _ _ =>
    obtain ⟨inner, r', hframes, hreturn, hcallee⟩ := h.frames
    refine ⟨⟨{ r with returnTo := x.advance.ip } :: inner, r', ?_, hreturn, hcallee⟩,
      hnewest (by simp [hcalls]) hx, h.indices, h.globals⟩
    rw [List.cons_append, ← hframes]
  | @ret _ f r rest staged position hx _ _ _ =>
    obtain ⟨inner, r', hframes, hreturn, hcallee⟩ := h.frames
    rw [hx] at hframes
    cases inner with
    | nil =>
      obtain ⟨rfl, rfl⟩ := List.cons.inj hframes
      exact ⟨⟨[], { r with staged }, rfl, hreturn, hcallee⟩, h.pending, h.indices, h.globals⟩
    | cons g inner =>
      obtain ⟨rfl, rfl⟩ := List.cons.inj hframes
      exact ⟨⟨{ r with staged } :: inner, r', rfl, hreturn, hcallee⟩, h.pending, h.indices,
        h.globals⟩
  | @leave f r rest _ hx _ =>
    obtain ⟨inner, r', hframes, hreturn, hcallee⟩ := h.frames
    rw [hx] at hframes
    rw [Machine.length_frames_receive] at hdeeper
    cases inner with
    | nil =>
      obtain ⟨rfl, rfl⟩ := List.cons.inj hframes
      exact absurd hdeeper (Nat.lt_irrefl _)
    | cons g inner =>
      obtain ⟨rfl, rfl⟩ := List.cons.inj hframes
      have hinside : m.Within slot
          { x.advance with frames := inner ++ r' :: m.frames, ip := r.returnTo } :=
        ⟨⟨inner, r', rfl, hreturn, hcallee⟩, h.pending, h.indices, h.globals⟩
      cases r.staged with
      | none => exact hinside
      | some v => exact hinside.setCurrent _ v
  | check _ _ => exact ⟨h.frames, h.pending, h.indices.trans (List.suffix_cons ..), h.globals⟩
  | @element n base p b hn hp _ =>
    have hkept : m.indices <:+ x.indices.drop n := by
      refine List.suffix_of_suffix_length_le h.indices (List.drop_suffix ..) ?_
      rw [List.length_drop]
      omega
    have hfound : m.Within slot { x.advance with indices := x.indices.drop n } :=
      ⟨h.frames, h.pending, hkept, h.globals⟩
    exact hfound.put hp (by simp) _

/-- Only the end of a function leaves fewer calls under way. -/
theorem Effect.length_frames_le (heffect : Effect quads j x q x') (hop : q.op ≠ .endFunction) :
    x.frames.length ≤ x'.frames.length := by
  cases heffect with
  | store _ _ _ _ _ _ _ _ | read _ _ _ _ _ | element _ _ _ =>
    rw [Machine.length_frames_put]
    exact Nat.le_refl _
  | write | jump _ _ | pass | era | param _ _ _ _ | check _ _ => exact Nat.le_refl _
  | gosub _ _ _ _ => exact Nat.le_succ _
  | ret hx _ _ _ =>
    rw [hx]
    exact Nat.le_refl _
  | leave _ _ _ => exact absurd rfl hop

/-- A call is left where its function ends, back to where it was entered. -/
theorem Effect.back (h : m.Within slot x) (heffect : Effect quads j x q x')
    (hback : x'.frames.length ≤ m.frames.length) :
    ∃ r : Frame, x.frames = r :: m.frames ∧ r.returnTo = m.ip + 1 ∧ r.callee = slot ∧
      standing quads j = {} ∧ q = { op := .endFunction, res := .cell slot } ∧
      x' = { x.advance with frames := m.frames, ip := m.ip + 1 }.receive slot r.staged := by
  have hdeeper := h.length_lt
  by_cases hop : q.op = .endFunction
  · cases heffect with
    | @leave f r rest hidle hx hcallee' =>
      obtain ⟨inner, r', hframes, hreturn, hcallee⟩ := h.frames
      rw [hx] at hframes
      rw [Machine.length_frames_receive] at hback
      cases inner with
      | nil =>
        obtain ⟨rfl, rfl⟩ := List.cons.inj hframes
        rw [← hcallee', hcallee, hreturn]
        exact ⟨r, hx, hreturn, hcallee, hidle, rfl, rfl⟩
      | cons g inner =>
        obtain ⟨rfl, rfl⟩ := List.cons.inj hframes
        have hlength : (inner ++ r' :: m.frames).length ≤ m.frames.length := hback
        rw [List.length_append, List.length_cons] at hlength
        omega
    | store hstores _ _ _ _ _ _ _ => exact absurd hop (ne_endFunction_of_stores hstores)
    | jump hjump _ => rcases hjump with hjump | hjump <;> rw [hjump] at hop <;> cases hop
    | _ => cases hop
  · have := heffect.length_frames_le hop
    omega

/-! ## Whole calls -/

/-- A call in a run: a function is entered in the state after `n` steps, and the state after `n'`
steps is the first later one in which no more calls are under way than before. -/
structure Machine.Call (im : Image) (start : Machine) (n n' : Nat) (m m' : Machine) : Prop where
  before : ∃ j, start.watched im n = some (m, j)
  enters : ∃ q, im.fetch? m.ip = some q ∧ q.op = .gosub
  after : ∃ j, start.watched im n' = some (m', j)
  later : n < n'
  inside : ∀ k x j, n < k → k < n' → start.watched im k = some (x, j) →
    m.frames.length < x.frames.length
  back : m'.frames.length ≤ m.frames.length

/-- The calls under way are the same, but for the cell of a return slot in the innermost one. -/
inductive FramesKept (slot : Addr) : List Frame → List Frame → Prop
  | program : FramesKept slot [] []
  | caller {f : Frame} {rest : List Frame} {cells : Cells} :
      (∀ a, cells[a]? = f.cells[a]? ∨ a = slot ∧ ∃ ty, Layout.standard.Holds .stack ty a) →
      FramesKept slot (f :: rest) ({ f with cells } :: rest)

/-- A machine goes on behind a call as if the call had only written variables of the program and
the return slot of the function. -/
structure Machine.Resumes (slot : Addr) (m m' : Machine) : Prop where
  ip : m'.ip = m.ip + 1
  frames : FramesKept slot m.frames m'.frames
  pending : ∃ r, m.pending = r :: m'.pending
  indices : m'.indices = m.indices
  globals : ∀ a, m'.globals[a]? = m.globals[a]? ∨ (∃ ty, Layout.standard.Holds .locals ty a) ∨
    m.frames = [] ∧ a = slot ∧ ∃ ty, Layout.standard.Holds .stack ty a

theorem Machine.watched_of_le {im : Image} {start m : Machine} {j : Journal} {k n : Nat}
    (h : start.watched im n = some (m, j)) (hk : k ≤ n) :
    ∃ x j', start.watched im k = some (x, j') := by
  induction n generalizing m j with
  | zero =>
    obtain rfl : k = 0 := Nat.le_zero.1 hk
    exact ⟨m, j, h⟩
  | succ n ih =>
    by_cases hlast : k = n + 1
    · subst hlast
      exact ⟨m, j, h⟩
    · obtain ⟨m₀, j₀, -, hbefore, -⟩ := Machine.watched_succ h
      exact ih hbefore (by omega)

theorem Effect.enters (heffect : Effect quads i m q x) (hop : q.op = .gosub) :
    ∃ (f : Callee) (r : Frame) (rest : List Frame), q = f.gosub ∧ (standing quads i).calls ≠ [] ∧
      m.pending = r :: rest ∧ r.callee = f.address ∧ x = { m.advance with
        pending := rest, frames := { r with returnTo := m.advance.ip } :: m.frames, ip :=
          f.target } := by
  cases heffect with
  | @gosub f r rest calls hcalls hpending hcallee _ =>
    exact ⟨f, r, rest, rfl, by simp [hcalls], hpending, hcallee, rfl⟩
  | store hstores _ _ _ _ _ _ _ =>
    rw [hop] at hstores
    cases hstores
  | jump hjump _ => rcases hjump with hjump | hjump <;> rw [hjump] at hop <;> cases hop
  | _ => cases hop

/-- All states between the entry of a function and its end are inside of the call. -/
theorem Machine.Call.within {p : Program} (hcharted : Charted p) {input : Bytes} {room : Option Nat}
    {depth : Int} {n n' : Nat} {m m' : Machine}
    (h : Machine.Call (Image.ofProgram p depth) (Machine.start p input room) n n' m m') :
    ∃ (f : Callee) (i : Nat), m.SoundAt p.quads.toList i ∧ p.quads.toList[i]? = some f.gosub ∧
      (standing p.quads.toList i).calls ≠ [] ∧ n + 1 < n' ∧ ∀ k, n < k → k < n' → ∀ x j,
        p.seen depth input room k = some (x, j) →
        m.Within f.address x := by
  obtain ⟨j, hm⟩ := h.before
  obtain ⟨q, hfetch, hop⟩ := h.enters
  obtain ⟨j', hm'⟩ := h.after
  obtain ⟨⟨i, hsound⟩, -⟩ := hcharted.watched hm
  have him := hcharted.standard depth
  obtain ⟨x₁, j₁, hfirst⟩ := Machine.watched_of_le hm' h.later
  obtain ⟨m₀, j₀, q₀, hm₀, hfetch₀, hstep, -⟩ := Machine.watched_succ hfirst
  rw [hm] at hm₀
  obtain ⟨rfl, rfl⟩ := Prod.mk.inj (Option.some.inj hm₀)
  obtain ⟨hq, heffect, -⟩ := step_effect him hcharted.chart hsound hfetch hstep
  obtain ⟨f, r, rest, rfl, hcalls, hpending, hcallee, rfl⟩ := heffect.enters hop
  have hlater : n + 1 < n' := by
    refine Nat.lt_of_le_of_ne h.later ?_
    rintro rfl
    rw [hm'] at hfirst
    obtain ⟨rfl, -⟩ := Prod.mk.inj (Option.some.inj hfirst)
    exact absurd h.back (Nat.not_succ_le_self _)
  refine ⟨f, i, hsound, hq, hcalls, hlater, ?_⟩
  intro k hk
  obtain ⟨d, rfl⟩ := Nat.exists_eq_add_of_lt hk
  induction d with
  | zero =>
    intro _ x j hx
    obtain ⟨rfl, rfl⟩ := Prod.mk.inj (Option.some.inj (hfirst.symm.trans hx))
    refine ⟨⟨[], _, rfl, rfl, hcallee⟩, ?_, List.suffix_refl _, fun a => .inl rfl⟩
    rw [hpending]
    exact List.suffix_refl _
  | succ d ih =>
    intro hk' x j hx
    obtain ⟨x₀, j₀, q₀, hx₀, hfetch₀, hstep₀, -⟩ := Machine.watched_succ hx
    have hwithin := ih (by omega) (by omega) x₀ j₀ hx₀
    obtain ⟨⟨i₀, hsound₀⟩, -⟩ := hcharted.watched hx₀
    obtain ⟨-, heffect₀, -⟩ := step_effect him hcharted.chart hsound₀ hfetch₀ hstep₀
    obtain ⟨inner, r', hframes, hreturn, -⟩ := hwithin.frames
    have habove := hsound.above hsound₀ hq hcalls hframes hreturn
    exact heffect₀.within hwithin (by omega) (by omega) (h.inside _ x j hk hk' hx)

/-- What is left when a function ends and its result, if there is one, is received. -/
theorem Machine.Within.resumes (h : m.Within slot x) {r : Frame} (hnonempty : m.pending ≠ [])
    (hpending : x.pending.length = m.pending.tail.length)
    (hindices : x.indices.length = m.indices.length) (hr : r.callee = slot)
    (hstaged : StagedSuits r) :
    m.Resumes slot ({ x.advance with frames := m.frames, ip := m.ip + 1 }.receive slot
      r.staged) := by
  have hrest : m.pending = m.pending.head hnonempty :: x.pending := by
    rw [← h.pending.eq_of_length hpending.symm, List.cons_head_tail]
  have hsame : m.indices = x.indices := h.indices.eq_of_length hindices.symm
  cases hresult : r.staged with
  | none =>
    refine ⟨rfl, ?_, ⟨_, hrest⟩, hsame.symm, ?_⟩
    · show FramesKept slot m.frames m.frames
      cases m.frames with
      | nil => exact .program
      | cons f frames => exact .caller fun _ => .inl rfl
    · exact fun a => (h.globals a).imp_right .inl
  | some v =>
    obtain ⟨ty, hslot, -⟩ := hstaged v hresult
    rw [hr] at hslot
    have hcell : ∀ (cells : Cells) a, (cells.insert slot v)[a]? = cells[a]? ∨
        a = slot ∧ ∃ ty, Layout.standard.Holds .stack ty a := by
      intro cells a
      rw [Cells.getElem?_write]
      split
      · rename_i hslot'
        subst hslot'
        exact .inr ⟨rfl, ty, hslot⟩
      · exact .inl rfl
    cases hframes : m.frames with
    | nil =>
      refine ⟨rfl, by rw [hframes]; exact .program, ⟨_, hrest⟩, hsame.symm, ?_⟩
      intro a
      rcases hcell x.globals a with hglobal | hslot'
      · exact (h.globals a).imp hglobal.trans .inl
      · exact .inr (.inr ⟨hframes, hslot'⟩)
    | cons f frames =>
      refine ⟨rfl, by rw [hframes]; exact .caller (hcell f.cells), ⟨_, hrest⟩,
        hsame.symm, ?_⟩
      exact fun a => (h.globals a).imp_right .inl

/-- A call is transparent to its caller: when the run comes back from it, the function has just
ended, the run goes on behind the instruction that entered it with the calls, the records and the
indices of the caller, and only variables of the program and the return slot of the function in
the frame of the caller may hold something else. -/
theorem call_transparent {text : Bytes} {p : Program} (h : compile text = .ok p) {input : Bytes}
    {room : Option Nat} {depth : Int} {n n' : Nat} {m m' : Machine}
    (hcall : Machine.Call (Image.ofProgram p depth) (Machine.start p input room) n n' m m') :
    ∃ f : Callee, (Image.ofProgram p depth).fetch? m.ip = some f.gosub ∧
      (∃ x j, (Machine.start p input room).watched (Image.ofProgram p depth) (n' - 1) =
        some (x, j) ∧ (Image.ofProgram p depth).fetch? x.ip = some f.leave) ∧
          m.Resumes f.address m' := by
  have hcharted := compile_charted h
  obtain ⟨f, i, hsound, hgosub, hcalls, hlater, hwithin⟩ := hcall.within hcharted
  obtain ⟨j', hm'⟩ := hcall.after
  obtain ⟨k, rfl⟩ : ∃ k, n' = k + 1 := ⟨n' - 1, by omega⟩
  obtain ⟨x, jx, q, hx, hfetch, hstep, -⟩ := Machine.watched_succ hm'
  have hinside := hwithin k (by omega) (by omega) x jx hx
  obtain ⟨⟨i', hsound'⟩, -⟩ := hcharted.watched hx
  obtain ⟨-, heffect, -⟩ :=
    step_effect (hcharted.standard depth) hcharted.chart hsound' hfetch hstep
  obtain ⟨r, hframes, hreturn, hcallee, hidle, rfl, rfl⟩ := heffect.back hinside hcall.back
  have hlengths := @Machine.SoundAt.above _ _ _ _ _ hsound hsound' f hgosub hcalls
    [] r hframes hreturn
  rw [hidle] at hlengths
  have hpending : m.pending ≠ [] := by
    intro hnil
    have := hsound.lengths.1
    have hpositive := List.length_pos_iff.2 hcalls
    rw [hnil, List.length_nil] at this
    omega
  have hstaged : StagedSuits r :=
    (hsound'.suited.frames r (by rw [hframes]; exact List.mem_cons_self ..)).2
  refine ⟨f, ?_, ⟨x, jx, hx, hfetch⟩, hinside.resumes hpending ?_ ?_ hcallee hstaged⟩
  · rw [hsound.ip]
    show p.quads[i]? = _
    rw [← Array.getElem?_toList]
    exact hgosub
  · simpa [waiting] using hlengths.1
  · simpa [waiting] using hlengths.2

/-- A call in an argument in an index behind another index. -/
def nested : Bytes :=
  ascii "program nested; func int f(int n) \x7b return n + 1; \x7d " ++
    ascii "main \x7b int a[2][3]; a[1][f(f(0))] = 5; \x7d"

/-- The inner call leaves the record of the outer one and the index before it as they were. -/
theorem nested_transparent : ∃ p m m', compile nested = .ok p ∧
    Machine.Call (Image.ofProgram p 0) (Machine.start p [] none) 4 8 m m' ∧ m.pending.length = 2 ∧
      m.indices = [⟨1, 3⟩] ∧ ∃ f : Callee, m.Resumes f.address m' := by
  obtain ⟨p, hcompile, hcheck⟩ := @exists_image nested
    (fun p im => ((Machine.start p [] none).watched im 4).any fun s =>
      ((Machine.start p [] none).watched im 8).any fun s' =>
        (im.fetch? s.1.ip).any (·.op = .gosub) && s'.1.frames.length ≤ s.1.frames.length &&
          s.1.pending.length = 2 && s.1.indices = [⟨1, 3⟩] && [5, 6, 7].all fun k =>
            ((Machine.start p [] none).watched im k).all fun x =>
              s.1.frames.length < x.1.frames.length)
    (by decide +kernel)
  obtain ⟨⟨m, j⟩, hm, hcheck⟩ := (Option.any_eq_true _ _).1 hcheck
  obtain ⟨⟨m', j'⟩, hm', hcheck⟩ := (Option.any_eq_true _ _).1 hcheck
  simp only [Bool.and_eq_true, decide_eq_true_eq] at hcheck
  obtain ⟨⟨⟨⟨hgosub, hback⟩, hpending⟩, hindices⟩, hinside⟩ := hcheck
  obtain ⟨q, hfetch, hop⟩ := (Option.any_eq_true _ _).1 hgosub
  have hcall : Machine.Call (Image.ofProgram p 0) (Machine.start p [] none) 4 8 m m' := by
    refine ⟨⟨j, hm⟩, ⟨q, hfetch, of_decide_eq_true hop⟩, ⟨j', hm'⟩, by decide, ?_, hback⟩
    intro k x jx hk hk' hx
    have hall := List.all_eq_true.1 hinside k (by simp; omega)
    rw [hx] at hall
    exact of_decide_eq_true hall
  obtain ⟨f, -, -, hresumes⟩ := call_transparent hcompile hcall
  exact ⟨p, m, m', hcompile, hcall, hpending, hindices, f, hresumes⟩

end Quadlang
