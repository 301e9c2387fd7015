-- What operators are applied to. The left operand of an operation is worked out before the right
-- one, but a variable or an element is only read when the operator is applied: a call in the right
-- operand that assigns it in between changes the value that the operator gets.
import Quadlang.Proofs.Machine.Calls
import Quadlang.Proofs.Machine.Defined
import Quadlang.Proofs.Program.Operations

namespace Quadlang

variable {first k last n : Nat} {col : List (Option Value)} {segment : Segment} {ty : Ty}
  {m₀ : Machine} {x : Operand}

variable {quads : List Quad} {i : Nat} {m m' : Machine} {j j' : Journal} {q : Quad} {a b : Addr}

/-! ## Evaluations -/

/-- In the steps from `s` to `n` of a run, some activations go through the instructions from
`first` to `last` and through the calls that these make. -/
structure Evaluates (run : Nat → Option (Machine × Journal)) (first last s n : Nat)
    (ks : List Nat) : Prop where
  le : s ≤ n
  start : ∃ m j, run s = some (m, j) ∧ m.ip = first ∧ j.frames = ks
  inside : ∀ k m j, s < k → k ≤ n → run k = some (m, j) →
    ks <:+ j.frames ∧ (j.frames = ks → ∃ i : Nat, m.ip = i ∧ first < i ∧ i ≤ last)

/-- The calls under way that return to between two positions: each of them was made by an evaluation
that began at the first one. -/
def Suspended (run : Nat → Option (Machine × Journal)) (first last n : Nat) :
    List Frame → List Nat → Prop
  | f :: frames, _ :: ks =>
    (∀ i : Nat, f.returnTo = i → first < i → i ≤ last → ∃ s, Evaluates run first last s n ks) ∧
      Suspended run first last n frames ks
  | _, _ => True

/-- Whatever is between two positions, where a machine is and where its calls return to, came
there from the first one. -/
structure Evaluating (run : Nat → Option (Machine × Journal)) (first last n : Nat) (m : Machine)
    (j : Journal) : Prop where
  now : ∀ i : Nat, m.ip = i → first ≤ i → i ≤ last → ∃ s, Evaluates run first last s n j.frames
  suspended : Suspended run first last n m.frames j.frames

section

variable {run : Nat → Option (Machine × Journal)} {first last s n : Nat} {ks : List Nat}

theorem evaluates_start (hrun : run n = some (m, j)) (hip : m.ip = first) :
    Evaluates run first last n n j.frames :=
  ⟨Nat.le_refl n, ⟨m, j, hrun, hip, rfl⟩, fun _ _ _ hk hk' => absurd hk (Nat.not_lt.2 hk')⟩

theorem Evaluates.extend (h : Evaluates run first last s n ks) (hnext : run (n + 1) = some (m', j'))
    (hsuffix : ks <:+ j'.frames)
    (hposition : j'.frames = ks → ∃ i : Nat, m'.ip = i ∧ first < i ∧ i ≤ last) :
    Evaluates run first last s (n + 1) ks := by
  refine ⟨Nat.le_succ_of_le h.le, h.start, ?_⟩
  intro k m j hk hk' hrun
  by_cases hlast : k = n + 1
  · subst hlast
    rw [hnext] at hrun
    obtain ⟨rfl, rfl⟩ := Prod.mk.inj (Option.some.inj hrun)
    exact ⟨hsuffix, hposition⟩
  · exact h.inside k m j hk (by omega) hrun

theorem Suspended.extend {frames : List Frame} (h : Suspended run first last n frames ks)
    (hnext : run (n + 1) = some (m', j')) (hsuffix : ks <:+ j'.frames) :
    Suspended run first last (n + 1) frames ks := by
  induction frames generalizing ks with
  | nil => trivial
  | cons f frames ih =>
    cases ks with
    | nil => trivial
    | cons k ks =>
      have htail : ks <:+ j'.frames := (List.suffix_cons k ks).trans hsuffix
      refine ⟨?_, ih h.2 htail⟩
      intro i hreturn hfirst hlast
      obtain ⟨s, hs⟩ := h.1 i hreturn hfirst hlast
      refine ⟨s, hs.extend hnext htail ?_⟩
      intro heq
      have := hsuffix.length_le
      rw [heq, List.length_cons] at this
      omega

theorem Suspended.congr {frames frames' : List Frame} (h : Suspended run first last n frames ks)
    (hframes : frames'.map (·.returnTo) = frames.map (·.returnTo)) :
    Suspended run first last n frames' ks := by
  induction frames generalizing frames' ks with
  | nil =>
    obtain rfl := List.map_eq_nil_iff.1 hframes
    trivial
  | cons f frames ih =>
    cases frames' with
    | nil => trivial
    | cons f' frames' =>
      obtain ⟨hreturn, hrest⟩ := List.cons.inj hframes
      cases ks with
      | nil => trivial
      | cons k ks =>
        refine ⟨?_, ih h.2 hrest⟩
        intro i hi
        exact h.1 i (hreturn.symm.trans hi)

theorem Evaluating.next (h : Evaluating run first last n m j) (hip : m.ip = i)
    (hnext : run (n + 1) = some (m', j')) (hip' : m'.ip = (i + 1 : Nat)) (hj : j'.frames = j.frames)
    (hframes : m'.frames.map (·.returnTo) = m.frames.map (·.returnTo)) :
    Evaluating run first last (n + 1) m' j' := by
  refine ⟨?_, ?_⟩
  · intro i' hi' hfirst hlast
    obtain rfl : i' = i + 1 := by
      omega
    by_cases hstart : i + 1 = first
    · exact ⟨n + 1, evaluates_start hnext (by rw [← hstart]; exact hip')⟩
    · obtain ⟨s, hs⟩ := h.now i hip (by omega) (by omega)
      refine ⟨s, ?_⟩
      rw [hj]
      exact hs.extend hnext (hj ▸ List.suffix_refl _) fun _ => ⟨i + 1, hip', by omega, hlast⟩
  · rw [hj]
    exact (h.suspended.congr hframes).extend hnext (hj ▸ List.suffix_refl _)

theorem Evaluating.land (h : Evaluating run first last n m j)
    (hclear : ∀ k, first < k → k ≤ last → ¬ Clear quads k) (hnext : run (n + 1) = some (m', j'))
    {target : Nat} (hip' : m'.ip = target) (htarget : Clear quads target)
    (hj : j'.frames = j.frames) (hframes : m'.frames.map (·.returnTo) = m.frames.map (·.returnTo)) :
    Evaluating run first last (n + 1) m' j' := by
  refine ⟨?_, ?_⟩
  · intro i' hi' hfirst hlast
    obtain rfl : i' = target := by
      omega
    by_cases hstart : i' = first
    · exact ⟨n + 1, evaluates_start hnext (by rw [← hstart]; exact hip')⟩
    · exact absurd htarget (hclear i' (by omega) hlast)
  · rw [hj]
    exact (h.suspended.congr hframes).extend hnext (hj ▸ List.suffix_refl _)

end

theorem Journal.frames_watch (hgosub : q.op ≠ .gosub) (hend : q.op ≠ .endFunction) :
    (j.watch q m m').frames = j.frames := by
  unfold Journal.watch
  split
  · rfl
  · simp
  · rename_i hop
    exact absurd hop hgosub
  · unfold Journal.putAside
    split <;> rfl
  · rename_i hop
    exact absurd hop hend
  · split
    · split
      · simp
      · rfl
    · rfl

/-- Each instruction keeps track of where evaluations began. -/
theorem Effect.evaluating {run : Nat → Option (Machine × Journal)} (heffect : Effect quads i m q m')
    (hip : m.ip = i) (hq : quads[i]? = some q) (hnoted : m.Noted j)
    (hclear : ∀ k, first < k → k ≤ last → ¬ Clear quads k)
    (hnext : run (n + 1) = some (m', j.watch q m m')) (h : Evaluating run first last n m j) :
    Evaluating run first last (n + 1) m' (j.watch q m m') := by
  have hadvance : m.advance.ip = (i + 1 : Nat) := by
    show m.ip + 1 = _
    rw [hip]
    rfl
  cases heffect with
  | store hop =>
    refine h.next hip hnext (by rw [Machine.ip_put]; exact hadvance) (Journal.frames_watch ?_ ?_)
      (Machine.map_returnTo_put ..)
    · intro hgosub
      rw [hgosub] at hop
      cases hop
    · exact ne_endFunction_of_stores hop
  | read =>
    exact h.next hip hnext (by rw [Machine.ip_put]; exact hadvance)
      (Journal.frames_watch (by simp [readQuad]) (by simp [readQuad])) (Machine.map_returnTo_put ..)
  | write =>
    exact h.next hip hnext hadvance (Journal.frames_watch (by simp [writeQuad])
      (by simp [writeQuad])) rfl
  | jump hop hlanding =>
    refine h.land hclear hnext rfl hlanding.toClear (Journal.frames_watch ?_ ?_) rfl
    · rcases hop with hop | hop <;> rw [hop] <;> simp
    · rcases hop with hop | hop <;> rw [hop] <;> simp
  | pass =>
    exact h.next hip hnext hadvance (Journal.frames_watch (by simp [skipQuad]) (by simp [skipQuad]))
      rfl
  | era =>
    exact h.next hip hnext hadvance (Journal.frames_watch (by simp [Callee.era])
      (by simp [Callee.era])) rfl
  | param =>
    exact h.next hip hnext hadvance (Journal.frames_watch (by simp [Param.bind])
      (by simp [Param.bind])) rfl
  | @gosub f r rest _ _ hpending _ hentry =>
    obtain ⟨k, ks, -, -, hj⟩ := List.forall₂_cons_left_iff.1 (hpending ▸ hnoted.pending)
    have hframes : (j.watch f.gosub m { m.advance with
        pending := rest, frames := { r with returnTo := m.advance.ip } :: m.frames,
        ip := f.target }).frames = k :: j.frames := by
      simp [Journal.watch, Callee.gosub, Journal.enter, hj]
    have hsuffix : j.frames <:+ k :: j.frames := List.suffix_cons k j.frames
    refine ⟨?_, ?_⟩
    · intro i' hi' hfirst hlast
      obtain rfl : i' = f.target := (Int.ofNat.inj hi').symm
      by_cases hstart : f.target = first
      · exact ⟨n + 1, evaluates_start hnext (by rw [← hstart])⟩
      · exact absurd hentry.toClear (hclear f.target (by omega) hlast)
    · rw [hframes]
      refine ⟨?_, h.suspended.extend hnext (by rw [hframes]; exact hsuffix)⟩
      intro i' hi' hfirst hlast
      obtain rfl : i' = i + 1 := by
        have := hi'.symm.trans hadvance
        omega
      obtain ⟨s, hs⟩ := h.now i hip (by omega) (by omega)
      refine ⟨s, hs.extend hnext (by rw [hframes]; exact hsuffix) ?_⟩
      intro heq
      rw [hframes] at heq
      have := congrArg List.length heq
      simp at this
  | @ret x f r rest staged position hframes hstaged hcallee hlanding =>
    refine h.land hclear hnext rfl hlanding.toClear (Journal.frames_watch (by simp) (by simp)) ?_
    rw [hframes]
    rfl
  | @leave f r rest _ hframes _ =>
    obtain ⟨k, ks, -, -, hj⟩ := List.forall₂_cons_left_iff.1 (hframes ▸ hnoted.frames)
    have hwatch : ∀ m', (j.watch { op := .endFunction, res := .cell f.address } m m').frames =
      ks := by
      intro m'
      simp [Journal.watch, Journal.leave, hj]
    have hsuspended := h.suspended
    rw [hframes, hj] at hsuspended
    have hreturn : (Machine.receive { m.advance with frames := rest, ip := r.returnTo } f.address
        r.staged).ip = r.returnTo := by
      cases r.staged <;> simp [Machine.receive]
    have hrest : (Machine.receive { m.advance with frames := rest, ip := r.returnTo } f.address
        r.staged).frames.map (·.returnTo) = rest.map (·.returnTo) := Machine.map_returnTo_receive ..
    refine ⟨?_, ?_⟩
    · intro i' hi' hfirst hlast
      rw [hreturn] at hi'
      by_cases hstart : i' = first
      · exact ⟨n + 1, evaluates_start hnext (by rw [hreturn, hi', hstart])⟩
      · obtain ⟨s, hs⟩ := hsuspended.1 i' hi' (by omega) hlast
        refine ⟨s, ?_⟩
        rw [hwatch]
        refine hs.extend hnext (hwatch _ ▸ List.suffix_refl _) fun _ => ⟨i', ?_, by omega, hlast⟩
        rw [hreturn, hi']
    · rw [hwatch]
      exact (hsuspended.2.congr hrest).extend hnext (hwatch _ ▸ List.suffix_refl _)
  | check =>
    exact h.next hip hnext hadvance (Journal.frames_watch (by simp [Dim.check])
      (by simp [Dim.check])) rfl
  | element =>
    exact h.next hip hnext (by rw [Machine.ip_put]; exact hadvance)
      (Journal.frames_watch (by simp [elementQuad]) (by simp [elementQuad]))
      (Machine.map_returnTo_put ..)

/-- In every run, whatever is between two positions came there from the first one, if nothing jumps
or calls to in between. -/
theorem Charted.evaluating {p : Program} (hcharted : Charted p) {input : Bytes} {room : Option Nat}
    {depth : Int} (hclear : ∀ k, first < k → k ≤ last → ¬ Clear p.quads.toList k)
    (h : p.seen depth input room n = some (m, j)) :
    Evaluating (p.seen depth input room) first last n m j := by
  induction n generalizing m j with
  | zero =>
    obtain ⟨rfl, rfl⟩ := Prod.mk.inj (Option.some.inj h)
    obtain ⟨e, hentry, hclear', -⟩ := hcharted.entry
    refine ⟨?_, trivial⟩
    intro i hi hfirst hlast
    obtain rfl : i = e := by
      have : (i : Int) = e := hi.symm.trans hentry
      omega
    by_cases hstart : i = first
    · exact ⟨0, evaluates_start h (by rw [← hstart]; exact hi)⟩
    · exact absurd hclear' (hclear i (by omega) hlast)
  | succ n ih =>
    have hnext := h
    obtain ⟨m₀, j₀, q, i, hbefore, rfl, hsound, hnoted, hq, heffect⟩ :=
      hcharted.watched_succ h
    exact heffect.evaluating hsound.ip hq hnoted hclear hnext (ih hbefore)

/-! ## Cells that stay -/

/-- What an address holds in the activations under way and in the program, the innermost first. -/
def Machine.column (m : Machine) (a : Addr) : List (Option Value) :=
  m.frames.map (·.cells[a]?) ++ [m.globals[a]?]

theorem Machine.get?_eq_column (m : Machine) (a : Addr) : m.get? a = (m.column a).findSome? id := by
  have hframes : (m.frames.findSome? fun f => f.cells[a]?) = (m.frames.map (·.cells[a]?)).findSome?
    id := by
    rw [List.findSome?_map]
    rfl
  unfold Machine.get? Machine.column
  rw [List.findSome?_append, ← hframes]
  cases m.frames.findSome? fun f => f.cells[a]? with
  | some v => rfl
  | none => cases m.globals[a]? <;> rfl

@[simp]
theorem Machine.length_column (m : Machine) (a : Addr) :
    (m.column a).length = m.frames.length + 1 := by
  simp [Machine.column]

theorem Machine.column_setGlobal (m : Machine) (h : b ≠ a) (v : Value) :
    (m.setGlobal b v).column a = m.column a := by
  unfold Machine.column Machine.setGlobal
  simp only [Cells.getElem?_write, if_neg h]

theorem Machine.column_setCurrent (m : Machine) (h : b ≠ a) (v : Value) :
    (m.setCurrent b v).column a = m.column a := by
  unfold Machine.setCurrent
  split
  · exact m.column_setGlobal h v
  · rename_i hframes
    unfold Machine.column
    rw [hframes]
    simp only [List.map_cons, Cells.getElem?_write, if_neg h]

/-- A write of the innermost activation leaves the columns of those around it. -/
theorem Machine.suffix_setCurrent (h : col <:+ m.column a) (hlength : col.length ≤ m.frames.length)
    (b : Addr) (v : Value) : col <:+ (m.setCurrent b v).column a := by
  unfold Machine.setCurrent
  split
  · rename_i hframes
    rw [hframes, List.length_nil] at hlength
    rw [List.length_eq_zero_iff.1 (Nat.le_zero.1 hlength)]
    exact List.nil_suffix
  · rename_i f rest hframes
    unfold Machine.column at h ⊢
    rw [hframes] at h hlength
    rcases List.suffix_cons_iff.1 h with heq | hrest
    · have := congrArg List.length heq
      simp at this hlength
      omega
    · exact hrest.trans (List.suffix_cons ..)

theorem Machine.suffix_setGlobal (h : col <:+ m.column a) (hne : b ≠ a) (v : Value) :
    col <:+ (m.setGlobal b v).column a := by
  rw [m.column_setGlobal hne]
  exact h

/-- A write by an instruction that writes another cell, or in another activation. -/
theorem Machine.suffix_put (h : col <:+ m.column a) (hb : Layout.standard.Holds segment ty b)
    (hsegment : segment ≠ .globals)
    (hapart : b ≠ a ∨ col.length ≤ m.frames.length ∧ ∀ ty, ¬ Layout.standard.Holds .locals ty a)
    (v : Value) : col <:+ (m.put segment b v).column a := by
  by_cases hcalls : segment.ofCalls = true
  · have hput : m.put segment b v = m.setCurrent b v := by
      cases segment <;> first | rfl | cases hcalls
    rw [hput]
    rcases hapart with hne | ⟨hlength, -⟩
    · rw [m.column_setCurrent hne]
      exact h
    · exact Machine.suffix_setCurrent h hlength b v
  · have hput : m.put segment b v = m.setGlobal b v := by
      cases segment <;> first | rfl | exact absurd rfl hcalls
    rw [hput]
    refine Machine.suffix_setGlobal h ?_ v
    rcases hapart with hne | ⟨-, hlocal⟩
    · exact hne
    rintro rfl
    have hall := Layout.standard_segment hb
    simp only [List.mem_cons, List.not_mem_nil, or_false] at hall
    rcases hall with rfl | rfl | rfl | rfl | rfl
    · exact hsegment rfl
    · exact hlocal ty hb
    all_goals exact hcalls rfl

/-- An instruction leaves what the activations around it have at an address that is neither a
variable of the program nor a return slot. One that only fills other temporaries leaves the
variables of the program as well. -/
theorem Effect.column (heffect : Effect quads i m q m') (hsound : m.SoundAt quads i)
    (h : col <:+ m.column a) (hslot : ∀ ty, ¬ Layout.standard.Holds .stack ty a)
    (hapart : q.Straight ∧ ¬ q.Fills a ∨
      col.length ≤ m.frames.length ∧ ∀ ty, ¬ Layout.standard.Holds .locals ty a)
    (hafter : col.length ≤ m'.frames.length + 1) : col <:+ m'.column a := by
  have hwrites : ∀ {b : Addr} {segment : Segment} {ty : Ty}, q.op.stores = true →
      m.reach? q.res = some b → Layout.standard.Holds segment ty b →
      b ≠ a ∨ col.length ≤ m.frames.length ∧ ∀ ty, ¬ Layout.standard.Holds .locals ty a := by
    intro b segment ty hop hreach hb
    rcases hapart with ⟨⟨c, hfill⟩ | hplain, hnot⟩ | haround
    · refine .inl ?_
      rintro rfl
      obtain ⟨rfl, -⟩ := hfill.reached hreach hb
      exact hnot hfill
    · rcases hplain with hk | hk | hk | hk <;> rw [hk] at hop <;> cases hop
    · exact .inr haround
  cases heffect with
  | store hop _ _ hreach hb hsegment _ _ =>
    exact Machine.suffix_put (m := m.advance) h hb hsegment (hwrites hop hreach hb) _
  | @read _ _ _ _ _ rest hreach hb hsegment _ _ =>
    exact Machine.suffix_put (m := { m.advance with input := rest }) h hb hsegment
      (hwrites rfl hreach hb) _
  | gosub => exact h.trans (List.suffix_cons ..)
  | ret hframes =>
    unfold Machine.column at h ⊢
    rw [hframes] at h
    exact h
  | @leave f r rest _ hframes hcallee =>
    have hleft : col <:+ Machine.column { m.advance with frames := rest, ip := r.returnTo } a := by
      unfold Machine.column at h ⊢
      rw [hframes] at h
      rcases List.suffix_cons_iff.1 h with heq | hrest
      · have := congrArg List.length heq
        simp at this hafter
        omega
      · exact hrest
    cases hstaged : r.staged with
    | none => exact hleft
    | some v =>
      obtain ⟨ty, hholds, -⟩ :=
        (hsound.suited.frames r (by rw [hframes]; exact List.mem_cons_self ..)).2 v hstaged
      rw [hcallee] at hholds
      have hne : f.address ≠ a := by
        rintro rfl
        exact hslot ty hholds
      show col <:+ (Machine.setCurrent _ f.address v).column a
      rw [Machine.column_setCurrent _ hne]
      exact hleft
  | @element n _ p _ _ hp _ =>
    exact Machine.suffix_put (m := { m.advance with indices := m.indices.drop n }) h hp (by simp)
      (hwrites rfl (reach?_cell p m) hp) _
  | _ => exact h

section

variable {p : Program} {input : Bytes} {room : Option Nat} {depth : Int} {first last s n : Nat}
  {ks : List Nat} {m₀ : Machine} {j₀ : Journal}

/-- All the time the activations are under way, and the innermost of them is between the two
positions while it calls nothing. -/
theorem Evaluates.level {run : Nat → Option (Machine × Journal)}
    (h : Evaluates run first last s n ks)
    (hle : first ≤ last) (hk : s ≤ k) (hk' : k ≤ n) (hrun : run k = some (m, j)) :
    ks <:+ j.frames ∧ (j.frames = ks → ∃ i : Nat, m.ip = i ∧ first ≤ i ∧ i ≤ last) := by
  by_cases hstart : s = k
  · subst hstart
    obtain ⟨m', j', hrun', hip, hframes⟩ := h.start
    rw [hrun] at hrun'
    obtain ⟨rfl, rfl⟩ := Prod.mk.inj (Option.some.inj hrun')
    exact ⟨hframes ▸ List.suffix_refl _, fun _ => ⟨first, hip, Nat.le_refl _, hle⟩⟩
  · obtain ⟨hsuffix, hposition⟩ := h.inside k m j (by omega) hk' hrun
    refine ⟨hsuffix, ?_⟩
    intro heq
    obtain ⟨i, hip, hfirst, hlast⟩ := hposition heq
    exact ⟨i, hip, Nat.le_of_lt hfirst, hlast⟩

theorem Machine.Noted.length_eq (h : m.Noted j) : m.frames.length = j.frames.length :=
  h.frames.length_eq

/-- While an expression is evaluated, what the activations have at an address stays as it was,
unless it is a return slot or a temporary that the expression fills, or it is a variable of the
program and the expression calls something. -/
theorem Evaluates.column (hcharted : Charted p)
    (h : Evaluates (p.seen depth input room) first last s n ks)
    (hle : first ≤ last)
    (hlocal : (∀ ty, ¬ Layout.standard.Holds .locals ty a) ∨
      ∀ k x jx, s ≤ k → k ≤ n →
        p.seen depth input room k = some (x, jx) → jx.frames = ks)
    (hslot : ∀ ty, ¬ Layout.standard.Holds .stack ty a)
    (hstraight : ∀ k q, first ≤ k → k ≤ last → p.quads.toList[k]? = some q → q.Straight ∧
      ¬ q.Fills a)
    (hstart : p.seen depth input room s = some (m₀, j₀))
    (hrun : p.seen depth input room n = some (m, j)) :
    m₀.column a <:+ m.column a := by
  have hlength : (m₀.column a).length = ks.length + 1 := by
    obtain ⟨m', j', hrun', -, hframes⟩ := h.start
    rw [hstart] at hrun'
    obtain ⟨rfl, rfl⟩ := Prod.mk.inj (Option.some.inj hrun')
    rw [Machine.length_column, (hcharted.watched hstart).2.length_eq, hframes]
  obtain ⟨d, hd⟩ := Nat.exists_eq_add_of_le h.le
  suffices hall : ∀ d, s + d ≤ n → ∀ x jx, (Machine.start p input room).watched
      (Image.ofProgram p depth) (s + d) = some (x, jx) → m₀.column a <:+ x.column a by
    rw [hd] at hrun
    exact hall d (by omega) m j hrun
  intro d
  induction d with
  | zero =>
    intro _ x jx hx
    obtain ⟨rfl, rfl⟩ := Prod.mk.inj (Option.some.inj (hstart.symm.trans hx))
    exact List.suffix_refl _
  | succ d ih =>
    intro hn x jx hx
    obtain ⟨x₀, jx₀, q, i, hbefore, -, hsound, hnoted, hq, heffect⟩ :=
      hcharted.watched_succ (n := s + d) hx
    obtain ⟨hsuffix, hposition⟩ := h.level hle (by omega) (by omega) hbefore
    obtain ⟨hsuffix', -⟩ := h.level hle (by omega) hn hx
    refine heffect.column hsound (ih (by omega) x₀ jx₀ hbefore) hslot ?_ ?_
    · by_cases hlevel : jx₀.frames = ks
      · obtain ⟨i', hip, hfirst, hlast⟩ := hposition hlevel
        obtain rfl : i' = i := by
          have := hip.symm.trans hsound.ip
          omega
        exact .inl (hstraight i' q hfirst hlast hq)
      · refine .inr ?_
        have hne : ks.length ≠ jx₀.frames.length := fun heq =>
          hlevel (hsuffix.eq_of_length heq).symm
        have := hsuffix.length_le
        refine ⟨?_, hlocal.resolve_right ?_⟩
        · rw [hlength, hnoted.length_eq]
          omega
        · intro hstays
          exact hlevel (hstays (s + d) x₀ jx₀ (by omega) (by omega) hbefore)
    · rw [hlength, (hcharted.watched hx).2.length_eq]
      exact Nat.succ_le_succ hsuffix'.length_le

/-- An expression that calls nothing is evaluated by one activation. -/
theorem Evaluates.stays (h : Evaluates (p.seen depth input room) first last s n ks)
    (hle : first ≤ last) (hplain : ∀ k q, first ≤ k → k ≤ last → p.quads.toList[k]? = some q →
      q.op ≠ .gosub ∧ q.op ≠ .endFunction)
    (hk : s ≤ k) (hk' : k ≤ n)
    (hrun : p.seen depth input room k = some (m, j)) :
    j.frames = ks := by
  induction hk generalizing m j with
  | refl =>
    obtain ⟨m', j', hrun', -, hframes⟩ := h.start
    rw [hrun] at hrun'
    obtain ⟨rfl, rfl⟩ := Prod.mk.inj (Option.some.inj hrun')
    exact hframes
  | step hk ih =>
    obtain ⟨x, jx, q, hbefore, hfetch, -, rfl⟩ := Machine.watched_succ hrun
    have hframes := ih (by omega) hbefore
    obtain ⟨i, hip, hfirst, hlast⟩ := (h.level hle hk (by omega) hbefore).2 hframes
    have hq : p.quads.toList[i]? = some q := by
      rw [hip] at hfetch
      rw [Array.getElem?_toList]
      exact hfetch
    obtain ⟨hgosub, hend⟩ := hplain i q hfirst hlast hq
    rw [Journal.frames_watch hgosub hend]
    exact hframes

/-- What stays reads the same before and after. -/
theorem Evaluates.get? (hcharted : Charted p)
    (h : Evaluates (p.seen depth input room) first last s n j.frames)
    (hle : first ≤ last)
    (hlocal : (∀ ty, ¬ Layout.standard.Holds .locals ty a) ∨
      ∀ k x jx, s ≤ k → k ≤ n →
        p.seen depth input room k = some (x, jx) →
          jx.frames = j.frames)
    (hslot : ∀ ty, ¬ Layout.standard.Holds .stack ty a)
    (hstraight : ∀ k q, first ≤ k → k ≤ last → p.quads.toList[k]? = some q → q.Straight ∧
      ¬ q.Fills a)
    (hstart : p.seen depth input room s = some (m₀, j₀))
    (hrun : p.seen depth input room n = some (m, j)) :
    m.get? a = m₀.get? a := by
  have hsuffix := h.column hcharted hle hlocal hslot hstraight hstart hrun
  obtain ⟨m', j', hrun', -, hframes⟩ := h.start
  rw [hstart] at hrun'
  obtain ⟨rfl, rfl⟩ := Prod.mk.inj (Option.some.inj hrun')
  have hlength : (m₀.column a).length = (m.column a).length := by
    rw [Machine.length_column, Machine.length_column, (hcharted.watched hstart).2.length_eq,
      (hcharted.watched hrun).2.length_eq, hframes]
  rw [Machine.get?_eq_column, Machine.get?_eq_column, hsuffix.eq_of_length hlength]

end

/-! ## Variables of the program -/

/-- The last of some writes to an address, whoever made it. -/
def latest (ws : List Write) (a : Addr) : Option Value :=
  (ws.find? fun w => w.address = a).map (·.value)

theorem latest_append (ws ws' : List Write) (a : Addr) :
    latest (ws ++ ws') a = (latest ws a).or (latest ws' a) := by
  unfold latest
  rw [List.find?_append]
  cases ws.find? fun w => w.address = a <;> rfl

theorem latest_cons (w : Option Nat) (b a : Addr) (v : Value) (ws : List Write) :
    latest (⟨w, b, v⟩ :: ws) a = if b = a then some v else latest ws a := by
  unfold latest
  by_cases hab : b = a
  · simp [hab]
  · simp [hab]

/-- The variables of the program hold what was written to them last. -/
def Machine.Tells (m : Machine) (j : Journal) : Prop :=
  ∀ a ty, Layout.standard.Holds .locals ty a → m.globals[a]? = latest j.writes a

theorem Machine.Tells.wrote (h : m.Tells j) (hwrote : Wrote m m' j.writes j'.writes) :
    m'.Tells j' := by
  intro a ty ha
  generalize j'.writes = ws at hwrote
  cases hwrote with
  | nothing hglobals =>
    rw [hglobals]
    exact h a ty ha
  | cell w v hb _ hglobals =>
    rw [latest_cons, ← h a ty ha]
    rcases hglobals with hglobals | ⟨hcalls, hglobals⟩
    · rw [hglobals, Cells.getElem?_write]
    · rw [hglobals, if_neg]
      rintro rfl
      rw [(Layout.standard_holds_inj hb ha).1] at hcalls
      cases hcalls

/-- Nothing that was written is forgotten. -/
theorem Journal.writes_watch (j : Journal) (q : Quad) (m m' : Machine) :
    j.writes <:+ (j.watch q m m').writes := by
  have hwrite : ∀ (j' : Journal) (w : Option Nat) (a : Addr) (v : Option Value),
      j'.writes = j.writes → j.writes <:+ (j'.write w a v).writes := by
    intro j' w a v hj'
    cases v with
    | none => exact hj' ▸ List.suffix_refl _
    | some v => exact hj' ▸ List.suffix_cons _ _
  unfold Journal.watch
  split
  · exact List.suffix_refl _
  · exact hwrite _ _ _ _ rfl
  · show j.writes <:+ (Journal.enter { j with ended := none } m.ip).writes
    unfold Journal.enter
    split <;> exact List.suffix_refl _
  · unfold Journal.putAside
    split <;> exact List.suffix_refl _
  · exact hwrite _ _ _ _ rfl
  · split
    · split
      · exact hwrite _ _ _ _ rfl
      · exact List.suffix_refl _
    · exact List.suffix_refl _

theorem Machine.writes_watched {im : Image} {start : Machine} {j₀ : Journal} (hle : k ≤ n)
    (hstart : start.watched im k = some (m₀, j₀)) (hrun : start.watched im n = some (m, j)) :
    j₀.writes <:+ j.writes := by
  induction hle generalizing m j with
  | refl =>
    rw [hstart] at hrun
    obtain ⟨rfl, rfl⟩ := Prod.mk.inj (Option.some.inj hrun)
    exact List.suffix_refl _
  | step _ ih =>
    obtain ⟨x, jx, q, hbefore, -, -, rfl⟩ := Machine.watched_succ hrun
    exact (ih hbefore).trans (jx.writes_watch q x m)

section

variable {p : Program} {input : Bytes} {room : Option Nat} {depth : Int} {n : Nat}

/-- In every run the variables of the program hold what was written to them last. -/
theorem Charted.tells (hcharted : Charted p)
    (h : p.seen depth input room n = some (m, j)) : m.Tells j := by
  induction n generalizing m j with
  | zero =>
    obtain ⟨rfl, rfl⟩ := Prod.mk.inj (Option.some.inj h)
    intro a ty ha
    cases hcell : p.consts[a]? with
    | none => exact hcell
    | some v =>
      obtain ⟨ty', ha', -⟩ := hcharted.consts a v hcell
      exact absurd ha' (Layout.not_constant ha (by simp) ty')
  | succ n ih =>
    obtain ⟨m₀, j₀, q, i, hbefore, rfl, hsound, -, hq, heffect⟩ :=
      hcharted.watched_succ h
    exact (ih hbefore).wrote (heffect.wrote hcharted.chart hsound hq
      (hcharted.provided hbefore).keeps j₀)

/-- What a variable of the program holds is what was written to it in between, or what it held
before. -/
theorem Charted.get?_variable (hcharted : Charted p) {j₀ : Journal} {new : List Write}
    (hstart : p.seen depth input room k = some (m₀, j₀))
    (hrun : p.seen depth input room n = some (m, j))
    (hnew : j.writes = new ++ j₀.writes) (ha : Layout.standard.Holds .locals ty a) :
    m.get? a = (latest new a).or (m₀.get? a) := by
  rw [(hcharted.provided hrun).keeps.get? ha rfl, (hcharted.provided hstart).keeps.get? ha rfl,
    hcharted.tells hrun a ty ha, hcharted.tells hstart a ty ha, hnew, latest_append]

end

/-! ## Left operands -/

theorem Execute.load_of_reach? (h : m.reach? x = some a) :
    Execute.load x m = Execute.found a (m.get? a) m := by
  have hload : Execute.load x m = (Execute.address x >>= Execute.cell) m := by
    unfold Machine.reach? at h
    unfold Execute.load
    cases hkind : x.kind <;> simp only [hkind] at h ⊢ <;> cases h
  rw [hload, Success.bind_of_ok (Execute.address_of_reach? h), Execute.cell_eq]

theorem BinaryOp.opcode_inj {op op' : BinaryOp} (h : op.opcode = op'.opcode) : op = op' := by
  cases op <;> cases op' <;> cases h <;> rfl

theorem Quad.Straight.ne_endFunction (h : q.Straight) : q.op ≠ .endFunction := by
  rcases h with ⟨a, hfill⟩ | hop | hop | hop | hop
  · exact ne_endFunction_of_stores hfill.1
  all_goals
    rw [hop]
    simp

theorem Fits.left (h : Fits quads i q) {op : BinaryOp} (hop : q.op = op.opcode) :
    ∃ ty, q.arg1.Denotes quads (owner quads i) ty := by
  cases h with
  | binary hx => exact ⟨_, hx⟩
  | @unary op' => cases op <;> cases op' <;> cases hop
  | _ => cases op <;> cases hop

/-- What an instruction takes a value from names a cell: a pointer to it was found before. -/
theorem Machine.Provided.reached {p : Program} (h : m.Provided p j) (hchart : Chart p.quads.toList)
    (hsound : m.SoundAt p.quads.toList i) (hnoted : m.Noted j) (hq : p.quads.toList[i]? = some q)
    (hx : x ∈ q.sources) {function : Option Addr}
    (hdenotes : x.Denotes p.quads.toList function ty) :
    ∃ a segment, m.reach? x = some a ∧ Layout.standard.Holds segment ty a ∧ segment ≠ .stack ∧
      (x = .cell a ∨ segment ≠ .temps ∧ segment ≠ .globals) := by
  rcases Execute.address_of_denotes hsound.suited hdenotes with
    ⟨a, segment, hreach, -, ha, hstack, -, hres⟩ | ⟨w, herror⟩
  · exact ⟨a, segment, hreach, ha, hstack, hres⟩
  exfalso
  cases hdenotes with
  | @cell _ b _ _ _ =>
    cases herror
  | @pointer segment k base b helement hbase _ =>
    have huse : q.Uses b := .inl ⟨.pointer b, hx, Operand.word_pointer b, .inl rfl⟩
    obtain ⟨v, hget, -⟩ := h.uses hsound hnoted hq huse (hchart.holds_pointer helement)
    obtain ⟨_, _, -, -, hsuits⟩ := hsound.suited.get? hget
    obtain ⟨c, rfl, -⟩ := hsuits k base helement segment ty hbase
    rw [Execute.address_pointer hget] at herror
    cases herror

/-- The code of the right operand fills none of the temporaries that the left one needs. -/
theorem OperationSite.In.unfilled {names : Names} {s : OperationSite} (h : s.In names quads)
    (hchart : Chart quads) (ha : (∀ ty, ¬ Layout.standard.Holds .temps ty a) ∨ s.left.Needs a)
    (hk : s.middle ≤ k) (hq : quads[k]? = some q) : ¬ q.Fills a := by
  intro hfill
  rcases ha with hother | hneeds
  · obtain ⟨-, -, ty, hty⟩ := hfill
    exact hother ty hty
  · obtain ⟨k', q', hk', hq', hfill'⟩ := h.supplied hneeds
    have := hchart.position_of_fills hq hq' hfill hfill'
    omega

/-- At step `n` of a run the operator of an operation is to be applied. The left operand was
complete, and nothing of the right one was done, at step `k`. -/
structure OperationSite.Applied (run : Nat → Option (Machine × Journal)) (s : OperationSite)
    (k n : Nat) (m₀ m : Machine) (j₀ j : Journal) : Prop where
  before : run k = some (m₀, j₀)
  now : run n = some (m, j)
  position : m.ip = s.position
  evaluates : Evaluates run s.middle s.position k n j.frames

section

variable {text : Bytes} {p : Program} {t : Source.Tree} {input : Bytes} {room : Option Nat}
  {depth : Int} {n k : Nat} {names : Names} {s : OperationSite} {m₀ : Machine} {j₀ : Journal}

/-- Whenever an operator is applied, its operation and the time when its left operand was complete
are known. -/
theorem compile_applied (h : compile text = .ok p) (hread : t.ReadFrom text)
    (hrun : p.seen depth input room n = some (m, j))
    (hfetch : (Image.ofProgram p depth).fetch? m.ip = some q) {op : BinaryOp}
    (hop : q.op = op.opcode) :
    ∃ (s : OperationSite) (names : Names) (k : Nat) (m₀ : Machine) (j₀ : Journal),
      s.operation ∈ t.operations ∧ s.operation.op = op ∧ q.arg1 = s.left ∧
        s.In names p.quads.toList ∧
        s.Applied ((Machine.start p input room).watched (Image.ofProgram p depth)) k n m₀ m
          j₀ j := by
  have hcharted := compile_charted h
  obtain ⟨⟨i, hsound⟩, -⟩ := hcharted.watched hrun
  have hq : p.quads.toList[i]? = some q := by
    rw [hsound.ip] at hfetch
    rw [Array.getElem?_toList]
    exact hfetch
  obtain ⟨s, names, hs, hin, rfl⟩ := compile_site h hread hq hop
  obtain ⟨b, -, hquad⟩ := hin.quad
  obtain rfl := Option.some.inj (hq.symm.trans hquad)
  have hclear : ∀ k, s.middle < k → k ≤ s.position → ¬ Clear p.quads.toList k :=
    fun k hk hk' => (hin.engaged hk hk').not_clear hcharted.chart
  obtain ⟨k, hevaluates⟩ :=
    (hcharted.evaluating hclear hrun).now s.position hsound.ip hin.middle_le (Nat.le_refl _)
  obtain ⟨m₀, j₀, hstart, -, -⟩ := hevaluates.start
  exact ⟨s, names, k, m₀, j₀, hs, BinaryOp.opcode_inj hop, rfl, hin, hstart, hrun, hsound.ip,
    hevaluates⟩

section

variable (hcharted : Charted p) (hin : s.In names p.quads.toList)
  (h : s.Applied (p.seen depth input room) k n m₀ m j₀ j)

include hcharted hin h

/-- What the right operand leaves: every cell but return slots, temporaries of its own and, if it
calls something, the variables of the program. -/
theorem OperationSite.Applied.get? (hslot : ∀ ty, ¬ Layout.standard.Holds .stack ty a)
    (hlocal : (∀ ty, ¬ Layout.standard.Holds .locals ty a) ∨ s.operation.right.calls = [])
    (htemps : (∀ ty, ¬ Layout.standard.Holds .temps ty a) ∨ s.left.Needs a) :
    m.get? a = m₀.get? a := by
  refine h.evaluates.get? hcharted hin.middle_le ?_ hslot ?_ h.before h.now
  · refine hlocal.imp_right ?_
    intro hcalls k' x jx hk hk' hx
    refine h.evaluates.stays hin.middle_le ?_ hk hk' hx
    intro i q hi hi' hq
    exact ⟨hin.calls hcalls hi hi' hq, (hin.straight hi hi' hq).ne_endFunction⟩
  · intro i q hi hi' hq
    exact ⟨hin.straight hi hi' hq, hin.unfilled hcharted.chart htemps hi hq⟩

/-- The left operand names the same cell before the right operand is worked out and when the
operator is applied. -/
theorem OperationSite.Applied.reached :
    ∃ a, m₀.reach? s.left = some a ∧ m.reach? s.left = some a ∧
      (∀ ty, ¬ Layout.standard.Holds .stack ty a) ∧
      ((∀ ty, ¬ Layout.standard.Holds .temps ty a) ∨ s.left.Needs a) := by
  obtain ⟨⟨i, hsound⟩, hnoted⟩ := hcharted.watched h.now
  obtain rfl : i = s.position := Int.ofNat.inj (hsound.ip.symm.trans h.position)
  obtain ⟨b, -, hquad⟩ := hin.quad
  have hsource : s.left ∈ (s.operation.quad s.left s.right b).sources := by
    unfold Source.Operation.quad
    rw [BinaryOp.sources_opcode]
    simp
  have hfits := hcharted.chart.fits s.position _ hsound.first hquad
  obtain ⟨ty, hdenotes⟩ := hfits.left rfl
  obtain ⟨a, segment, hreach, ha, hstack, hres⟩ :=
    (hcharted.provided h.now).reached hcharted.chart hsound hnoted hquad hsource hdenotes
  refine ⟨a, ?_, hreach, fun ty' ha' => hstack (Layout.standard_holds_inj ha ha').1, ?_⟩
  · rw [← hreach]
    refine Machine.reach?_congr ?_
    intro hkind
    have htemp : Layout.standard.Holds .temps .int s.left.word :=
      hfits.pointer hcharted.chart (List.mem_append_left _ hsource) hkind
    refine (h.get? hcharted hin ?_ (.inl ?_) (.inr ⟨rfl, .inl hkind⟩)).symm
    · exact fun ty' ha' => absurd (Layout.standard_holds_inj htemp ha').1 (by simp)
    · exact fun ty' ha' => absurd (Layout.standard_holds_inj htemp ha').1 (by simp)
  · by_cases htemps : segment = .temps
    · subst htemps
      rcases hres with hcell | ⟨hne, -⟩
      · exact .inr ⟨by rw [hcell, Operand.word_cell], .inr ⟨by rw [hcell]; rfl, ty, ha⟩⟩
      · exact absurd rfl hne
    · exact .inl fun ty' ha' => htemps (Layout.standard_holds_inj ha ha').1

end

end

/-- Whenever an operator is applied in a run of a compiled program, its left operand names the cell
that it named when it was complete and nothing of the right operand was done. The value is the one
that the cell had then, unless the cell belongs to a variable of the program and was written since:
then it is the value that was written last. Without a call in the right operand nothing is. -/
theorem left_operand_taken {text : Bytes} {p : Program} (h : compile text = .ok p) {t : Source.Tree}
    (hread : t.ReadFrom text) {input : Bytes} {room : Option Nat} {depth : Int} {n : Nat}
    (hrun : (Machine.start p input room).watched (Image.ofProgram p depth) n = some (m, j))
    (hfetch : (Image.ofProgram p depth).fetch? m.ip = some q) {op : BinaryOp}
    (hop : q.op = op.opcode) :
    ∃ (s : OperationSite) (names : Names) (k : Nat) (m₀ : Machine) (j₀ : Journal) (a : Addr)
      (new : List Write), s.operation ∈ t.operations ∧ s.operation.op = op ∧ q.arg1 = s.left ∧
        s.In names p.quads.toList ∧
        s.Applied ((Machine.start p input room).watched (Image.ofProgram p depth)) k n m₀ m j₀ j ∧
        m₀.reach? s.left = some a ∧ Execute.load s.left m₀ = Execute.found a (m₀.get? a) m₀ ∧
        m.reach? s.left = some a ∧ Execute.load s.left m.advance = Execute.found a (m.get? a)
          m.advance ∧
        j.writes = new ++ j₀.writes ∧
        ((∀ ty, ¬ Layout.standard.Holds .locals ty a) → m.get? a = m₀.get? a) ∧
        (∀ ty, Layout.standard.Holds .locals ty a → m.get? a = (latest new a).or (m₀.get? a)) ∧
        (s.operation.right.calls = [] → m.get? a = m₀.get? a) := by
  have hcharted := compile_charted h
  obtain ⟨s, names, k, m₀, j₀, hs, hop, harg, hin, happlied⟩ :=
    compile_applied h hread hrun hfetch hop
  obtain ⟨a, hreach₀, hreach, hslot, htemps⟩ := happlied.reached hcharted hin
  obtain ⟨new, hnew⟩ := Machine.writes_watched happlied.evaluates.le happlied.before hrun
  refine ⟨s, names, k, m₀, j₀, a, new, hs, hop, harg, hin, happlied, hreach₀,
    Execute.load_of_reach? hreach₀, hreach, Execute.load_of_reach? (m := m.advance) hreach,
    hnew.symm, ?_, ?_, ?_⟩
  · intro hlocal
    exact happlied.get? hcharted hin hslot (.inl hlocal) htemps
  · intro ty ha
    exact hcharted.get?_variable happlied.before hrun hnew.symm ha
  · intro hcalls
    exact happlied.get? hcharted hin hslot (.inr hcalls) htemps

/-- A sum of a product with a variable and a call that assigns the variable. -/
def steady : Bytes :=
  ascii "program steady; int g; func int f() \x7b g = 5; return 1; \x7d " ++
    ascii "main \x7b g = 1; write(g * 2 + f()); \x7d"

/-- The product was worked out before the call and stays what it was. -/
theorem steady_takes_product : ∃ p t m j, compile steady = .ok p ∧ Source.Tree.ReadFrom t steady ∧
    (Machine.start p [] none).watched (Image.ofProgram p 0) 8 = some (m, j) ∧
    ∃ (s : OperationSite) (k : Nat) (m₀ : Machine) (j₀ : Journal), s.operation ∈ t.operations ∧
      s.operation.op = .arith .sum ∧
      s.Applied ((Machine.start p [] none).watched (Image.ofProgram p 0)) k 8 m₀ m j₀ j ∧
      Execute.load s.left m₀ = .ok (.int 2) m₀ ∧
      Execute.load s.left m.advance = .ok (.int 2) m.advance := by
  obtain ⟨p, m, j, hcompile, hrun, hcheck⟩ := @exists_watched steady 8
    (fun p m _ => (Image.ofProgram p 0).fetch? m.ip =
        some { op := .arith .sum, arg1 := .cell 90000, arg2 := .cell 90001, res := .cell 90002 } ∧
      m.get? 90000 = some (.int 2))
    (by decide +kernel)
  obtain ⟨hfetch, hvalue⟩ := of_decide_eq_true hcheck
  obtain ⟨-, t, -, -, hread⟩ := compile_spelled hcompile
  have hsum : Opcode.arith .sum = (BinaryOp.arith .sum).opcode := rfl
  obtain ⟨s, -, k, m₀, j₀, a, -, hs, hop, hleft, -, happlied, -, hbefore, hreach, -, -, hkept, -⟩ :=
    left_operand_taken hcompile hread hrun hfetch hsum
  have hcell : Operand.cell 90000 = s.left := hleft
  rw [← hcell, reach?_cell] at hreach
  obtain rfl := Option.some.inj hreach
  have htemp : Layout.standard.Holds .temps .int 90000 := by decide
  have hbefore' : m₀.get? 90000 = some (.int 2) := by
    rw [← hkept fun ty ha => absurd (Layout.standard_holds_inj htemp ha).1 (by simp), hvalue]
  refine ⟨p, t, m, j, hcompile, hread, hrun, s, k, m₀, j₀, hs, hop, happlied, ?_, ?_⟩
  · rw [hbefore, hbefore']
    rfl
  · rw [← hcell, Execute.load_cell]
    exact Execute.cell_of_get? hvalue

/-- A sum of a variable and a call that assigns the variable. -/
def clobber : Bytes :=
  ascii "program clobber; int g; func int f() \x7b g = 5; return 1; \x7d " ++
    ascii "main \x7b g = 1; write(g + f()); \x7d"

def clobberTree : Source.Tree where
  name := ascii "clobber"
  parts := [.declaration ⟨ascii "int", [⟨ascii "g", []⟩]⟩,
    .function ⟨ascii "int", ascii "f", [], [],
      [.assign ⟨ascii "g", [], []⟩ (.constant .int (.int 5)),
      .ret (some (.constant .int (.int 1)))]⟩]
  main := ⟨[], [.assign ⟨ascii "g", [], []⟩ (.constant .int (.int 1)),
    .write [.binary (.arith .sum) (.reference (ascii "g") [] []) (.call (ascii "f") [])]]⟩

theorem clobberTree_readFrom : clobberTree.ReadFrom clobber :=
  Source.Tree.readFrom_of_scan (by decide +kernel)

/-- The variable had the value one when it was complete as the left operand of the sum, and the sum
takes the value five that the call in the right operand assigned to it. -/
theorem clobber_takes_assigned : ∃ p m j, compile clobber = .ok p ∧ clobberTree.ReadFrom clobber ∧
    (Machine.start p [] none).watched (Image.ofProgram p 0) 7 = some (m, j) ∧
    ∃ (s : OperationSite) (names : Names) (k : Nat) (m₀ : Machine) (j₀ : Journal),
      s.operation ∈ clobberTree.operations ∧ s.operation.op = .arith .sum ∧
        s.In names p.quads.toList ∧
      s.Applied ((Machine.start p [] none).watched (Image.ofProgram p 0)) k 7 m₀ m j₀ j ∧
      Execute.load s.left m₀ = .ok (.int 1) m₀ ∧
      Execute.load s.left m.advance = .ok (.int 5) m.advance := by
  obtain ⟨p, hcompile, hcheck⟩ := @exists_image clobber
    (fun p im => (((Machine.start p [] none).watched im 7).any fun s =>
        im.fetch? s.1.ip =
          some { op := .arith .sum, arg1 := .cell 30000, arg2 := .cell 90000, res := .cell 90001 } ∧
        s.1.ip = 8 ∧ s.1.get? 30000 = some (.int 5)) &&
      (List.range 8).all fun k => ((Machine.start p [] none).watched im k).all fun s =>
        s.1.ip = 5 → s.1.get? 30000 = some (.int 1))
    (by decide +kernel)
  obtain ⟨hlast, hall⟩ := Bool.and_eq_true_iff.1 hcheck
  obtain ⟨⟨m, j⟩, hrun, hsum⟩ := (Option.any_eq_true _ _).1 hlast
  obtain ⟨hfetch, hip, hvalue⟩ := of_decide_eq_true hsum
  have hsum : Opcode.arith .sum = (BinaryOp.arith .sum).opcode := rfl
  obtain ⟨s, names, k, m₀, j₀, hs, hop, hleft, hin, happlied⟩ :=
    compile_applied hcompile clobberTree_readFrom hrun hfetch hsum
  have hcell : Operand.cell 30000 = s.left := hleft
  refine ⟨p, m, j, hcompile, clobberTree_readFrom, hrun, s, names, k, m₀, j₀, hs, hop, hin,
    happlied, ?_, ?_⟩
  · -- The code of the call is three instructions long, so its first one is at position 5.
    obtain ⟨code, ⟨_, _, _, _, _, _, -, -, hcode, -⟩, -, hlength⟩ := hin.right
    have hright : s.operation.right = .call (ascii "f") [] := by
      rcases List.mem_cons.1 hs with heq | hnone
      · rw [heq]
      · cases hnone
    rw [hright] at hcode
    obtain ⟨x, jx, hx, hfirst, -⟩ := happlied.evaluates.start
    rw [happlied.before] at hx
    obtain ⟨rfl, rfl⟩ := Prod.mk.inj (Option.some.inj hx)
    have hk := happlied.evaluates.le
    have hmoment := List.all_eq_true.1 hall k (by simp; omega)
    rw [happlied.before] at hmoment
    have hposition : (8 : Int) = s.position := hip.symm.trans happlied.position
    cases hcode with
    | @call _ _ f _ _ _ _ _ _ hargs _ _ =>
      generalize names.params f = params at hargs
      cases hargs with
      | nil =>
        have hmiddle : s.middle = 5 := by
          simp at hlength
          omega
        rw [← hcell, Execute.load_cell]
        refine Execute.cell_of_get? (of_decide_eq_true hmoment ?_)
        rw [hfirst, hmiddle]
        rfl
  · rw [← hcell, Execute.load_cell]
    exact Execute.cell_of_get? (m := m.advance) hvalue

end Quadlang
