-- The stack of indices while an expression is evaluated: what was on it before stays at its bottom,
-- whatever is called on the way, and once the value is there nothing else is left on it.
import Quadlang.Proofs.Machine.Operations

namespace Quadlang

variable {quads : List Quad} {i : Nat} {m m' x : Machine} {j jx : Journal} {q : Quad}

/-! ## Trails -/

/-- Where a machine is and where its calls return to, the innermost first. -/
def Machine.trail (m : Machine) : List Int := m.ip :: m.frames.map (·.returnTo)

/-- How many indices are under way at some positions. -/
def reserved (quads : List Quad) : List Int → Nat
  | [] => 0
  | i :: is => (standing quads i.toNat).dims.length + reserved quads is

theorem reserved_map_returnTo (frames : List Frame) :
    reserved quads (frames.map (·.returnTo)) = waiting quads (·.dims.length) frames := by
  induction frames with
  | nil => rfl
  | cons f frames ih => rw [List.map_cons, reserved, ih, waiting_cons]

/-- The indices of a machine are those under way on its trail. -/
theorem Machine.SoundAt.reserved (h : m.SoundAt quads i) :
    m.indices.length = reserved quads m.trail := by
  have hposition : m.ip.toNat = i := by
    rw [h.ip]
    rfl
  rw [h.lengths.2, Machine.trail, Quadlang.reserved, reserved_map_returnTo, hposition]

theorem reserved_le_of_suffix (quads : List Quad) {is is' : List Int} (h : is <:+ is') :
    reserved quads is ≤ reserved quads is' := by
  induction is' with
  | nil =>
    obtain rfl := List.suffix_nil.1 h
    exact Nat.le_refl _
  | cons i' is' ih =>
    rcases List.suffix_cons_iff.1 h with rfl | hrest
    · exact Nat.le_refl _
    · exact Nat.le_trans (ih hrest) (Nat.le_add_left ..)

@[simp]
theorem Machine.length_trail (m : Machine) : m.trail.length = m.frames.length + 1 := by
  simp [Machine.trail]

theorem Machine.trail_setCurrent (m : Machine) (a : Addr) (v : Value) :
    (m.setCurrent a v).trail = m.trail := by
  unfold Machine.trail
  rw [Machine.ip_setCurrent, Machine.map_returnTo_setCurrent]

/-- An instruction moves within the innermost call, or enters a function, or leaves one. -/
theorem Effect.trail (heffect : Effect quads i m q m') (hip : m.ip = i) :
    (∃ i', m'.trail = i' :: m.frames.map (·.returnTo)) ∨
      (q.op = .gosub ∧ ∃ i', m'.trail = i' :: ((i + 1 : Nat) : Int) :: m.frames.map (·.returnTo)) ∨
      m'.trail = m.frames.map (·.returnTo) := by
  cases heffect with
  | store =>
    refine .inl ⟨_, congrArg (List.cons _) ?_⟩
    exact Machine.map_returnTo_put ..
  | read =>
    refine .inl ⟨_, congrArg (List.cons _) ?_⟩
    exact Machine.map_returnTo_put ..
  | @gosub f r rest _ _ _ _ _ =>
    refine .inr (.inl ⟨rfl, f.target, ?_⟩)
    show _ :: (m.ip + 1) :: _ = _
    rw [hip]
    rfl
  | ret hframes =>
    refine .inl ⟨_, congrArg (List.cons _) ?_⟩
    rw [hframes]
    rfl
  | @leave f r rest _ hframes _ =>
    refine .inr (.inr ?_)
    rw [hframes]
    cases r.staged with
    | none => rfl
    | some v =>
      show (Machine.setCurrent _ _ v).trail = _
      rw [Machine.trail_setCurrent]
      rfl
  | element =>
    refine .inl ⟨_, congrArg (List.cons _) ?_⟩
    exact Machine.map_returnTo_put ..
  | _ => exact .inl ⟨_, rfl⟩

section

variable {p : Program} {input : Bytes} {room : Option Nat} {depth : Int} {first last s n : Nat}
  {ks : List Nat} {m₀ : Machine} {j₀ : Journal}

theorem Evaluates.started {run : Nat → Option (Machine × Journal)}
    (h : Evaluates run first last s n ks)
    (hstart : run s = some (m₀, j₀)) : m₀.ip = first ∧ j₀.frames = ks := by
  obtain ⟨m', j', hrun', hip, hframes⟩ := h.start
  rw [hstart] at hrun'
  obtain ⟨rfl, rfl⟩ := Prod.mk.inj (Option.some.inj hrun')
  exact ⟨hip, hframes⟩

/-- While an expression is evaluated, the calls that were under way before it return to where they
did, and the activation that evaluates it is between the two positions, or returns there. -/
theorem Evaluates.trail (hcharted : Charted p)
    (h : Evaluates (p.seen depth input room) first last s n ks)
    (hle : first ≤ last) (hlast : ∀ q, p.quads.toList[last]? = some q → q.op ≠ .gosub)
    (hstart : p.seen depth input room s = some (m₀, j₀))
    {k : Nat} (hk : s ≤ k) (hk' : k ≤ n)
    (hrun : p.seen depth input room k = some (x, jx)) :
    ∃ a : Nat, first ≤ a ∧ a ≤ last ∧ ((a : Int) :: m₀.frames.map (·.returnTo)) <:+ x.trail := by
  obtain ⟨hfirst, hks⟩ := h.started hstart
  have hbottom : (m₀.frames.map (·.returnTo)).length = ks.length := by
    rw [List.length_map, (hcharted.watched hstart).2.length_eq, hks]
  induction hk generalizing x jx with
  | refl =>
    rw [hstart] at hrun
    obtain ⟨rfl, rfl⟩ := Prod.mk.inj (Option.some.inj hrun)
    refine ⟨first, Nat.le_refl _, hle, ?_⟩
    rw [← hfirst]
    exact List.suffix_refl _
  | @step k hk ih =>
    obtain ⟨y, jy, q, i, hbefore, -, hsound, -, hq, heffect⟩ :=
      hcharted.watched_succ hrun
    obtain ⟨a, hlow, hhigh, hsuffix⟩ := ih (by omega) hbefore
    obtain ⟨hunder, hposition⟩ := h.level hle (Nat.le_succ_of_le hk) hk' hrun
    have hnoted := (hcharted.watched hrun).2.length_eq
    have hlength := hunder.length_le
    rcases heffect.trail hsound.ip with ⟨i', hmoved⟩ | ⟨hop, i', hentered⟩ | hleft
    · rcases List.suffix_cons_iff.1 hsuffix with hown | hbelow
      · obtain ⟨-, hrest⟩ := List.cons.inj hown
        rw [← hrest] at hmoved
        have hinner : jx.frames = ks := by
          refine (hunder.eq_of_length ?_).symm
          have := congrArg List.length hmoved
          rw [Machine.length_trail, List.length_cons, hbottom] at this
          omega
        obtain ⟨b, hb, hlow', hhigh'⟩ := hposition hinner
        refine ⟨b, hlow', hhigh', ?_⟩
        obtain rfl : i' = b := (List.cons.inj hmoved).1.symm.trans hb
        exact hmoved ▸ List.suffix_refl _
      · refine ⟨a, hlow, hhigh, ?_⟩
        rw [hmoved]
        exact hbelow.trans (List.suffix_cons ..)
    · rcases List.suffix_cons_iff.1 hsuffix with hown | hbelow
      · obtain ⟨ha, hrest⟩ := List.cons.inj hown
        obtain rfl : a = i := Int.ofNat.inj (ha.trans hsound.ip)
        have hne : a ≠ last := by
          rintro rfl
          exact hlast q hq hop
        refine ⟨a + 1, by omega, by omega, ?_⟩
        rw [hentered, hrest]
        exact List.suffix_cons ..
      · refine ⟨a, hlow, hhigh, ?_⟩
        rw [hentered]
        exact (hbelow.trans (List.suffix_cons ..)).trans (List.suffix_cons ..)
    · rcases List.suffix_cons_iff.1 hsuffix with hown | hbelow
      · have := congrArg List.length hown
        rw [← hleft, List.length_cons, hbottom, List.length_cons, Machine.length_trail] at this
        omega
      · refine ⟨a, hlow, hhigh, ?_⟩
        rw [hleft]
        exact hbelow

/-! ## Stacks -/

/-- An instruction puts an index on the stack or takes some from it, and leaves the others. -/
theorem Effect.indices (heffect : Effect quads i m q m') {is : List Index} (h : is <:+ m.indices)
    (hlength : is.length ≤ m'.indices.length) : is <:+ m'.indices := by
  cases heffect with
  | store =>
    rw [Machine.indices_put]
    exact h
  | read =>
    rw [Machine.indices_put]
    exact h
  | @leave f r rest _ _ _ =>
    cases r.staged with
    | none => exact h
    | some v =>
      show is <:+ (Machine.setCurrent _ _ v).indices
      rw [Machine.indices_setCurrent]
      exact h
  | check => exact h.trans (List.suffix_cons ..)
  | @element n _ _ _ _ _ _ =>
    rw [Machine.indices_put] at hlength ⊢
    exact List.suffix_of_suffix_length_le h (List.drop_suffix ..) hlength
  | _ => exact h

section

variable (hcharted : Charted p) (h : Evaluates (p.seen depth input room) first last s n ks)
  (hle : first ≤ last) (hlast : ∀ q, p.quads.toList[last]? = some q → q.op ≠ .gosub)
  (habides : ∀ i, first ≤ i → i ≤ last →
    (standing p.quads.toList first).dims <:+ (standing p.quads.toList i).dims)

include hcharted h hle hlast habides

/-- While an expression is evaluated, the indices that were on the stack before stay at its
bottom, if all that is found on the way was put there on the way. -/
theorem Evaluates.indices (hstart : p.seen depth input room s = some (m₀, j₀))
    {k : Nat} (hk : s ≤ k) (hk' : k ≤ n)
    (hrun : p.seen depth input room k = some (x, jx)) :
    m₀.indices <:+ x.indices := by
  have henough : ∀ {k : Nat} {y : Machine} {jy : Journal}, s ≤ k → k ≤ n →
      p.seen depth input room k = some (y, jy) →
      m₀.indices.length ≤ y.indices.length := by
    intro k y jy hk hk' hrun
    obtain ⟨a, hlow, hhigh, hsuffix⟩ := h.trail hcharted hle hlast hstart hk hk' hrun
    obtain ⟨⟨i₀, hsound₀⟩, -⟩ := hcharted.watched hstart
    obtain ⟨⟨i, hsound⟩, -⟩ := hcharted.watched hrun
    have hbottom := reserved_le_of_suffix p.quads.toList hsuffix
    have hdims := (habides a hlow hhigh).length_le
    rw [hsound₀.reserved, hsound.reserved]
    refine Nat.le_trans ?_ hbottom
    rw [Machine.trail, (h.started hstart).1]
    exact Nat.add_le_add_right hdims _
  induction hk generalizing x jx with
  | refl =>
    rw [hstart] at hrun
    obtain ⟨rfl, rfl⟩ := Prod.mk.inj (Option.some.inj hrun)
    exact List.suffix_refl _
  | @step k hk ih =>
    obtain ⟨y, jy, q, i, hbefore, -, hsound, -, -, heffect⟩ :=
      hcharted.watched_succ hrun
    exact heffect.indices (ih (by omega) hbefore) (henough (Nat.le_succ_of_le hk) hk' hrun)

/-- Once an expression is evaluated, the stack of indices is as it was before. -/
theorem Evaluates.indices_eq
    (hstanding : standing p.quads.toList last = standing p.quads.toList first)
    (hstart : p.seen depth input room s = some (m₀, j₀))
    (hrun : p.seen depth input room n = some (m, j))
    (hip : m.ip = last) (hframes : j.frames = ks) : m.indices = m₀.indices := by
  obtain ⟨a, -, -, hsuffix⟩ := h.trail hcharted hle hlast hstart h.le (Nat.le_refl _) hrun
  obtain ⟨⟨i₀, hsound₀⟩, hnoted₀⟩ := hcharted.watched hstart
  obtain ⟨⟨i, hsound⟩, hnoted⟩ := hcharted.watched hrun
  obtain ⟨hfirst, hks⟩ := h.started hstart
  have htrail : ((a : Int) :: m₀.frames.map (·.returnTo)) = m.trail := by
    refine hsuffix.eq_of_length ?_
    rw [List.length_cons, List.length_map, Machine.length_trail, hnoted₀.length_eq,
      hnoted.length_eq, hks, hframes]
  obtain ⟨-, hrest⟩ := List.cons.inj htrail
  have hlength : m₀.indices.length = m.indices.length := by
    rw [hsound₀.reserved, hsound.reserved, Machine.trail, Machine.trail, ← hrest, hfirst, hip]
    show (standing _ first).dims.length + _ = (standing _ last).dims.length + _
    rw [hstanding]
  have hbottom := h.indices hcharted hle hlast habides hstart h.le (Nat.le_refl _) hrun
  exact (hbottom.eq_of_length hlength).symm

end

end

end Quadlang
