-- Elements of arrays in a run. The indices of an access are checked one after the other, and the
-- first one out of range ends the run. Once all of them are checked, the machine finds the element
-- in row-major order, inside of the array, and the stack of indices is as it was before the access.
import Quadlang.Proofs.Machine.Evaluation
import Quadlang.Proofs.Machine.Indices
import Quadlang.Proofs.Program.Elements

namespace Quadlang

variable {k n : Nat} {start : Machine}

variable {quads : List Quad} {im : Image} {i : Nat} {m m' m₀ : Machine} {j j' j₀ : Journal}
  {q : Quad} {a : Addr}

/-! ## Runs that fail -/

theorem Image.isDone_of_fetch? (h : im.fetch? m.ip = some q) : m.isDone im = false := by
  refine decide_eq_false ?_
  cases hip : m.ip with
  | ofNat i =>
    rw [hip] at h
    obtain ⟨hlt, -⟩ := Array.getElem?_eq_some_iff.1 h
    exact Int.not_le.2 (Int.ofNat_lt.2 hlt)
  | negSucc i =>
    rw [hip] at h
    cases h

section

variable (h : start.watched im n = some (m, j))

include h

theorem Machine.run_watched (k : Nat) : start.run im (n + k) = m.run im k := by
  induction n generalizing m j k with
  | zero =>
    obtain ⟨rfl, -⟩ := Prod.mk.inj (Option.some.inj h)
    rw [Nat.zero_add]
  | succ n ih =>
    obtain ⟨x, jx, q, hbefore, hfetch, hstep, -⟩ := Machine.watched_succ h
    rw [Nat.add_right_comm, Nat.add_assoc, ih hbefore (k + 1), Machine.run,
      Image.isDone_of_fetch? hfetch]
    simp only [hstep, Bool.false_eq_true, if_false]

theorem Machine.step_of_watched (h' : start.watched im (n + 1) = some (m', j')) :
    ∃ q, im.fetch? m.ip = some q ∧ m.step im = (none, m') := by
  obtain ⟨x, jx, q, hx, hfetch, hstep, -⟩ := Machine.watched_succ h'
  rw [h] at hx
  obtain ⟨rfl, rfl⟩ := Prod.mk.inj (Option.some.inj hx)
  exact ⟨q, hfetch, hstep⟩

/-- A run ends with the first instruction that fails. -/
theorem Machine.run_of_stop {limit : Nat}
    (hfetch : im.fetch? m.ip = some q) {o : Outcome} (hstep : m.step im = (some o, m'))
    (hlimit : n < limit) : start.run im limit = (o, m') := by
  obtain ⟨k, rfl⟩ := Nat.exists_eq_add_of_lt hlimit
  rw [Nat.add_assoc, Machine.run_watched h, Machine.run, Image.isDone_of_fetch? hfetch]
  simp only [hstep, Bool.false_eq_true, if_false]

end

/-! ## Checks -/

theorem not_inRange_iff {size v : Int64} : ¬ InRange size v ↔ v < 0 ∨ size ≤ v := by
  have hzero : (0 : Int64).toInt = 0 := rfl
  unfold InRange
  rw [Int64.lt_iff_toInt_lt, Int64.le_iff_toInt_le]
  omega

section

variable {d : Dim} {x : Operand} {v : Int64}

section

variable (hfetch : im.fetch? m.ip = some (d.check x))
  (hload : Execute.load x m.advance = .ok (.int v) m.advance)

include hfetch hload

/-- An index that the size allows is put on the stack. -/
theorem Machine.step_check (hv : InRange d.size v) :
    m.step im = (none, { m.advance with indices := ⟨v, d.stride⟩ :: m.indices }) := by
  refine Machine.step_of_ok hfetch ?_
  rw [Execute.exec_check_eq im d hload, if_neg fun h => not_inRange_iff.2 h hv]
  rfl

/-- Any other index ends the run. -/
theorem Machine.step_check_outOfBounds (hv : ¬ InRange d.size v) :
    m.step im = (some (.failed m.ip .ver (.outOfBounds v d.size)), m.advance) := by
  refine Machine.step_of_error hfetch ?_
  rw [Execute.exec_check_eq im d hload, if_pos (not_inRange_iff.1 hv)]

end

theorem Machine.step_check_unread (hfetch : im.fetch? m.ip = some (d.check x)) {e : RunFault}
    (hload : Execute.load x m.advance = .error e m.advance) :
    m.step im = (some (.failed m.ip .ver e), m.advance) :=
  Machine.step_of_error hfetch (Success.bind_of_error hload)

theorem Fits.checked (h : Fits quads i q) (hop : q.op = .ver) :
    q.arg1.Denotes quads (owner quads i) .int := by
  cases h with
  | check hx => exact hx
  | @binary op => cases op <;> cases hop
  | @unary op => cases op <;> cases hop
  | _ => cases hop

/-- The operand of a check holds an integer, unless it was not written yet. -/
theorem load_of_check (hchart : Chart quads) (hsound : m.SoundAt quads i)
    (hq : quads[i]? = some (d.check x)) :
    (∃ v, Execute.load x m.advance = .ok (.int v) m.advance) ∨
      ∃ e, Execute.load x m.advance = .error e m.advance ∧ e.category = some .uninitialized := by
  have hx : x.Denotes quads (owner quads i) .int := (hchart.fits i _ hsound.first hq).checked rfl
  rcases Execute.load_of_denotes hsound.suited.advance hx with ⟨b, v, -, -, hload, hv⟩ | hunread
  · cases v with
    | int v => exact .inl ⟨v, hload⟩
    | _ => cases hv
  · exact .inr hunread

/-- A check that succeeds found an index that the size allows. -/
theorem Machine.checked_of_step (hchart : Chart quads) (hsound : m.SoundAt quads i)
    (hq : quads[i]? = some (d.check x)) (hfetch : im.fetch? m.ip = some (d.check x))
    (hstep : m.step im = (none, m')) :
    ∃ v, Execute.load x m.advance = .ok (.int v) m.advance ∧ InRange d.size v := by
  rcases load_of_check hchart hsound hq with ⟨v, hload⟩ | ⟨e, hload, -⟩
  · refine ⟨v, hload, ?_⟩
    by_contra hv
    rw [Machine.step_check_outOfBounds hfetch hload hv] at hstep
    cases hstep
  · rw [Machine.step_check_unread hfetch hload] at hstep
    cases hstep

end

/-! ## Coming behind a check -/

/-- Behind a check comes only who executed the check: nothing jumps there, and no call returns
there. -/
theorem Effect.arrives (heffect : Effect quads i m q m') (hsound : m.SoundAt quads i) {i' : Nat}
    (hip : m'.ip = (i' + 1 : Nat)) (hclear : ¬ Clear quads (i' + 1))
    (hgosub : ∀ f : Callee, quads[i']? ≠ some f.gosub) :
    i' = i ∧ q.op ≠ .gosub ∧ q.op ≠ .endFunction := by
  have hnext : m'.ip = m.advance.ip → i' = i := by
    intro hsame
    rw [hip, hsound.ip_next] at hsame
    have := Int.ofNat.inj hsame
    omega
  have hlands : ∀ {target : Nat}, m'.ip = target → ¬ Clear quads target := by
    intro target htarget
    rw [hip] at htarget
    rw [← Int.ofNat.inj htarget]
    exact hclear
  cases heffect with
  | store hop _ _ _ _ _ _ _ =>
    refine ⟨hnext (by simp), ?_, ne_endFunction_of_stores hop⟩
    intro h
    rw [h] at hop
    cases hop
  | read => exact ⟨hnext (by simp), by simp [readQuad], by simp [readQuad]⟩
  | write => exact ⟨hnext rfl, by simp [writeQuad], by simp [writeQuad]⟩
  | jump _ hlanding => exact absurd hlanding.toClear (hlands rfl)
  | pass => exact ⟨hnext rfl, by simp [skipQuad], by simp [skipQuad]⟩
  | era => exact ⟨hnext rfl, by simp [Callee.era], by simp [Callee.era]⟩
  | param => exact ⟨hnext rfl, by simp [Param.bind], by simp [Param.bind]⟩
  | gosub _ _ _ hentry => exact absurd hentry.toClear (hlands rfl)
  | ret _ _ _ hlanding => exact absurd hlanding.toClear (hlands rfl)
  | @leave f r rest _ hframes _ =>
    exfalso
    obtain ⟨_, _, _, _, -, -, -, -, hreturns⟩ := hsound.stack
    rw [hframes] at hreturns
    generalize owner quads i = o at hreturns
    cases hreturns with
    | @call _ _ _ _ _ _ position g hreturn _ hcall _ _ _ _ =>
      have hposition : (position : Int) = (i' + 1 : Nat) := by
        rw [← hreturn, ← hip]
        cases r.staged <;> simp [Machine.receive]
      obtain rfl := Int.ofNat.inj hposition
      exact hgosub g hcall
  | check => exact ⟨hnext rfl, by simp [Dim.check], by simp [Dim.check]⟩
  | element => exact ⟨hnext (by simp), by simp [elementQuad], by simp [elementQuad]⟩

section

variable {p : Program} {input : Bytes} {room : Option Nat} {depth : Int} {n : Nat}

theorem Machine.SoundAt.fetch?_eq (h : m.SoundAt p.quads.toList i) (depth : Int) :
    (Image.ofProgram p depth).fetch? m.ip = p.quads.toList[i]? := by
  rw [h.ip, Array.getElem?_toList]
  rfl

theorem Charted.soundAt (hcharted : Charted p) (hrun : p.seen depth input room n = some (m, j))
    (hip : m.ip = i) : m.SoundAt p.quads.toList i := by
  obtain ⟨⟨i', hsound⟩, -⟩ := hcharted.watched hrun
  obtain rfl : i' = i := Int.ofNat.inj (hsound.ip.symm.trans hip)
  exact hsound

/-- Whoever is behind a check executed it one step before. -/
theorem Charted.arrived (hcharted : Charted p) {d : Dim} {x : Operand}
    (hq : p.quads.toList[i]? = some (d.check x))
    (hrun : p.seen depth input room n = some (m, j))
    (hip : m.ip = (i + 1 : Nat)) :
    ∃ k m₀ j₀ v, n = k + 1 ∧
      p.seen depth input room k = some (m₀, j₀) ∧ m₀.ip = i ∧
      j₀.frames = j.frames ∧ Execute.load x m₀.advance = .ok (.int v) m₀.advance ∧
        InRange d.size v := by
  have hclear := not_clear_behind hq
  cases n with
  | zero =>
    obtain ⟨rfl, rfl⟩ := Prod.mk.inj (Option.some.inj hrun)
    obtain ⟨e, hentry, hclear', -⟩ := hcharted.entry
    have heq : (e : Int) = (i + 1 : Nat) := hentry.symm.trans hip
    rw [Int.ofNat.inj heq] at hclear'
    exact absurd hclear' hclear
  | succ k =>
    obtain ⟨m₀, j₀, q, hbefore, hfetch, hstep, rfl⟩ := Machine.watched_succ hrun
    obtain ⟨⟨i₀, hsound⟩, -⟩ := hcharted.watched hbefore
    obtain ⟨hq₀, heffect, -⟩ := step_effect (hcharted.standard depth) hcharted.chart hsound
      hfetch hstep
    obtain ⟨rfl, hgosub, hend⟩ := heffect.arrives hsound hip hclear fun f hf => by
      rw [hq] at hf
      cases congrArg Quad.op (Option.some.inj hf)
    obtain rfl := Option.some.inj (hq₀.symm.trans hq)
    obtain ⟨v, hload, hv⟩ := Machine.checked_of_step hcharted.chart hsound hq hfetch hstep
    exact ⟨k, m₀, j₀, v, rfl, hbefore, hsound.ip, (Journal.frames_watch hgosub hend).symm,
      hload, hv⟩

end

/-! ## Indices that were checked -/

/-- In the steps from `s` to `n` of a run, some activations work out an index and come to its check
with a value. -/
structure Mark.Valued (run : Nat → Option (Machine × Journal)) (ks : List Nat) (mark : Mark)
    (v : Int64) (s n : Nat) : Prop where
  evaluates : Evaluates run mark.first mark.position s n ks
  value : ∃ m j, run n = some (m, j) ∧ m.ip = mark.position ∧ j.frames = ks ∧
    Execute.load mark.operand m.advance = .ok (.int v) m.advance

/-- In the steps from `s` to `n` of a run, some activations work out indices one after the other,
and their values are those that the sizes allow. -/
inductive Passed (run : Nat → Option (Machine × Journal)) (ks : List Nat) :
    List Mark → List Int64 → Nat → Nat → Prop
  | nil {n : Nat} : Passed run ks [] [] n n
  | cons {mark : Mark} {marks : List Mark} {v : Int64} {vs : List Int64} {s n n' : Nat} :
      mark.Valued run ks v s n → InRange mark.dim.size v → Passed run ks marks vs (n + 1) n' →
      Passed run ks (mark :: marks) (v :: vs) s n'

section

variable {run : Nat → Option (Machine × Journal)} {ks : List Nat} {marks : List Mark}
  {vs : List Int64} {s n : Nat}

theorem Passed.le (h : Passed run ks marks vs s n) : s ≤ n := by
  induction h with
  | nil => exact Nat.le_refl _
  | cons hvalued _ _ ih =>
    have := hvalued.evaluates.le
    omega

theorem Passed.inRange (h : Passed run ks marks vs s n) :
    List.Forall₂ InRange ((marks.map (·.dim)).map (·.size)) vs := by
  induction h with
  | nil => exact .nil
  | cons _ hv _ ih => exact .cons hv ih

theorem Evaluates.trans {first middle last : Nat} (h : Evaluates run first middle s k ks)
    (h' : Evaluates run middle last k n ks) (hle : first ≤ middle) (hle' : middle ≤ last) :
    Evaluates run first last s n ks := by
  refine ⟨Nat.le_trans h.le h'.le, h.start, ?_⟩
  intro k' m j hk hk' hrun
  by_cases hmiddle : k' ≤ k
  · obtain ⟨hsuffix, hposition⟩ := h.inside k' m j hk hmiddle hrun
    refine ⟨hsuffix, ?_⟩
    intro heq
    obtain ⟨i, hip, hfirst, hlast⟩ := hposition heq
    exact ⟨i, hip, hfirst, Nat.le_trans hlast hle'⟩
  · obtain ⟨hsuffix, hposition⟩ := h'.inside k' m j (Nat.lt_of_not_le hmiddle) hk' hrun
    refine ⟨hsuffix, ?_⟩
    intro heq
    obtain ⟨i, hip, hfirst, hlast⟩ := hposition heq
    exact ⟨i, hip, Nat.lt_of_le_of_lt hle hfirst, hlast⟩

/-- All indices together are one evaluation. -/
theorem Passed.evaluates {names : Names} {start stop : Nat} {es : List Source.Expr}
    (h : Passed run ks marks vs s n) (hmarks : Marks names quads start es marks stop)
    (hrun : run n = some (m, j)) (hip : m.ip = stop) (hframes : j.frames = ks) :
    Evaluates run start stop s n ks := by
  induction h generalizing start es with
  | nil =>
    cases hmarks
    rw [← hframes]
    exact evaluates_start hrun hip
  | @cons mark marks v vs s k n hvalued hv hrest ih =>
    cases hmarks with
    | cons hmark hmarks =>
      have hbehind := ih hmarks hrun
      have hfirst := hmark.le
      have hstop := hmarks.le
      obtain ⟨x, jx, hx, hposition, hlevel⟩ := hbehind.start
      have hcheck : Evaluates run mark.first (mark.position + 1) s (k + 1) ks := by
        have hone : Evaluates run mark.position (mark.position + 1) k k ks := by
          obtain ⟨y, jy, hy, hy', hlevel', -⟩ := hvalued.value
          rw [← hlevel']
          exact evaluates_start hy hy'
        refine (hvalued.evaluates.trans hone hfirst (Nat.le_succ _)).extend hx
          (hlevel ▸ List.suffix_refl _) ?_
        exact fun _ => ⟨mark.position + 1, hposition, by omega, Nat.le_refl _⟩
      exact hcheck.trans hbehind (by omega) hstop

end

section

variable {p : Program} {input : Bytes} {room : Option Nat} {depth : Int} {names : Names}
  {start stop n s : Nat} {es : List Source.Expr} {e : Source.Expr} {marks : List Mark} {mark : Mark}
  {vs : List Int64} {ks : List Nat}

/-- Whoever is at the check of an index worked it out from its first instruction on. -/
theorem Mark.In.evaluates (h : mark.In names e p.quads.toList) (hcharted : Charted p)
    (hrun : p.seen depth input room n = some (m, j))
    (hip : m.ip = mark.position) :
    ∃ s m₀ j₀, p.seen depth input room s = some (m₀, j₀) ∧
      m₀.ip = mark.first ∧ j₀.frames = j.frames ∧
      Evaluates (p.seen depth input room) mark.first mark.position
        s n j.frames := by
  have hclear : ∀ k, mark.first < k → k ≤ mark.position → ¬ Clear p.quads.toList k :=
    fun k hk hk' => (h.engaged hk hk').not_clear hcharted.chart
  obtain ⟨s, hevaluates⟩ :=
    (hcharted.evaluating hclear hrun).now mark.position hip h.le (Nat.le_refl _)
  obtain ⟨m₀, j₀, hstart, hfirst, hframes⟩ := hevaluates.start
  exact ⟨s, m₀, j₀, hstart, hfirst, hframes, hevaluates⟩

/-- Whoever comes behind the checks of some indices worked out all of them, from the first
instruction on. -/
theorem Marks.passed (h : Marks names p.quads.toList start es marks stop) (hcharted : Charted p)
    (hrun : p.seen depth input room n = some (m, j))
    (hip : m.ip = stop) :
    ∃ s m₀ j₀ vs, p.seen depth input room s = some (m₀, j₀) ∧
      m₀.ip = start ∧ j₀.frames = j.frames ∧
      Passed (p.seen depth input room) j.frames marks vs s n := by
  -- From the last check back to the first: behind a check comes only who executed it.
  induction h with
  | nil => exact ⟨n, m, j, [], hrun, hip, rfl, .nil⟩
  | cons hmark hmarks ih =>
    obtain ⟨k, x, jx, vs, hx, hbehind, hlevel, hpassed⟩ := ih hip
    obtain ⟨k, y, jy, v, rfl, hy, hposition, hlevel', hload, hv⟩ :=
      hcharted.arrived hmark.check hx hbehind
    obtain ⟨s, m₀, j₀, hstart, hfirst, hframes, hevaluates⟩ := hmark.evaluates hcharted hy hposition
    have hsame := hlevel'.trans hlevel
    rw [hsame] at hevaluates hframes
    exact ⟨s, m₀, j₀, v :: vs, hstart, hfirst, hframes,
      .cons ⟨hevaluates, y, jy, hy, hposition, hsame, hload⟩ hv hpassed⟩

/-- When an index is checked, the stack of indices is as it was before the index was worked out. -/
theorem Mark.In.indices (h : mark.In names e p.quads.toList) (hcharted : Charted p)
    (hevaluates : Evaluates (p.seen depth input room) mark.first
      mark.position s n ks)
    (hstart : p.seen depth input room s = some (m₀, j₀))
    (hrun : p.seen depth input room n = some (m, j))
    (hip : m.ip = mark.position) (hframes : j.frames = ks) : m.indices = m₀.indices := by
  refine hevaluates.indices_eq hcharted h.le ?_ (fun i hi hi' => h.abides hi hi') h.standing
    hstart hrun
    hip hframes
  intro q hq
  rw [h.check] at hq
  obtain rfl := Option.some.inj hq
  simp [Dim.check]

/-- The indices that were checked are on the stack, the last one on top. -/
theorem Passed.indices (hcharted : Charted p) (h : Passed (p.seen depth input room) ks marks vs s n)
    (hmarks : Marks names p.quads.toList start es marks stop)
    (hstart : p.seen depth input room s = some (m₀, j₀))
    (hrun : p.seen depth input room n = some (m, j)) :
    m.indices = (unfolded (marks.map (·.dim)) vs).reverse ++ m₀.indices := by
  induction h generalizing start es m₀ j₀ with
  | nil =>
    rw [hstart] at hrun
    obtain ⟨rfl, rfl⟩ := Prod.mk.inj (Option.some.inj hrun)
    rfl
  | @cons mark marks v vs s k n hvalued hv hrest ih =>
    cases hmarks with
    | cons hmark hmarks =>
      obtain ⟨y, jy, hy, hposition, hlevel, hload⟩ := hvalued.value
      -- The index leaves the stack as it was, and its check puts one pair on top.
      have hsame := hmark.indices hcharted hvalued.evaluates hstart hy hposition hlevel
      obtain ⟨y', jy', hy'⟩ := Machine.watched_of_le hrun hrest.le
      obtain ⟨q, -, hstep⟩ := Machine.step_of_watched hy hy'
      have hsound := hcharted.soundAt hy hposition
      rw [Machine.step_check ((hsound.fetch?_eq depth).trans hmark.check) hload hv] at hstep
      have hpushed : y'.indices = ⟨v, mark.dim.stride⟩ :: m₀.indices := by
        rw [← (Prod.mk.inj hstep).2, ← hsame]
      rw [ih hmarks hy' hrun, hpushed]
      simp [unfolded]

end

/-! ## Elements that stay -/

/-- What some activations do themselves in the steps from `s` to `n` of a run leaves what an address
holds, in all activations under way and in the program. -/
def Spares (run : Nat → Option (Machine × Journal)) (ks : List Nat) (a : Addr) (s n : Nat) : Prop :=
  ∀ k x jx x' jx', s ≤ k → k < n → run k = some (x, jx) → run (k + 1) = some (x', jx') →
    jx.frames = ks → x.column a <:+ x'.column a

/-- What becomes of the elements of an array while an access is worked out. The access itself
changes none of them. A call in one of its indices may, if the array is one of the program. -/
structure ElementSite.Kept (run : Nat → Option (Machine × Journal)) (site : ElementSite)
    (s n : Nat) (m₀ m : Machine) (ks : List Nat) (new : List Write) : Prop where
  spared : ∀ a, InBlock site.array.address site.array.size a → Spares run ks a s n
  function : ∀ a, InBlock site.array.address site.array.size a →
    (∀ ty, ¬ Layout.standard.Holds .locals ty a) → m.get? a = m₀.get? a
  program : ∀ a ty, InBlock site.array.address site.array.size a →
    Layout.standard.Holds .locals ty a → m.get? a = (latest new a).or (m₀.get? a)
  still : Source.Expr.allCalls site.access.indices = [] →
    ∀ a, InBlock site.array.address site.array.size a → m.get? a = m₀.get? a

section

variable {p : Program} {input : Bytes} {room : Option Nat} {depth : Int} {first last s n : Nat}
  {ks : List Nat}

/-- An evaluation that fills temporaries and makes calls spares all other cells. -/
theorem Evaluates.spares (hcharted : Charted p)
    (h : Evaluates (p.seen depth input room) first last s n ks)
    (hle : first ≤ last) (hslot : ∀ ty, ¬ Layout.standard.Holds .stack ty a)
    (hstraight : ∀ k q, first ≤ k → k ≤ last → p.quads.toList[k]? = some q → q.Straight ∧
      ¬ q.Fills a) :
    Spares (p.seen depth input room) ks a s n := by
  intro k x jx x' jx' hk hk' hx hx' hframes
  obtain ⟨q, hfetch, hstep⟩ := Machine.step_of_watched hx hx'
  obtain ⟨i, hip, hfirst, hlast⟩ := (h.level hle hk (by omega) hx).2 hframes
  have hsound := hcharted.soundAt hx hip
  obtain ⟨hq, heffect, -⟩ := step_effect (hcharted.standard depth) hcharted.chart hsound
    hfetch hstep
  have hunder := (h.level hle (by omega) hk' hx').1.length_le
  refine heffect.column hsound (List.suffix_refl _) hslot (.inl (hstraight i q hfirst hlast hq)) ?_
  rw [Machine.length_column, (hcharted.watched hx).2.length_eq, hframes,
    (hcharted.watched hx').2.length_eq]
  omega

variable {names : Names} {site : ElementSite}

/-- An element of an array is no temporary and no return slot. -/
theorem ElementSite.In.apart (h : site.In names quads)
    (ha : InBlock site.array.address site.array.size a) {segment : Segment} {ty : Ty}
    (hsegment : segment ≠ .locals ∧ segment ≠ .functions) :
    ¬ Layout.standard.Holds segment ty a := by
  intro hholds
  obtain ⟨segment', hsegment', hblock⟩ := h.block
  obtain ⟨rfl, -⟩ := Layout.standard_holds_inj hholds (hblock a ha)
  exact hsegment'.elim hsegment.1 hsegment.2

theorem ElementSite.In.straight_unfilled (h : site.In names quads)
    (ha : InBlock site.array.address site.array.size a) (hk : site.start ≤ k)
    (hk' : k ≤ site.position) (hq : quads[k]? = some q) : q.Straight ∧ ¬ q.Fills a := by
  refine ⟨h.straight hk hk' hq, ?_⟩
  rintro ⟨-, -, ty, hty⟩
  exact h.apart ha (by simp) hty

/-- What becomes of the elements up to any point of an access. -/
theorem ElementSite.In.kept (h : site.In names p.quads.toList) (hcharted : Charted p)
    (hfirst : site.start ≤ last) (hlast : last ≤ site.position)
    (hevaluates : Evaluates (p.seen depth input room) site.start last
      s n j.frames)
    (hstart : p.seen depth input room s = some (m₀, j₀))
    (hrun : p.seen depth input room n = some (m, j))
    {new : List Write} (hnew : j.writes = new ++ j₀.writes) :
    site.Kept (p.seen depth input room) s n m₀ m j.frames new := by
  have hstraight : ∀ a, InBlock site.array.address site.array.size a → ∀ k q, site.start ≤ k →
      k ≤ last → p.quads.toList[k]? = some q → q.Straight ∧ ¬ q.Fills a :=
    fun a ha k q hk hk' hq => h.straight_unfilled ha hk (Nat.le_trans hk' hlast) hq
  have hslot : ∀ a, InBlock site.array.address site.array.size a →
    ∀ ty, ¬ Layout.standard.Holds .stack ty a :=
    fun a ha ty => h.apart ha (by simp)
  have hget := fun a ha hlocal =>
    hevaluates.get? hcharted hfirst hlocal (hslot a ha) (hstraight a ha) hstart hrun
  refine ⟨?_, ?_, ?_, ?_⟩
  · intro a ha
    exact hevaluates.spares hcharted hfirst (hslot a ha) (hstraight a ha)
  · intro a ha hlocal
    exact hget a ha (.inl hlocal)
  · intro a ty _ hlocal
    exact hcharted.get?_variable hstart hrun hnew hlocal
  · intro hcalls a ha
    refine hget a ha (.inr ?_)
    intro k x jx hk hk' hx
    refine hevaluates.stays hfirst ?_ hk hk' hx
    intro i q hi hi' hq
    exact ⟨h.calls hcalls hi (Nat.le_trans hi' hlast) hq,
      (h.straight hi (Nat.le_trans hi' hlast) hq).ne_endFunction⟩

end

/-! ## Finding elements -/

/-- An array has no more elements than the widest range of the layout has addresses. -/
theorem standard_block_le {segment : Segment} {ty : Ty} {base : Addr} {total : Int}
    (hpos : 1 ≤ total) (hblock : ∀ b : Addr, base.toInt ≤ b.toInt → b.toInt < base.toInt + total →
      Layout.standard.Holds segment ty b) : total ≤ Layout.standard.widest.toInt := by
  -- A segment has one range for each type, and none is wider than the widest.
  have hslots : ∀ s ∈ Layout.standard.slots, ∀ s' ∈ Layout.standard.slots,
      s.segment = s'.segment ∧ s.ty = s'.ty → s'.high.toInt - s.low.toInt < 5000 := by
    decide +kernel
  obtain ⟨hlow, hhigh⟩ := block_bounds hpos hblock
  have hlast : (Int64.ofInt (base.toInt + total - 1)).toInt = base.toInt + total - 1 :=
    Int64.toInt_ofInt_of_le (by omega) (by omega)
  obtain ⟨s, hs, howns, hcontains⟩ := hblock base (Int.le_refl _) (by omega)
  obtain ⟨s', hs', howns', hcontains'⟩ := hblock (Int64.ofInt (base.toInt + total - 1)) (by omega)
    (by omega)
  obtain ⟨rfl, rfl⟩ := Slot.owns_iff.1 howns
  obtain ⟨hsegment, hty⟩ := Slot.owns_iff.1 howns'
  have hwidth := hslots s hs s' hs' ⟨hsegment.symm, hty.symm⟩
  have hfirst := Slot.contains_iff.1 hcontains
  have hlast' := Slot.contains_iff.1 hcontains'
  rw [widest_standard]
  omega

section

variable {names : Names} {site : ElementSite} {vs : List Int64}

def ElementSite.sizes (site : ElementSite) : List Int64 := site.array.leaf.sizes

theorem ElementSite.In.addresses (h : site.In names quads) :
    ∃ segment, ∀ b : Addr, site.array.address.toInt ≤ b.toInt →
      b.toInt < site.array.address.toInt + site.array.size.toInt →
      Layout.standard.Holds segment site.array.ty b := by
  obtain ⟨segment, -, hblock⟩ := h.block
  exact ⟨segment, fun b hlow hhigh => hblock b ⟨hlow, hhigh⟩⟩

/-- The sizes of an array are those of a declaration that is accepted. -/
theorem ElementSite.In.layOut (h : site.In names quads) :
    Dim.layOut Layout.standard.widest site.sizes = .ok (site.array.size, site.array.dims) := by
  obtain ⟨segment, hblock⟩ := h.addresses
  obtain ⟨total, htotal, hlayOut⟩ :=
    h.strided.layOut_eq (standard_block_le h.strided.positive hblock)
  rw [← Int64.toInt_inj.1 htotal]
  exact hlayOut

/-- What finding an element gives: the pointer leads to the address that the row-major order has for
the indices, inside of the array and to no other element, and the stack of indices is as it was. -/
structure ElementSite.Found (site : ElementSite) (vs : List Int64) (m₀ m' : Machine) (a : Addr) :
    Prop where
  pointer : m'.get? site.pointer = some (.int a)
  addsUp : AddsUp site.array.address (unfolded site.array.dims vs) a
  offset : a.toInt = site.array.address.toInt + rowMajor site.sizes vs
  inside : site.array.address.toInt ≤ a.toInt ∧ a.toInt < site.array.address.toInt +
    volume site.sizes
  only : ∀ ws, List.Forall₂ InRange site.sizes ws →
    a.toInt = site.array.address.toInt + rowMajor site.sizes ws → ws = vs
  indices : m'.indices = m₀.indices

theorem ElementSite.In.found (h : site.In names quads) (him : im.Standard quads)
    (hfetch : im.fetch? m.ip =
      some (elementQuad site.array.dims.length site.array.address site.pointer))
    (hrange : List.Forall₂ InRange site.sizes vs)
    (hindices : m.indices = (unfolded site.array.dims vs).reverse ++ m₀.indices) :
    ∃ a m', m.step im = (none, m') ∧ site.Found vs m₀ m' a := by
  have hwithin : Within site.array.dims vs := within_iff.2 hrange
  have hchecked := hwithin.checked
  have hdims : site.array.dims ≠ [] := by
    rw [← h.dims]
    simpa using h.indexed
  obtain ⟨segment, hblock⟩ := h.addresses
  obtain ⟨hlow, hhigh⟩ := block_bounds h.strided.positive hblock
  have haddsUp := hchecked.addsUp h.strided hlow hhigh
  have hoffset := haddsUp.toInt_eq hchecked
  have hbounds := h.strided.offset_bounds hwithin
  have hvolume := h.strided.eq_volume
  rw [hwithin.map_unfolded] at hoffset
  refine ⟨_, _, Machine.step_of_ok hfetch
    (Execute.exec_element_eq (m := m.advance) him h.pointer hdims hchecked.length_eq hindices),
    ?_, haddsUp, ?_, ?_, ?_, ?_⟩
  · exact Machine.get?_setCurrent _ _ _
  · rw [hoffset, h.strided.offset_eq]
    rfl
  · show _ ∧ _ < _ + volume (site.array.dims.map (·.size))
    omega
  · intro ws hws heq
    have hwithin' : Within site.array.dims ws := within_iff.2 hws
    refine h.strided.offset_inj hwithin' hwithin ?_
    rw [h.strided.offset_eq ws]
    rw [hoffset] at heq
    exact (Int.add_left_cancel heq).symm
  · exact Machine.indices_put ..

end

/-! ## Accesses in a run -/

/-- An access is under way at step `n` of a run. It began at step `s`, from the state `m₀`, and up
to step `k` some of its indices were checked, in the same activations. -/
structure ElementSite.Underway (run : Nat → Option (Machine × Journal)) (site : ElementSite)
    (done : List Mark) (vs : List Int64) (s k n : Nat) (m₀ m : Machine) (j₀ j : Journal) :
    Prop where
  start : run s = some (m₀, j₀)
  first : m₀.ip = site.start
  frames : j₀.frames = j.frames
  passed : Passed run j.frames done vs s k
  indices : m.indices = (unfolded site.array.dims vs).reverse ++ m₀.indices
  kept : ∃ new, j.writes = new ++ j₀.writes ∧ site.Kept run s n m₀ m j.frames new

/-- What a check does with an index: it puts one in range on the stack, and with any other one the
run ends then and there. So it does with an index that was not written yet. -/
structure Mark.Decides (im : Image) (start m : Machine) (n : Nat) (mark : Mark) : Prop where
  loads : (∃ v, Execute.load mark.operand m.advance = .ok (.int v) m.advance) ∨
    ∃ e : RunFault, e.category = some .uninitialized ∧
      ∀ limit, n < limit → start.run im limit = (.failed mark.position .ver e, m.advance)
  inRange : ∀ v, Execute.load mark.operand m.advance = .ok (.int v) m.advance →
    InRange mark.dim.size v →
    m.step im = (none, { m.advance with indices := ⟨v, mark.dim.stride⟩ :: m.indices })
  outOfRange : ∀ v, Execute.load mark.operand m.advance = .ok (.int v) m.advance →
    ¬ InRange mark.dim.size v → ∀ limit, n < limit →
      start.run im limit = (.failed mark.position .ver (.outOfBounds v mark.dim.size), m.advance)

section

variable {p : Program} {input : Bytes} {room : Option Nat} {depth : Int} {n : Nat} {names : Names}
  {site : ElementSite} {mark : Mark} {e : Source.Expr}

theorem Mark.In.decides (h : mark.In names e p.quads.toList) (hcharted : Charted p)
    (hrun : p.seen depth input room n = some (m, j))
    (hip : m.ip = mark.position) :
    mark.Decides (Image.ofProgram p depth) (Machine.start p input room) m n := by
  have hsound := hcharted.soundAt hrun hip
  have hfetch := (hsound.fetch?_eq depth).trans h.check
  refine ⟨?_, ?_, ?_⟩
  · rcases load_of_check hcharted.chart hsound h.check with hload | ⟨e, hload, hcategory⟩
    · exact .inl hload
    · refine .inr ⟨e, hcategory, ?_⟩
      intro limit hlimit
      rw [← hip]
      exact Machine.run_of_stop hrun hfetch (Machine.step_check_unread hfetch hload) hlimit
  · intro v hload hv
    exact Machine.step_check hfetch hload hv
  · intro v hload hv limit hlimit
    rw [← hip]
    exact Machine.run_of_stop hrun hfetch (Machine.step_check_outOfBounds hfetch hload hv) hlimit

/-- Whoever is at a check of an access began the access and came past the checks before. -/
theorem ElementSite.In.underway_check (h : site.In names p.quads.toList) (hcharted : Charted p)
    (hmark : mark ∈ site.marks)
    (hrun : p.seen depth input room n = some (m, j))
    (hip : m.ip = mark.position) :
    ∃ done rest vs s k m₀ j₀, site.marks = done ++ mark :: rest ∧
      site.Underway (p.seen depth input room) done vs s k n m₀ m
        j₀ j ∧
      Evaluates (p.seen depth input room) mark.first mark.position
        k n j.frames ∧
      mark.Decides (Image.ofProgram p depth) (Machine.start p input room) m n := by
  obtain ⟨done, rest, before, e, after, hsplit, -, hdone, hin, hrest⟩ := h.marks.split hmark
  obtain ⟨k, x, jx, hx, hfirst, hlevel, hevaluates⟩ := hin.evaluates hcharted hrun hip
  obtain ⟨s, m₀, j₀, vs, hstart, hbegins, hframes, hpassed⟩ := hdone.passed hcharted hx hfirst
  rw [hlevel] at hframes hpassed
  have hwhole : Evaluates (p.seen depth input room) site.start
      mark.position s n j.frames :=
    (hpassed.evaluates hdone hx hfirst hlevel).trans hevaluates hdone.le hin.le
  obtain ⟨new, hnew⟩ := Machine.writes_watched hwhole.le hstart hrun
  have hindices : m.indices = (unfolded site.array.dims vs).reverse ++ m₀.indices := by
    rw [hin.indices hcharted hevaluates hx hrun hip rfl, hpassed.indices hcharted hdone hstart hx,
      ← h.dims, hsplit, List.map_append, unfolded_append]
    simpa using hpassed.inRange.length_eq
  exact ⟨done, rest, vs, s, k, m₀, j₀, hsplit,
    ⟨hstart, hbegins, hframes, hpassed, hindices, new, hnew.symm,
      h.kept hcharted (Nat.le_trans hdone.le hin.le) (Nat.le_trans (Nat.le_succ _) hrest.le)
      hwhole hstart
        hrun hnew.symm⟩,
    hevaluates, hin.decides hcharted hrun hip⟩

/-- Whoever is where an element is found began the access and came past all its checks. -/
theorem ElementSite.In.underway_element (h : site.In names p.quads.toList) (hcharted : Charted p)
    (hrun : p.seen depth input room n = some (m, j))
    (hip : m.ip = site.position) :
    ∃ vs s m₀ j₀ a m',
      site.Underway (p.seen depth input room) site.marks vs s n n
        m₀ m j₀ j ∧
      m.step (Image.ofProgram p depth) = (none, m') ∧ site.Found vs m₀ m' a := by
  have hsound := hcharted.soundAt hrun hip
  obtain ⟨s, m₀, j₀, vs, hstart, hbegins, hframes, hpassed⟩ := h.marks.passed hcharted hrun hip
  have hwhole := hpassed.evaluates h.marks hrun hip rfl
  obtain ⟨new, hnew⟩ := Machine.writes_watched hwhole.le hstart hrun
  have hindices := hpassed.indices hcharted h.marks hstart hrun
  have hrange := hpassed.inRange
  rw [h.dims] at hindices hrange
  obtain ⟨a, m', hstep, hfound⟩ :=
    h.found (hcharted.standard depth) ((hsound.fetch?_eq depth).trans h.quad) hrange hindices
  exact ⟨vs, s, m₀, j₀, a, m', ⟨hstart, hbegins, hframes, hpassed, hindices, new, hnew.symm,
    h.kept hcharted h.marks.le (Nat.le_refl _) hwhole hstart hrun hnew.symm⟩, hstep, hfound⟩

end

/-- Every access of the source has a place of its own in the compiled program. Its array is the one
that its name leads to, in the directory of the function or in that of the program, when all is
declared. In every run, every check of an index and every instruction that finds an element belongs
to an access, to an array whose sizes were accepted. The indices that were checked before are the
first ones of that access, and in range. An index in range is put on the stack, and with any other
one the run ends before the next index is worked out. With all indices in range, the element found
is the one in row-major order. -/
theorem elements_addressed {text : Bytes} {p : Program} (h : compile text = .ok p) {t : Source.Tree}
    (hread : t.ReadFrom text) :
    ∃ seats : List Seat, seats.map (·.toScene) = t.bodies ∧
      (∀ seat ∈ seats, seat.In (Generator.initial.parse text).2 p.quads.toList) ∧
      ∀ (input : Bytes) (room : Option Nat) (depth : Int) (n : Nat) (m : Machine) (j : Journal)
        (q : Quad), (Machine.start p input room).watched (Image.ofProgram p depth) n = some (m, j) →
        (Image.ofProgram p depth).fetch? m.ip = some q → q.op = .ver ∨ q.op = .addDim →
        ∃ seat ∈ seats, ∃ site ∈ seat.sites, site.array.leaf ∈ seat.leaves ∧
          Dim.layOut Layout.standard.widest site.sizes = .ok (site.array.size, site.array.dims) ∧
          ((∃ done mark rest vs s k m₀ j₀, q = mark.dim.check mark.operand ∧ m.ip = mark.position ∧
              site.marks = done ++ mark :: rest ∧
              site.Underway ((Machine.start p input room).watched (Image.ofProgram p depth))
                done vs s k n m₀ m j₀ j ∧
              Evaluates ((Machine.start p input room).watched (Image.ofProgram p depth)) mark.first
                mark.position k n j.frames ∧
              mark.Decides (Image.ofProgram p depth) (Machine.start p input room) m n) ∨
            ∃ vs s m₀ j₀ a m', q = elementQuad site.array.dims.length site.array.address
              site.pointer ∧ m.ip = site.position ∧
              site.Underway ((Machine.start p input room).watched (Image.ofProgram p depth))
                site.marks vs s n n m₀ m j₀ j ∧
              m.step (Image.ofProgram p depth) = (none, m') ∧ site.Found vs m₀ m' a) := by
  obtain ⟨seats, hbodies, hseats, hbelongs⟩ := compile_seats h hread
  refine ⟨seats, hbodies, hseats, ?_⟩
  intro input room depth n m j q hrun hfetch hop
  have hcharted := compile_charted h
  obtain ⟨⟨i, hsound⟩, -⟩ := hcharted.watched hrun
  have hq := (hsound.fetch?_eq depth).symm.trans hfetch
  obtain ⟨seat, hseat, site, hsite, hends⟩ := hbelongs i q hq hop
  have hin := ((hseats seat hseat).sites site hsite).1
  refine ⟨seat, hseat, site, hsite, (hseats seat hseat).leaf hsite, hin.layOut, ?_⟩
  rcases hends with ⟨-, mark, hmark, rfl⟩ | ⟨-, rfl⟩
  · obtain ⟨_, _, _, e, _, -, -, -, hcheck, -⟩ := hin.marks.split hmark
    obtain ⟨done, rest, vs, s, k, m₀, j₀, hsplit, hunderway, hevaluates, hdecides⟩ :=
      hin.underway_check hcharted hmark hrun hsound.ip
    exact .inl ⟨done, mark, rest, vs, s, k, m₀, j₀, Option.some.inj (hq.symm.trans hcheck.check),
      hsound.ip, hsplit, hunderway, hevaluates, hdecides⟩
  · obtain ⟨vs, s, m₀, j₀, a, m', hunderway, hstep, hfound⟩ :=
      hin.underway_element hcharted hrun hsound.ip
    exact .inr ⟨vs, s, m₀, j₀, a, m', Option.some.inj (hq.symm.trans hin.quad), hsound.ip,
      hunderway, hstep, hfound⟩

/-- Accesses with calls and accesses in their indices. The last one reads an element as the second
index of another. -/
def grid : Bytes :=
  ascii "program grid; int a[2][3]; func int f(int x) \x7b return x; \x7d " ++
    ascii "main \x7b a[1][0] = 1; a[a[1][f(0)]][f(2)] = 7; write(a[0][a[1][2]]); \x7d"

/-- The inner element is found with an index of the outer access below its own, and the value seven
that it has is out of range in the outer access. -/
theorem grid_addressed : ∃ (p : Program) (t : Source.Tree) (m m' : Machine) (j j' : Journal),
    compile grid = .ok p ∧ t.ReadFrom grid ∧
    (Machine.start p [] none).watched (Image.ofProgram p 0) 26 = some (m, j) ∧
    (Machine.start p [] none).watched (Image.ofProgram p 0) 27 = some (m', j') ∧
    m.indices = [⟨2, 1⟩, ⟨1, 3⟩, ⟨0, 3⟩] ∧ m'.indices = [⟨0, 3⟩] ∧
    (∃ (site : ElementSite) (function : Option Bytes) (vs : List Int64) (m₀ : Machine),
      ((Generator.initial.parse grid).2.namesIn function).Finds site.array ∧
        site.array.address = 30000 ∧ site.Found vs m₀ m' 30005) ∧
    (Machine.start p [] none).run (Image.ofProgram p 0) 28 =
      (.failed 26 .ver (.outOfBounds 7 3), m'.advance) := by
  obtain ⟨p, hcompile, hcheck⟩ := @exists_image grid
    (fun p im => (((Machine.start p [] none).watched im 26).any fun s =>
        im.fetch? s.1.ip = some (elementQuad 2 30000 90005) ∧
          s.1.indices = [⟨2, 1⟩, ⟨1, 3⟩, ⟨0, 3⟩]) &&
      ((Machine.start p [] none).watched im 27).any fun s =>
        im.fetch? s.1.ip = some (Dim.check ⟨3, 1⟩ (.pointer 90005)) ∧ s.1.ip = 26 ∧
          s.1.indices = [⟨0, 3⟩] ∧ s.1.reach? (.pointer 90005) = some 30005 ∧
          s.1.get? 90005 = some (.int 30005) ∧ s.1.get? 30005 = some (.int 7))
    (by decide +kernel)
  obtain ⟨hfirst, hsecond⟩ := Bool.and_eq_true_iff.1 hcheck
  obtain ⟨⟨m, j⟩, hrun, hinner⟩ := (Option.any_eq_true _ _).1 hfirst
  obtain ⟨⟨m', j'⟩, hrun', houter⟩ := (Option.any_eq_true _ _).1 hsecond
  obtain ⟨hfetch, hindices⟩ := of_decide_eq_true hinner
  obtain ⟨hfetch', hip', hindices', hreach, hpointer, hvalue⟩ := of_decide_eq_true houter
  obtain ⟨-, t, -, -, hread⟩ := compile_spelled hcompile
  obtain ⟨seats, -, hseats, hfinds⟩ := elements_addressed hcompile hread
  refine ⟨p, t, m, m', j, j', hcompile, hread, hrun, hrun', hindices, hindices', ?_, ?_⟩
  · obtain ⟨seat, hseat, site, hsite, -, -, hcase⟩ :=
      hfinds [] none 0 26 m j _ hrun hfetch (.inr rfl)
    rcases hcase with ⟨_, mark, _, _, _, _, _, _, hq, -⟩ | ⟨vs, s, m₀, j₀, a, m₁, hq, -, -,
      hstep, hfound⟩
    · cases congrArg Quad.op hq
    · obtain ⟨q, -, hstep'⟩ := Machine.step_of_watched hrun hrun'
      obtain rfl := (Prod.mk.inj (hstep.symm.trans hstep')).2
      have hbase : (30000 : Addr) = site.array.address := by
        rw [← Operand.word_literal 30000, ← Operand.word_literal site.array.address]
        exact congrArg (fun q => q.arg2.word) hq
      have hcell : (90005 : Addr) = site.pointer := by
        rw [← Operand.word_cell 90005, ← Operand.word_cell site.pointer]
        exact congrArg (fun q => q.res.word) hq
      have ha := hfound.pointer
      rw [← hcell, hpointer] at ha
      obtain rfl := Value.int.inj (Option.some.inj ha)
      exact ⟨site, seat.function, vs, m₀, (hseats seat hseat).finds site hsite, hbase.symm, hfound⟩
  · obtain ⟨_, -, site, -, -, -, hcase⟩ := hfinds [] none 0 27 m' j' _ hrun' hfetch' (.inl rfl)
    rcases hcase with ⟨_, mark, _, _, _, _, _, _, hq, hposition, -, -, -, hdecides⟩ |
      ⟨_, _, _, _, _, _, hq, -⟩
    · have hoperand : Operand.pointer 90005 = mark.operand := congrArg Quad.arg1 hq
      have hsize : (3 : Int64) = mark.dim.size := by
        rw [← Operand.word_literal 3, ← Operand.word_literal mark.dim.size]
        exact congrArg (fun q => q.arg2.word) hq
      have hload : Execute.load mark.operand m'.advance = .ok (.int 7) m'.advance := by
        have hadvance : m'.advance.reach? (.pointer 90005) = some 30005 := hreach
        rw [← hoperand, Execute.load_of_reach? hadvance, ← Execute.cell_eq]
        exact Execute.cell_of_get? (m := m'.advance) hvalue
      have hfails := hdecides.outOfRange 7 hload (by rw [← hsize]; decide) 28 (by decide)
      rw [← hposition, hip', ← hsize] at hfails
      exact hfails
    · cases congrArg Quad.op hq

end Quadlang
