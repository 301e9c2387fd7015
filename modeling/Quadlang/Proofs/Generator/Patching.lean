-- Instructions are appended and never taken back, and a jump gets its target once: whatever
-- actions are performed, in whatever order and whichever of them fail, an instruction that has a
-- result keeps it, and only jumps are ever without one.
import Quadlang.Proofs.Generator.Aliasing

namespace Quadlang

open Success

variable {q : Quad}

/-! ## Edits of instructions -/

/-- A jump, with or without a condition. -/
def Quad.Jumps (q : Quad) : Prop := q.op = .goto ∨ q.op = .gotoFalse

/-- An instruction whose result is to be filled in. -/
def Quad.Unfilled (q : Quad) : Prop := q.res.kind = .empty

/-- An instruction with a target for its result. -/
def Quad.aim (q : Quad) (target : Nat) : Quad := { q with res := .label target }

/-- One edit: an instruction is appended, unfilled if it is a jump, or one that is unfilled gets
a target. The target may be the position behind the last instruction. -/
inductive Edit : Array Quad → Array Quad → Prop
  | append {quads : Array Quad} {q : Quad} : (q.Unfilled ↔ q.Jumps) → Edit quads (quads.push q)
  | aim {quads : Array Quad} {i : Nat} {q : Quad} {target : Nat} : quads[i]? = some q → q.Unfilled →
      target ≤ quads.size → Edit quads (quads.setIfInBounds i (q.aim target))

abbrev Edits : Array Quad → Array Quad → Prop := Relation.ReflTransGen Edit

theorem Quad.aim_filled (q : Quad) (target : Nat) : ¬ (q.aim target).Unfilled := by
  simp [Unfilled, aim, Operand.label]

section Edits

variable {old mid new : Array Quad} {i : Nat} {q : Quad}

theorem Edit.size_le (h : Edit old new) : old.size ≤ new.size := by
  cases h with
  | append => simp
  | aim => simp

/-- An instruction after an edit: it is as it was, or it was unfilled and now has a target. -/
theorem Edit.kept (h : Edit old new) (hq : old[i]? = some q) :
    new[i]? = some q ∨ q.Unfilled ∧ ∃ target ≤ new.size, new[i]? = some (q.aim target) := by
  obtain ⟨hi, -⟩ := Array.getElem?_eq_some_iff.1 hq
  cases h with
  | append =>
    left
    rw [Array.getElem?_push_lt hi, ← hq, Array.getElem?_eq_getElem hi]
  | @aim j q' target hq' hopen htarget =>
    by_cases hj : j = i
    · subst hj
      obtain rfl : q' = q := Option.some.inj (hq'.symm.trans hq)
      right
      exact ⟨hopen, target, by simpa using htarget, by simp [hi]⟩
    · left
      rw [Array.getElem?_setIfInBounds_ne hj, hq]

/-- What an instruction is after any number of edits. -/
theorem Edits.kept (h : Edits old new) (hq : old[i]? = some q) :
    new[i]? = some q ∨ q.Unfilled ∧ ∃ target ≤ new.size, new[i]? = some (q.aim target) := by
  induction h with
  | refl => exact .inl hq
  | tail _ hedit ih =>
    rcases ih with ih | ⟨hopen, target, htarget, ih⟩
    · exact hedit.kept ih
    · rcases hedit.kept ih with hkept | ⟨hfilled, -⟩
      · exact .inr ⟨hopen, target, Nat.le_trans htarget hedit.size_le, hkept⟩
      · exact absurd hfilled (q.aim_filled target)

/-- A result that is there stays. -/
theorem Edits.filled (h : Edits old new) (hq : old[i]? = some q) (hfilled : ¬ q.Unfilled) :
    new[i]? = some q := by
  rcases h.kept hq with hkept | ⟨hopen, -⟩
  · exact hkept
  · exact absurd hopen hfilled

/-- An instruction that is the same before and after some edits was the same all the time. -/
theorem Edits.between (h : Edits old mid) (h' : Edits mid new) (hq : old[i]? = some q)
    (hq' : new[i]? = some q) : mid[i]? = some q := by
  rcases h.kept hq with hkept | ⟨hopen, target, -, haimed⟩
  · exact hkept
  · have haim := h'.filled haimed (q.aim_filled target)
    have hsame : q.aim target = q := Option.some.inj (haim.symm.trans hq')
    exact absurd (by rwa [hsame]) (q.aim_filled target)

/-- Only jumps are unfilled, and those that are not have a target that the program has, or the
position behind it. -/
def Aimed (quads : Array Quad) : Prop :=
  ∀ (i : Nat) (q : Quad), quads[i]? = some q → (q.Unfilled → q.Jumps) ∧
    (q.Jumps → q.Unfilled ∨ ∃ target ≤ quads.size, q.res = .label target)

theorem aimed_empty : Aimed #[] := by simp [Aimed]

theorem Edit.aimed (h : Edit old new) (haimed : Aimed old) : Aimed new := by
  intro i q hq
  cases h with
  | @append q' hopen =>
    rw [Array.getElem?_push] at hq
    split at hq
    · obtain rfl := Option.some.inj hq
      exact ⟨hopen.1, fun hjump => .inl (hopen.2 hjump)⟩
    · obtain ⟨honly, htarget⟩ := haimed i q hq
      refine ⟨honly, fun hjump => (htarget hjump).imp_right ?_⟩
      rintro ⟨target, hle, hres⟩
      exact ⟨target, by simpa using Nat.le_succ_of_le hle, hres⟩
  | @aim j q' target hq' hopen htarget =>
    rw [Array.size_setIfInBounds]
    by_cases hj : j = i
    · subst hj
      obtain ⟨hlt, -⟩ := Array.getElem?_eq_some_iff.1 hq'
      simp only [Array.getElem?_setIfInBounds_self_of_lt hlt, Option.some.injEq] at hq
      subst hq
      exact ⟨fun hunfilled => absurd hunfilled (q'.aim_filled target), fun _ =>
        .inr ⟨target, htarget, rfl⟩⟩
    · rw [Array.getElem?_setIfInBounds_ne hj] at hq
      exact haimed i q hq

theorem Edits.aimed (h : Edits old new) (haimed : Aimed old) : Aimed new := by
  induction h with
  | refl => exact haimed
  | tail _ hedit ih => exact hedit.aimed ih

end Edits

/-! ## Steps -/

/-- No operand is empty, so that no instruction gets an empty result from one, and no position
put aside is beyond the last instruction. -/
structure Generator.Patchable (g : Generator) : Prop where
  operands : ∀ x ∈ g.operands, x.operand.kind ≠ .empty
  jumps : ∀ position ∈ g.jumps, position ≤ g.quads.size

section Steps

variable {g g' : Generator}

theorem Generator.Patchable.append {m : Memory} {operands : List TypedOperand} {jumps : List Nat}
    {references : List Reference} {calls : List Call} (h : g.Patchable) (hq : q.Unfilled ↔ q.Jumps)
    (hoperands : ∀ x ∈ operands, x.operand.kind ≠ .empty)
    (hjumps : ∀ position ∈ jumps, position ∈ g.jumps ∨ position = g.quads.size) :
    Edits g.quads (g.quads.push q) ∧ Generator.Patchable { g with
      memory := m, quads := g.quads.push q, operands, jumps, references, calls } := by
  have hedit : Edit g.quads (g.quads.push q) := .append hq
  refine ⟨.single hedit, hoperands, fun p hp => ?_⟩
  rcases hjumps p hp with hold | rfl
  · exact Nat.le_trans (h.jumps p hold) hedit.size_le
  · exact hedit.size_le

/-- An instruction that takes its operands from the stack is no jump, and has a result. -/
theorem Writes.filled {xs : List TypedOperand} (h : Writes g xs q)
    (hxs : ∀ x ∈ xs, x.operand.kind ≠ .empty) : q.Unfilled ↔ q.Jumps := by
  have hresult : ¬ q.Unfilled ∧ ¬ q.Jumps := by
    cases h with
    | assign => exact ⟨hxs _ (by simp), by simp [Quad.Jumps]⟩
    | use hop => exact ⟨hxs _ (by simp), by rcases hop with rfl | rfl <;> simp [Quad.Jumps]⟩
    | index | era | param | gosub | ret | leave | close =>
      simp [Quad.Unfilled, Quad.Jumps, Operand.cell, Operand.literal, Operand.label]
  exact iff_of_false hresult.1 hresult.2

theorem Stroke.revised (h : Stroke g g') (hg : g.Patchable) :
    Edits g.quads g'.quads ∧ g'.Patchable := by
  cases h with
  | asides | references | calls | refer | call => exact ⟨.refl, hg.operands, hg.jumps⟩
  | operands hsuffix => exact ⟨.refl, fun x hx => hg.operands x (hsuffix.subset hx), hg.jumps⟩
  | jumps hsuffix => exact ⟨.refl, hg.operands, fun p hp => hg.jumps p (hsuffix.subset hp)⟩
  | «variable» =>
    exact ⟨.refl, List.forall_mem_cons.2 ⟨by simp [Operand.cell], hg.operands⟩, hg.jumps⟩
  | emit hwrites hoperands =>
    have hall := hg.operands
    rw [hoperands, List.forall_mem_append] at hall
    exact hg.append (hwrites.filled hall.1) hall.2 fun p hp => .inl hp
  | label => exact ⟨.refl, hg.operands, List.forall_mem_cons.2 ⟨Nat.le_refl _, hg.jumps⟩⟩
  | goto =>
    exact hg.append (by simp [Quad.Unfilled, Quad.Jumps, Operand.none]) hg.operands
      fun p hp => (List.mem_cons.1 hp).symm
  | branch hoperands =>
    have hall := hg.operands
    rw [hoperands, List.forall_mem_cons] at hall
    exact hg.append (by simp [Quad.Unfilled, Quad.Jumps, Operand.none]) hall.2
      fun p hp => (List.mem_cons.1 hp).symm
  | @aim i target q jumps hq hkind htarget hsuffix =>
    have hle : target ≤ g.quads.size := by
      rcases htarget with rfl | hmem
      · exact Nat.le_refl _
      · exact hg.jumps target hmem
    have hedit : Edit g.quads (g.quads.setIfInBounds i (q.aim target)) := .aim hq hkind hle
    exact ⟨.single hedit, hg.operands,
      fun p hp => Nat.le_trans (hg.jumps p (hsuffix.subset hp)) hedit.size_le⟩

theorem Take.revised (h : Take g g') (hg : g.Patchable) :
    Edits g.quads g'.quads ∧ g'.Patchable := by
  have hold := fun p (hp : p ∈ g.jumps) => (.inl hp : p ∈ g.jumps ∨ p = g.quads.size)
  have hall := hg.operands
  cases h with
  | @unary op x operands ty a m hoperands =>
    rw [hoperands, List.forall_mem_cons] at hall
    refine hg.append ?_ (List.forall_mem_cons.2 ⟨by simp [Operand.cell], hall.2⟩) hold
    cases op <;> simp [Quad.Unfilled, Quad.Jumps, Operand.cell, UnaryOp.opcode]
  | @binary op l r operands ty a m hoperands =>
    rw [hoperands, List.forall_mem_cons, List.forall_mem_cons] at hall
    refine hg.append ?_ (List.forall_mem_cons.2 ⟨by simp [Operand.cell], hall.2.2⟩) hold
    cases op <;> simp [Quad.Unfilled, Quad.Jumps, Operand.cell, BinaryOp.opcode]
  | element =>
    exact hg.append (by simp [Quad.Unfilled, Quad.Jumps, Operand.cell])
      (List.forall_mem_cons.2 ⟨by simp [Operand.pointer], hall⟩) hold
  | result =>
    exact hg.append (by simp [Quad.Unfilled, Quad.Jumps, Operand.cell])
      (List.forall_mem_cons.2 ⟨by simp [Operand.cell], hall⟩) hold

theorem Row.revised {takes : Bool} (h : Row takes g g') (hg : g.Patchable) :
    Edits g.quads g'.quads ∧ g'.Patchable := by
  obtain ⟨g₁, ⟨hedits, h₁⟩, hend⟩ := h.last (P := fun g₁ => Edits g.quads g₁.quads ∧ g₁.Patchable)
    ⟨.refl, hg⟩ fun h hstroke => (hstroke.revised h.2).imp_left h.1.trans
  rcases hend with rfl | ⟨-, htake⟩
  · exact ⟨hedits, h₁⟩
  · exact (htake.revised h₁).imp_left hedits.trans

theorem Changes.revised {free : Marked → Prop} {s s' : Marked} (h : Changes free s s')
    (hg : s.2.Patchable) : Edits s.2.quads s'.2.quads ∧ s'.2.Patchable := by
  induction h with
  | refl => exact ⟨.refl, hg⟩
  | tail _ hchange ih =>
    obtain ⟨hedits, hpatchable⟩ := ih
    cases hchange with
    | quiet hstroke => exact (hstroke.revised hpatchable).imp_left hedits.trans
    | constant =>
      exact ⟨hedits, List.forall_mem_cons.2 ⟨by simp [Operand.cell], hpatchable.operands⟩,
        hpatchable.jumps⟩
    | _ => exact ⟨hedits, hpatchable.operands, hpatchable.jumps⟩

/-- An action edits the instructions, and nothing else happens to them, whether it succeeds or
fails. -/
theorem revised_perform (a : Action) (hg : g.Patchable) :
    Edits g.quads ((Generate.perform a).after g).quads ∧
      ((Generate.perform a).after g).Patchable := by
  rcases Generate.perform_cases a g with hrow | ⟨mark, hchanges⟩
  · exact hrow.revised hg
  · exact Changes.revised hchanges hg

end Steps

/-! ## Rows of actions -/

/-- The instructions of a compilation over some layout after the first `n` of some events, whichever
of them fail. -/
def quadsAfter (l : Layout) (events : List Event) (n : Nat) : Array Quad :=
  ((Trace.start l).run (events.take n)).generator.quads

section Rows

variable {l : Layout} {events : List Event} {i m n : Nat} {q : Quad}

theorem Trace.step_revised {t : Trace} (h : t.generator.Patchable) (e : Event) :
    Edits t.generator.quads (t.step e).generator.quads ∧ (t.step e).generator.Patchable :=
  @revised_perform (t.generator.onLine e.line) e.action ⟨h.operands, h.jumps⟩

theorem Trace.run_patchable {t : Trace} (h : t.generator.Patchable) (events : List Event) :
    (t.run events).generator.Patchable := by
  induction events generalizing t with
  | nil => exact h
  | cons e events ih => exact ih (t.step_revised h e).2

theorem Trace.start_patchable (l : Layout) : (Trace.start l).generator.Patchable :=
  ⟨by simp [Trace.start, Generator.ofMemory], by simp [Trace.start, Generator.ofMemory]⟩

theorem quadsAfter_edits_succ (l : Layout) (events : List Event) (n : Nat) :
    Edits (quadsAfter l events n) (quadsAfter l events (n + 1)) := by
  unfold quadsAfter
  rw [List.take_add_one]
  cases events[n]? with
  | none => simpa using .refl
  | some e =>
    simp only [Trace.run, Option.toList_some, List.foldl_append, List.foldl_cons, List.foldl_nil]
    exact (Trace.step_revised (Trace.run_patchable (Trace.start_patchable l) (events.take n)) e).1

theorem quadsAfter_edits (hmn : m ≤ n) : Edits (quadsAfter l events m) (quadsAfter l events n) := by
  induction hmn with
  | refl => exact .refl
  | @step n _ ih => exact ih.trans (quadsAfter_edits_succ l events n)

theorem quadsAfter_aimed (l : Layout) (events : List Event) (n : Nat) :
    Aimed (quadsAfter l events n) :=
  (quadsAfter_edits (Nat.zero_le n)).aimed aimed_empty

/-- A jump that gets its target between two moments gets it from one of the events there. -/
theorem quadsAfter_aim (hmn : m ≤ n) (hq : (quadsAfter l events m)[i]? = some q)
    (hne : (quadsAfter l events n)[i]? ≠ some q) :
    q.Unfilled ∧ ∃ k target, m ≤ k ∧ k < n ∧ target ≤ (quadsAfter l events (k + 1)).size ∧
      (quadsAfter l events k)[i]? = some q ∧ (quadsAfter l events (k + 1))[i]? =
        some (q.aim target) := by
  induction hmn with
  | refl => exact absurd hq hne
  | @step n hmn ih =>
    by_cases hsame : (quadsAfter l events n)[i]? = some q
    · rcases (quadsAfter_edits_succ l events n).kept hsame with hkept | ⟨hopen, target,
        htarget, haim⟩
      · exact absurd hkept hne
      · exact ⟨hopen, n, target, hmn, Nat.lt_succ_self n, htarget, hsame, haim⟩
    · obtain ⟨hopen, k, target, hmk, hkn, hrest⟩ := ih hsame
      exact ⟨hopen, k, target, hmk, Nat.lt_succ_of_lt hkn, hrest⟩

end Rows

/-- Whatever events a compilation is given, and whichever of them fail, each of them does nothing
to the instructions but append some and aim jumps that have no target yet. An instruction that is
there at some moment is the same at every later one, at its position, unless it has no result and
is a jump. Then one event gives it a target, at most the number of instructions at that moment,
and it has this target ever after. -/
theorem jumps_aimed_once (l : Layout) (events : List Event) :
    (∀ n, Edits (quadsAfter l events n) (quadsAfter l events (n + 1))) ∧
      ∀ (m : Nat) (i : Nat) (q : Quad), (quadsAfter l events m)[i]? = some q →
        (q.Unfilled → q.Jumps) ∧
        (q.Jumps → q.Unfilled ∨ ∃ target ≤ (quadsAfter l events m).size, q.res = .label target) ∧
        ((∀ n, m ≤ n → (quadsAfter l events n)[i]? = some q) ∨
          q.Unfilled ∧ ∃ k target, m ≤ k ∧ target ≤ (quadsAfter l events (k + 1)).size ∧
            (∀ n, m ≤ n → n ≤ k → (quadsAfter l events n)[i]? = some q) ∧
            ∀ n, k < n → (quadsAfter l events n)[i]? = some (q.aim target)) := by
  refine ⟨quadsAfter_edits_succ l events, fun m i q hq => ?_⟩
  obtain ⟨honly, htarget⟩ := quadsAfter_aimed l events m i q hq
  refine ⟨honly, htarget, ?_⟩
  by_cases hsame : ∀ n, m ≤ n → (quadsAfter l events n)[i]? = some q
  · exact .inl hsame
  · simp only [not_forall] at hsame
    obtain ⟨n, hmn, hne⟩ := hsame
    obtain ⟨hopen, k, target, hmk, -, hle, hbefore, haim⟩ := quadsAfter_aim hmn hq hne
    refine .inr ⟨hopen, k, target, hmk, hle, fun n hmn hnk => ?_, fun n hkn => ?_⟩
    · exact (quadsAfter_edits hmn).between (quadsAfter_edits hnk) hq hbefore
    · exact (quadsAfter_edits hkn).filled haim (q.aim_filled target)

/-- Loops that end before they have a condition, and jumps that are filled in twice. The end of
the loop aims its own jump and then fails, because that jump is also the one to leave it. -/
def tangle : List Event :=
  [.start (ascii "tangle"), .whileStart, .whileEnd, .endIf, .start (ascii "tangle"), .endIf,
    .whileStart, .fillJump false, .endIf].map (Event.mk 1)

theorem tangle_aimed_once :
    (quadsAfter Layout.standard tangle 3)[1]? = some { op := .goto, res := .label 0 } ∧
    (quadsAfter Layout.standard tangle 5)[2]? = some { op := .goto } ∧
    (quadsAfter Layout.standard tangle 9)[2]? = some { op := .goto, res := .label 3 } ∧
      ((∀ n, 5 ≤ n → (quadsAfter Layout.standard tangle n)[2]? = some { op := .goto }) ∨
        Quad.Unfilled { op := .goto } ∧ ∃ k target, 5 ≤ k ∧
          target ≤ (quadsAfter Layout.standard tangle (k + 1)).size ∧
          (∀ n, 5 ≤ n → n ≤ k → (quadsAfter Layout.standard tangle n)[2]? = some { op := .goto }) ∧
          ∀ n, k < n → (quadsAfter Layout.standard tangle n)[2]? =
            some (Quad.aim { op := .goto } target)) :=
  ⟨by decide +kernel, by decide +kernel, by decide +kernel,
    ((jumps_aimed_once Layout.standard tangle).2 5 2 { op := .goto } (by decide +kernel)).2.2⟩

end Quadlang
