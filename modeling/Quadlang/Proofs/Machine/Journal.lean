-- A journal of a run: which activation wrote which cell, and what each activation returned. The
-- journal only watches the machine, and what the frames hold is what the journal says that their
-- activations wrote.
import Mathlib.Data.List.Forall2
import Mathlib.Data.List.Nodup
import Quadlang.Proofs.Machine.Soundness

namespace Quadlang

variable {k n : Nat} {f r : Frame} {a : Addr} {segment : Segment} {rest : List Frame} {q : Quad}
  {p : Program} {ty : Ty} {im : Image} {w room : Option Nat} {ks : List Nat} {input : Bytes}
  {depth : Int}

/-! ## Journals -/

/-- A write of a cell, by an activation or by the program outside of any. -/
structure Write where
  writer : Option Nat
  address : Addr
  value : Value

/-- What was seen of a run. Activations are numbered in the order in which their records are
made, and every list has its newest entry first. -/
structure Journal where
  /-- How many records were made. -/
  made : Nat := 0
  /-- The activations under way. -/
  frames : List Nat := []
  /-- The activations whose arguments are being passed. -/
  pending : List Nat := []
  writes : List Write := []
  /-- The instructions that entered the activations. -/
  entries : List (Nat × Int) := []
  /-- The values that the activations put aside to return them. -/
  returns : List (Nat × Value) := []
  /-- The activation that the last instruction ended. -/
  ended : Option Nat := none

namespace Journal

/-- What a writer has written to an address last. -/
def last (j : Journal) (writer : Option Nat) (a : Addr) : Option Value :=
  (j.writes.find? fun w => w.writer = writer ∧ w.address = a).map (·.value)

/-- The instruction that entered an activation. -/
def entered (j : Journal) (k : Nat) : Option Int := j.entries.lookup k

/-- What an activation has put aside to return it. -/
def returned (j : Journal) (k : Nat) : Option Value := j.returns.lookup k

def write (j : Journal) (writer : Option Nat) (a : Addr) : Option Value → Journal
  | some v => { j with writes := ⟨writer, a, v⟩ :: j.writes }
  | none => j

/-- Notes that the newest record is entered. -/
def enter (j : Journal) (position : Int) : Journal :=
  match j.pending with
  | k :: rest =>
    { j with frames := k :: j.frames, pending := rest, entries := (k, position) :: j.entries }
  | [] => j

/-- Notes what the innermost activation puts aside. -/
def putAside (j : Journal) : Option Value → Journal
  | some v => { j with returns := j.frames.head?.toList.map (·, v) ++ j.returns }
  | none => j

/-- Notes that the innermost activation ends and what its caller gets. -/
def leave (j : Journal) (slot : Addr) (result : Option Value) : Journal :=
  { j with frames := j.frames.tail, ended := j.frames.head? }.write j.frames.tail.head? slot result

/-- What is noted of an instruction that led from one state of a machine to another. -/
def watch (j : Journal) (q : Quad) (m m' : Machine) : Journal :=
  let j := { j with ended := none }
  match q.op with
  | .era => { j with made := j.made + 1, pending := j.made :: j.pending }
  | .param => j.write j.pending.head? q.res.word (m'.pending.head?.bind (·.cells[q.res.word]?))
  | .gosub => j.enter m.ip
  | .ret => j.putAside (if q.arg1.kind = .empty then none else m'.frames.head?.bind (·.staged))
  | .endFunction => j.leave q.res.word (m.frames.head?.bind (·.staged))
  | op =>
    match m.reach? q.res with
    | some a => if op.stores then j.write j.frames.head? a (m'.get? a) else j
    | none => j

end Journal

/-- A machine after a number of instructions, none of which failed, and what the journal has of
them. -/
def Machine.watched (im : Image) (start : Machine) : Nat → Option (Machine × Journal)
  | 0 => some (start, {})
  | n + 1 =>
    match start.watched im n with
    | some (m, j) =>
      match im.fetch? m.ip, m.step im with
      | some q, (none, m') => some (m', j.watch q m m')
      | _, _ => none
    | none => none

/-- What is seen of a program after a number of steps. -/
abbrev Program.seen (p : Program) (depth : Int) (input : Bytes) (room : Option Nat) :
    Nat → Option (Machine × Journal) :=
      (Machine.start p input room).watched (Image.ofProgram p depth)

theorem Machine.watched_succ {start m' : Machine} {j' : Journal}
    (h : start.watched im (n + 1) = some (m', j')) :
    ∃ m j q, start.watched im n = some (m, j) ∧ im.fetch? m.ip = some q ∧
      m.step im = (none, m') ∧ j' = j.watch q m m' := by
  unfold Machine.watched at h
  cases hbefore : start.watched im n with
  | none =>
    rw [hbefore] at h
    cases h
  | some before =>
    rw [hbefore] at h
    cases hfetch : im.fetch? before.1.ip with
    | none => simp [hfetch] at h
    | some q =>
      cases hstep : before.1.step im with
      | mk outcome m₁ =>
        cases outcome with
        | some o => simp [hfetch, hstep] at h
        | none =>
          simp only [hfetch, hstep, Option.some.injEq, Prod.mk.injEq] at h
          obtain ⟨rfl, rfl⟩ := h
          exact ⟨before.1, before.2, q, rfl, hfetch, hstep, rfl⟩

namespace Journal

section

variable (j : Journal)

theorem last_write (w w' : Option Nat) (a b : Addr) (v : Value) :
    (j.write w a (some v)).last w' b = if w = w' ∧ a = b then some v else j.last w' b := by
  by_cases h : w = w' ∧ a = b
  · simp [last, write, h]
  · rw [if_neg h]
    have hskip : decide (w = w' ∧ a = b) = false := by simpa using h
    simp only [last, write, List.find?_cons, hskip]

theorem last_write_of_ne_writer {w' : Option Nat} (h : w ≠ w') (a b : Addr) (v : Option Value) :
    (j.write w a v).last w' b = j.last w' b := by
  cases v with
  | none => rfl
  | some v => rw [last_write, if_neg fun heq => h heq.1]

theorem last_write_of_ne (w w' : Option Nat) {b : Addr} (h : a ≠ b) (v : Option Value) :
    (j.write w a v).last w' b = j.last w' b := by
  cases v with
  | none => rfl
  | some v => rw [last_write, if_neg fun heq => h heq.2]

@[simp]
theorem returned_write (w : Option Nat) (a : Addr) (v : Option Value) (k : Nat) :
    (j.write w a v).returned k = j.returned k := by cases v <;> rfl

@[simp]
theorem entered_write (w : Option Nat) (a : Addr) (v : Option Value) (k : Nat) :
    (j.write w a v).entered k = j.entered k := by cases v <;> rfl

@[simp]
theorem frames_write (w : Option Nat) (a : Addr) (v : Option Value) :
    (j.write w a v).frames = j.frames := by cases v <;> rfl

@[simp]
theorem pending_write (w : Option Nat) (a : Addr) (v : Option Value) :
    (j.write w a v).pending = j.pending := by cases v <;> rfl

@[simp]
theorem made_write (w : Option Nat) (a : Addr) (v : Option Value) :
    (j.write w a v).made = j.made := by cases v <;> rfl

end

end Journal

/-! ## What the journal knows -/

/-- The segment belongs to calls: its cells are in the frames of activations. -/
def Segment.ofCalls : Segment → Bool
  | .functions | .temps | .stack => true
  | _ => false

/-- The record of an activation holds what the journal says that the activation wrote. -/
structure Frame.Noted (j : Journal) (f : Frame) (k : Nat) : Prop where
  cells : ∀ segment ty a, Layout.standard.Holds segment ty a → segment.ofCalls = true →
    f.cells[a]? = j.last (some k) a
  staged : f.staged = j.returned k

/-- An activation under way was entered by the instruction before the one it returns to. -/
def Frame.Entered (j : Journal) (f : Frame) (k : Nat) : Prop :=
  ∃ position, j.entered k = some position ∧ f.returnTo = position + 1

/-- The journal knows where all that the frames hold comes from. -/
structure Machine.Noted (m : Machine) (j : Journal) : Prop where
  frames : List.Forall₂ (fun f k => Frame.Noted j f k ∧ Frame.Entered j f k) m.frames j.frames
  pending : List.Forall₂ (Frame.Noted j) m.pending j.pending
  distinct : (j.frames ++ j.pending).Nodup
  made : ∀ k ∈ j.frames ++ j.pending, k < j.made
  unused : ∀ k callee, j.made ≤ k → Frame.Noted j { callee } k
  program : ∀ segment ty a, Layout.standard.Holds segment ty a → segment.ofCalls = true →
    m.globals[a]? = j.last none a

variable {quads : List Quad} {i : Nat} {m m' : Machine} {j j' : Journal}

theorem Frame.Noted.congr (h : f.Noted j k)
    (hlast : ∀ segment ty a, Layout.standard.Holds segment ty a → segment.ofCalls = true →
      j'.last (some k) a = j.last (some k) a)
    (hreturned : j'.returned k = j.returned k) : f.Noted j' k := by
  refine ⟨?_, h.staged.trans hreturned.symm⟩
  intro segment ty a ha hcalls
  rw [hlast segment ty a ha hcalls]
  exact h.cells segment ty a ha hcalls

theorem Machine.Noted.congr (h : m.Noted j) (hframes : m'.frames = m.frames)
    (hpending : m'.pending = m.pending) (hglobals : m'.globals = m.globals) : m'.Noted j := by
  refine ⟨?_, ?_, h.distinct, h.made, h.unused, ?_⟩
  · rw [hframes]
    exact h.frames
  · rw [hpending]
    exact h.pending
  · rw [hglobals]
    exact h.program

/-- A journal that tells the same of the cells of calls is as good. -/
theorem Machine.Noted.retell (h : m.Noted j) (hframes : j'.frames = j.frames)
    (hpending : j'.pending = j.pending) (hmade : j'.made = j.made)
    (hlast : ∀ w segment ty a, Layout.standard.Holds segment ty a → segment.ofCalls = true →
      j'.last w a = j.last w a)
    (hreturned : ∀ k, j'.returned k = j.returned k) (hentered : ∀ k, j'.entered k = j.entered k) :
    m.Noted j' := by
  have hnoted : ∀ f k, Frame.Noted j f k → Frame.Noted j' f k := fun f k hf =>
    hf.congr (fun segment ty a => hlast _ segment ty a) (hreturned k)
  refine ⟨?_, ?_, ?_, ?_, ?_, ?_⟩
  · rw [hframes]
    refine h.frames.imp ?_
    rintro f k ⟨hf, position, hposition, hreturn⟩
    exact ⟨hnoted f k hf, position, (hentered k).trans hposition, hreturn⟩
  · rw [hpending]
    exact h.pending.imp hnoted
  · rw [hframes, hpending]
    exact h.distinct
  · rw [hframes, hpending, hmade]
    exact h.made
  · rw [hmade]
    exact fun k callee hk => hnoted _ _ (h.unused k callee hk)
  · intro segment ty a ha hcalls
    rw [hlast none segment ty a ha hcalls]
    exact h.program segment ty a ha hcalls

theorem Machine.Noted.reset (h : m.Noted j) : m.Noted { j with ended := none } :=
  h.retell rfl rfl rfl (fun _ _ _ _ _ _ => rfl) (fun _ => rfl) fun _ => rfl

theorem Charted.start_noted (h : Charted p) (input : Bytes) (room : Option Nat) :
    (Machine.start p input room).Noted {} := by
  refine ⟨.nil, .nil, .nil, by simp, ?_, ?_⟩
  · intro k callee _
    refine ⟨?_, rfl⟩
    intro segment ty a _ _
    simp [Cells.empty, Journal.last]
  · intro segment ty a ha hcalls
    cases hv : p.consts[a]? with
    | none => exact hv
    | some v =>
      obtain ⟨ty', ha', -⟩ := h.consts a v hv
      rw [(Layout.standard_holds_inj ha ha').1] at hcalls
      cases hcalls

/-! ## Writing cells -/

theorem Machine.get?_setCurrent (m : Machine) (a : Addr) (v : Value) :
    (m.setCurrent a v).get? a = some v := by
  unfold Machine.setCurrent
  split
  · rename_i hframes
    simp [Machine.get?, hframes]
  · simp [Machine.get?]

section

variable (h : m.Noted j) (ha : Layout.standard.Holds segment ty a)
  (hcalls : segment.ofCalls = false)

include h ha hcalls

/-- An entry about a cell of the program changes nothing that the frames depend on. -/
theorem Machine.Noted.write_other (w : Option Nat) (v : Option Value) :
    m.Noted (j.write w a v) := by
  refine h.retell (by simp) (by simp) (by simp) ?_ (by simp) (by simp)
  intro w' segment' ty' b hb hcalls'
  apply Journal.last_write_of_ne
  rintro rfl
  rw [(Layout.standard_holds_inj ha hb).1, hcalls'] at hcalls
  cases hcalls

theorem Machine.Noted.setGlobal (v : Value) : (m.setGlobal a v).Noted j := by
  refine ⟨h.frames, h.pending, h.distinct, h.made, h.unused, ?_⟩
  intro segment' ty' b hb hcalls'
  have hne : a ≠ b := by
    rintro rfl
    rw [(Layout.standard_holds_inj ha hb).1, hcalls'] at hcalls
    cases hcalls
  rw [Machine.setGlobal, Cells.getElem?_write, if_neg hne]
  exact h.program segment' ty' b hb hcalls'

end

/-- A write is noted by whoever makes it. -/
theorem Frame.Noted.write (h : f.Noted j k) (a : Addr) (v : Value) :
    ({ f with cells := f.cells.insert a v } : Frame).Noted (j.write (some k) a (some v)) k := by
  refine ⟨?_, by rw [Journal.returned_write]; exact h.staged⟩
  intro segment ty b hb hcalls
  rw [Journal.last_write, Cells.getElem?_write]
  by_cases hab : a = b
  · rw [if_pos hab, if_pos ⟨rfl, hab⟩]
  · rw [if_neg hab, if_neg fun heq => hab heq.2]
    exact h.cells segment ty b hb hcalls

/-- A write by one is no write by another. -/
theorem Frame.Noted.write_ne (h : f.Noted j k) (hw : w ≠ some k) (a : Addr) (v : Option Value) :
    f.Noted (j.write w a v) k :=
  h.congr (fun _ _ b _ _ => Journal.last_write_of_ne_writer j hw a b v) (Journal.returned_write ..)

/-- Outside of any call it is the program that writes. -/
theorem Machine.Noted.write_program (h : m.Noted j) (a : Addr) (v : Value) :
    (m.setGlobal a v).Noted (j.write none a (some v)) := by
  refine ⟨?_, ?_, by simpa using h.distinct, by simpa using h.made, ?_, ?_⟩
  · rw [Journal.frames_write]
    refine h.frames.imp ?_
    rintro f k ⟨hf, position, hposition, hreturn⟩
    exact ⟨hf.write_ne (by simp) a _, position, (Journal.entered_write ..).trans hposition, hreturn⟩
  · rw [Journal.pending_write]
    exact h.pending.imp fun f k hf => hf.write_ne (by simp) a _
  · rw [Journal.made_write]
    exact fun k callee hk => (h.unused k callee hk).write_ne (by simp) a _
  · intro segment ty b hb hcalls
    rw [Journal.last_write, Machine.setGlobal, Cells.getElem?_write,
      h.program segment ty b hb hcalls]
    simp

theorem forall₂_imp_mem {R S : Frame → Nat → Prop} {fs : List Frame} (h : List.Forall₂ R fs ks)
    (himp : ∀ f k, k ∈ ks → R f k → S f k) : List.Forall₂ S fs ks := by
  induction h with
  | nil => exact .nil
  | cons hf _ ih =>
    exact .cons (himp _ _ (List.mem_cons_self ..) hf)
      (ih fun f k hk => himp f k (List.mem_cons_of_mem _ hk))

/-- Inside of a call it is the innermost activation that writes. -/
theorem Machine.Noted.write_call (h : m.Noted j) (hm : m.frames = f :: rest)
    (hj : j.frames = k :: ks) (a : Addr) (v : Value) :
    ({ m with frames := { f with cells := f.cells.insert a v } :: rest } : Machine).Noted
      (j.write (some k) a (some v)) := by
  have hframes := h.frames
  rw [hm, hj] at hframes
  obtain ⟨⟨hf, position, hposition, hreturn⟩, hrest⟩ := List.forall₂_cons.1 hframes
  have hfresh : k ∉ ks ++ j.pending := by
    have hdistinct := h.distinct
    rw [hj] at hdistinct
    exact (List.nodup_cons.1 hdistinct).1
  have hk : k < j.made := h.made k (by simp [hj])
  have hother : ∀ k' ∈ ks ++ j.pending, some k ≠ some k' := by
    rintro k' hk' heq
    obtain rfl := Option.some.inj heq
    exact hfresh hk'
  refine ⟨?_, ?_, by simpa using h.distinct, by simpa using h.made, ?_, ?_⟩
  · rw [Journal.frames_write, hj]
    refine .cons ⟨hf.write a v, position, (Journal.entered_write ..).trans hposition, hreturn⟩ ?_
    refine forall₂_imp_mem hrest ?_
    rintro g k' hk' ⟨hg, position', hposition', hreturn'⟩
    exact ⟨hg.write_ne (hother k' (List.mem_append_left _ hk')) a _, position',
      (Journal.entered_write ..).trans hposition', hreturn'⟩
  · rw [Journal.pending_write]
    exact forall₂_imp_mem h.pending fun g k' hk' hg =>
      hg.write_ne (hother k' (List.mem_append_right _ hk')) a _
  · rw [Journal.made_write]
    intro k' callee hk'
    refine (h.unused k' callee hk').write_ne ?_ a _
    rintro heq
    obtain rfl := Option.some.inj heq
    omega
  · intro segment ty b hb hcalls
    exact h.program segment ty b hb hcalls

theorem Machine.Noted.setCurrent (h : m.Noted j) (a : Addr) (v : Value) :
    (m.setCurrent a v).Noted (j.write j.frames.head? a (some v)) := by
  have hframes := h.frames
  unfold Machine.setCurrent
  split
  · rename_i hm
    rw [hm, List.forall₂_nil_left_iff] at hframes
    rw [hframes]
    exact h.write_program a v
  · rename_i f rest hm
    rw [hm] at hframes
    obtain ⟨k, ks, -, -, hj⟩ := List.forall₂_cons_left_iff.1 hframes
    rw [hj]
    exact h.write_call hm hj a v

theorem Machine.Noted.put (h : m.Noted j) (ha : Layout.standard.Holds segment ty a) (v : Value) :
    (m.put segment a v).Noted (j.write j.frames.head? a ((m.put segment a v).get? a)) := by
  by_cases hcalls : segment.ofCalls = true
  · have hput : m.put segment a v = m.setCurrent a v := by
      cases segment <;> first | rfl | cases hcalls
    rw [hput, Machine.get?_setCurrent]
    exact h.setCurrent a v
  · have hcalls : segment.ofCalls = false := by simpa using hcalls
    have hput : m.put segment a v = m.setGlobal a v := by
      cases segment <;> first | rfl | cases hcalls
    rw [hput]
    exact (h.setGlobal ha hcalls v).write_other ha hcalls _ _

/-! ## Calls -/

theorem Machine.Noted.era (h : m.Noted j) (callee : Addr) :
    ({ m with pending := { callee } :: m.pending } : Machine).Noted
      { j with made := j.made + 1, pending := j.made :: j.pending } := by
  have hnoted : ∀ f k, Frame.Noted j f k →
      Frame.Noted { j with made := j.made + 1, pending := j.made :: j.pending } f k := fun f k hf =>
    hf.congr (fun _ _ _ _ _ => rfl) rfl
  refine ⟨?_, ?_, ?_, ?_, ?_, h.program⟩
  · exact h.frames.imp fun f k hf => ⟨hnoted f k hf.1, hf.2⟩
  · exact .cons (hnoted _ _ (h.unused j.made callee (Nat.le_refl _))) (h.pending.imp hnoted)
  · rw [List.nodup_middle, List.nodup_cons]
    exact ⟨fun hmem => Nat.lt_irrefl _ (h.made _ hmem), h.distinct⟩
  · intro k hk
    rw [List.mem_append, List.mem_cons] at hk
    show k < j.made + 1
    rcases hk with hk | rfl | hk
    · exact Nat.lt_succ_of_lt (h.made k (List.mem_append_left _ hk))
    · exact Nat.lt_succ_self _
    · exact Nat.lt_succ_of_lt (h.made k (List.mem_append_right _ hk))
  · intro k callee' hk
    exact hnoted _ _ (h.unused k callee' (Nat.le_of_succ_le hk))

/-- An argument is a write by the activation that gets it. -/
theorem Machine.Noted.param (h : m.Noted j) {r : Frame} {rest : List Frame}
    (hm : m.pending = r :: rest) (a : Addr) (v : Value) :
    ({ m with pending := { r with cells := r.cells.insert a v } :: rest } : Machine).Noted
      (j.write j.pending.head? a (some v)) := by
  have hpending := h.pending
  rw [hm] at hpending
  obtain ⟨k, ks, hr, hrest, hj⟩ := List.forall₂_cons_left_iff.1 hpending
  have hk : k < j.made := h.made k (by simp [hj])
  have hother : ∀ k' ∈ j.frames ++ ks, some k ≠ some k' := by
    rintro k' hk' heq
    obtain rfl := Option.some.inj heq
    have hdistinct := h.distinct
    rw [hj, List.nodup_middle, List.nodup_cons] at hdistinct
    exact hdistinct.1 hk'
  rw [hj, List.head?_cons]
  refine ⟨?_, ?_, by simpa using h.distinct, by simpa using h.made, ?_, ?_⟩
  · rw [Journal.frames_write]
    refine forall₂_imp_mem h.frames ?_
    rintro g k' hk' ⟨hg, position, hposition, hreturn⟩
    exact ⟨hg.write_ne (hother k' (List.mem_append_left _ hk')) a _, position,
      (Journal.entered_write ..).trans hposition, hreturn⟩
  · rw [Journal.pending_write, hj]
    exact .cons (hr.write a v) (forall₂_imp_mem hrest fun g k' hk' hg =>
      hg.write_ne (hother k' (List.mem_append_right _ hk')) a _)
  · rw [Journal.made_write]
    intro k' callee hk'
    refine (h.unused k' callee hk').write_ne ?_ a _
    intro heq
    obtain rfl := Option.some.inj heq
    omega
  · intro segment ty b hb hcalls
    exact h.program segment ty b hb hcalls

theorem Machine.Noted.enter (h : m.Noted j) (hm : m.pending = r :: rest) (position : Int) :
    ({ m with
      pending := rest
      frames := { r with returnTo := position + 1 } :: m.frames } : Machine).Noted
      (j.enter position) := by
  have hpending := h.pending
  rw [hm] at hpending
  obtain ⟨k, ks, hr, hrest, hj⟩ := List.forall₂_cons_left_iff.1 hpending
  have hdistinct := h.distinct
  have hmade := h.made
  rw [hj] at hdistinct hmade
  unfold Journal.enter
  rw [hj]
  have hnoted : ∀ f k', Frame.Noted j f k' → Frame.Noted { j with
      frames := k :: j.frames, pending := ks, entries := (k, position) :: j.entries } f k' :=
    fun f k' hf => hf.congr (fun _ _ _ _ _ => rfl) rfl
  refine ⟨.cons ⟨⟨hr.cells, hr.staged⟩, position, ?_, rfl⟩ ?_, hrest.imp hnoted, ?_, ?_, ?_,
    h.program⟩
  · simp [Journal.entered]
  · refine forall₂_imp_mem h.frames ?_
    rintro g k' hk' ⟨hg, position', hposition', hreturn'⟩
    refine ⟨hnoted _ _ hg, position', ?_, hreturn'⟩
    have hne : (k' == k) = false := by
      rw [beq_eq_false_iff_ne]
      rintro rfl
      rw [List.nodup_middle, List.nodup_cons] at hdistinct
      exact hdistinct.1 (List.mem_append_left _ hk')
    unfold Journal.entered
    rw [List.lookup_cons, hne]
    exact hposition'
  · rw [List.nodup_middle] at hdistinct
    exact hdistinct
  · intro k' hk'
    refine hmade k' ?_
    simp only [List.cons_append, List.mem_cons, List.mem_append] at hk' ⊢
    exact hk'.elim (fun heq => .inr (.inl heq)) (Or.imp_right .inr)
  · exact fun k' callee hk' => hnoted _ _ (h.unused k' callee hk')

theorem Machine.Noted.putAside (h : m.Noted j) (hm : m.frames = r :: rest) (v : Value) :
    ({ m with frames := { r with staged := some v } :: rest } : Machine).Noted
      (j.putAside (some v)) := by
  have hframes := h.frames
  have hdistinct := h.distinct
  rw [hm] at hframes
  obtain ⟨k, ks, ⟨hr, hentered⟩, hrest, hj⟩ := List.forall₂_cons_left_iff.1 hframes
  have hk : k < j.made := h.made k (by simp [hj])
  rw [hj, List.cons_append, List.nodup_cons] at hdistinct
  have hnoted : ∀ f k', k' ≠ k → Frame.Noted j f k' →
      Frame.Noted { j with returns := (k, v) :: j.returns } f k' := by
    intro f k' hne hf
    refine hf.congr (fun _ _ _ _ _ => rfl) ?_
    unfold Journal.returned
    rw [List.lookup_cons, beq_eq_false_iff_ne.2 hne]
  have hother : ∀ k' ∈ ks ++ j.pending, k' ≠ k := by
    rintro k' hk' rfl
    exact hdistinct.1 hk'
  have hput : j.putAside (some v) = { j with returns := (k, v) :: j.returns } := by
    simp [Journal.putAside, hj]
  rw [hput]
  refine ⟨hj.symm.subst (motive := List.Forall₂ _ _) (.cons ⟨⟨hr.cells, ?_⟩, hentered⟩ ?_), ?_,
    h.distinct, h.made, ?_, h.program⟩
  · simp [Journal.returned]
  · exact forall₂_imp_mem hrest fun g k' hk' hg =>
      ⟨hnoted g k' (hother k' (List.mem_append_left _ hk')) hg.1, hg.2⟩
  · exact forall₂_imp_mem h.pending fun g k' hk' hg =>
      hnoted g k' (hother k' (List.mem_append_right _ hk')) hg
  · intro k' callee hk'
    refine hnoted _ _ ?_ (h.unused k' callee hk')
    rintro rfl
    exact Nat.lt_irrefl _ (Nat.lt_of_lt_of_le hk hk')

theorem Machine.Noted.leave (h : m.Noted j) {r : Frame} {rest : List Frame}
    (hm : m.frames = r :: rest) (slot : Addr) :
    (({ m with frames := rest } : Machine).receive slot r.staged).Noted
      (j.leave slot r.staged) := by
  have hframes := h.frames
  have hdistinct := h.distinct
  have hmade := h.made
  rw [hm] at hframes
  obtain ⟨k, ks, hr, hrest, hj⟩ := List.forall₂_cons_left_iff.1 hframes
  rw [hj] at hdistinct hmade
  have hnoted : ∀ f k', Frame.Noted j f k' → Frame.Noted
      { j with frames := j.frames.tail, ended := j.frames.head? } f k' :=
    fun f k' hf => hf.congr (fun _ _ _ _ _ => rfl) rfl
  have htail : ks = j.frames.tail := by rw [hj, List.tail_cons]
  have hleft : ({ m with frames := rest } : Machine).Noted
      { j with frames := j.frames.tail, ended := j.frames.head? } := by
    refine ⟨htail.subst (motive := List.Forall₂ _ _) (hrest.imp fun f k' hf =>
      ⟨hnoted f k' hf.1, hf.2⟩), h.pending.imp hnoted, ?_, ?_, ?_, h.program⟩
    · rw [hj]
      exact (List.nodup_cons.1 hdistinct).2
    · rw [hj]
      exact fun k' hk' => hmade k' (List.mem_cons_of_mem _ hk')
    · exact fun k' callee hk' => hnoted _ _ (h.unused k' callee hk')
  cases hstaged : r.staged with
  | none => exact hleft
  | some v => exact hleft.setCurrent slot v

/-! ## Runs -/

/-- An instruction that writes no call, return or end is noted by the cell that it writes. -/
theorem Journal.watch_of_stores (hop : q.op.stores = true) (ha : m.reach? q.res = some a) :
    j.watch q m m' = { j with ended := none }.write j.frames.head? a (m'.get? a) := by
  unfold Journal.watch
  cases hk : q.op <;> simp only [hk, ha, ↓reduceIte, Opcode.stores] at hop ⊢ <;> cases hop

/-- Nothing is noted of an instruction that writes no cell and is no part of a call. -/
theorem Journal.watch_of_plain (hop : q.op = .write ∨ q.op = .goto ∨ q.op = .gotoFalse ∨
    q.op = .ver) :
    j.watch q m m' = { j with ended := none } := by
  unfold Journal.watch
  rcases hop with hop | hop | hop | hop <;> rw [hop] <;> cases m.reach? q.res <;> rfl

theorem Journal.watch_param (j : Journal) (m : Machine) (p : Param) (x : Operand) (r : Frame)
    (rest : List Frame) (v : Value) :
    j.watch (p.bind x) m { m.advance with
      pending := { r with cells := r.cells.insert p.address v } :: rest } =
      { j with ended := none }.write j.pending.head? p.address (some v) := by
  simp [Journal.watch, Param.bind]

theorem Journal.watch_leave (hframes : m.frames = r :: rest) (slot : Addr) :
    j.watch { op := .endFunction, res := .cell slot } m m' =
      { j with ended := none }.leave slot r.staged := by
  simp [Journal.watch, hframes]

/-- What is noted of an instruction keeps the journal in order. -/
theorem Effect.noted (h : m.Noted j) (heffect : Effect quads i m q m') :
    m'.Noted (j.watch q m m') := by
  have hadvance : m.advance.Noted { j with ended := none } := h.reset.congr rfl rfl rfl
  cases heffect with
  | store hop _ _ hreach ha _ _ _ =>
    rw [Journal.watch_of_stores hop hreach]
    exact hadvance.put ha _
  | @read _ _ _ _ _ rest hreach ha _ _ _ =>
    have hread : ({ m.advance with input := rest } : Machine).Noted { j with ended := none } :=
      hadvance.congr rfl rfl rfl
    rw [Journal.watch_of_stores rfl hreach]
    exact hread.put ha _
  | write =>
    rw [Journal.watch_of_plain (.inl rfl)]
    exact hadvance.congr rfl rfl rfl
  | jump hop _ =>
    rw [Journal.watch_of_plain (.inr (hop.imp_right .inl))]
    exact hadvance.congr rfl rfl rfl
  | pass =>
    exact hadvance
  | era => exact hadvance.era _
  | @param p x r rest v _ hpending _ _ =>
    rw [Journal.watch_param]
    exact hadvance.param hpending _ _
  | gosub _ hpending _ _ => exact (hadvance.enter hpending m.ip).congr rfl rfl rfl
  | @ret x f r rest staged position hframes hstaged _ _ =>
    rcases hstaged with ⟨hkind, rfl⟩ | ⟨hkind, v, rfl, -⟩
    · have hnothing : j.watch { op := .ret, arg1 := x, res := .cell f.address } m
          { m.advance with frames := { r with staged := r.staged } :: rest, ip := position } =
          { j with ended := none } := by simp [Journal.watch, hkind, Journal.putAside]
      rw [hnothing]
      exact hadvance.congr hframes.symm rfl rfl
    · have hvalue : j.watch { op := .ret, arg1 := x, res := .cell f.address } m
          { m.advance with frames := { r with staged := some v } :: rest, ip := position } =
          { j with ended := none }.putAside (some v) := by simp [Journal.watch, hkind]
      rw [hvalue]
      exact (hadvance.putAside hframes v).congr rfl rfl rfl
  | @leave f r rest _ hframes _ =>
    rw [Journal.watch_leave hframes]
    have hleft := hadvance.leave hframes f.address
    cases hstaged : r.staged with
    | none =>
      rw [hstaged] at hleft
      exact hleft.congr rfl rfl rfl
    | some v =>
      rw [hstaged] at hleft
      refine hleft.congr ?_ ?_ ?_ <;> simp only [Machine.receive, Machine.setCurrent] <;>
        split <;> rfl
  | check _ _ =>
    exact hadvance.congr rfl rfl rfl
  | @element n _ _ _ _ hp _ =>
    have hdrop : ({ m.advance with indices := m.indices.drop n } : Machine).Noted
        { j with ended := none } := hadvance.congr rfl rfl rfl
    rw [Journal.watch_of_stores rfl (reach?_cell _ m)]
    exact hdrop.put hp _

/-- A step that goes on, of a machine in order: the effect of the next instruction. -/
theorem step_effect (him : im.Standard quads) (hchart : Chart quads) (h : m.SoundAt quads i)
    (hfetch : im.fetch? m.ip = some q) (hstep : m.step im = (none, m')) :
    quads[i]? = some q ∧ Effect quads i m q m' ∧ ∃ i', m'.SoundAt quads i' := by
  have hq : quads[i]? = some q := by
    rw [h.ip] at hfetch
    rw [← him.1, Array.getElem?_toList]
    exact hfetch
  obtain ⟨hlt, -⟩ := List.getElem?_eq_some_iff.1 hq
  have hdone : m.isDone im = false := by
    simp only [Machine.isDone, decide_eq_false_iff_not, Int.not_le]
    rw [h.ip, ← Array.length_toList, him.1]
    omega
  rcases step_sound him hchart h hdone with ⟨q', m'', i', hq', hstep', heffect, hsound⟩ | ⟨op, e,
    m'', hstep', -⟩
  · rw [hq] at hq'
    obtain rfl := Option.some.inj hq'
    rw [hstep] at hstep'
    obtain rfl := (Prod.mk.inj hstep').2
    exact ⟨hq, heffect, i', hsound⟩
  · rw [hstep] at hstep'
    cases hstep'

/-- Every state that a compiled program goes through is in order and known to the journal. -/
theorem Charted.watched (hcharted : Charted p) (h : p.seen depth input room n = some (m, j)) :
    (∃ i, m.SoundAt p.quads.toList i) ∧ m.Noted j := by
  induction n generalizing m j with
  | zero =>
    obtain ⟨rfl, rfl⟩ := Prod.mk.inj (Option.some.inj h)
    exact ⟨hcharted.start_sound input room, hcharted.start_noted input room⟩
  | succ n ih =>
    obtain ⟨m₀, j₀, q, hbefore, hfetch, hstep, rfl⟩ := Machine.watched_succ h
    obtain ⟨⟨i, hsound⟩, hnoted⟩ := ih hbefore
    obtain ⟨-, heffect, hsound'⟩ :=
      step_effect (hcharted.standard depth) hcharted.chart hsound hfetch hstep
    exact ⟨hsound', heffect.noted hnoted⟩

/-- The last instruction of a run, and the state that it found. -/
theorem Charted.watched_succ (hcharted : Charted p)
    (h : p.seen depth input room (n + 1) = some (m', j')) :
    ∃ m j q i, p.seen depth input room n = some (m, j) ∧ j' = j.watch q m m' ∧
      m.SoundAt p.quads.toList i ∧ m.Noted j ∧ p.quads.toList[i]? = some q ∧
      Effect p.quads.toList i m q m' := by
  obtain ⟨m, j, q, hbefore, hfetch, hstep, hj⟩ := Machine.watched_succ h
  obtain ⟨⟨i, hsound⟩, hnoted⟩ := hcharted.watched hbefore
  obtain ⟨hq, heffect, -⟩ := step_effect (hcharted.standard depth) hcharted.chart hsound
    hfetch hstep
  exact ⟨m, j, q, i, hbefore, hj, hsound, hnoted, hq, heffect⟩

end Quadlang
