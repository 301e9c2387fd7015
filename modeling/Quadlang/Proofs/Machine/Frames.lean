-- The discipline of frames, whatever the instructions are: how many there are, which of them is
-- the innermost, and that an instruction leaves the frames around the innermost one alone. The
-- frames are told apart by the numbers of their records, which a roster keeps beside the machine.
import Mathlib.Data.List.Nodup
import Quadlang.Machine.Run
import Quadlang.Proofs.Machine.Effects
import Quadlang.Proofs.Machine.Reads

namespace Quadlang

open Success

variable {α : Type} {m₁ : Machine}

/-! ## Rosters -/

/-- Which frames a machine has. Records are numbered in the order in which they are made, and the
frame of the program has no number. The lists have the newest first. -/
structure Roster where
  /-- How many records were made. -/
  made : Nat := 0
  /-- The frame that instructions work on. -/
  current : Option Nat := none
  /-- The frames that wait for a call to end. -/
  suspended : List (Option Nat) := []
  /-- The records of calls whose arguments are being passed. -/
  pending : List Nat := []
  deriving DecidableEq, Repr

/-- The frames after an instruction that did not fail. -/
def Roster.follow (r : Roster) : Opcode → Roster
  | .era => { r with made := r.made + 1, pending := r.made :: r.pending }
  | .gosub =>
    match r.pending with
    | k :: rest =>
      { r with current := some k, suspended := r.current :: r.suspended, pending := rest }
    | [] => r
  | .endFunction =>
    match r.suspended with
    | k :: rest => { r with current := k, suspended := rest }
    | [] => r
  | _ => r

/-- The frames after the next step of a machine. -/
def Machine.follow (im : Image) (m : Machine) (r : Roster) : Roster :=
  match im.fetch? m.ip, m.step im with
  | some q, (none, _) => r.follow q.op
  | _, _ => r

/-- The frames when a run of at most `limit` steps has ended. -/
def Machine.roster (im : Image) : (limit : Nat) → Machine → Roster → Roster
  | 0, _, r => r
  | limit + 1, m, r =>
    if m.isDone im then r
    else match m.step im with
      | (some _, _) => r
      | (none, m') => m'.roster im limit (m.follow im r)

/-- The record of a number, if it is that of a call under way. -/
def Roster.frame? (r : Roster) (m : Machine) (k : Nat) : Option Frame :=
  ((r.current :: r.suspended).zip m.frames).lookup (some k)

/-- A roster lists the frames of a machine. The calls under way have the given numbers. -/
structure Machine.Listed (m : Machine) (r : Roster) (calls : List Nat) : Prop where
  chain : r.current :: r.suspended = calls.map some ++ [none]
  frames : calls.length = m.frames.length
  pending : r.pending.length = m.pending.length
  distinct : (calls ++ r.pending).Nodup
  made : ∀ k ∈ calls ++ r.pending, k < r.made

section Listed

variable {m m' : Machine} {r : Roster} {calls : List Nat} {k : Nat}

theorem Machine.Listed.congr (h : m.Listed r calls) (hframes : m'.frames.length = m.frames.length)
    (hpending : m'.pending.length = m.pending.length) : m'.Listed r calls :=
  ⟨h.chain, h.frames.trans hframes.symm, h.pending.trans hpending.symm, h.distinct, h.made⟩

theorem Machine.Listed.length_suspended (h : m.Listed r calls) :
    r.suspended.length = m.frames.length := by
  have hlength := congrArg List.length h.chain
  simp only [List.length_cons, List.length_append, List.length_map, List.length_nil] at hlength
  rw [← h.frames]
  omega

/-- The frame of the program is behind all others, so that it hides none of them. -/
theorem lookup_zip_some {calls : List Nat} {frames : List α} (h : calls.length = frames.length)
    (k : Nat) :
    ((calls.map some ++ [none]).zip frames).lookup (some k) = (calls.zip frames).lookup k := by
  induction calls generalizing frames with
  | nil =>
    obtain rfl := List.eq_nil_of_length_eq_zero h.symm
    rfl
  | cons c calls ih =>
    cases frames with
    | nil => cases h
    | cons f frames =>
      simp only [List.map_cons, List.cons_append, List.zip_cons_cons, List.lookup_cons]
      rw [ih (Nat.succ.inj h)]
      rfl

theorem Machine.Listed.frame?_eq (h : m.Listed r calls) (k : Nat) :
    r.frame? m k = (calls.zip m.frames).lookup k := by
  unfold Roster.frame?
  rw [h.chain, lookup_zip_some h.frames]

/-- A suspended frame of a call is not the innermost one. -/
theorem Machine.Listed.of_suspended (h : m.Listed r calls) (hk : some k ∈ r.suspended) :
    ∃ c rest f frames, calls = c :: rest ∧ m.frames = f :: frames ∧ k ∈ rest ∧ k ≠ c ∧
      r.current = some c ∧ r.suspended = rest.map some ++ [none] := by
  have hchain := h.chain
  have hframes := h.frames
  have hdistinct := (List.nodup_append.1 h.distinct).1
  cases calls with
  | nil =>
    simp only [List.map_nil, List.nil_append, List.cons.injEq] at hchain
    rw [hchain.2] at hk
    cases hk
  | cons c rest =>
    simp only [List.map_cons, List.cons_append, List.cons.injEq] at hchain
    cases hlist : m.frames with
    | nil =>
      rw [hlist] at hframes
      cases hframes
    | cons f frames =>
      have hmem : k ∈ rest := by
        rw [hchain.2] at hk
        simpa using hk
      refine ⟨c, rest, f, frames, rfl, rfl, hmem, ?_, hchain.1, hchain.2⟩
      rintro rfl
      exact (List.nodup_cons.1 hdistinct).1 hmem

end Listed

/-! ## Instructions that keep to the innermost frame -/

namespace Execute

/-- The state that a step ends in, also when it fails. -/
def after {α : Type} (x : Execute α) (m : Machine) : Machine :=
  match x m with
  | .ok _ m' | .error _ m' => m'

/-- The frames around the innermost one are the same, and there are as many frames and records. -/
structure Inmost (m m' : Machine) : Prop where
  frames : m'.frames.tail = m.frames.tail
  length : m'.frames.length = m.frames.length
  pending : m'.pending.length = m.pending.length

theorem Inmost.refl (m : Machine) : Inmost m m := ⟨rfl, rfl, rfl⟩

theorem Inmost.trans {m m' : Machine} (h : Inmost m m₁) (h' : Inmost m₁ m') : Inmost m m' :=
  ⟨h'.frames.trans h.frames, h'.length.trans h.length, h'.pending.trans h.pending⟩

/-- A step works on the innermost frame, the newest record and the memory of the program only,
whether it succeeds or fails. -/
def Keeps {α : Type} (x : Execute α) (m : Machine) : Prop := Inmost m (x.after m)

section Keeps

variable {α β : Type} {x : Execute α} {f : α → Execute β} {m : Machine}

theorem after_of_ok {a : α} (h : x m = .ok a m₁) : x.after m = m₁ := by
  unfold after
  rw [h]

theorem after_of_error {cause : RunFault} (h : x m = .error cause m₁) : x.after m = m₁ := by
  unfold after
  rw [h]

theorem Keeps.bind_ok (hx : Keeps x m) (hf : ∀ a m₁, x m = .ok a m₁ → Keeps (f a) m₁) :
    Keeps (x >>= f) m := by
  unfold Keeps at hx ⊢
  cases h : x m with
  | ok a m₁ =>
    rw [after_of_ok h] at hx
    have hrest := hf a m₁ h
    unfold after
    rw [bind_of_ok h]
    exact hx.trans hrest
  | error cause m₁ =>
    rw [after_of_error h] at hx
    rw [after_of_error (bind_of_error h)]
    exact hx

theorem Keeps.bind (hx : Keeps x m) (hf : ∀ a m₁, Keeps (f a) m₁) : Keeps (x >>= f) m :=
  hx.bind_ok fun a m₁ _ => hf a m₁

theorem keeps_of_same (hframes : (x.after m).frames = m.frames)
    (hpending : (x.after m).pending = m.pending) : Keeps x m :=
  ⟨by rw [hframes], by rw [hframes], by rw [hpending]⟩

theorem keeps_pure (a : α) (m : Machine) : Keeps (pure a : Execute α) m := .refl m

theorem keeps_throw (cause : RunFault) (m : Machine) : Keeps (throw cause : Execute α) m := .refl m

theorem keeps_get_bind {f : Machine → Execute β} (hf : Keeps (f m) m) : Keeps (get >>= f) m := hf

theorem Keeps.guard {c : Prop} [Decidable c] {cause : RunFault} {y : Execute β} (hy : Keeps y m) :
    Keeps (if c then (throw cause : Execute α) >>= f else y) m := by
  split
  · exact .refl m
  · exact hy

theorem keeps_lift (x : Except RunFault α) (m : Machine) : Keeps (lift x) m := by
  cases x with
  | ok a => exact keeps_pure a m
  | error cause => exact keeps_throw cause m

end Keeps

theorem keeps_cell (a : Addr) (m : Machine) : Keeps (cell a) m := by
  refine keeps_get_bind ?_
  cases m.get? a with
  | none => exact keeps_throw _ m
  | some v => exact keeps_pure v m

theorem keeps_address (o : Operand) (m : Machine) : Keeps (address o) m := by
  unfold address
  split
  · exact keeps_pure _ m
  · refine keeps_get_bind ?_
    split
    · exact keeps_throw _ m
    · exact keeps_pure _ m
    · exact keeps_throw _ m
  · exact keeps_throw _ m

theorem keeps_load (o : Operand) (m : Machine) : Keeps (load o) m := by
  unfold load
  split
  · exact keeps_pure _ m
  · exact (keeps_address o m).bind keeps_cell
  · exact (keeps_address o m).bind keeps_cell
  · exact keeps_throw _ m

theorem inmost_setCurrent (m : Machine) (a : Addr) (v : Value) : Inmost m (m.setCurrent a v) := by
  unfold Machine.setCurrent
  cases h : m.frames with
  | nil => exact ⟨by simp [h], by simp [h], rfl⟩
  | cons f rest => exact ⟨by simp [h], by simp [h], rfl⟩

theorem keeps_store (im : Image) (a : Addr) (v : Value) (m : Machine) : Keeps (store im a v) m := by
  unfold store
  cases im.table.locate? a with
  | none => exact keeps_throw _ m
  | some s =>
    simp only
    split
    · exact inmost_setCurrent m a v
    · exact inmost_setCurrent m a v
    · exact inmost_setCurrent m a v
    · exact keeps_of_same rfl rfl

theorem keeps_binary (im : Image) (op : BinaryOp) (q : Quad) (m : Machine) :
    Keeps (binary im op q) m :=
  (keeps_load _ m).bind fun _ m₁ => (keeps_load _ m₁).bind fun _ m₂ =>
    (keeps_address _ m₂).bind fun _ m₃ => (keeps_lift _ m₃).bind fun _ m₄ => keeps_store im _ _ m₄

theorem keeps_unary (im : Image) (op : UnaryOp) (q : Quad) (m : Machine) :
    Keeps (unary im op q) m :=
  (keeps_load _ m).bind fun _ m₁ => (keeps_address _ m₁).bind fun _ m₂ =>
    (keeps_lift _ m₂).bind fun _ m₃ => keeps_store im _ _ m₃

theorem keeps_assign (im : Image) (source target : Operand) (m : Machine) :
    Keeps (assign im source target) m :=
  (keeps_load _ m).bind fun _ m₁ => (keeps_address _ m₁).bind fun _ m₂ => keeps_store im _ _ m₂

theorem keeps_jumpIfFalse (condition target : Operand) (m : Machine) :
    Keeps (jumpIfFalse condition target) m := by
  refine (keeps_load _ m).bind fun v m₁ => ?_
  split
  · exact keeps_pure _ m₁
  · exact keeps_of_same rfl rfl
  · exact keeps_throw _ m₁

theorem keeps_read (im : Image) (target : Operand) (m : Machine) : Keeps (read im target) m := by
  refine (keeps_address _ m).bind fun a m₁ => keeps_get_bind (.guard ?_)
  refine Keeps.bind (keeps_of_same rfl rfl) fun _ m₂ => ?_
  split
  · exact keeps_store im _ _ m₂
  · exact keeps_throw _ m₂

theorem keeps_write (source : Operand) (m : Machine) : Keeps (write source) m := by
  refine (keeps_load _ m).bind fun v m₁ => keeps_get_bind ?_
  split
  · exact keeps_throw _ m₁
  · exact keeps_of_same rfl rfl

theorem keeps_ver (source : Operand) (size stride : Int64) (m : Machine) :
    Keeps (ver source size stride) m := by
  refine (keeps_load _ m).bind fun v m₁ => ?_
  split
  · exact .guard (keeps_of_same rfl rfl)
  · exact keeps_throw _ m₁

theorem keeps_addDim (im : Image) (n : Int) (base : Int64) (pointer : Addr) (m : Machine) :
    Keeps (addDim im n base pointer) m :=
  keeps_get_bind (.guard (Keeps.bind (keeps_of_same rfl rfl) fun _ m₁ => keeps_store im _ _ m₁))

/-- A return may put a value aside before it fails, but it does so in the innermost frame. -/
theorem keeps_ret (im : Image) (source : Operand) (function : Addr) (m : Machine) :
    Keeps (ret im source function) m := by
  refine keeps_get_bind ?_
  cases hframes : m.frames with
  | nil => exact keeps_throw _ m
  | cons f rest =>
    simp only
    split
    · refine (keeps_load source m).bind_ok fun v m₁ hload => ?_
      obtain rfl := load_eq_ok hload
      have hput : ∀ v, Inmost m₁ { m₁ with frames := { f with staged := some v } :: rest } :=
        fun v => ⟨by simp [hframes], by simp [hframes], rfl⟩
      refine Keeps.bind (hput _) fun _ m₂ => keeps_get_bind ?_
      split
      · exact keeps_of_same rfl rfl
      · exact keeps_throw _ m₂
    · refine keeps_get_bind ?_
      split
      · exact keeps_of_same rfl rfl
      · exact keeps_throw _ m

theorem keeps_param (im : Image) (source : Operand) (target : Addr) (m : Machine) :
    Keeps (param im source target) m := by
  refine keeps_get_bind ?_
  cases hpending : m.pending with
  | nil => exact keeps_throw _ m
  | cons f rest =>
    refine (keeps_load source m).bind_ok fun v m₁ hload => ?_
    obtain rfl := load_eq_ok hload
    have hput : ∀ cells, Inmost m₁ { m₁ with pending := { f with cells } :: rest } :=
      fun cells => ⟨rfl, rfl, by simp [hpending]⟩
    exact hput _

/-- Instructions of three kinds make, enter and leave frames. All others keep to the innermost
one. -/
theorem keeps_exec (im : Image) {q : Quad} (hera : q.op ≠ .era) (hgosub : q.op ≠ .gosub)
    (hend : q.op ≠ .endFunction) (m : Machine) : Keeps (exec im q) m := by
  unfold exec
  cases hop : q.op with
  | nop => exact keeps_pure _ m
  | arith op => exact keeps_binary im _ q m
  | compare op => exact keeps_binary im _ q m
  | logic op => exact keeps_binary im _ q m
  | not => exact keeps_unary im _ q m
  | neg => exact keeps_unary im _ q m
  | assign => exact keeps_assign im _ _ m
  | read => exact keeps_read im _ m
  | write => exact keeps_write _ m
  | goto => exact keeps_of_same rfl rfl
  | gotoFalse => exact keeps_jumpIfFalse _ _ m
  | era => exact absurd hop hera
  | param => exact keeps_param im _ _ m
  | gosub => exact absurd hop hgosub
  | ret => exact keeps_ret im _ _ m
  | endFunction => exact absurd hop hend
  | ver => exact keeps_ver _ _ _ m
  | addDim => exact keeps_addDim im _ _ _ m
  | other code => exact keeps_throw _ m

end Execute

/-! ## Instructions that make, enter and leave frames -/

section Calls

open Execute

variable {im : Image} {m m' : Machine} {q : Quad} {f : Frame} {rest : List Frame}

section

variable (hq : im.fetch? m.ip = some q)

include hq

theorem Machine.step_era_full (hop : q.op = .era)
    (h : im.depth ≤ m.frames.length + m.pending.length) :
    m.step im = (some (.failed m.ip q.op (.tooDeep im.depth)), m.advance) := by
  refine Machine.step_of_error hq ?_
  simp only [exec, hop, era, get_bind]
  rw [if_pos (by exact h)]
  exact bind_of_error rfl

theorem Machine.step_era_room (hop : q.op = .era)
    (h : m.frames.length + m.pending.length < im.depth) :
    m.step im = (none, { m.advance with pending := { callee := q.res.word } :: m.pending }) := by
  refine Machine.step_of_ok hq ?_
  simp only [exec, hop, era, get_bind]
  rw [if_neg (by exact Nat.not_le.2 h)]
  rfl

theorem Machine.step_param_nil (hop : q.op = .param) (h : m.pending = []) :
    m.step im = (some (.failed m.ip q.op .paramWithoutRecord), m.advance) := by
  refine Machine.step_of_error hq ?_
  simp only [exec, hop, param, get_bind, Machine.advance, h]
  rfl

theorem Machine.step_gosub_nil (hop : q.op = .gosub) (h : m.pending = []) :
    m.step im = (some (.failed m.ip q.op .gosubWithoutRecord), m.advance) := by
  refine Machine.step_of_error hq ?_
  simp only [exec, hop, gosub, get_bind, Machine.advance, h]
  rfl

theorem Machine.step_gosub_cons (hop : q.op = .gosub) (h : m.pending = f :: rest) :
    m.step im = (none, { m.advance with
      pending := rest, frames := { f with returnTo := m.ip + 1 } :: m.frames, ip :=
        q.res.value }) := by
  refine Machine.step_of_ok hq ?_
  simp only [exec, hop, gosub, get_bind, Machine.advance, h]
  rfl

theorem Machine.step_ret_nil (hop : q.op = .ret) (h : m.frames = []) :
    m.step im = (some (.failed m.ip q.op .returnOutside), m.advance) := by
  refine Machine.step_of_error hq ?_
  simp only [exec, hop, ret, get_bind, Machine.advance, h]
  rfl

theorem Machine.step_endFunction_nil (hop : q.op = .endFunction) (h : m.frames = []) :
    m.step im = (some (.failed m.ip q.op (.functionEndOutside q.res.word)), m.advance) := by
  refine Machine.step_of_error hq ?_
  simp only [exec, hop, endFunction, get_bind, Machine.advance, h]
  rfl

theorem Machine.step_endFunction_cons (hop : q.op = .endFunction) (h : m.frames = f :: rest) :
    m.step im = (none,
      { m.advance with frames := rest, ip := f.returnTo }.receive q.res.word f.staged) := by
  refine Machine.step_of_ok hq ?_
  simp only [exec, hop, endFunction, get_bind, Machine.advance, h, set_bind]
  cases f.staged with
  | none => rfl
  | some v => rfl

end

end Calls

/-! ## Steps -/

section Steps

open Execute

variable {im : Image} {m m' : Machine} {r : Roster} {calls : List Nat} {q : Quad} {k : Nat}

theorem Machine.follow_of_ok (hq : im.fetch? m.ip = some q) (h : m.step im = (none, m')) :
    m.follow im r = r.follow q.op := by
  simp [Machine.follow, hq, h]

theorem Machine.follow_of_error {o : Outcome} (h : m.step im = (some o, m')) :
    m.follow im r = r := by
  unfold Machine.follow
  rw [h]
  cases im.fetch? m.ip <;> rfl

/-- A step keeps to the innermost frame, and the roster stays. -/
def Machine.StaysIn (im : Image) (m : Machine) (r : Roster) : Prop :=
  Inmost m (m.step im).2 ∧ m.follow im r = r

/-- A failure that changes nothing is one of the steps that keep to the innermost frame. -/
theorem Machine.staysIn_of_failed {o : Outcome} (h : m.step im = (some o, m.advance)) :
    m.StaysIn im r := by
  refine ⟨?_, Machine.follow_of_error h⟩
  rw [h]
  exact ⟨rfl, rfl, rfl⟩

theorem Machine.staysIn_of_keeps (hq : im.fetch? m.ip = some q) (hera : q.op ≠ .era)
    (hgosub : q.op ≠ .gosub) (hend : q.op ≠ .endFunction) : m.StaysIn im r := by
  have hkeeps := keeps_exec im hera hgosub hend m.advance
  unfold Keeps after at hkeeps
  cases h : exec im q m.advance with
  | ok u m' =>
    rw [h] at hkeeps
    have hstep := Machine.step_of_ok hq h
    refine ⟨by rw [hstep]; exact ⟨hkeeps.frames, hkeeps.length, hkeeps.pending⟩, ?_⟩
    rw [Machine.follow_of_ok hq hstep]
    unfold Roster.follow
    split <;> first | contradiction | rfl
  | error cause m' =>
    rw [h] at hkeeps
    have hstep := Machine.step_of_error hq h
    exact ⟨by rw [hstep]; exact ⟨hkeeps.frames, hkeeps.length, hkeeps.pending⟩,
      Machine.follow_of_error hstep⟩

/-- What a step does to the frames: it keeps to the innermost one, or it makes, enters or leaves
one. -/
theorem Machine.step_frames (im : Image) (m : Machine) (r : Roster) :
    m.StaysIn im r ∨
      ∃ q, im.fetch? m.ip = some q ∧
        (q.op = .era ∧ m.frames.length + m.pending.length < im.depth ∨
          (q.op = .gosub ∧ ∃ f rest, m.pending = f :: rest) ∨
          (q.op = .endFunction ∧ ∃ f rest, m.frames = f :: rest)) := by
  cases hq : im.fetch? m.ip with
  | none =>
    exact .inl ⟨by simp only [Machine.step, hq]; exact .refl m, by simp [Machine.follow, hq]⟩
  | some q =>
    by_cases hera : q.op = .era
    · rcases Nat.lt_or_ge (m.frames.length + m.pending.length) im.depth with hroom | hfull
      · exact .inr ⟨q, rfl, .inl ⟨hera, hroom⟩⟩
      · exact .inl (Machine.staysIn_of_failed (Machine.step_era_full hq hera hfull))
    by_cases hgosub : q.op = .gosub
    · cases hpending : m.pending with
      | nil => exact .inl (Machine.staysIn_of_failed (Machine.step_gosub_nil hq hgosub hpending))
      | cons f rest => exact .inr ⟨q, rfl, .inr (.inl ⟨hgosub, f, rest, rfl⟩)⟩
    by_cases hend : q.op = .endFunction
    · cases hframes : m.frames with
      | nil => exact .inl (Machine.staysIn_of_failed (Machine.step_endFunction_nil hq hend hframes))
      | cons f rest => exact .inr ⟨q, rfl, .inr (.inr ⟨hend, f, rest, rfl⟩)⟩
    · exact .inl (Machine.staysIn_of_keeps hq hera hgosub hend)

/-! ## Lists of frames after a step -/

theorem Machine.Listed.era (h : m.Listed r calls) (hframes : m'.frames = m.frames)
    (hpending : m'.pending.length = m.pending.length + 1) : m'.Listed (r.follow .era) calls := by
  have hfresh : r.made ∉ calls ++ r.pending := fun hmem => Nat.lt_irrefl _ (h.made _ hmem)
  refine ⟨h.chain, by rw [hframes]; exact h.frames, ?_, ?_, ?_⟩
  · rw [hpending, ← h.pending]
    rfl
  · show (calls ++ r.made :: r.pending).Nodup
    exact List.nodup_middle.2 (List.nodup_cons.2 ⟨hfresh, h.distinct⟩)
  · intro k hk
    show k < r.made + 1
    rcases List.mem_cons.1 (List.perm_middle.mem_iff.1 hk) with rfl | hk
    · exact Nat.lt_succ_self _
    · exact Nat.lt_succ_of_lt (h.made k hk)

theorem Machine.Listed.gosub {f : Frame} {rest : List Frame} (h : m.Listed r calls)
    (hrecord : m.pending = f :: rest) (hframes : m'.frames.length = m.frames.length + 1)
    (hpending : m'.pending = rest) :
    ∃ k, k ∉ calls ∧ m'.Listed (r.follow .gosub) (k :: calls) := by
  have hlength := h.pending
  cases hlist : r.pending with
  | nil =>
    rw [hlist, hrecord] at hlength
    cases hlength
  | cons k waiting =>
    have hdistinct := h.distinct
    have hmade := h.made
    rw [hlist] at hdistinct hmade
    have hperm : (calls ++ k :: waiting).Perm (k :: (calls ++ waiting)) := List.perm_middle
    obtain ⟨hk, -⟩ := List.nodup_cons.1 (hperm.nodup_iff.1 hdistinct)
    refine ⟨k, fun hmem => hk (List.mem_append_left _ hmem), ?_⟩
    have hfollow : r.follow .gosub =
        { r with
          current := some k, suspended := r.current :: r.suspended, pending := waiting } := by
      simp [Roster.follow, hlist]
    rw [hfollow]
    refine ⟨?_, ?_, ?_, hperm.nodup_iff.1 hdistinct, fun n hn => hmade n (hperm.mem_iff.2 hn)⟩
    · rw [h.chain]
      rfl
    · rw [hframes, ← h.frames]
      rfl
    · rw [hpending]
      rw [hlist, hrecord] at hlength
      exact Nat.succ.inj hlength

theorem Machine.Listed.endFunction (h : m.Listed r calls)
    (hframes : m.frames.length = m'.frames.length + 1)
    (hpending : m'.pending.length = m.pending.length) :
    ∃ c rest, calls = c :: rest ∧ m'.Listed (r.follow .endFunction) rest := by
  have hchain := h.chain
  have hlength := h.frames
  have hdistinct := h.distinct
  have hmade := h.made
  cases calls with
  | nil =>
    rw [hframes] at hlength
    cases hlength
  | cons c rest =>
    simp only [List.map_cons, List.cons_append, List.cons.injEq] at hchain
    have hfollow : (r.follow .endFunction).current :: (r.follow .endFunction).suspended =
      r.suspended ∧
        (r.follow .endFunction).pending = r.pending ∧ (r.follow .endFunction).made = r.made := by
      cases hsuspended : r.suspended with
      | nil => simp [hsuspended] at hchain
      | cons k suspended => simp [Roster.follow, hsuspended]
    obtain ⟨hsuspended, hwaiting, hmade'⟩ := hfollow
    refine ⟨c, rest, rfl, hsuspended.trans hchain.2, ?_, ?_, ?_, ?_⟩
    · rw [hframes] at hlength
      exact Nat.succ.inj hlength
    · rw [hwaiting, hpending]
      exact h.pending
    · rw [hwaiting]
      exact (List.nodup_cons.1 hdistinct).2
    · rw [hwaiting, hmade']
      exact fun k hk => hmade k (List.mem_cons_of_mem _ hk)

theorem inmost_receive (m : Machine) (slot : Addr) (v : Option Value) :
    Inmost m (m.receive slot v) := by
  cases v with
  | none => exact .refl m
  | some v => exact inmost_setCurrent m slot v

/-- The frames after a step, with their numbers: the innermost one may be another, there may be a
new one, or the innermost one is gone. -/
theorem Machine.Listed.step (h : m.Listed r calls)
    (hdepth : m.frames.length + m.pending.length ≤ im.depth) :
    ∃ calls', (m.step im).2.Listed (m.follow im r) calls' ∧
      (m.step im).2.frames.length + (m.step im).2.pending.length ≤ im.depth ∧
      (calls' = calls ∧ (m.step im).2.frames.tail = m.frames.tail ∨
        (∃ k f, k ∉ calls ∧ calls' = k :: calls ∧ (m.step im).2.frames = f :: m.frames) ∨
        ∃ q c f rest, im.fetch? m.ip = some q ∧ q.op = .endFunction ∧ calls = c :: calls' ∧
          m.frames = f :: rest ∧ (m.step im).2 =
            { m.advance with frames := rest, ip := f.returnTo }.receive q.res.word f.staged) := by
  rcases m.step_frames im r with ⟨hin, hfollow⟩ | ⟨q, hq, hera | hgosub | hend⟩
  · rw [hfollow]
    refine ⟨calls, h.congr hin.length hin.pending, ?_, .inl ⟨rfl, hin.frames⟩⟩
    rw [hin.length, hin.pending]
    exact hdepth
  · obtain ⟨hop, hroom⟩ := hera
    have hstep := Machine.step_era_room hq hop hroom
    rw [Machine.follow_of_ok hq hstep, hstep, hop]
    exact ⟨calls, h.era rfl rfl, hroom, .inl ⟨rfl, rfl⟩⟩
  · obtain ⟨hop, f, rest, hpending⟩ := hgosub
    have hstep := Machine.step_gosub_cons hq hop hpending
    rw [Machine.follow_of_ok hq hstep, hstep, hop]
    obtain ⟨k, hk, hlisted⟩ := @Machine.Listed.gosub m { m.advance with
      pending := rest, frames := { f with returnTo := m.ip + 1 } :: m.frames, ip := q.res.value }
      r calls f rest h hpending rfl rfl
    refine ⟨k :: calls, hlisted, ?_, .inr (.inl ⟨k, _, hk, rfl, rfl⟩)⟩
    rw [hpending, List.length_cons] at hdepth
    simp only [List.length_cons]
    omega
  · obtain ⟨hop, f, rest, hframes⟩ := hend
    have hstep := Machine.step_endFunction_cons hq hop hframes
    have hin := inmost_receive { m.advance with frames := rest, ip := f.returnTo }
      q.res.word f.staged
    rw [Machine.follow_of_ok hq hstep, hstep, hop]
    obtain ⟨c, calls', hcalls, hlisted⟩ := @Machine.Listed.endFunction m
      ({ m.advance with frames := rest, ip := f.returnTo }.receive q.res.word f.staged) r calls h
      (by rw [hin.length, hframes]; rfl) hin.pending
    refine ⟨calls', hlisted, ?_, .inr (.inr ⟨q, c, f, rest, hq, hop, hcalls, hframes, rfl⟩)⟩
    rw [hframes, List.length_cons] at hdepth
    rw [hin.length, hin.pending]
    simp only [Machine.advance]
    omega

theorem exists_lookup_zip {calls : List Nat} {frames : List α} (h : calls.length = frames.length)
    (hk : k ∈ calls) : ∃ f, (calls.zip frames).lookup k = some f := by
  induction calls generalizing frames with
  | nil => cases hk
  | cons c calls ih =>
    cases frames with
    | nil => cases h
    | cons f frames =>
      simp only [List.zip_cons_cons, List.lookup_cons]
      by_cases hc : k = c
      · exact ⟨f, by simp [hc]⟩
      · simp only [beq_eq_false_iff_ne.2 hc]
        exact ih (Nat.succ.inj h) ((List.mem_cons.1 hk).resolve_left hc)

theorem lookup_zip_cons_of_ne {c : Nat} (hc : k ≠ c) (calls : List Nat) (f : α) (frames : List α) :
    ((c :: calls).zip (f :: frames)).lookup k = (calls.zip frames).lookup k := by
  simp only [List.zip_cons_cons, List.lookup_cons, beq_eq_false_iff_ne.2 hc]

/-- A result goes to the innermost frame and to no other. -/
theorem lookup_receive {calls : List Nat} {f : Frame} (hf : (calls.zip m.frames).lookup k = some f)
    (slot : Addr) (v : Option Value) :
    ∃ f', (calls.zip (m.receive slot v).frames).lookup k = some f' ∧
      (f' = f ∨ calls.head? = some k ∧ ∃ w, v = some w ∧
        f' = { f with cells := f.cells.insert slot w }) := by
  cases v with
  | none => exact ⟨f, hf, .inl rfl⟩
  | some w =>
    cases hframes : m.frames with
    | nil => simp [hframes] at hf
    | cons f₁ frames =>
      have hset : (m.receive slot (some w)).frames =
          { f₁ with cells := f₁.cells.insert slot w } :: frames := by
        simp [Machine.receive, Machine.setCurrent, hframes]
      rw [hset]
      rw [hframes] at hf
      cases calls with
      | nil => cases hf
      | cons c calls =>
        by_cases hc : k = c
        · subst hc
          obtain rfl : f₁ = f := by simpa using hf
          exact ⟨_, by simp, .inr ⟨rfl, w, rfl, rfl⟩⟩
        · rw [lookup_zip_cons_of_ne hc] at hf ⊢
          exact ⟨f, hf, .inl rfl⟩

/-- The end of a function puts the value that its call returns into a frame. -/
structure Machine.Commits (m : Machine) (q : Quad) (f f' : Frame) : Prop where
  op : q.op = .endFunction
  value : ∃ callee v, m.frames.head? = some callee ∧ callee.staged = some v ∧
    f' = { f with cells := f.cells.insert q.res.word v }

/-- A step leaves a suspended frame of a call alone, unless it ends the call that the frame waits
for. -/
theorem Machine.Listed.suspended (h : m.Listed r calls)
    (hdepth : m.frames.length + m.pending.length ≤ im.depth) (hq : im.fetch? m.ip = some q)
    (hk : some k ∈ r.suspended) :
    ∃ f f', r.frame? m k = some f ∧ (m.follow im r).frame? (m.step im).2 k = some f' ∧
      (f' = f ∨ r.suspended.head? = some (some k) ∧ m.Commits q f f') := by
  obtain ⟨c, rest, f₀, frames, rfl, hframes, hmem, hne, -, hsuspended⟩ := h.of_suspended hk
  obtain ⟨calls', hlisted, -, hshape⟩ := h.step hdepth
  have hlength : rest.length = frames.length := by
    have hlength := h.frames
    rw [hframes] at hlength
    exact Nat.succ.inj hlength
  obtain ⟨f, hf⟩ := exists_lookup_zip hlength hmem
  rw [h.frame?_eq, hlisted.frame?_eq, hframes, lookup_zip_cons_of_ne hne]
  refine ⟨f, ?_⟩
  rw [hf]
  rcases hshape with ⟨rfl, htail⟩ | ⟨c', f₁, hc', rfl, hframes'⟩ | ⟨q', _, _, _, hq', hop, hcalls,
    hlist, hstep⟩
  · -- The frames around the innermost one are those that there were.
    obtain ⟨f₁, hframes'⟩ : ∃ f₁, (m.step im).2.frames = f₁ :: frames := by
      have hlength' := hlisted.frames
      cases hlist : (m.step im).2.frames with
      | nil =>
        rw [hlist] at hlength'
        cases hlength'
      | cons f₁ frames' =>
        rw [hlist, hframes] at htail
        exact ⟨f₁, congrArg _ htail⟩
    rw [hframes', lookup_zip_cons_of_ne hne]
    exact ⟨f, rfl, hf, .inl rfl⟩
  · have hne' : k ≠ c' := fun heq => hc' (heq ▸ List.mem_cons_of_mem _ hmem)
    rw [hframes', hframes, lookup_zip_cons_of_ne hne', lookup_zip_cons_of_ne hne]
    exact ⟨f, rfl, hf, .inl rfl⟩
  · obtain ⟨rfl, rfl⟩ := List.cons.inj hcalls
    obtain rfl := Option.some.inj (hq'.symm.trans hq)
    obtain ⟨rfl, rfl⟩ := List.cons.inj (hframes.symm.trans hlist)
    rw [hstep]
    obtain ⟨f', hf', hcommit⟩ :=
      @lookup_receive { m.advance with frames, ip := f₀.returnTo } k rest f hf q'.res.word f₀.staged
    refine ⟨f', rfl, hf', hcommit.imp_right ?_⟩
    rintro ⟨hhead, v, hstaged, rfl⟩
    refine ⟨?_, hop, f₀, v, by rw [hframes]; rfl, hstaged, rfl⟩
    rw [hsuspended, List.head?_append, List.head?_map, hhead]
    rfl

end Steps

/-! ## Runs -/

/-- The discipline of the frames that a machine has. -/
structure Machine.Disciplined (im : Image) (m : Machine) (r : Roster) : Prop where
  frames : r.suspended.length = m.frames.length
  pending : r.pending.length = m.pending.length
  bounded : r.suspended.length + r.pending.length ≤ im.depth
  /-- The frame of the program is the one that instructions work on, or else the outermost one of
  those that wait. -/
  outermost : r.current = none ↔ r.suspended = []
  bottom : r.suspended ≠ [] → ∃ calls : List Nat, r.suspended = calls.map some ++ [none]
  distinct : (r.current :: r.suspended ++ r.pending.map some).Nodup
  /-- A record is refused exactly if there are as many as may be. -/
  overflow : ∀ q, im.fetch? m.ip = some q → q.op = .era →
    ((∃ cause, m.step im = (some (.failed m.ip q.op cause), m.advance) ∧
      cause.category = some .stackOverflow) ↔ r.suspended.length + r.pending.length = im.depth) ∧
    ((m.step im).1 = none ↔ r.suspended.length + r.pending.length ≠ im.depth)
  /-- What needs a call or a record fails without one, and nothing changes. -/
  underflow : ∀ q, im.fetch? m.ip = some q →
    (q.op = .ret ∨ q.op = .endFunction) ∧ r.current = none ∨
      (q.op = .param ∨ q.op = .gosub) ∧ r.pending = [] →
    ∃ cause, m.step im = (some (.failed m.ip q.op cause), m.advance) ∧
      cause.category = some .frameUnderflow
  /-- A frame that waits, other than that of the program, changes only when the call that it waits
  for ends. -/
  undisturbed : ∀ q, im.fetch? m.ip = some q → ∀ k, some k ∈ r.suspended →
    ∃ f f', r.frame? m k = some f ∧ (m.follow im r).frame? (m.step im).2 k = some f' ∧
      (f' = f ∨ r.suspended.head? = some (some k) ∧ m.Commits q f f')

section Runs

variable {im : Image} {m : Machine} {r : Roster} {calls : List Nat}

theorem Machine.Listed.current_eq_none_iff (h : m.Listed r calls) :
    r.current = none ↔ m.frames = [] := by
  have hchain := h.chain
  have hlength := h.frames
  cases calls with
  | nil =>
    simp only [List.map_nil, List.nil_append, List.cons.injEq] at hchain
    exact ⟨fun _ => List.eq_nil_of_length_eq_zero hlength.symm, fun _ => hchain.1⟩
  | cons c rest =>
    simp only [List.map_cons, List.cons_append, List.cons.injEq] at hchain
    constructor
    · intro hnone
      rw [hchain.1] at hnone
      cases hnone
    · intro hnil
      rw [hnil] at hlength
      cases hlength

theorem Machine.Listed.underflow (h : m.Listed r calls) {q : Quad} (hq : im.fetch? m.ip = some q)
    (hop : (q.op = .ret ∨ q.op = .endFunction) ∧ r.current = none ∨
      (q.op = .param ∨ q.op = .gosub) ∧ r.pending = []) :
    ∃ cause, m.step im = (some (.failed m.ip q.op cause), m.advance) ∧
      cause.category = some .frameUnderflow := by
  rcases hop with ⟨hop, hcurrent⟩ | ⟨hop, hpending⟩
  · have hframes := h.current_eq_none_iff.1 hcurrent
    rcases hop with hop | hop
    · exact ⟨_, Machine.step_ret_nil hq hop hframes, rfl⟩
    · exact ⟨_, Machine.step_endFunction_nil hq hop hframes, rfl⟩
  · have hlength := h.pending
    rw [hpending] at hlength
    have hnil := List.eq_nil_of_length_eq_zero hlength.symm
    rcases hop with hop | hop
    · exact ⟨_, Machine.step_param_nil hq hop hnil, rfl⟩
    · exact ⟨_, Machine.step_gosub_nil hq hop hnil, rfl⟩

theorem Machine.Listed.disciplined (h : m.Listed r calls)
    (hdepth : m.frames.length + m.pending.length ≤ im.depth) : m.Disciplined im r where
  frames := h.length_suspended
  pending := h.pending
  bounded := by
    rw [h.length_suspended, h.pending]
    exact hdepth
  outermost := by
    rw [h.current_eq_none_iff, ← List.length_eq_zero_iff, ← h.length_suspended,
      List.length_eq_zero_iff]
  bottom := by
    intro hne
    have hchain := h.chain
    cases calls with
    | nil => exact absurd (List.cons.inj hchain).2 hne
    | cons c rest => exact ⟨rest, (List.cons.inj hchain).2⟩
  distinct := by
    rw [h.chain, List.append_assoc, List.singleton_append]
    refine List.nodup_middle.2 (List.nodup_cons.2 ⟨by simp, ?_⟩)
    rw [← List.map_append]
    exact h.distinct.map fun _ _ => Option.some.inj
  overflow := by
    intro q hq hop
    rw [h.length_suspended, h.pending]
    rcases Nat.lt_or_ge (m.frames.length + m.pending.length) im.depth with hroom | hfull
    · rw [Machine.step_era_room hq hop hroom]
      simp [Nat.ne_of_lt hroom]
    · have heq : m.frames.length + m.pending.length = im.depth := Nat.le_antisymm hdepth hfull
      rw [Machine.step_era_full hq hop hfull]
      refine ⟨⟨fun _ => heq, fun _ => ⟨.tooDeep im.depth, rfl, rfl⟩⟩, ?_, fun hne => absurd heq hne⟩
      intro hnone
      cases hnone
  underflow := fun q hq hop => h.underflow hq hop
  undisturbed := fun q hq k hk => h.suspended hdepth hq hk

/-- A roster that lists the frames of a machine lists those of the machine after a run. -/
theorem Machine.Listed.run (h : m.Listed r calls)
    (hdepth : m.frames.length + m.pending.length ≤ im.depth) (limit : Nat) :
    ∃ calls', (m.run im limit).2.Listed (m.roster im limit r) calls' ∧
      (m.run im limit).2.frames.length + (m.run im limit).2.pending.length ≤ im.depth := by
  induction limit generalizing m r calls with
  | zero =>
    unfold Machine.run Machine.roster
    split
    · exact ⟨calls, h, hdepth⟩
    · exact ⟨calls, h, hdepth⟩
  | succ limit ih =>
    unfold Machine.run Machine.roster
    split
    · exact ⟨calls, h, hdepth⟩
    · obtain ⟨calls', hlisted, hdepth', -⟩ := h.step hdepth
      cases hstep : m.step im with
      | mk outcome m' =>
        rw [hstep] at hlisted hdepth'
        cases outcome with
        | none => exact ih hlisted hdepth'
        | some o =>
          rw [Machine.follow_of_error hstep] at hlisted
          exact ⟨calls', hlisted, hdepth'⟩

end Runs

/-- Whatever the instructions of a program are, its input and the limit on its records, the frames
keep their discipline in every state of its run. -/
theorem frames_disciplined (p : Program) (input : Bytes) (room : Option Nat) (depth : Int)
    (limit : Nat) :
    (Image.ofProgram p depth).depth = (if depth ≤ 0 then 1024 else depth.toNat) ∧
      ((Machine.start p input room).run (Image.ofProgram p depth) limit).2.Disciplined
        (Image.ofProgram p depth)
        ((Machine.start p input room).roster (Image.ofProgram p depth) limit {}) := by
  refine ⟨rfl, ?_⟩
  have hstart : (Machine.start p input room).Listed {} [] := ⟨rfl, rfl, rfl, .nil, by simp⟩
  obtain ⟨calls, hlisted, hdepth⟩ :=
    @Machine.Listed.run (Image.ofProgram p depth) _ _ _ hstart (Nat.zero_le _) limit
  exact hlisted.disciplined hdepth

/-- Two records made at once and entered one inside the other. The inner call puts a value aside,
and ends, and then ends the outer one, and then what is not there. -/
def crossing : Program :=
  { name := [], layout := Layout.standard, consts := Cells.empty,
    quads := #[{ op := .era, res := .cell 30000 }, { op := .era, res := .cell 30001 },
      { op := .gosub, res := .label 3 }, { op := .gosub, res := .label 4 },
      { op := .ret, arg1 := .literal 7, res := .cell 30000 },
      { op := .endFunction, res := .cell 30000 }] }

theorem crossing_disciplined :
    (Machine.start crossing [] none).roster (Image.ofProgram crossing 2) 5 {} =
      { made := 2, current := some 0, suspended := [some 1, none] } ∧
    ((Machine.start crossing [] none).run (Image.ofProgram crossing 2) 5).2.Disciplined
      (Image.ofProgram crossing 2)
      ((Machine.start crossing [] none).roster (Image.ofProgram crossing 2) 5 {}) :=
  ⟨by decide +kernel, (frames_disciplined crossing [] none 2 5).2⟩

end Quadlang
