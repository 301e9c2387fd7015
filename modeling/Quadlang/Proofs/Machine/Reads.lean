-- What instructions read: the cells of the values that they take, and those that say where a value
-- is or goes. An instruction that fails for want of a value reads the cell that has none.
import Quadlang.Proofs.Machine.Typing

namespace Quadlang

open Success

/-! ## What instructions read -/

/-- A machine reads a cell to execute an instruction: it is the cell of a value that is taken, or
it holds the address of a cell that is read or written. -/
def Machine.Reads (m : Machine) (q : Quad) (a : Addr) : Prop :=
  (∃ o ∈ q.sources, m.reach? o = some a) ∨ ∃ o ∈ q.sources ++ q.targets, o.kind = .pointer ∧
  o.word = a

/-- The fault is the want of a value at an address. -/
def RunFault.Misses (e : RunFault) (a : Addr) : Prop :=
  e = .uninitialized a ∨ e = .uninitializedPointer a

namespace Execute

variable {e : RunFault} {a : Addr}

variable {α β : Type} {P : Addr → Prop} {m m' : Machine} {o : Operand}

/-- If a step fails for want of a value, then of one at an address with a property. -/
def Misses (P : Addr → Prop) (x : Execute α) (m : Machine) : Prop :=
  ∀ e m', x m = .error e m' → e.category = some .uninitialized → ∃ a, P a ∧ m.get? a = none ∧
  e.Misses a

/-- A step never fails for want of a value. -/
def Sated (x : Execute α) : Prop := ∀ m e m', x m = .error e m' → e.category ≠ some .uninitialized

theorem Sated.misses {x : Execute α} (h : Sated x) : Misses P x m :=
  fun e m' hx he => absurd he (h m e m' hx)

theorem Sated.bind {x : Execute α} {f : α → Execute β} (h : Sated x) (h' : ∀ a, Sated (f a)) :
    Sated (x >>= f) := by
  intro m e m' hx
  rcases bind_eq_error.1 hx with hx | ⟨a, m₁, -, hf⟩
  · exact h m e m' hx
  · exact h' a m₁ e m' hf

theorem sated_pure (a : α) : Sated (pure a) := fun _ _ _ h => (pure_eq_error.1 h).elim

theorem sated_get : Sated (get : Execute Machine) := fun _ _ _ h => (get_eq_error.1 h).elim

theorem sated_set (m : Machine) : Sated (set m : Execute PUnit) :=
  fun _ _ _ h => (set_eq_error.1 h).elim

theorem sated_modify (f : Machine → Machine) : Sated (modify f : Execute PUnit) :=
  fun _ _ _ h => (modify_eq_error.1 h).elim

theorem sated_throw (he : e.category ≠ some .uninitialized) : Sated (throw e : Execute α) := by
  intro m e' m' h
  obtain ⟨rfl, -⟩ := throw_eq_error.1 h
  exact he

theorem sated_store (im : Image) (a : Addr) (v : Value) : Sated (store im a v) := by
  unfold store
  split
  · exact sated_throw (by rintro ⟨⟩)
  · split <;> exact sated_modify _

theorem sated_lift {x : Except RunFault α}
    (h : ∀ e, x = .error e → e.category ≠ some .uninitialized) :
    Sated (lift x) := by
  cases x with
  | ok a => exact sated_pure a
  | error e => exact sated_throw (h e rfl)

/-- A machine stays as it is while an operand is looked up. -/
theorem address_eq_ok (h : address o m = .ok a m') : m' = m ∧ m.reach? o = some a := by
  unfold address at h
  unfold Machine.reach?
  cases hkind : o.kind with
  | address =>
    simp only [hkind] at h ⊢
    obtain ⟨rfl, rfl⟩ := pure_eq_ok.1 h
    exact ⟨rfl, rfl⟩
  | pointer =>
    simp only [hkind] at h ⊢
    rw [get_bind] at h
    cases hget : m.get? o.word with
    | none =>
      rw [hget] at h
      exact (throw_eq_ok.1 h).elim
    | some v =>
      rw [hget] at h
      cases v with
      | int b =>
        obtain ⟨rfl, rfl⟩ := pure_eq_ok.1 h
        exact ⟨rfl, rfl⟩
      | _ => exact (throw_eq_ok.1 h).elim
  | _ =>
    simp only [hkind] at h
    exact (throw_eq_ok.1 h).elim

theorem address_of_reach? (h : m.reach? o = some a) : address o m = .ok a m := by
  unfold Machine.reach? at h
  unfold address
  cases hkind : o.kind with
  | address =>
    simp only [hkind] at h ⊢
    rw [Option.some.inj h]
    rfl
  | pointer =>
    simp only [hkind] at h ⊢
    rw [get_bind]
    cases hget : m.get? o.word with
    | none => simp [hget] at h
    | some v =>
      cases v with
      | int b =>
        simp only [hget, Option.some.injEq] at h
        rw [h]
        rfl
      | _ => simp [hget] at h
  | _ => simp [hkind] at h

theorem misses_address (hP : o.kind = .pointer → P o.word) : Misses P (address o) m := by
  intro e m' h he
  unfold address at h
  cases hkind : o.kind with
  | address =>
    simp only [hkind] at h
    exact (pure_eq_error.1 h).elim
  | pointer =>
    simp only [hkind] at h
    rw [get_bind] at h
    cases hget : m.get? o.word with
    | none =>
      rw [hget] at h
      obtain ⟨rfl, -⟩ := throw_eq_error.1 h
      exact ⟨o.word, hP hkind, hget, .inr rfl⟩
    | some v =>
      rw [hget] at h
      cases v with
      | int b => exact (pure_eq_error.1 h).elim
      | _ =>
        obtain ⟨rfl, -⟩ := throw_eq_error.1 h
        cases he
  | _ =>
    simp only [hkind] at h
    obtain ⟨rfl, -⟩ := throw_eq_error.1 h
    cases he

theorem misses_address_bind {f : Addr → Execute β} (hP : o.kind = .pointer → P o.word)
    (hf : ∀ a, m.reach? o = some a → Misses P (f a) m) : Misses P (address o >>= f) m := by
  intro e m' h he
  rcases bind_eq_error.1 h with h | ⟨a, m₁, ha, hfa⟩
  · exact misses_address hP e m' h he
  · obtain ⟨rfl, hreach⟩ := address_eq_ok ha
    exact hf a hreach e m' hfa he

theorem misses_cell (ha : P a) : Misses P (cell a) m := by
  intro e m' h _
  cases hget : m.get? a with
  | none =>
    rw [cell_of_none hget] at h
    cases h
    exact ⟨a, ha, hget, .inl rfl⟩
  | some v =>
    rw [cell_of_get? hget] at h
    cases h

/-- Loading looks for the cell of the operand, and then into it. -/
theorem misses_load (hcell : ∀ a, m.reach? o = some a → P a) (hP : o.kind = .pointer → P o.word) :
    Misses P (load o) m := by
  have hlook : Misses P (address o >>= cell) m :=
    misses_address_bind hP fun a ha => misses_cell (hcell a ha)
  unfold load
  cases o.kind with
  | literal => exact (sated_pure _).misses
  | address => exact hlook
  | pointer => exact hlook
  | _ => exact (sated_throw (by rintro ⟨⟩)).misses

theorem load_eq_ok {v : Value} (h : load o m = .ok v m') : m' = m := by
  have hlook : ∀ {m'}, (address o >>= cell) m = .ok v m' → m' = m := by
    intro m' h
    obtain ⟨a, m₁, ha, hcell⟩ := bind_eq_ok.1 h
    obtain ⟨rfl, -⟩ := address_eq_ok ha
    cases hget : m₁.get? a with
    | none =>
      rw [cell_of_none hget] at hcell
      cases hcell
    | some w =>
      rw [cell_of_get? hget] at hcell
      cases hcell
      rfl
  unfold load at h
  cases hkind : o.kind with
  | literal =>
    simp only [hkind] at h
    exact (pure_eq_ok.1 h).2.symm
  | address =>
    simp only [hkind] at h
    exact hlook h
  | pointer =>
    simp only [hkind] at h
    exact hlook h
  | _ =>
    simp only [hkind] at h
    exact (throw_eq_ok.1 h).elim

theorem misses_load_bind {f : Value → Execute β} (hcell : ∀ a, m.reach? o = some a → P a)
    (hP : o.kind = .pointer → P o.word) (hf : ∀ v, Misses P (f v) m) :
    Misses P (load o >>= f) m := by
  intro e m' h he
  rcases bind_eq_error.1 h with h | ⟨v, m₁, hv, hfv⟩
  · exact misses_load hcell hP e m' h he
  · obtain rfl := load_eq_ok hv
    exact hf v e m' hfv he

theorem misses_get_bind {f : Machine → Execute β} (hf : Misses P (f m) m) :
    Misses P ((get : Execute Machine) >>= f) m := by
  intro e m' h he
  exact hf e m' h he

/-! ## Instructions that fail for want of a value -/

/-- Operators never fail for want of a value. -/
theorem binary_error {op : BinaryOp} {l r : Value} (h : Value.binary op l r = .error e) :
    e.category ≠ some .uninitialized := by
  have hmap : ∀ {α β : Type} {x : Except RunFault α} {f : α → β}, x.map f = .error e →
    x = .error e := by
    intro α β x f h
    cases x <;> simp_all [Except.map]
  cases op with
  | arith op =>
    simp only [Value.binary, Value.arith] at h
    repeat' split at h
    · cases h
    · have hint := hmap h
      cases op <;> simp only [Value.arithInt] at hint
      case div =>
        split at hint
        · cases hint
          rintro ⟨⟩
        · cases hint
      all_goals cases hint
    · have hfloat := hmap h
      cases op <;> simp only [Value.arithFloat] at hfloat
      case div =>
        split at hfloat
        · cases hfloat
          rintro ⟨⟩
        · cases hfloat
      all_goals cases hfloat
    · cases h
      rintro ⟨⟩
  | compare op =>
    have hcompare := hmap h
    unfold Value.compare at hcompare
    split at hcompare
    · cases hcompare
    · cases hcompare
      rintro ⟨⟩
  | logic op =>
    have hlogic := hmap h
    unfold Value.logic at hlogic
    repeat' split at hlogic
    all_goals cases hlogic
    rintro ⟨⟩

theorem unary_error {op : UnaryOp} {v : Value} (h : Value.unary op v = .error e) :
    e.category ≠ some .uninitialized := by
  unfold Value.unary at h
  split at h
  all_goals cases h
  rintro ⟨⟩

variable {q : Quad}

theorem misses_source_bind {f : Value → Execute β} (ho : o ∈ q.sources)
    (hf : ∀ v, Misses (m.Reads q) (f v) m) : Misses (m.Reads q) (load o >>= f) m :=
  misses_load_bind (fun _ ha => .inl ⟨o, ho, ha⟩)
    (fun hkind => .inr ⟨o, List.mem_append_left _ ho, hkind, rfl⟩) hf

theorem misses_target_bind {f : Addr → Execute β} (ho : o ∈ q.targets)
    (hf : ∀ a, Misses (m.Reads q) (f a) m) : Misses (m.Reads q) (address o >>= f) m :=
  misses_address_bind (fun hkind => .inr ⟨o, List.mem_append_right _ ho, hkind, rfl⟩) fun a _ =>
    hf a

theorem misses_binary (im : Image) (op : BinaryOp) (hsources : q.sources = [q.arg1, q.arg2])
    (htargets : q.targets = [q.res]) : Misses (m.Reads q) (binary im op q) m := by
  refine misses_source_bind (by simp [hsources]) fun l =>
    misses_source_bind (by simp [hsources]) fun r =>
    misses_target_bind (by simp [htargets]) fun a => Sated.misses ?_
  exact (sated_lift fun e => binary_error).bind fun v => sated_store im a _

theorem misses_unary (im : Image) (op : UnaryOp) (hsources : q.sources = [q.arg1])
    (htargets : q.targets = [q.res]) : Misses (m.Reads q) (unary im op q) m := by
  refine misses_source_bind (by simp [hsources]) fun x =>
    misses_target_bind (by simp [htargets]) fun a => Sated.misses ?_
  exact (sated_lift fun e => unary_error).bind fun v => sated_store im a _

theorem sated_guard {c : Prop} [Decidable c] (he : e.category ≠ some .uninitialized)
    {f : PUnit → Execute β} (hf : Sated (f ⟨⟩)) :
    Sated (if c then (throw e : Execute PUnit) >>= f else f ⟨⟩) := by
  split
  · exact (sated_throw he).bind fun _ => hf
  · exact hf

theorem misses_ret (im : Image) (function : Addr) (hsources : q.sources = [q.arg1]) :
    Misses (m.Reads q) (ret im q.arg1 function) m := by
  refine misses_get_bind ?_
  cases m.frames with
  | nil => exact (sated_throw (by rintro ⟨⟩)).misses
  | cons f rest =>
    simp only
    split
    on_goal 1 =>
      refine misses_source_bind (by simp [hsources]) fun v =>
        ((sated_modify _).bind fun _ => sated_get.bind fun m => ?_).misses
    on_goal 2 => refine (sated_get.bind fun m => ?_).misses
    -- With or without a value, the end of the function is looked up.
    all_goals
      cases im.functionEnd? function m.ip.toNat with
      | some position => exact sated_modify _
      | none => exact sated_throw (by rintro ⟨⟩)

/-- An instruction that fails for want of a value reads the cell that has none. -/
theorem misses_exec (im : Image) (q : Quad) (m : Machine) : Misses (m.Reads q) (exec im q) m := by
  unfold exec
  cases hop : q.op with
  | arith op => exact misses_binary im _ (by simp [Quad.sources, hop]) (by simp [Quad.targets, hop])
  | compare op =>
    exact misses_binary im _ (by simp [Quad.sources, hop]) (by simp [Quad.targets, hop])
  | logic op => exact misses_binary im _ (by simp [Quad.sources, hop]) (by simp [Quad.targets, hop])
  | not => exact misses_unary im _ (by simp [Quad.sources, hop]) (by simp [Quad.targets, hop])
  | neg => exact misses_unary im _ (by simp [Quad.sources, hop]) (by simp [Quad.targets, hop])
  | assign =>
    exact misses_source_bind (by simp [Quad.sources, hop]) fun v =>
      misses_target_bind (by simp [Quad.targets, hop]) fun a => (sated_store im a _).misses
  | read =>
    refine misses_target_bind (by simp [Quad.targets, hop]) fun a =>
      misses_get_bind (Sated.misses ?_)
    refine sated_guard (e := .endOfInput) (by rintro ⟨⟩) ?_
    refine (sated_modify _).bind fun _ => ?_
    split
    · exact sated_store im a _
    · exact sated_throw (by rintro ⟨⟩)
  | write =>
    refine misses_source_bind (by simp [Quad.sources, hop]) fun v =>
      misses_get_bind (Sated.misses ?_)
    split
    · exact sated_throw (by rintro ⟨⟩)
    · exact sated_set _
  | gotoFalse =>
    refine misses_source_bind (by simp [Quad.sources, hop]) fun v => Sated.misses ?_
    split
    · exact sated_pure _
    · exact sated_modify _
    · exact sated_throw (by rintro ⟨⟩)
  | era =>
    refine misses_get_bind (Sated.misses ?_)
    exact sated_guard (e := .tooDeep im.depth) (by rintro ⟨⟩) (sated_set _)
  | param =>
    refine misses_get_bind ?_
    cases m.pending with
    | nil => exact (sated_throw (by rintro ⟨⟩)).misses
    | cons f rest =>
      exact misses_source_bind (by simp [Quad.sources, hop]) fun v => (sated_modify _).misses
  | gosub =>
    refine misses_get_bind ?_
    cases m.pending with
    | nil => exact (sated_throw (by rintro ⟨⟩)).misses
    | cons f rest => exact (sated_set _).misses
  | ret => exact misses_ret im _ (by simp [Quad.sources, hop])
  | endFunction =>
    refine misses_get_bind ?_
    cases m.frames with
    | nil => exact (sated_throw (by rintro ⟨⟩)).misses
    | cons f rest =>
      refine ((sated_set _).bind fun _ => ?_).misses
      cases f.staged with
      | some v => exact sated_modify _
      | none => exact sated_pure _
  | ver =>
    refine misses_source_bind (by simp [Quad.sources, hop]) fun v => Sated.misses ?_
    cases v with
    | int i =>
      exact sated_guard (e := .outOfBounds i q.arg2.word) (by rintro ⟨⟩) (sated_modify _)
    | _ => exact sated_throw (by rintro ⟨⟩)
  | addDim =>
    refine misses_get_bind (Sated.misses ?_)
    exact sated_guard (e := .tooFewIndices q.arg1.value m.indices.length) (by rintro ⟨⟩)
      ((sated_set _).bind fun _ => sated_store im _ _)
  | other code => exact (sated_throw (by rintro ⟨⟩)).misses
  | nop => exact (sated_pure _).misses
  | goto => exact (sated_modify _).misses

end Execute

end Quadlang
