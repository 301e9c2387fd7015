-- Steps with a state that may fail. A sequence of steps succeeds only if each of its steps
-- does, and every step begins where the one before it ended.

namespace Quadlang.Success

variable {ε σ α β : Type} {s s' t s₁ : σ} {e : ε} {x : EStateM ε σ α} {f : α → EStateM ε σ β}
  {a : α} {u : PUnit}

theorem bind_eq_ok {b : β} : (x >>= f) s = .ok b s' ↔ ∃ a s₁, x s = .ok a s₁ ∧
    f a s₁ = .ok b s' := by
  show EStateM.bind x f s = .ok b s' ↔ _
  unfold EStateM.bind
  split
  · rename_i a s₁ h
    simp only [h]
    constructor
    · intro h'
      exact ⟨a, s₁, rfl, h'⟩
    · rintro ⟨a', s', he, h'⟩
      cases he
      exact h'
  · rename_i h
    simp [h]

theorem pure_eq_ok {b : α} : (pure a : EStateM ε σ α) s = .ok b s' ↔ a = b ∧ s = s' := by
  show EStateM.Result.ok a s = .ok b s' ↔ _
  simp

theorem get_eq_ok {a : σ} : (get : EStateM ε σ σ) s = .ok a s' ↔ s = a ∧ s = s' := by
  show EStateM.Result.ok s s = .ok a s' ↔ _
  simp

theorem set_eq_ok : (set t : EStateM ε σ PUnit) s = .ok u s' ↔ t = s' := by
  show EStateM.Result.ok _ t = .ok _ s' ↔ _
  simp

theorem modify_eq_ok {f : σ → σ} : (modify f : EStateM ε σ PUnit) s = .ok u s' ↔ f s = s' := by
  show EStateM.Result.ok _ (f s) = .ok _ s' ↔ _
  simp

theorem throw_eq_ok : (throw e : EStateM ε σ α) s = .ok a s' ↔ False := by
  show EStateM.Result.error e s = .ok a s' ↔ _
  simp

/-! ## Failing -/

/-- A sequence of steps fails where the first of its steps does that fails. -/
theorem bind_eq_error :
    (x >>= f) s = .error e s' ↔
      x s = .error e s' ∨ ∃ a s₁, x s = .ok a s₁ ∧ f a s₁ = .error e s' := by
  show EStateM.bind x f s = .error e s' ↔ _
  unfold EStateM.bind
  cases x s with
  | ok a s₁ =>
    constructor
    · exact fun h => .inr ⟨a, s₁, rfl, h⟩
    · rintro (h | ⟨a', s', h, h'⟩)
      · cases h
      · cases h
        exact h'
  | error e₁ s₁ => simp

theorem pure_eq_error : (pure a : EStateM ε σ α) s = .error e s' ↔ False := by
  show EStateM.Result.ok a s = .error e s' ↔ _
  simp

theorem get_eq_error : (get : EStateM ε σ σ) s = .error e s' ↔ False := by
  show EStateM.Result.ok s s = .error e s' ↔ _
  simp

theorem set_eq_error : (set t : EStateM ε σ PUnit) s = .error e s' ↔ False := by
  show EStateM.Result.ok _ t = .error e s' ↔ _
  simp

theorem modify_eq_error {f : σ → σ} : (modify f : EStateM ε σ PUnit) s = .error e s' ↔ False := by
  show EStateM.Result.ok _ (f s) = .error e s' ↔ _
  simp

theorem throw_eq_error {e' : ε} : (throw e : EStateM ε σ α) s = .error e' s' ↔ e = e' ∧ s = s' := by
  show EStateM.Result.error e s = .error e' s' ↔ _
  simp

/-! ## Running -/

theorem bind_of_ok (h : x s = .ok a s₁) : (x >>= f) s = f a s₁ := by
  show EStateM.bind x f s = _
  unfold EStateM.bind
  rw [h]

theorem bind_of_error (h : x s = .error e s₁) : (x >>= f) s = .error e s₁ := by
  show EStateM.bind x f s = _
  unfold EStateM.bind
  rw [h]

theorem get_bind {f : σ → EStateM ε σ β} : (get >>= f) s = f s s := bind_of_ok rfl

theorem set_bind {f : PUnit → EStateM ε σ β} : (set t >>= f) s = f ⟨⟩ t := bind_of_ok rfl

theorem modify_bind {g : σ → σ} {f : PUnit → EStateM ε σ β} : (modify g >>= f) s = f ⟨⟩ (g s) :=
  bind_of_ok rfl

end Quadlang.Success
