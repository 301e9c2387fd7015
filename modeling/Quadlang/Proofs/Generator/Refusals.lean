-- A declaration that fails, after any actions, and what it leaves behind.
import Quadlang.Proofs.Generator.Checking

namespace Quadlang

open Source Generate Success

/-- A declaration that fails, after any actions. The state is as before unless the cause is a
parameter outside of a header or a field without room, and then it differs in what is listed. -/
theorem failed_declaration {g g' : Generator} {id typeName : Bytes} {stop : Stop} {o : DeclOptions}
    (hreached : g.Reached) (h : declare id typeName o g = .error stop g') :
    ∃ cause, stop = .fault cause ∧ Remnant g id typeName cause g' ∧
      (g' = g ↔ cause.halfway = false) := by
  obtain ⟨cause, hstop, hremnant⟩ := declare_fails h
  exact ⟨cause, hstop, hremnant, hremnant.eq_iff hreached.filed.current⟩

theorem reached_run (l : Layout) (events : List Event) :
    ((Trace.start l).run events).generator.Reached :=
  ⟨l, events, ((Trace.start l).run events).generator.line, rfl⟩

namespace Wide

/-- A class of two arrays. Either has room in memory, and both together have none. -/
def events : List Event :=
  [⟨1, .declareClass (ascii "C")⟩, ⟨2, .declare (ascii "a") (ascii "int") { dims := [3000] }⟩,
    ⟨3, .declare (ascii "b") (ascii "int") { dims := [3000] }⟩, ⟨4, .leaveScope⟩]

def state : Generator := ((Trace.start Layout.standard).run events).generator

/-- An instance of the class. -/
def object : Generate Symbol := declare (ascii "o") (ascii "C") {}

/-- What ends a step. -/
def stop? {α : Type} (x : Generate α) (g : Generator) : Option Stop :=
  match x g with
  | .ok _ _ => none
  | .error stop _ => some stop

theorem eq_of_stop? {α : Type} {x : Generate α} {g : Generator} {stop : Stop}
    (h : stop? x g = some stop) : x g = .error stop (x.after g) := by
  unfold stop? at h
  cases hx : x g with
  | ok a g₁ =>
    rw [hx] at h
    cases h
  | error stop' g₁ =>
    rw [hx] at h
    cases h
    rw [after_of_error hx]

/-- The address that the next variable would get. -/
def next? (g : Generator) : Option Addr := (g.memory.alloc .int .locals 1).toOption.map (·.1)

theorem state_reached : state.Reached := reached_run Layout.standard events

theorem object_evaluated : (stop? object state).isSome = true ∧ next? state = some 30000 ∧
    next? (object.after state) = some 33000 := by decide +kernel

/-- The instance is refused, and the addresses of its first field are gone. -/
theorem failed_instance_keeps_addresses : state.Reached ∧ ∃ stop g', object state = .error stop g' ∧
    next? state = some 30000 ∧ next? g' = some 33000 ∧ g' ≠ state := by
  obtain ⟨hsome, hbefore, hafter⟩ := object_evaluated
  obtain ⟨stop, hstop⟩ := Option.isSome_iff_exists.1 hsome
  refine ⟨state_reached, stop, _, eq_of_stop? hstop, hbefore, hafter, fun heq => ?_⟩
  rw [heq, hbefore] at hafter
  exact absurd hafter (by decide)

/-- What the instance leaves behind. -/
theorem failed_instance_remnant : ∃ cause g', object state = .error (.fault cause) g' ∧
    Remnant state (ascii "o") (ascii "C") cause g' ∧ (g' = state ↔ cause.halfway = false) := by
  obtain ⟨stop, hstop⟩ := Option.isSome_iff_exists.1 object_evaluated.1
  obtain ⟨cause, rfl, hremnant, hiff⟩ := failed_declaration state_reached (eq_of_stop? hstop)
  exact ⟨cause, _, eq_of_stop? hstop, hremnant, hiff⟩

end Wide

end Quadlang
