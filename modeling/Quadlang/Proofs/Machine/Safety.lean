-- Type safety of compiled programs: whatever a text, an input and a limit, a run ends in a way
-- that the language allows, and every cell holds a value of the type of its address.
import Quadlang.Proofs.Machine.Soundness

namespace Quadlang

/-- The memories of a machine: that of the program, and those of the calls under way and of the
calls whose arguments are being passed. -/
def Machine.memories (m : Machine) : List Cells :=
  m.globals :: (m.frames ++ m.pending).map (·.cells)

theorem Machine.Suited.memories {quads : List Quad} {m : Machine} (h : m.Suited quads) :
    ∀ cells ∈ m.memories, CellsSuit quads cells := by
  intro cells hcells
  rcases List.mem_cons.1 hcells with rfl | hcells
  · exact h.globals
  · obtain ⟨f, hf, rfl⟩ := List.mem_map.1 hcells
    rcases List.mem_append.1 hf with hf | hf
    · exact (h.frames f hf).1
    · exact (h.pending f hf).1

/-- A run of a compiled program, however long it is let run, never crashes and fails only for
want of stack, room for output, a valid index, a written cell, a divisor or a valid line of
input. At every point each memory holds values of the types of their addresses only. -/
theorem compiled_run_safe {text : Bytes} {p : Program} (h : compile text = .ok p) (input : Bytes)
    (room : Option Nat) (depth : Int) (limit : Nat) :
    ((Machine.start p input room).run (Image.ofProgram p depth) limit).1.Expected ∧
      ∀ cells ∈ ((Machine.start p input room).run (Image.ofProgram p depth) limit).2.memories,
        ∀ (a : Addr) (v : Value), cells[a]? = some v →
          v.HasType ((Image.ofProgram p depth).typeOf a) := by
  have hcharted := compile_charted h
  have him := hcharted.standard depth
  obtain ⟨i, hstart⟩ := hcharted.start_sound input room
  obtain ⟨hexpected, hsuited⟩ := run_sound him hcharted.chart limit hstart
  refine ⟨hexpected, ?_⟩
  intro cells hcells a v hv
  obtain ⟨segment, ty, ha, hty, -⟩ := hsuited.memories cells hcells a v hv
  rw [him.typeOf ha]
  exact hty

/-- A program that calls itself, works on arrays and fails at an index. -/
def descent : Bytes :=
  ascii "program descent; int a[3]; func int down(int n) \x7b if (n < 0) \x7b return a[n]; \x7d " ++
    ascii "a[n] = n; return down(n - 1) + a[n]; \x7d main \x7b write(down(2)); \x7d"

theorem descent_run_safe : ∃ p, compile descent = .ok p ∧
    ((Machine.start p [] none).run (Image.ofProgram p 0) 200).1.Expected ∧
      ∀ cells ∈ ((Machine.start p [] none).run (Image.ofProgram p 0) 200).2.memories,
        ∀ (a : Addr) (v : Value), cells[a]? = some v →
          v.HasType ((Image.ofProgram p 0).typeOf a) := by
  have hok : (compile descent).isOk = true := by decide +kernel
  cases h : compile descent with
  | error e =>
    rw [h] at hok
    cases hok
  | ok p => exact ⟨p, rfl, compiled_run_safe h [] none 0 200⟩

end Quadlang
