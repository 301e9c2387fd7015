-- Control stays where it belongs: the instructions of a program are a jump to the main body, the
-- functions in the order of their declarations, and the main body, and in every run the next
-- instruction is one of the function whose activation is the innermost.
import Quadlang.Proofs.Machine.Activations
import Quadlang.Proofs.Program.Spans

namespace Quadlang

open Source

variable {i : Nat} {q : Quad}

/-! ## Arranged programs -/

/-- The instructions of a program in their places, under the names that are known at its end: the
spans of its functions and the first position of the main body. -/
structure Program.Arranged (p : Program) (t : Tree) (names : Names) (spans : List Span)
    (entry : Nat) : Prop where
  /-- Every function has a span, in the order of declaration, at the position and with the return
  slot that its calls are given. -/
  functions : List.Forall₂ (fun s f => s.callee.name = f.name ∧
    names.callee? f.name = some s.callee)
    spans t.functions
  slots : (spans.map (·.callee.address)).Nodup
  slot : ∀ s ∈ spans, Layout.standard.Holds .stack s.callee.ty s.callee.address
  first : p.quads[0]? = some (jumpQuad entry)
  tiles : Tiles spans 1 entry
  last : entry ≤ p.quads.size
  /-- A function has one instruction that leaves it, its last. -/
  leave : ∀ s ∈ spans, ∀ i q, s.Has i → p.quads[i]? = some q →
    (q.op = .endFunction ↔ i = s.stop) ∧ (i = s.stop → q = s.callee.leave)
  ret : ∀ s ∈ spans, ∀ i q, s.Has i → p.quads[i]? = some q → q.op = .ret →
    q.res = .cell s.callee.address
  main : ∀ i q, entry ≤ i → p.quads[i]? = some q → q.op ≠ .endFunction ∧ q.op ≠ .ret
  /-- Every jump has a target, in the same function or in the main body. -/
  jump : ∀ i q, p.quads[i]? = some q → q.op = .goto ∨ q.op = .gotoFalse →
    ∃ target, q.res = .label target ∧ (∀ s ∈ spans, s.Has i → s.Has target) ∧
      (i = 0 ∨ entry ≤ i → entry ≤ target ∧ target ≤ p.quads.size)
  era : ∀ q ∈ p.quads, q.op = .era → ∃ s ∈ spans, q = s.callee.era
  gosub : ∀ q ∈ p.quads, q.op = .gosub → ∃ s ∈ spans, q = s.callee.gosub

section

variable {P : Ty → Value → Prop} {t : Tree} {p : Program} {b : Assembly}

/-- The instruction that leaves a routine is the last of its span, and no other one is. -/
theorem Assembly.Of.leave_span (h : b.Of P t p) {r : Routine} (hr : r ∈ b.routines)
    (hi : r.span.Has i) (hq : p.quads.toList[i]? = some q) :
    (q.op = .endFunction ↔ i = r.span.stop) ∧ (i = r.span.stop → q = r.callee.leave) := by
  obtain ⟨_, -, hcompiled⟩ := h.outline.compiled hr
  obtain ⟨hcode, hleave⟩ := (h.outline.placed h.placed.1 hr).append
  have hstop : i = r.span.stop → q = r.callee.leave := by
    rintro rfl
    exact Option.some.inj (hq.symm.trans hleave.head)
  refine ⟨⟨?_, fun hlast => by rw [hstop hlast]; rfl⟩, hstop⟩
  intro hop
  by_contra hne
  obtain ⟨k, rfl⟩ := Nat.exists_eq_add_of_le hi.1
  have hbound : r.callee.target + k ≤ r.callee.target + r.code.length := hi.2
  have hne' : r.callee.target + k ≠ r.callee.target + r.code.length := hne
  have hk : k < r.code.length := by omega
  have hplaced := hcode k _ (List.getElem?_eq_getElem hk)
  obtain rfl := Option.some.inj (hq.symm.trans hplaced)
  exact hcompiled.growth.stays _ (List.getElem_mem hk) hop

/-- A position that no function has belongs to none of the instructions of functions. -/
theorem Assembly.Of.plain_main (h : b.Of P t p) (hcharted : Charted p) (hi : 1 + b.code.length ≤ i)
    (hq : p.quads.toList[i]? = some q) : q.op ≠ .endFunction ∧ q.op ≠ .ret := by
  obtain ⟨hlt, -⟩ := List.getElem?_eq_some_iff.1 hq
  have howner := h.owner_of_main hi (Nat.le_of_lt hlt)
  constructor
  · intro hop
    rw [owner_leave hq hop] at howner
    cases howner
  · intro hop
    obtain ⟨a, -, ha⟩ := hcharted.ret (by omega) hq hop
    rw [ha] at howner
    cases howner

/-- A jump stays in the span of its function, or in the main body. -/
theorem Assembly.Of.jump_contained (h : b.Of P t p) (hcharted : Charted p)
    (hq : p.quads.toList[i]? = some q) (hop : q.op = .goto ∨ q.op = .gotoFalse) :
    ∃ target, q.res = .label target ∧ (∀ r ∈ b.routines, r.span.Has i → r.span.Has target) ∧
      (i = 0 ∨ 1 + b.code.length ≤ i →
        1 + b.code.length ≤ target ∧ target ≤ p.quads.toList.length) := by
  obtain ⟨hlt, -⟩ := List.getElem?_eq_some_iff.1 hq
  by_cases hfirst : i = 0
  · subst hfirst
    rw [h.quads] at hq
    obtain rfl : jumpQuad (1 + b.code.length) = q := Option.some.inj hq
    refine ⟨1 + b.code.length, rfl, ?_, fun _ => ⟨Nat.le_refl _, by rw [h.length_quads]; omega⟩⟩
    intro r hr hhas
    have hlow := h.outline.tiles.low_le (List.mem_map_of_mem hr)
    exact absurd (Nat.le_trans hlow hhas.1) (by simp)
  · obtain ⟨target, hres, hlanding⟩ := hcharted.jump (Nat.one_le_iff_ne_zero.2 hfirst) hq hop
    refine ⟨target, hres, ?_, ?_⟩
    · intro r hr hhas
      have howner := hlanding.owner.trans (h.owner_span hr hhas)
      obtain ⟨r', hr', hhas', haddress⟩ := h.span_of_owner hlanding.first hlanding.last howner
      obtain rfl := h.eq_of_address hr' hr haddress
      exact hhas'
    · rintro (rfl | hmain)
      · exact absurd rfl hfirst
      · have howner := hlanding.owner.trans (h.owner_of_main hmain (Nat.le_of_lt hlt))
        exact ⟨h.main_of_owner hlanding.first howner, hlanding.last⟩

theorem Assembly.Of.arranged (h : b.Of P t p) (hcharted : Charted p) :
    p.Arranged t b.names (b.routines.map Routine.span) (1 + b.code.length) where
  functions := by
    rw [List.forall₂_map_left_iff]
    refine ((List.forall₂_and_left _ _).2 ⟨h.callees, h.functions⟩).imp ?_
    rintro r f ⟨hcallee, hof⟩
    rw [← hof.name]
    exact ⟨rfl, hcallee⟩
  slots := by
    rw [List.map_map]
    exact h.outline.slots
  slot := by
    intro s hs
    obtain ⟨r, hr, rfl⟩ := List.mem_map.1 hs
    exact h.ready.holds (h.ready.functions r.known (List.mem_map_of_mem hr)).slot
  first := by
    rw [← Array.getElem?_toList, h.quads]
    rfl
  tiles := h.outline.tiles
  last := by
    rw [← Array.length_toList, h.length_quads]
    exact Nat.le_add_right ..
  leave := by
    intro s hs i q hi hq
    obtain ⟨r, hr, rfl⟩ := List.mem_map.1 hs
    rw [← Array.getElem?_toList] at hq
    exact h.leave_span hr hi hq
  ret := by
    intro s hs i q hi hq hop
    obtain ⟨r, hr, rfl⟩ := List.mem_map.1 hs
    rw [← Array.getElem?_toList] at hq
    have hlow := h.outline.tiles.low_le hs
    obtain ⟨a, hres, howner⟩ := hcharted.ret (Nat.le_trans hlow hi.1) hq hop
    rw [h.owner_span hr hi] at howner
    rw [hres, ← Option.some.inj howner]
    rfl
  main := by
    intro i q hi hq
    rw [← Array.getElem?_toList] at hq
    exact h.plain_main hcharted hi hq
  jump := by
    intro i q hq hop
    rw [← Array.getElem?_toList] at hq
    obtain ⟨target, hres, hspan, hmain⟩ := h.jump_contained hcharted hq hop
    refine ⟨target, hres, ?_, hmain⟩
    intro s hs hi
    obtain ⟨r, hr, rfl⟩ := List.mem_map.1 hs
    exact hspan r hr hi
  era := by
    intro q hq hop
    obtain ⟨r, hr, rfl | rfl⟩ := h.calls (Array.mem_toList_iff.2 hq) (.inl hop)
    · exact ⟨r.span, List.mem_map_of_mem hr, rfl⟩
    · cases hop
  gosub := by
    intro q hq hop
    obtain ⟨r, hr, rfl | rfl⟩ := h.calls (Array.mem_toList_iff.2 hq) (.inr hop)
    · cases hop
    · exact ⟨r.span, List.mem_map_of_mem hr, rfl⟩

/-! ## Runs -/

/-- The next instruction is one of the function whose activation is the innermost, or of the main
body if there is none. -/
def Machine.Contained (m : Machine) (p : Program) (spans : List Span) (entry : Nat) : Prop :=
  ∃ i : Nat, m.ip = i ∧
    match m.frames with
    | [] => entry ≤ i ∧ i ≤ p.quads.size
    | f :: _ => ∃ s ∈ spans, s.callee.address = f.callee ∧ s.Has i

/-- The calls under way say which function a position belongs to. -/
theorem Machine.SoundAt.contained (h : b.Of P t p) {m : Machine}
    (hsound : m.SoundAt p.quads.toList i) :
    m.Contained p (b.routines.map Routine.span) (1 + b.code.length) := by
  refine ⟨i, hsound.ip, ?_⟩
  obtain ⟨_, _, _, _, -, -, -, -, hreturns⟩ := hsound.stack
  generalize howner : owner p.quads.toList i = o at hreturns
  generalize m.frames = frames at hreturns ⊢
  cases hreturns with
  | program => exact ⟨h.main_of_owner hsound.first howner, hsound.last⟩
  | call =>
    obtain ⟨r, hr, hhas, haddress⟩ := h.span_of_owner hsound.first hsound.last howner
    exact ⟨r.span, List.mem_map_of_mem hr, haddress, hhas⟩

end

/-- The instructions of a compiled program are a jump to its main body, its functions in the order
of declaration and its main body. A function is entered at its first instruction, left by its last
one only, and returned from by its own return slot. Jumps stay in their function or in the main
body, and calls go to functions of the program. So in every run the next instruction is one of the
function whose activation is the innermost, or of the main body if there is none. -/
theorem control_contained {text : Bytes} {p : Program} {t : Tree} (h : compile text = .ok p)
    (hread : t.ReadFrom text) :
    ∃ spans entry, p.Arranged t (Generator.initial.parse text).2.names spans entry ∧
      ∀ (input : Bytes) (room : Option Nat) (depth : Int) (n : Nat) (m : Machine) (j : Journal),
        (Machine.start p input room).watched (Image.ofProgram p depth) n = some (m, j) →
        m.Contained p spans entry := by
  have hcharted := compile_charted h
  obtain ⟨b, hlasts, hb⟩ := hread.assembled h (fun _ _ => True) (hread.literals h (by simp))
  refine ⟨b.routines.map Routine.span, 1 + b.code.length, ?_, ?_⟩
  · rw [← hlasts.names]
    exact hb.arranged hcharted
  · intro input room depth n m j hrun
    obtain ⟨⟨i, hsound⟩, -⟩ := hcharted.watched hrun
    exact hsound.contained hb

/-- A program with a loop in one function, returns in another, and a call of one from the other. -/
def patrol : Bytes :=
  ascii "program patrol; int n; func int less(int k) \x7b if (k > 1) \x7b return k - 1; \x7d " ++
    ascii "return 0; \x7d func void walk(int k) \x7b while (k > 0) \x7b k = less(k); n = n + 1; " ++
    ascii "\x7d \x7d main \x7b n = 0; walk(3); write(n); \x7d"

/-- Inside of both functions of the program, the next instruction is one of the inner one. -/
theorem patrol_contained : ∃ p t spans entry m j f, compile patrol = .ok p ∧
    Tree.ReadFrom t patrol ∧ p.Arranged t (Generator.initial.parse patrol).2.names spans entry ∧
    (Machine.start p [] none).watched (Image.ofProgram p 0) 11 = some (m, j) ∧
    m.frames.length = 2 ∧ m.frames.head? = some f ∧
    ∃ s ∈ spans, ∃ i : Nat, m.ip = i ∧ s.callee.address = f.callee ∧ s.Has i := by
  obtain ⟨p, m, j, hcompile, hm, hcheck⟩ := @exists_watched patrol 11
    (fun _ m _ => m.frames.length = 2) (by decide +kernel)
  obtain ⟨-, t, -, -, hread⟩ := compile_spelled hcompile
  obtain ⟨spans, entry, harranged, hruns⟩ := control_contained hcompile hread
  obtain ⟨i, hip, hcontained⟩ := hruns [] none 0 11 m j hm
  have hlength := of_decide_eq_true hcheck
  cases hframes : m.frames with
  | nil =>
    rw [hframes] at hlength
    cases hlength
  | cons f rest =>
    rw [hframes] at hcontained
    obtain ⟨s, hs, haddress, hhas⟩ := hcontained
    rw [hframes] at hlength
    exact ⟨p, t, spans, entry, m, j, f, hcompile, hread, harranged, hm,
      by rw [hframes]; exact hlength, by rw [hframes]; rfl, s, hs, i, hip, haddress, hhas⟩

end Quadlang
