-- No two things that a compilation stores share an address: variables, fields, parameters,
-- return slots, constants and temporaries have blocks of their own, whatever actions are
-- performed and whichever of them fail. The actions of a text also keep each kind in its segment.
import Quadlang.Compile
import Quadlang.Proofs.Generator.Changes
import Quadlang.Proofs.Generator.World
import Quadlang.Proofs.Memory.Blocks
import Quadlang.Proofs.Source.Beginnings

namespace Quadlang

open Success

variable {m m' : Memory} {a : Action} {g : Generator} {id : ScopeId} {sym : Symbol} {l : Layout}
  {others : List Block} {mode mode' : Mode} {t : Trace} {mark : ScopeId → Segment} {name : Bytes}
  {s s' : Marked} {α : Type} {as : List α}

/-! ## What is stored -/

/-- The block of a variable or of the return slot of a function. -/
def Symbol.block? (s : Symbol) : Option Block := s.address?.map fun a => ⟨s.ty, a, s.size⟩

def Scope.blocks (s : Scope) : List Block := s.symbols.filterMap Symbol.block?

/-- The blocks of all directories, those of instances among them, and of all constants. -/
def Generator.blocks (g : Generator) : List Block :=
  g.scopes.toList.flatMap Scope.blocks ++ g.memory.constants.map Constant.block

/-- A compilation together with the temporaries that it has taken. -/
structure Trace where
  generator : Generator
  temporaries : List Block := []

namespace Trace

/-- All blocks that are in use. -/
def blocks (t : Trace) : List Block := t.generator.blocks ++ t.temporaries

/-- Performs an event, also when it fails. What an action takes to yield a value is a
temporary. -/
def step (t : Trace) (e : Event) : Trace :=
  let g := (Generate.perform e.action).after (t.generator.onLine e.line)
  { generator := g
    temporaries :=
      if e.action.yields then t.generator.memory.taken g.memory ++ t.temporaries
      else t.temporaries }

/-- Performs events one after another, whichever of them fail. -/
def run (t : Trace) (events : List Event) : Trace := events.foldl step t

/-- A compilation that has not begun, over some layout. -/
def start (l : Layout) : Trace := { generator := .ofMemory (.ofLayout l) }

theorem scopeAt_start (l : Layout) (id : ScopeId) :
    (scopeAt (start l).generator.scopes id).symbols = [] ∧
      (scopeAt (start l).generator.scopes id).kind = .program := by
  cases id with
  | zero => exact ⟨rfl, rfl⟩
  | succ id =>
    exact ⟨rfl, rfl⟩

end Trace

/-! ## Blocks under changes -/

/-- A directory gets some blocks more, if it is there. -/
theorem flatMap_modify_subperm {scopes : List Scope} {id : ScopeId} {f : Scope → Scope}
    {new : List Block} (hf : ∀ s, (f s).blocks = s.blocks ++ new) :
    ((scopes.modify id f).flatMap Scope.blocks).Subperm (new ++ scopes.flatMap Scope.blocks) := by
  induction scopes generalizing id with
  | nil => simp
  | cons s scopes ih =>
    have hcomm : (s.blocks ++ (new ++ scopes.flatMap Scope.blocks)).Perm
        (new ++ (s.blocks ++ scopes.flatMap Scope.blocks)) := List.perm_append_comm_assoc ..
    cases id with
    | zero =>
      simp only [List.modify_zero_cons, List.flatMap_cons, hf, List.append_assoc]
      exact hcomm.subperm
    | succ id =>
      exact ((List.subperm_append_left _).2 ih).trans hcomm.subperm

theorem Scope.blocks_add (s : Scope) (sym : Symbol) :
    (s.add sym).blocks = s.blocks ++ sym.block?.toList := by
  cases h : sym.block? <;> simp [Scope.blocks, Scope.add, List.filterMap_append, h]

theorem Scope.blocks_addParam (s : Scope) (name : Bytes) (p : Param) :
    (s.addParam name p).blocks = s.blocks := by
  simp only [Scope.blocks, Scope.addParam, List.filterMap_map]
  congr 1
  funext sym
  simp only [Function.comp_apply]
  split
  · rename_i hkind
    split
    · simp [Symbol.block?, Symbol.address?, hkind, Symbol.ty, Symbol.size]
    · rfl
  · rfl

/-- The blocks of a compilation and some others lie in its memory. -/
structure Kept (l : Layout) (g : Generator) (others : List Block) : Prop where
  layout : g.memory.layout = l
  keeps : g.memory.Keeps (g.blocks ++ others)

section Changes

variable {l : Layout} {others : List Block} {free : Marked → Prop} {s s' : Marked}

theorem Kept.of_alike {g' : Generator} (h : Kept l g others) (halike : Alike g g') :
    Kept l g' others := by
  have hblocks : g'.blocks = g.blocks := by simp [Generator.blocks, halike.scopes, halike.memory]
  exact ⟨halike.memory ▸ h.layout, by rw [hblocks, halike.memory]; exact h.keeps⟩

theorem Kept.modify {g : Generator} (h : Kept l g others) {id : ScopeId} {f : Scope → Scope}
    (hf : ∀ s, (f s).blocks = s.blocks) :
    Kept l { g with scopes := g.scopes.modify id f } others := by
  refine ⟨h.layout, h.keeps.subperm ?_⟩
  have hsub := @flatMap_modify_subperm g.scopes.toList id f [] (by simpa using hf)
  simp only [Generator.blocks, Array.toList_modify, List.append_assoc]
  exact (List.subperm_append_right _).2 hsub

theorem Kept.add (h : Kept l g others) {ty : Ty} {segment : Segment} {a : Addr}
    (hblock : sym.block? = some ⟨ty, a, sym.size⟩)
    (ha : g.memory.alloc ty segment sym.size = .ok (a, m)) :
    Kept l { g with memory := m, scopes := g.scopes.modify id (·.add sym) } others := by
  refine ⟨(Memory.layout_alloc ha).trans h.layout, (h.keeps.alloc ha).1.subperm ?_⟩
  have hsub := @flatMap_modify_subperm g.scopes.toList id (·.add sym) [⟨ty, a, sym.size⟩]
    (by simp [Scope.blocks_add, hblock])
  simp only [Generator.blocks, Array.toList_modify, List.append_assoc, Memory.constants_alloc ha]
  exact (List.subperm_append_right _).2 hsub

theorem Change.kept (h : Change free s s') (hkept : Kept l s.2 others) : Kept l s'.2 others := by
  cases h with
  | quiet hstroke => exact hkept.of_alike hstroke.alike
  | move => exact ⟨hkept.layout, hkept.keeps⟩
  | @rename mark g name =>
    have hmodified := @Kept.modify _ _ g hkept g.current (fun scope => { scope with name }) fun _ =>
      rfl
    exact ⟨hmodified.layout, hmodified.keeps⟩
  | @scope mark g segment name kind owner =>
    refine ⟨hkept.layout, ?_⟩
    have hblocks : ({ g with scopes := g.scopes.push (Scope.empty name kind owner) } :
      Generator).blocks =
        g.blocks := by simp [Generator.blocks, Scope.blocks, Scope.empty]
    rw [hblocks]
    exact hkept.keeps
  | symbol id sym hnone _ =>
    exact hkept.modify fun s => by simp [Scope.blocks_add, Symbol.block?, hnone]
  | stored id sym ty segment a m htype hkind ha _ =>
    exact hkept.add (by simp [Symbol.block?, Symbol.address?, hkind, Symbol.ty, htype]) ha
  | @function mark g sym ty a target m _ _ _ htype _ hdims hkind ha _ =>
    have hsize : sym.size = 1 := by simp [Symbol.size, hdims, Dim.total]
    rw [← hsize] at ha
    have hadd := @Kept.add m g g.current sym l others hkept ty .stack a
      (by simp [Symbol.block?, Symbol.address?, hkind, Symbol.ty, htype]) ha
    exact ⟨hadd.layout, hadd.keeps⟩
  | param name sym ty segment a m htype hkind ha _ =>
    refine Kept.modify (hkept.add ?_ ha) fun s => s.blocks_addParam name _
    simp [Symbol.block?, Symbol.address?, hkind, Symbol.ty, htype]
  | @constant mark g ty v a m hi =>
    rcases Memory.intern_eq_ok_cases hi with ⟨_, _, _, _, _, rfl⟩ | ⟨m₁, ha, rfl⟩
    · exact ⟨hkept.layout, hkept.keeps⟩
    · refine ⟨(Memory.layout_alloc ha).trans hkept.layout, ?_⟩
      refine ((hkept.keeps.alloc ha).1.subperm ?_).of_regions rfl
      simp only [Generator.blocks, Memory.constants_alloc ha, List.map_cons, List.append_assoc,
        List.cons_append]
      exact List.perm_middle.subperm

theorem Changes.kept (h : Changes free s s') (hkept : Kept l s.2 others) : Kept l s'.2 others := by
  induction h with
  | refl => exact hkept
  | tail _ hchange ih => exact hchange.kept ih

end Changes

/-! ## Every sequence of actions -/

/-- An action that yields a value takes nothing but temporaries, which have blocks of their
own. -/
theorem Kept.yield (h : Kept l g others) (hy : a.yields = true) :
    ∃ m, Alike { g with memory := m } ((Generate.perform a).after g) ∧
      m.constants = g.memory.constants ∧ Kept l { g with memory := m }
        (g.memory.taken m ++ others) ∧
      ∀ b ∈ g.memory.taken m, l.Keeps .temps b := by
  rcases Generate.takes_perform hy g with halike | ⟨ty, first, m, ha, halike⟩
  · refine ⟨g.memory, halike, rfl, ?_, ?_⟩
    · rw [Memory.taken_self]
      exact h
    · simp [Memory.taken_self]
  · obtain ⟨hkeeps, hplace⟩ := h.keeps.alloc ha
    rw [h.layout] at hplace
    refine ⟨m, halike, Memory.constants_alloc ha, ?_, ?_⟩
    · refine ⟨(Memory.layout_alloc ha).trans h.layout, hkeeps.subperm ?_⟩
      simp only [h.keeps.taken_alloc ha, Generator.blocks, Memory.constants_alloc ha]
      exact List.perm_middle.subperm
    · simpa [h.keeps.taken_alloc ha] using hplace

/-- The temporary that is taken is what the value is read from, and the last instruction fills
it. -/
theorem Take.yields {g' : Generator} (h : Take g g') :
    ∃ ty a x, g.memory.alloc ty .temps 1 = .ok (a, g'.memory) ∧ g'.operands.head? = some x ∧
      (x.operand = .cell a ∧ x.ty = ty ∨ x.operand = .pointer a ∧ ty = .int) ∧
      ∃ q, g'.quads.back? = some q ∧ q.res = .cell a := by
  cases h with
  | @unary op x operands ty a m _ _ ha =>
    exact ⟨ty, a, _, ha, rfl, .inl ⟨rfl, rfl⟩, _, Array.back?_push, rfl⟩
  | @binary op l r operands ty a m _ _ ha =>
    exact ⟨ty, a, _, ha, rfl, .inl ⟨rfl, rfl⟩, _, Array.back?_push, rfl⟩
  | @element r references address a m _ _ ha =>
    exact ⟨.int, a, _, ha, rfl, .inr ⟨rfl, rfl⟩, _, Array.back?_push, rfl⟩
  | @result c calls a m _ _ ha =>
    exact ⟨c.callee.ty, a, _, ha, rfl, .inl ⟨rfl, rfl⟩, _, Array.back?_push, rfl⟩

/-- An event takes one temporary at most. If it takes one, the operand that it pushes is this
temporary, or the element that it points to, and the last instruction fills it. -/
def Trace.Takes (t : Trace) (e : Event) : Prop :=
  (t.step e).temporaries = t.temporaries ∨
    ∃ ty a x q, (t.step e).temporaries = ⟨ty, a, 1⟩ :: t.temporaries ∧
      (t.step e).generator.operands.head? = some x ∧
      (x.operand = .cell a ∧ x.ty = ty ∨ x.operand = .pointer a ∧ ty = .int) ∧
      (t.step e).generator.quads.back? = some q ∧ q.res = .cell a

theorem Kept.takes {t : Trace} (h : Kept l t.generator t.temporaries) (e : Event) : t.Takes e := by
  unfold Trace.Takes
  cases hy : e.action.yields with
  | false => exact .inl (by simp [Trace.step, hy])
  | true =>
    simp only [Trace.step, hy, if_true]
    have hrow := Generate.row_perform (Action.draws_of_yields hy) (t.generator.onLine e.line)
    obtain ⟨g₁, halike, hend⟩ := hrow.last (.refl _) fun h h' => Alike.trans h h'.alike
    have hmemory : g₁.memory = t.generator.memory := halike.memory
    rcases hend with hsame | ⟨-, htake⟩
    · left
      rw [hsame, hmemory, Memory.taken_self]
      rfl
    · obtain ⟨ty, a, x, ha, hx, hcell, q, hq, hres⟩ := htake.yields
      rw [hmemory] at ha
      refine .inr ⟨ty, a, x, q, ?_, hx, hcell, hq, hres⟩
      rw [h.keeps.taken_alloc ha]
      rfl

theorem Kept.step {l : Layout} {t : Trace} (h : Kept l t.generator t.temporaries) (e : Event) :
    Kept l (t.step e).generator (t.step e).temporaries := by
  have hline : Kept l (t.generator.onLine e.line) t.temporaries := ⟨h.layout, h.keeps⟩
  cases hy : e.action.yields with
  | true =>
    obtain ⟨m, halike, -, hkept, -⟩ := hline.yield hy
    simp only [Trace.step, hy, if_true, halike.memory]
    exact hkept.of_alike halike
  | false =>
    simp only [Trace.step, hy, Bool.false_eq_true, if_false]
    obtain ⟨mark, hchanges⟩ := @Generate.moves_perform e.action (fun _ => True) (fun _ => .locals)
      (t.generator.onLine e.line) hy (fun _ _ _ => trivial) (fun _ _ => trivial)
    exact hchanges.kept hline

theorem Kept.run {t : Trace} (h : Kept l t.generator t.temporaries) (events : List Event) :
    Kept l (t.run events).generator (t.run events).temporaries := by
  induction events generalizing t with
  | nil => exact h
  | cons e events ih => exact ih (h.step e)

theorem Kept.start (h : l.Disjoint) :
    Kept l (Trace.start l).generator (Trace.start l).temporaries :=
  ⟨Memory.layout_ofLayout l, Memory.Keeps.ofLayout h⟩

theorem Layout.Disjoint.range?_of_mem (h : l.Disjoint) {s : Slot} (hs : s ∈ l.slots) :
    l.range? s.segment s.ty = some s := by
  cases hfind : l.range? s.segment s.ty with
  | none =>
    have := List.find?_eq_none.1 hfind s hs
    simp [Slot.owns] at this
  | some t =>
    obtain ⟨ht, hsegment, hty⟩ := Layout.mem_of_range? hfind
    rw [h.eq_of_owner ht hs hsegment hty]

theorem Kept.segment (h : Kept l g others) {b : Block} (hb : b ∈ g.blocks ++ others) :
    ∃ segment, l.Keeps segment b := by
  obtain ⟨hsize, r, hr, hty, hlow, hstop⟩ := h.keeps.inside b hb
  have hfree := (h.keeps.cursors r hr).free_le
  have hrange := h.keeps.disjoint.range?_of_mem (Memory.mem_layout hr)
  rw [h.layout, hty] at hrange
  exact ⟨r.segment, hsize, r.toSlot, hrange, hlow, by omega⟩

/-! ## Segments -/

/-- A symbol is stored where its directory says, a return slot apart, and so is what it leads
to. -/
def Symbol.Sorted (l : Layout) (mark : ScopeId → Segment) (size : Nat) (segment : Segment)
    (sym : Symbol) : Prop :=
  match sym.kind with
  | .variable (some a) => l.Keeps segment ⟨sym.ty, a, sym.size⟩
  | .variable none => ∀ inner, sym.scope = some inner → inner < size ∧ mark inner = segment
  | .function a _ _ => l.Keeps .stack ⟨sym.ty, a, sym.size⟩ ∧
      ∀ inner, sym.scope = some inner → inner < size ∧ mark inner = .functions
  | .record => True

theorem Symbol.Sorted.mono {mark' : ScopeId → Segment} {size size' : Nat} {segment : Segment}
    (h : sym.Sorted l mark size segment) (hsize : size ≤ size')
    (hmark : ∀ id < size, mark' id = mark id) :
    sym.Sorted l mark' size' segment := by
  unfold Symbol.Sorted at h ⊢
  split at h
  · exact h
  · intro inner hinner
    obtain ⟨hlt, heq⟩ := h inner hinner
    exact ⟨Nat.lt_of_lt_of_le hlt hsize, (hmark inner hlt).trans heq⟩
  · refine ⟨h.1, fun inner hinner => ?_⟩
    obtain ⟨hlt, heq⟩ := h.2 inner hinner
    exact ⟨Nat.lt_of_lt_of_le hlt hsize, (hmark inner hlt).trans heq⟩
  · trivial

/-- Every directory has the variables of its segment only, and the directory of the program
those of the program. -/
structure Sorted (l : Layout) (s : Marked) : Prop where
  nonempty : 0 < s.2.scopes.size
  outermost : s.1 0 = .locals
  symbols : ∀ id, ∀ sym ∈ (scopeAt s.2.scopes id).symbols, sym.Sorted l s.1 s.2.scopes.size (s.1 id)
  constants : ∀ c ∈ s.2.memory.constants, l.Keeps .globals c.block

section Segments

variable {l : Layout} {others : List Block} {mark : ScopeId → Segment} {g g' : Generator}

section

variable (h : Sorted l (mark, g))

include h

theorem Sorted.of_alike (halike : Alike g g') : Sorted l (mark, g') := by
  refine ⟨?_, h.outermost, ?_, ?_⟩
  · rw [halike.scopes]
    exact h.nonempty
  · rw [halike.scopes]
    exact h.symbols
  · rw [halike.memory]
    exact h.constants

theorem Sorted.modify {m : Memory} {id : ScopeId} {f : Scope → Scope}
    (hm : m.constants = g.memory.constants)
    (hf : ∀ sym ∈ (f (scopeAt g.scopes id)).symbols, sym.Sorted l mark g.scopes.size (mark id)) :
    Sorted l (mark, { g with memory := m, scopes := g.scopes.modify id f }) := by
  refine ⟨by simpa using h.nonempty, h.outermost, ?_, by simpa [hm] using h.constants⟩
  intro id' sym hsym
  simp only [Array.size_modify]
  rw [scopeAt_modify] at hsym
  split at hsym
  · rename_i hid
    obtain ⟨rfl, -⟩ := hid
    exact hf sym hsym
  · exact h.symbols id' sym hsym

theorem Sorted.add {m : Memory} {id : ScopeId} {sym : Symbol}
    (hm : m.constants = g.memory.constants) (hsym : sym.Sorted l mark g.scopes.size (mark id)) :
    Sorted l (mark, { g with memory := m, scopes := g.scopes.modify id (·.add sym) }) := by
  refine h.modify hm fun sym' hsym' => ?_
  rcases List.mem_append.1 hsym' with hold | hnew
  · exact h.symbols id sym' hold
  · rw [List.mem_singleton.1 hnew]
    exact hsym

theorem Sorted.addParam {p : Param} :
    Sorted l (mark, { g with scopes := g.scopes.modify id (·.addParam name p) }) := by
  refine @Sorted.modify l mark g h g.memory id (·.addParam name p) rfl fun sym hsym => ?_
  obtain ⟨sym₀, hsym₀, rfl⟩ := List.mem_map.1 hsym
  have hsorted := h.symbols id sym₀ hsym₀
  split
  · rename_i hkind
    split
    · simp only [Symbol.Sorted, hkind] at hsorted ⊢
      exact hsorted
    · exact hsorted
  · exact hsorted

theorem Sorted.push {segment : Segment} {kind : Scope.Kind}
    {owner : Option Bytes} :
    Sorted l (fun id => if id = g.scopes.size then segment else mark id,
      { g with scopes := g.scopes.push (Scope.empty name kind owner) }) := by
  have hmark : ∀ {id}, id < g.scopes.size →
      (if id = g.scopes.size then segment else mark id) = mark id :=
    fun hlt => if_neg (Nat.ne_of_lt hlt)
  refine ⟨by simp, (hmark h.nonempty).trans h.outermost, ?_, h.constants⟩
  intro id sym hsym
  simp only [Array.size_push]
  rw [scopeAt_push] at hsym
  split at hsym
  · cases hsym
  · have hlt : id < g.scopes.size := by
      apply Nat.lt_of_not_le
      intro hle
      rw [scopeAt_of_le hle] at hsym
      cases hsym
    rw [hmark hlt]
    exact (h.symbols id sym hsym).mono (Nat.le_succ _) fun _ => hmark

end

/-- What is stored in a directory goes to its segment. -/
theorem Settled.stores (h : Settled (mark, g)) {segment : Segment}
    (hstores : Marked.Stores (mark, g) id segment) : segment = mark id := by
  rcases hstores with heq | ⟨rfl, heq⟩
  · exact heq
  · exact heq.trans h.segment.symm

theorem Settled.of_alike (h : Settled (mark, g)) (halike : Alike g g') : Settled (mark, g') := by
  refine ⟨?_, ?_⟩
  · simp only [halike.current, halike.scopes]
    exact h.current
  · simp only [halike.current, Generator.segment, halike.function]
    exact h.segment

theorem Sorted.store (h : Sorted l (mark, g)) (hkept : Kept l g others)
    (hsettled : Settled (mark, g)) {ty : Ty}
    {segment : Segment} {a : Addr} (htype : sym.type = .value ty)
    (hkind : sym.kind = .variable (some a))
    (ha : g.memory.alloc ty segment sym.size = .ok (a, m))
    (hstores : Marked.Stores (mark, g) id segment) :
    Sorted l (mark, { g with memory := m, scopes := g.scopes.modify id (·.add sym) }) := by
  refine h.add (Memory.constants_alloc ha) ?_
  have hplace := (hkept.keeps.alloc ha).2
  rw [hkept.layout, hsettled.stores hstores] at hplace
  simpa [Symbol.Sorted, hkind, Symbol.ty, htype] using hplace

theorem Change.sorted (h : Change Settled s s') (hkept : Kept l s.2 others) (hsettled : Settled s)
    (hsorted : Sorted l s) : Settled s' ∧ Sorted l s' := by
  cases h with
  | quiet hstroke => exact ⟨hsettled.of_alike hstroke.alike, hsorted.of_alike hstroke.alike⟩
  | move current enclosing function _ hsettled' =>
    exact ⟨hsettled', hsorted.nonempty, hsorted.outermost, hsorted.symbols, hsorted.constants⟩
  | @rename mark g name =>
    refine ⟨⟨by simpa using hsettled.current, hsettled.segment⟩, ?_⟩
    have hmodified := @Sorted.modify l mark g hsorted g.memory g.current
      (fun scope => { scope with name }) rfl (hsorted.symbols g.current)
    exact ⟨hmodified.nonempty, hmodified.outermost, hmodified.symbols, hmodified.constants⟩
  | @scope mark g segment name kind owner =>
    refine ⟨⟨?_, ?_⟩, hsorted.push⟩
    · simpa using Nat.lt_succ_of_lt hsettled.current
    · exact (if_neg (Nat.ne_of_lt hsettled.current)).trans hsettled.segment
  | @symbol mark g id sym hnone hinner =>
    refine ⟨⟨by simpa using hsettled.current, hsettled.segment⟩, ?_⟩
    refine @Sorted.add l mark g hsorted g.memory id sym rfl ?_
    cases hkind : sym.kind with
    | «variable» address =>
      have haddress : address = none := by simpa [Symbol.address?, hkind] using hnone
      subst haddress
      simp only [Symbol.Sorted, hkind]
      intro inner hscope
      obtain ⟨hlt, hstores⟩ := hinner inner hkind hscope
      exact ⟨hlt, hsettled.stores hstores⟩
    | function address target params => simp [Symbol.address?, hkind] at hnone
    | record => simp [Symbol.Sorted, hkind]
  | stored id sym ty segment a m htype hkind ha hstores =>
    exact ⟨⟨by simpa using hsettled.current, hsettled.segment⟩,
      hsorted.store hkept hsettled htype hkind ha hstores⟩
  | @function mark g sym ty a target m current enclosing function htype _ hdims hkind ha
    hinner hstays =>
    refine ⟨?_, ?_⟩
    · rcases hstays with ⟨rfl, rfl, rfl⟩ | ⟨-, hsettled'⟩
      · exact ⟨by simpa using hsettled.current, hsettled.segment⟩
      · exact hsettled'
    suffices h : Sorted l (mark,
      { g with memory := m, scopes := g.scopes.modify g.current (·.add sym) }) from
      ⟨h.nonempty, h.outermost, h.symbols, h.constants⟩
    refine @Sorted.add l mark g hsorted m g.current sym (Memory.constants_alloc ha) ?_
    have hplace := (hkept.keeps.alloc ha).2
    rw [hkept.layout] at hplace
    have hsize : sym.size = 1 := by simp [Symbol.size, hdims, Dim.total]
    simp only [Symbol.Sorted, hkind, Symbol.ty, htype, hsize]
    exact ⟨hplace, hinner⟩
  | param name sym ty segment a m htype hkind ha hstores =>
    refine ⟨⟨by simpa using hsettled.current, hsettled.segment⟩, ?_⟩
    exact Sorted.addParam (hsorted.store hkept hsettled htype hkind ha hstores)
  | @constant mark g ty v a m hi =>
    refine ⟨⟨hsettled.current, hsettled.segment⟩, hsorted.nonempty, hsorted.outermost,
      hsorted.symbols, ?_⟩
    rcases Memory.intern_eq_ok_cases hi with ⟨_, _, _, _, _, rfl⟩ | ⟨m₁, ha, rfl⟩
    · exact hsorted.constants
    · intro c hc
      rcases List.mem_cons.1 hc with rfl | hc
      · have hplace := (hkept.keeps.alloc ha).2
        rw [hkept.layout] at hplace
        exact hplace
      · rw [Memory.constants_alloc ha] at hc
        exact hsorted.constants c hc

theorem Changes.sorted (h : Changes Settled s s') (hkept : Kept l s.2 others) (hsettled : Settled s)
    (hsorted : Sorted l s) : Settled s' ∧ Sorted l s' := by
  induction h with
  | refl => exact ⟨hsettled, hsorted⟩
  | tail hchanges hchange ih => exact hchange.sorted (Changes.kept hchanges hkept) ih.1 ih.2

end Segments

/-! ## Places in a text -/

/-- Where in a text an action stands. -/
inductive Mode
  | program
  | function
  | record

/-- Whether an action goes to another place. -/
def Action.turns (a : Action) : Bool := a.enters || a.leaves

/-- Whether an action is one of those that expressions and statements ask for. -/
def Action.computes : Action → Bool
  | .pushOperator _ | .pushConst .. | .openGroup | .closeGroup | .collapse _ | .write
    | .read | .ifCond
  | .orElse | .endIf | .whileStart | .whileCond | .whileEnd | .var _ | .member _ | .indexStart
  | .indexEnd | .varEnd | .callStart _ | .argument | .callEnd _ | .ret _ => true
  | _ => false

theorem Action.turns_of_computes (h : a.computes = true) : a.turns = false := by
  cases a <;> first | rfl | cases h

namespace Mode

/-- Where an action leads. A text opens and closes functions and classes in the program only. -/
def next : Mode → Action → Option Mode
  | .program, .declare _ _ ⟨true, false, true, []⟩ => some .function
  | .program, .declareClass _ => some .record
  | .function, .endFunction => some .program
  | .record, .leaveScope => some .program
  | mode, a => if a.turns then none else some mode

def run (mode : Mode) : List Action → Option Mode
  | [] => some mode
  | a :: as => (mode.next a).bind (·.run as)

/-- What a compilation has open at a place. -/
def Open : Mode → Generator → Prop
  | .program, g => g.current = 0 ∧ g.enclosing = [] ∧ g.function = none
  | .function, g => g.enclosing = [0] ∧ g.function.isSome = true
  | .record, g => g.enclosing = [0] ∧ g.function = none

theorem run_append (mode : Mode) (as bs : List Action) :
    mode.run (as ++ bs) = (mode.run as).bind (·.run bs) := by
  induction as generalizing mode with
  | nil => rfl
  | cons a as ih =>
    simp only [List.cons_append, run, Option.bind_assoc]
    congr 1
    funext mode'
    exact ih mode'

theorem next_of_steady (h : a.turns = false) : mode.next a = some mode := by
  unfold next
  split
  · cases h
  · cases h
  · cases h
  · cases h
  · simp [h]

end Mode

/-- All actions stay where they are. -/
def Steady (as : List Action) : Prop := ∀ a ∈ as, a.turns = false

namespace Steady

@[simp]
theorem nil : Steady [] := by simp [Steady]

@[simp]
theorem cons {a : Action} {as : List Action} : Steady (a :: as) ↔ a.turns = false ∧ Steady as :=
  List.forall_mem_cons

@[simp]
theorem append {as bs : List Action} : Steady (as ++ bs) ↔ Steady as ∧ Steady bs :=
  List.forall_mem_append

theorem flatMap {f : α → List Action} (h : ∀ a, Steady (f a)) : Steady (as.flatMap f) := by
  induction as with
  | nil => exact nil
  | cons a as ih => exact append.2 ⟨h a, ih⟩

theorem map {f : α → Action} (h : ∀ a, (f a).turns = false) : Steady (as.map f) := by
  intro b hb
  obtain ⟨a, -, rfl⟩ := List.mem_map.1 hb
  exact h a

theorem run {mode : Mode} {as : List Action} (h : Steady as) : mode.run as = some mode := by
  induction as with
  | nil => rfl
  | cons a as ih =>
    obtain ⟨ha, has⟩ := cons.1 h
    rw [Mode.run, Mode.next_of_steady ha]
    exact ih has

end Steady

namespace Source

mutual

theorem Expr.computes : (e : Expr) → ∀ a ∈ e.actions, a.computes = true
  | .constant ty v => by simp [Expr.actions, Action.computes]
  | .group e => by simpa [Expr.actions, Action.computes, or_imp, forall_and] using computes e
  | .call function args => by
    simpa [Expr.actions, Action.computes, or_imp, forall_and] using argsCompute args
  | .reference name members indices => by
    simpa [Expr.actions, Action.computes, or_imp, forall_and] using indicesCompute indices
  | .unary op e => by simpa [Expr.actions, Action.computes, or_imp, forall_and] using computes e
  | .binary op l r => by
    simpa [Expr.actions, Action.computes, or_imp, forall_and] using ⟨computes l, computes r⟩

theorem Expr.argsCompute : (es : List Expr) → ∀ a ∈ Expr.argumentActions es, a.computes = true
  | [] => by simp [Expr.argumentActions]
  | e :: es => by
    simpa [Expr.argumentActions, Action.computes, or_imp, forall_and] using ⟨computes e,
      argsCompute es⟩

theorem Expr.indicesCompute : (es : List Expr) → ∀ a ∈ Expr.indexActions es, a.computes = true
  | [] => by simp [Expr.indexActions]
  | e :: es => by
    simpa [Expr.indexActions, Action.computes, or_imp, forall_and] using ⟨computes e,
      indicesCompute es⟩

end

mutual

theorem Stmt.computes : (s : Stmt) → ∀ a ∈ s.actions, a.computes = true
  | .assign p e => by
    simpa [Stmt.actions, Action.computes, or_imp, forall_and] using ⟨p.expr.computes, e.computes⟩
  | .call function args => by
    simpa [Stmt.actions, Action.computes, or_imp, forall_and] using Expr.argsCompute args
  | .read places => by
    intro a ha
    obtain ⟨p, -, hp⟩ := List.mem_flatMap.1 ha
    rcases List.mem_append.1 hp with h | h
    · exact p.expr.computes a h
    · rw [List.mem_singleton.1 h, Action.computes]
  | .write values => by
    intro a ha
    obtain ⟨e, -, he⟩ := List.mem_flatMap.1 ha
    rcases List.mem_append.1 he with h | h
    · exact e.computes a h
    · rw [List.mem_singleton.1 h, Action.computes]
  | .ret none => by simp [Stmt.actions, Action.computes]
  | .ret (some e) => by simpa [Stmt.actions, Action.computes, or_imp, forall_and] using e.computes
  | .branch c body => by
    simpa [Stmt.actions, Action.computes, or_imp, forall_and] using ⟨c.computes, allCompute body⟩
  | .branchElse c body other => by
    simpa [Stmt.actions, Action.computes, or_imp, forall_and] using
      ⟨c.computes, allCompute body, allCompute other⟩
  | .loop c body => by
    simpa [Stmt.actions, Action.computes, or_imp, forall_and] using ⟨c.computes, allCompute body⟩

theorem Stmt.allCompute : (ss : List Stmt) → ∀ a ∈ Stmt.allActions ss, a.computes = true
  | [] => by simp [Stmt.allActions]
  | s :: ss => by simpa [Stmt.allActions, or_imp, forall_and] using ⟨computes s, allCompute ss⟩

end

theorem Stmt.allSteady (ss : List Stmt) : Steady (Stmt.allActions ss) :=
  fun a ha => Action.turns_of_computes (Stmt.allCompute ss a ha)

theorem Variables.steady (v : Variables) : Steady v.actions := by
  have hnames : Steady (v.names.flatMap Declarator.actions) := by
    refine .flatMap fun d => Steady.cons.2 ⟨rfl, .map fun _ => rfl⟩
  simp [Variables.actions, Action.turns, Action.enters, Action.leaves, hnames]

theorem Body.steady (b : Body) : Steady b.actions :=
  Steady.append.2 ⟨.flatMap Variables.steady, Stmt.allSteady _⟩

theorem Part.run (part : Part) : Mode.program.run part.actions = some .program := by
  cases part with
  | record name fields =>
    have hfields : Steady (fields.flatMap Variables.actions) := .flatMap Variables.steady
    rw [Part.actions, Mode.run_append]
    simp [Mode.run, Mode.next, hfields.run]
  | function f =>
    have hparams : Steady (f.params.map Parameter.action) := .map fun _ => rfl
    simp only [Part.actions, Function.actions, Mode.run_append, Action.declareFunction]
    simp [Mode.run, Mode.next, hparams.run, (Body.steady f.body).run]
  | declaration v => exact v.steady.run

/-- A program opens and closes its functions and classes one after the other. -/
theorem Tree.run (t : Tree) : Mode.program.run t.actions = some .program := by
  have hparts : Mode.program.run (t.parts.flatMap Part.actions) = some .program := by
    induction t.parts with
    | nil => rfl
    | cons part parts ih => simp [Mode.run_append, part.run, ih]
  have hmain : Steady (.main :: t.main.actions) := Steady.cons.2 ⟨rfl, t.main.steady⟩
  rw [Tree.actions, Mode.run_append, Mode.run, Mode.next_of_steady rfl]
  simp [hparts, hmain.run]

end Source

/-! ## The actions of a text -/

section Texts

variable {l : Layout} {others : List Block} {mark : ScopeId → Segment} {g g' : Generator}

/-- The row of changes of an action that keeps the directories in order. -/
theorem Mode.moves (hnext : mode.next a = some mode') (hyields : a.yields = false)
    (hopen : mode.Open g) (hsorted : Sorted l (mark, g)) :
    Moves Settled (Generate.perform a) (mark, g) := by
  unfold Mode.next at hnext
  split at hnext
  · exact Generate.moves_perform rfl (fun _ _ h => h) nofun
  · exact Generate.moves_perform rfl (fun _ _ h => h) nofun
  · refine Generate.moves_answer (Generate.moves_endFunction
      fun quads current enclosing henclosing => ?_)
    rw [hopen.1] at henclosing
    obtain ⟨rfl, rfl⟩ : 0 = current ∧ [] = enclosing := by simpa using henclosing
    exact ⟨hsorted.nonempty, hsorted.outermost⟩
  · refine Generate.moves_answer (Generate.moves_leaveScope fun id rest henclosing => ?_)
    rw [hopen.1] at henclosing
    obtain ⟨rfl, rfl⟩ := List.cons.inj henclosing
    refine ⟨hsorted.nonempty, hsorted.outermost.trans ?_⟩
    simp [Generator.segment, hopen.2]
  · split at hnext
    · cases hnext
    · rename_i hturns
      simp only [Action.turns, Bool.or_eq_true, not_or] at hturns
      exact Generate.moves_perform hyields (fun h => absurd h hturns.1) (fun h => absurd h hturns.2)

theorem still_perform (h : a.turns = false) (g : Generator) :
    ((Generate.perform a).after g).current = g.current ∧
      ((Generate.perform a).after g).enclosing = g.enclosing ∧
      ((Generate.perform a).after g).function = g.function := by
  obtain ⟨henters, hleaves⟩ : a.enters = false ∧ a.leaves = false := by
    simpa [Action.turns] using h
  cases hy : a.yields with
  | true =>
    rcases Generate.takes_perform hy g with halike | ⟨ty, b, m, -, halike⟩
    · exact ⟨halike.current, halike.enclosing, halike.function⟩
    · exact ⟨halike.current, halike.enclosing, halike.function⟩
  | false =>
    obtain ⟨mark, hchanges⟩ := @Generate.moves_perform a (fun _ => False) (fun _ => .locals) g hy
      (by simp [henters]) (by simp [hleaves])
    exact hchanges.still

/-- An action that succeeds leads to where the text says. -/
theorem Mode.open_of_ok {r : Reply} (hnext : mode.next a = some mode') (hopen : mode.Open g)
    (h : Generate.perform a g = .ok r g') : mode'.Open g' := by
  unfold Mode.next at hnext
  split at hnext
  · cases hnext
    simp only [Generate.perform, bind_eq_ok, pure_eq_ok] at h
    obtain ⟨sym, _, hdeclare, -, rfl⟩ := h
    obtain ⟨ty, b, m, -, -, -, -, rfl⟩ := declare_function hdeclare
    obtain ⟨hcurrent, henclosing, -⟩ := hopen
    simp [Mode.Open, hcurrent, henclosing]
  · cases hnext
    simp only [Generate.perform, bind_eq_ok, pure_eq_ok] at h
    obtain ⟨sym, _, hdeclare, -, rfl⟩ := h
    obtain ⟨-, -, rfl⟩ := declareClass_eq_ok hdeclare
    obtain ⟨hcurrent, henclosing, hfunction⟩ := hopen
    simp [Mode.Open, hcurrent, henclosing, hfunction]
  · cases hnext
    simp only [Generate.perform, bind_eq_ok, pure_eq_ok] at h
    obtain ⟨u, _, hend, -, rfl⟩ := h
    obtain ⟨callee, id, rest, -, henclosing, rfl⟩ := endFunction_eq_ok hend
    rw [hopen.1] at henclosing
    obtain ⟨rfl, rfl⟩ := List.cons.inj henclosing
    exact ⟨rfl, rfl, rfl⟩
  · cases hnext
    simp only [Generate.perform, bind_eq_ok, pure_eq_ok] at h
    obtain ⟨u, _, hleave, -, rfl⟩ := h
    obtain ⟨id, rest, henclosing, rfl⟩ := leaveScope_eq_ok hleave
    rw [hopen.1] at henclosing
    obtain ⟨rfl, rfl⟩ := List.cons.inj henclosing
    exact ⟨rfl, rfl, hopen.2⟩
  · split at hnext
    · cases hnext
    · rename_i hturns
      cases hnext
      obtain ⟨hcurrent, henclosing, hfunction⟩ := still_perform (by simpa using hturns) g
      rw [after_of_ok h] at hcurrent henclosing hfunction
      cases mode <;> simpa [Mode.Open, hcurrent, henclosing, hfunction] using hopen

/-- The compilation of a text after some of its actions. -/
structure Tidy (l : Layout) (mode : Mode) (mark : ScopeId → Segment) (t : Trace) : Prop where
  opened : mode.Open t.generator
  settled : Settled (mark, t.generator)
  sorted : Sorted l (mark, t.generator)
  kept : Kept l t.generator t.temporaries
  temporaries : ∀ b ∈ t.temporaries, l.Keeps .temps b

/-- Everything is stored in its segment, also when the last action has failed. -/
def Trace.Sorted (l : Layout) (t : Trace) : Prop :=
  (∃ mark, Quadlang.Sorted l (mark, t.generator)) ∧ ∀ b ∈ t.temporaries, l.Keeps .temps b

theorem Tidy.temporaries_step (h : Tidy l mode mark t) (e : Event) :
    ∀ b ∈ (t.step e).temporaries, l.Keeps .temps b := by
  have hkept : Kept l (t.generator.onLine e.line) t.temporaries := ⟨h.kept.layout, h.kept.keeps⟩
  cases hy : e.action.yields with
  | false =>
    simp only [Trace.step, hy, Bool.false_eq_true, if_false]
    exact h.temporaries
  | true =>
    obtain ⟨m, halike, -, -, hplaces⟩ := hkept.yield hy
    simp only [Trace.step, hy, if_true, halike.memory]
    intro b hb
    rcases List.mem_append.1 hb with hb | hb
    · exact hplaces b hb
    · exact h.temporaries b hb

theorem Tidy.directories_step (h : Tidy l mode mark t) {e : Event}
    (hnext : mode.next e.action = some mode') :
    ∃ mark', Settled (mark', (t.step e).generator) ∧ Sorted l (mark', (t.step e).generator) := by
  have hkept : Kept l (t.generator.onLine e.line) t.temporaries := ⟨h.kept.layout, h.kept.keeps⟩
  have hsettled : Settled (mark, t.generator.onLine e.line) :=
    ⟨h.settled.current, h.settled.segment⟩
  have hsorted : Sorted l (mark, t.generator.onLine e.line) :=
    ⟨h.sorted.nonempty, h.sorted.outermost, h.sorted.symbols, h.sorted.constants⟩
  cases hy : e.action.yields with
  | true =>
    obtain ⟨m, halike, hconstants, -⟩ := hkept.yield hy
    have htaken : Sorted l (mark, { t.generator.onLine e.line with memory := m }) :=
      ⟨hsorted.nonempty, hsorted.outermost, hsorted.symbols, hconstants ▸ hsorted.constants⟩
    have hsettled' : Settled (mark, { t.generator.onLine e.line with memory := m }) :=
      ⟨hsettled.current, hsettled.segment⟩
    exact ⟨mark, hsettled'.of_alike halike, htaken.of_alike halike⟩
  | false =>
    have hopen : mode.Open (t.generator.onLine e.line) := by cases mode <;> exact h.opened
    obtain ⟨mark', hchanges⟩ := Mode.moves hnext hy hopen hsorted
    exact ⟨mark', Changes.sorted hchanges hkept hsettled hsorted⟩

/-- Events up to the first that fails, and that one. -/
def performed : List Event → Generator → List Event
  | [], _ => []
  | e :: events, g =>
    match Generate.perform e.action (g.onLine e.line) with
    | .ok _ g' => e :: performed events g'
    | .error _ _ => [e]

theorem run_performed (events : List Event) (t : Trace) :
    (t.run (performed events t.generator)).generator =
      (Generate.performAll events).after t.generator := by
  induction events generalizing t with
  | nil => rfl
  | cons e events ih =>
    simp only [Generate.performAll, performed]
    rw [after_bind_of_ok (show Generate.setLine e.line t.generator = .ok ()
      (t.generator.onLine e.line) from rfl)]
    cases h : Generate.perform e.action (t.generator.onLine e.line) with
    | ok r g' =>
      have hstep : (t.step e).generator = g' := after_of_ok h
      rw [after_bind_of_ok h, ← hstep]
      exact ih (t.step e)
    | error stop g' =>
      rw [after_bind_of_error h]
      rfl

theorem Tidy.run {events : List Event} {mode : Mode} {t : Trace} (h : Tidy l mode mark t)
    (hmode : (mode.run (events.map (·.action))).isSome = true) :
    (t.run (performed events t.generator)).Sorted l := by
  induction events generalizing mode mark t with
  | nil => exact ⟨⟨mark, h.sorted⟩, h.temporaries⟩
  | cons e events ih =>
    simp only [List.map_cons, Mode.run] at hmode
    cases hnext : mode.next e.action with
    | none => simp [hnext] at hmode
    | some mode' =>
      simp only [hnext, Option.bind_some] at hmode
      obtain ⟨mark', hsettled, hsorted⟩ := h.directories_step hnext
      have htemporaries := h.temporaries_step e
      have hkept := h.kept.step e
      unfold performed
      cases hperform : Generate.perform e.action (t.generator.onLine e.line) with
      | error stop g' => exact ⟨⟨mark', hsorted⟩, htemporaries⟩
      | ok r g' =>
        have hopen : mode.Open (t.generator.onLine e.line) := by cases mode <;> exact h.opened
        have hstep : (t.step e).generator = g' := after_of_ok hperform
        have htidy : Tidy l mode' mark' (t.step e) :=
          ⟨hstep ▸ Mode.open_of_ok hnext hopen hperform, hsettled, hsorted, hkept, htemporaries⟩
        have hrest := ih htidy hmode
        rw [hstep] at hrest
        exact hrest

theorem Tidy.start (h : l.Disjoint) : Tidy l .program (fun _ => .locals) (Trace.start l) where
  opened := ⟨rfl, rfl, rfl⟩
  settled := ⟨Nat.zero_lt_one, rfl⟩
  sorted := by
    refine ⟨Nat.zero_lt_one, rfl, ?_, nofun⟩
    intro id sym hsym
    cases id with
    | zero => cases hsym
    | succ id =>
      cases hsym
  kept := .start h
  temporaries := nofun

end Texts

/-! ## Variables and where they lead -/

/-- A directory has a symbol, in itself or as a field of an instance at any depth. -/
inductive Generator.Reaches (g : Generator) : ScopeId → Symbol → Prop
  | here {id : ScopeId} {sym : Symbol} : sym ∈ (g.scope id).symbols → Reaches g id sym
  | field {id inner : ScopeId} {object sym : Symbol} : object ∈ (g.scope id).symbols →
      object.kind = .variable none → object.scope = some inner → Reaches g inner sym →
      Reaches g id sym

/-- What is stored lies in the segment of its kind: variables and fields of the program and of
its main body, those of functions with the parameters, return slots, constants and
temporaries. -/
structure Trace.Segmented (l : Layout) (t : Trace) : Prop where
  program : ∀ {sym a}, t.generator.Reaches 0 sym → sym.kind = .variable (some a) →
    l.Keeps .locals ⟨sym.ty, a, sym.size⟩
  functions : ∀ {id f inner sym a}, f ∈ (t.generator.scope id).symbols → f.isFunction = true →
    f.scope = some inner → t.generator.Reaches inner sym → sym.kind = .variable (some a) →
    l.Keeps .functions ⟨sym.ty, a, sym.size⟩
  returns : ∀ {id f a target params}, f ∈ (t.generator.scope id).symbols →
    f.kind = .function a target params → l.Keeps .stack ⟨f.ty, a, f.size⟩
  constants : ∀ c ∈ t.generator.memory.constants, l.Keeps .globals c.block
  temporaries : ∀ b ∈ t.temporaries, l.Keeps .temps b

theorem Sorted.reaches {a : Addr} (h : Sorted l (mark, g)) (hreaches : g.Reaches id sym)
    (hkind : sym.kind = .variable (some a)) : l.Keeps (mark id) ⟨sym.ty, a, sym.size⟩ := by
  induction hreaches with
  | here hsym =>
    have hsorted := h.symbols _ _ hsym
    simpa [Symbol.Sorted, hkind] using hsorted
  | field hobject hnone hscope _ ih =>
    have hsorted := h.symbols _ _ hobject
    simp only [Symbol.Sorted, hnone] at hsorted
    rw [← (hsorted _ hscope).2]
    exact ih hkind

theorem Trace.Sorted.segmented (h : t.Sorted l) : t.Segmented l := by
  obtain ⟨⟨mark, hsorted⟩, htemporaries⟩ := h
  refine ⟨?_, ?_, ?_, hsorted.constants, htemporaries⟩
  · intro sym a hreaches hkind
    have hkeeps := hsorted.reaches hreaches hkind
    have houtermost : mark 0 = .locals := hsorted.outermost
    rwa [houtermost] at hkeeps
  · intro id f inner sym a hf hfunction hscope hreaches hkind
    have hkeeps := hsorted.reaches hreaches hkind
    have hfsorted := hsorted.symbols id f hf
    cases hfkind : f.kind with
    | function address target params =>
      simp only [Symbol.Sorted, hfkind] at hfsorted
      rwa [(hfsorted.2 inner hscope).2] at hkeeps
    | «variable» address => simp [Symbol.isFunction, hfkind] at hfunction
    | record => simp [Symbol.isFunction, hfkind] at hfunction
  · intro id f a target params hf hkind
    have hfsorted := hsorted.symbols id f hf
    simp only [Symbol.Sorted, hkind] at hfsorted
    exact hfsorted.1

/-- The events of a text that are performed over a layout. -/
def fired (l : Layout) (text : Bytes) : List Event :=
  match Token.scan text with
  | .error _ => []
  | .ok ts => performed (Grammar.read ts).events (Trace.start l).generator

/-- The compilation of a text over a layout, as far as it gets. -/
def Trace.ofText (l : Layout) (text : Bytes) : Trace := (Trace.start l).run (fired l text)

theorem generator_ofText (l : Layout) (text : Bytes) :
    ∃ n, ((Generator.ofMemory (.ofLayout l)).parse text).2 =
      (Trace.ofText l text).generator.onLine n := by
  unfold Generator.parse Trace.ofText fired
  cases Token.scan text with
  | error e => exact ⟨0, rfl⟩
  | ok ts =>
    simp only
    rw [run_performed (Grammar.read ts).events (Trace.start l)]
    unfold Generate.after
    rw [show (Trace.start l).generator = .ofMemory (.ofLayout l) from rfl]
    cases Generate.performAll (Grammar.read ts).events (.ofMemory (.ofLayout l)) with
    | error stop g => exact ⟨g.line, rfl⟩
    | ok u g =>
      refine ⟨(Grammar.read ts).line, ?_⟩
      cases (Grammar.read ts).error with
      | none => rfl
      | some e => rfl

theorem sorted_ofText (h : l.Disjoint) (text : Bytes) : (Trace.ofText l text).Sorted l := by
  have hstart := Tidy.start h
  unfold Trace.ofText fired
  cases hscan : Token.scan text with
  | error e => exact ⟨⟨_, hstart.sorted⟩, hstart.temporaries⟩
  | ok ts =>
    obtain ⟨hlines, hlast⟩ := (@Source.scanFrom_lines (Source.lines text) [] 1 text (by simp)
      (Nat.le_refl 1) (Nat.le_refl _)).1 ts hscan
    obtain ⟨⟨t, bs, -, hactions, -⟩, -⟩ := Source.read_beginning hlines hlast
    have hrun := Source.Tree.run t
    rw [hactions, Mode.run_append] at hrun
    refine hstart.run ?_
    cases hmode : Mode.program.run ((Grammar.read ts).events.map (·.action)) with
    | none => simp [hmode] at hrun
    | some mode => rfl

/-- No two things that are stored share an address. Over any layout without overlaps, and for any
actions, whichever of them fail, the blocks of variables, fields, parameters, return slots,
constants and temporaries are apart from one another, each inside a range of its type. A temporary
is taken for the operand that an action pushes. When the actions are those of a text, each kind lies
in its own segment. -/
theorem storage_apart {l : Layout} (h : l.Disjoint) (events : List Event) (text : Bytes) :
    ((Trace.start l).run events).blocks.Pairwise Block.Apart ∧
      (∀ b ∈ ((Trace.start l).run events).blocks, ∃ segment, l.Keeps segment b) ∧
      (∀ e, ((Trace.start l).run events).Takes e) ∧
      (∃ n, ((Generator.ofMemory (.ofLayout l)).parse text).2 =
        (Trace.ofText l text).generator.onLine n) ∧
      (Trace.ofText l text).Segmented l := by
  have hkept := (Kept.start h).run events
  exact ⟨hkept.keeps.apart, fun b hb => hkept.segment hb, hkept.takes, generator_ofText l text,
    (sorted_ofText h text).segmented⟩

/-- A layout whose last range ends at the largest address. -/
def edge : Layout :=
  ⟨[⟨.locals, .int, 9223372036854775805, 9223372036854775807⟩, ⟨.globals, .int, 0, 1⟩,
    ⟨.temps, .int, 10, 11⟩]⟩

/-- Actions that fill up the variables, fail at one more, and add a constant to the last. -/
def crowding : List Event :=
  [.declare (ascii "a") (ascii "int") { dims := [2] }, .declare (ascii "b") (ascii "int") {},
    .declare (ascii "c") (ascii "int") {}, .var (ascii "b"), .varEnd, .pushOperator (.arith .sum),
    .pushConst .int (.int 7), .collapse Level.term].map (Event.mk 1)

theorem crowding_apart : edge.Disjoint ∧ ((Trace.start edge).run crowding).blocks =
      [⟨.int, 9223372036854775805, 2⟩, ⟨.int, 9223372036854775807, 1⟩, ⟨.int, 0, 1⟩,
        ⟨.int, 10, 1⟩] ∧
    (Trace.ofText edge (ascii "program p; int x; main \x7b write(x + 1); \x7d")).blocks =
      [⟨.int, 9223372036854775805, 1⟩, ⟨.int, 0, 1⟩, ⟨.int, 10, 1⟩] ∧
    ((Trace.start edge).run crowding).blocks.Pairwise Block.Apart ∧
      (∀ b ∈ ((Trace.start edge).run crowding).blocks, ∃ segment, edge.Keeps segment b) ∧
      (∀ e, ((Trace.start edge).run crowding).Takes e) ∧
      (∃ n, ((Generator.ofMemory (.ofLayout edge)).parse
          (ascii "program p; int x; main \x7b write(x + 1); \x7d")).2 =
        (Trace.ofText edge
          (ascii "program p; int x; main \x7b write(x + 1); \x7d")).generator.onLine n) ∧
      (Trace.ofText edge (ascii "program p; int x; main \x7b write(x + 1); \x7d")).Segmented edge :=
  ⟨by decide, by decide +kernel, by decide +kernel, storage_apart (by decide) crowding _⟩

end Quadlang
