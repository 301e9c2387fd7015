-- The types of addresses: whatever actions are performed and whichever of them fail, an operand has
-- the type that the layout gives its cell, and so has every instruction that is written.
import Quadlang.Proofs.Generator.Aliasing

namespace Quadlang

variable {l : Layout} {g g' : Generator} {others : List Block} {o : Operand} {a : Addr} {ty : Ty}
  {q : Quad} {segment : Segment} {m : Memory} {b : Block} {x : TypedOperand} {free : Marked → Prop}
  {s s' : Marked}

/-! ## Types of cells -/

/-- The range of the cell that an operand is. -/
def Layout.slotOf? (l : Layout) (o : Operand) : Option Slot :=
  if o.kind = .address then l.locate? o.word else none

/-- The type that a layout gives to the cell that an operand is. -/
def Layout.typeOf? (l : Layout) (o : Operand) : Option Ty := (l.slotOf? o).map (·.ty)

/-- An operand is a cell of a temporary. -/
def Layout.Spares (l : Layout) (o : Operand) (ty : Ty) : Prop :=
  ∃ s, l.slotOf? o = some s ∧ s.segment = .temps ∧ s.ty = ty

/-- What the types of its cells are to an instruction. -/
def Quad.Fits (l : Layout) (q : Quad) : Prop :=
  match q.op with
  | .arith _ | .compare _ | .logic _ => ∃ t, l.Spares q.res t ∧
      ∀ tl tr, l.typeOf? q.arg1 = some tl → l.typeOf? q.arg2 = some tr →
        Typing.binaryOf q.op tl tr = some t
  | .not | .neg => ∃ t, l.Spares q.res t ∧
      ∀ tl, l.typeOf? q.arg1 = some tl → Typing.unaryOf q.op tl = some t
  | .assign => ∀ t tl, l.typeOf? q.res = some t → l.typeOf? q.arg1 = some tl →
      Typing.binaryOf .assign t tl = some t
  | .param | .ret => ∀ t tl, l.typeOf? q.res = some t → l.typeOf? q.arg1 = some tl → tl = t
  | .read | .write => ∀ t, l.typeOf? q.res = some t → Typing.isPrimitive t = true
  | .gotoFalse => ∀ tl, l.typeOf? q.arg1 = some tl → tl = .bool
  | .ver => ∀ tl, l.typeOf? q.arg1 = some tl → tl = .int
  | _ => True

/-- If an operand is a cell, the layout has a type for it. -/
def Layout.Covers (l : Layout) (o : Operand) : Prop :=
  o.kind = .address → (l.typeOf? o).isSome = true

structure Quad.WellTyped (l : Layout) (q : Quad) : Prop where
  arg1 : l.Covers q.arg1
  arg2 : l.Covers q.arg2
  res : l.Covers q.res
  fits : q.Fits l

theorem Layout.typeOf?_of_kind (h : o.kind ≠ .address) : l.typeOf? o = none := by
  simp [Layout.typeOf?, Layout.slotOf?, h]

theorem Layout.covers_of_kind (h : o.kind ≠ .address) : l.Covers o := fun h' => absurd h' h

theorem Layout.covers_none (l : Layout) : l.Covers .none := covers_of_kind (by simp [Operand.none])

theorem Layout.covers_label (l : Layout) (target : Nat) : l.Covers (.label target) :=
  covers_of_kind (by simp [Operand.label])

theorem Layout.covers_of_typeOf? (h : l.typeOf? o = some ty) : l.Covers o := fun _ => by rw [h]; rfl

theorem Layout.Spares.covers (h : l.Spares o ty) : l.Covers o := by
  obtain ⟨s, hs, -⟩ := h
  exact covers_of_typeOf? (by rw [typeOf?, hs]; rfl)

/-- The cells of a block have its type. -/
theorem Layout.Disjoint.slotOf?_of_keeps (h : l.Disjoint) (hb : l.Keeps segment b) :
    ∃ s, l.slotOf? (.cell b.first) = some s ∧ s.segment = segment ∧ s.ty = b.ty := by
  obtain ⟨s, hmem, howns, hcontains⟩ := hb.holds
  have hlocate := h.locate?_eq_some.2 ⟨hmem, hcontains⟩
  exact ⟨s, by simp [slotOf?, Operand.cell, Operand.word, hlocate], Slot.owns_iff.1 howns⟩

section

variable (h : Kept l g others)

include h

theorem Kept.disjoint : l.Disjoint := h.layout ▸ h.keeps.disjoint

theorem Kept.typeOf? (hb : l.Keeps segment b) : l.typeOf? (.cell b.first) = some b.ty := by
  obtain ⟨s, hs, -, hty⟩ := h.disjoint.slotOf?_of_keeps hb
  simp [Layout.typeOf?, hs, hty]

theorem Kept.typeOf?_alloc {n : Int64} (ha : g.memory.alloc ty segment n = .ok (a, m)) :
    l.typeOf? (.cell a) = some ty := by
  have hplace := (h.keeps.alloc ha).2
  rw [h.layout] at hplace
  exact h.typeOf? (b := ⟨ty, a, n⟩) hplace

theorem Kept.spares (ha : g.memory.alloc ty .temps 1 = .ok (a, m)) : l.Spares (.cell a) ty := by
  have hplace := (h.keeps.alloc ha).2
  rw [h.layout] at hplace
  exact h.disjoint.slotOf?_of_keeps (b := ⟨ty, a, 1⟩) hplace

theorem Kept.typeOf?_symbol {sym : Symbol} (hsym : g.Knows sym)
    (ha : sym.address? = some a) : l.typeOf? (.cell a) = some sym.ty := by
  obtain ⟨id, hmem⟩ := hsym
  have hscope : g.scope id ∈ g.scopes.toList := by
    unfold Generator.scope at hmem ⊢
    rw [Array.getD_eq_getD_getElem?] at hmem ⊢
    cases hget : g.scopes[id]? with
    | none => simp [hget, Scope.empty] at hmem
    | some scope => exact Array.mem_toList_iff.2 (Array.mem_of_getElem? hget)
  have hblock : (⟨sym.ty, a, sym.size⟩ : Block) ∈ g.blocks := by
    refine List.mem_append_left _ (List.mem_flatMap.2 ⟨g.scope id, hscope, ?_⟩)
    exact List.mem_filterMap.2 ⟨sym, hmem, by simp [Symbol.block?, ha]⟩
  obtain ⟨segment, hkeeps⟩ := h.segment (List.mem_append_left others hblock)
  exact h.typeOf? (b := ⟨sym.ty, a, sym.size⟩) hkeeps

theorem Kept.typeOf?_intern {v : Value} (hi : g.memory.intern ty v = .ok (a, m)) :
    l.typeOf? (.cell a) = some ty := by
  rcases Memory.intern_eq_ok_cases hi with ⟨c, hc, rfl, h₁, rfl, rfl⟩ | ⟨m₁, ha, rfl⟩
  · have hblock : c.block ∈ g.blocks := List.mem_append_right _ (List.mem_map_of_mem hc)
    obtain ⟨segment, hkeeps⟩ := h.segment (List.mem_append_left others hblock)
    exact h.typeOf? (b := c.block) hkeeps
  · exact h.typeOf?_alloc ha

end

/-! ## The invariant -/

/-- A function has the type of its return slot, and yields values or nothing. -/
structure Callee.Fits (l : Layout) (c : Callee) : Prop where
  slot : l.typeOf? (.cell c.address) = some c.ty
  ty : c.ty = .void ∨ Typing.isPrimitive c.ty = true

/-- A function yields values or nothing, and has parameters of the types of their addresses. -/
structure Symbol.Fits (l : Layout) (sym : Symbol) : Prop where
  ty : sym.isFunction = true → sym.ty = .void ∨ Typing.isPrimitive sym.ty = true
  params : ∀ p ∈ sym.params, l.typeOf? (.cell p.address) = some p.ty

/-- An operand has the type of its cell. -/
def TypedOperand.Fits (l : Layout) (x : TypedOperand) : Prop :=
  x.operand.kind = .address → l.typeOf? x.operand = some x.ty

/-- Operands, references, calls and functions have the types of their addresses, and all
instructions are well typed. -/
structure Typed (l : Layout) (g : Generator) : Prop where
  operands : ∀ x ∈ g.operands, x.Fits l
  references : ∀ r ∈ g.references, ∀ a, r.symbol.kind = .variable (some a) →
    l.typeOf? (.cell a) = some r.symbol.ty
  calls : ∀ c ∈ g.calls, c.callee.Fits l
  function : ∀ f scope, g.function = some (f, scope) → f.Fits l
  symbols : ∀ id, ∀ sym ∈ (scopeAt g.scopes id).symbols, sym.Fits l
  quads : ∀ q ∈ g.quads, q.WellTyped l

theorem TypedOperand.Fits.covers (h : x.Fits l) : l.Covers x.operand :=
  fun hkind => by rw [h hkind]; rfl

/-- The type that the layout gives to an operand is its own. -/
theorem TypedOperand.Fits.eq (h : x.Fits l) (hty : l.typeOf? x.operand = some ty) : x.ty = ty := by
  by_cases hkind : x.operand.kind = .address
  · rw [h hkind] at hty
    exact Option.some.inj hty
  · rw [Layout.typeOf?_of_kind hkind] at hty
    cases hty

section Steps

/-- A function of a directory fits its calls. -/
theorem Typed.callee (hg : Typed l g) (hkept : Kept l g others) {sym : Symbol} {callee : Callee}
    (hsym : g.Knows sym) (h : sym.callee? = some callee) : callee.Fits l := by
  obtain ⟨id, hmem⟩ := hsym
  have hty := (hg.symbols id sym hmem).ty
  unfold Symbol.callee? at h
  split at h
  · rename_i hkind
    cases h
    refine ⟨hkept.typeOf?_symbol ⟨id, hmem⟩ (by simp [Symbol.address?, hkind]), hty ?_⟩
    simp [Symbol.isFunction, hkind]
  · cases h

theorem Typed.param (hg : Typed l g) {callee : Callee} {p : Param} (hp : p ∈ g.paramsOf callee) :
    l.typeOf? (.cell p.address) = some p.ty := by
  unfold Generator.paramsOf at hp
  cases hfind : g.outermost.find? callee.name with
  | none => simp [hfind] at hp
  | some sym =>
    rw [hfind] at hp
    exact (hg.symbols 0 sym (List.mem_of_find?_eq_some hfind)).params p hp

theorem Writes.wellTyped {xs : List TypedOperand} (h : Writes g xs q) (hg : Typed l g)
    (hkept : Kept l g others) (hxs : ∀ x ∈ xs, x.Fits l) : q.WellTyped l := by
  have hnone := l.covers_none
  have hlabel := l.covers_label
  have hliteral : ∀ n, l.Covers (.literal n) := fun n =>
    Layout.covers_of_kind (by simp [Operand.literal])
  have hslot : ∀ {c : Callee}, c.Fits l → l.Covers (.cell c.address) := fun hc =>
    Layout.covers_of_typeOf? hc.slot
  cases h with
  | @assign x y hassign =>
    have hx := hxs x (by simp)
    have hy := hxs y (by simp)
    refine ⟨hy.covers, hnone, hx.covers, fun t tl ht htl => ?_⟩
    rw [← hx.eq ht, ← hy.eq htl]
    exact if_pos hassign
  | @use op x hop hprimitive =>
    have hx := hxs x (by simp)
    have hread : ∀ t, l.typeOf? x.operand = some t → Typing.isPrimitive t = true :=
      fun t ht => hx.eq ht ▸ hprimitive
    rcases hop with rfl | rfl <;> exact ⟨hnone, hnone, hx.covers, hread⟩
  | @index x d hint =>
    have hx := hxs x (by simp)
    exact ⟨hx.covers, hliteral _, hliteral _, fun tl htl => (hx.eq htl).symm.trans hint⟩
  | era hsym hcallee => exact ⟨hlabel _, hnone, hslot (hg.callee hkept hsym hcallee), trivial⟩
  | @param call p x hcall hp hty =>
    have hx := hxs x (by simp)
    have hp := hg.param hp
    refine ⟨hx.covers, hnone, Layout.covers_of_typeOf? hp, fun t tl ht htl => ?_⟩
    rw [← hx.eq htl, hty]
    exact Option.some.inj (hp.symm.trans ht)
  | gosub hcall => exact ⟨hslot (hg.calls _ hcall), hnone, hlabel _, trivial⟩
  | @ret callee scope x hfunction hty =>
    have hx := hxs x (by simp)
    have hf := hg.function callee scope hfunction
    refine ⟨hx.covers, hnone, hslot hf, fun t tl ht htl => ?_⟩
    rw [← hx.eq htl, hty]
    exact Option.some.inj (hf.slot.symm.trans ht)
  | leave hfunction =>
    refine ⟨hnone, hnone, hslot (hg.function _ _ hfunction), fun t tl _ htl => ?_⟩
    cases htl
  | close hfunction => exact ⟨hnone, hnone, hslot (hg.function _ _ hfunction), trivial⟩

theorem Typed.push (hg : Typed l g) (hq : q.WellTyped l) :
    ∀ q' ∈ g.quads.push q, q'.WellTyped l := by
  intro q' hq'
  rcases Array.mem_push.1 hq' with hold | rfl
  · exact hg.quads q' hold
  · exact hq

/-- A jump that gets its target stays well typed. -/
theorem Quad.WellTyped.aim (h : q.WellTyped l) (hres : q.res.kind = .empty) (target : Nat) :
    Quad.WellTyped l { q with res := .label target } := by
  have hlabel : l.typeOf? (.label target) = none := Layout.typeOf?_of_kind (by simp [Operand.label])
  refine ⟨h.arg1, h.arg2, l.covers_label target, ?_⟩
  have hspares : ∀ t, ¬ l.Spares q.res t := by
    rintro t ⟨s, hs, -⟩
    simp [Layout.slotOf?, hres] at hs
  have hfits := h.fits
  unfold Quad.Fits at hfits ⊢
  cases hop : q.op <;> simp_all

theorem Stroke.typed (h : Stroke g g') (hg : Typed l g) (hkept : Kept l g others) : Typed l g' := by
  cases h with
  | asides | jumps | label => exact { hg with }
  | operands hsuffix =>
    exact { hg with operands := fun x hx => hg.operands x (hsuffix.subset hx) }
  | references hsuffix =>
    exact { hg with references := fun r hr => hg.references r (hsuffix.subset hr) }
  | calls hsuffix =>
    exact { hg with calls := fun c hc => hg.calls c (hsuffix.subset hc) }
  | @refer r references hsym hsuffix =>
    refine { hg with
      references := List.forall_mem_cons.2 ⟨fun a ha => ?_,
        fun r' hr' => hg.references r' (hsuffix.subset hr')⟩ }
    rcases hsym with hknows | ⟨r', hr', heq⟩
    · exact hkept.typeOf?_symbol hknows (by simp [Symbol.address?, ha])
    · exact heq ▸ hg.references r' hr' a (heq ▸ ha)
  | @call c calls hcallee hsuffix =>
    refine { hg with
      calls := List.forall_mem_cons.2 ⟨?_, fun c' hc' => hg.calls c' (hsuffix.subset hc')⟩ }
    rcases hcallee with ⟨sym, hsym, hcallee⟩ | ⟨c', hc', heq⟩
    · exact hg.callee hkept hsym hcallee
    · exact heq ▸ hg.calls c' hc'
  | @«variable» r references a hr hkind =>
    have hrefs := hg.references
    rw [hr, List.forall_mem_cons] at hrefs
    exact { hg with
      operands := List.forall_mem_cons.2 ⟨fun _ => hrefs.1 a hkind, hg.operands⟩
      references := hrefs.2 }
  | emit hwrites hoperands =>
    have hall := hg.operands
    rw [hoperands, List.forall_mem_append] at hall
    exact { hg with operands := hall.2, quads := hg.push (hwrites.wellTyped hg hkept hall.1) }
  | goto =>
    exact { hg with quads := hg.push ⟨l.covers_none, l.covers_none, l.covers_none, trivial⟩ }
  | branch hoperands hbool =>
    have hall := hg.operands
    rw [hoperands, List.forall_mem_cons] at hall
    exact { hg with
      operands := hall.2
      quads := hg.push ⟨hall.1.covers, l.covers_none, l.covers_none,
        fun tl htl => (hall.1.eq htl).symm.trans hbool⟩ }
  | aim hq hkind =>
    refine { hg with quads := fun q' hq' => ?_ }
    rcases Array.mem_or_eq_of_mem_setIfInBounds hq' with hold | rfl
    · exact hg.quads q' hold
    · exact (hg.quads _ (Array.mem_of_getElem? hq)).aim hkind _

theorem Take.typed (h : Take g g') (hg : Typed l g) (hkept : Kept l g others) : Typed l g' := by
  have hall := hg.operands
  cases h with
  | @unary op x operands ty a m hoperands hty ha =>
    rw [hoperands, List.forall_mem_cons] at hall
    have hspares := hkept.spares ha
    refine { hg with
      operands := List.forall_mem_cons.2 ⟨fun _ => hkept.typeOf?_alloc ha, hall.2⟩
      quads := hg.push ⟨hall.1.covers, l.covers_none, hspares.covers, ?_⟩ }
    have hresult : ∀ tl, l.typeOf? x.operand = some tl → Typing.unary op tl = some ty :=
      fun tl htl => hall.1.eq htl ▸ hty
    cases op <;> exact ⟨ty, hspares, hresult⟩
  | @binary op x y operands ty a m hoperands hty ha =>
    rw [hoperands, List.forall_mem_cons, List.forall_mem_cons] at hall
    obtain ⟨hy, hx, hrest⟩ := hall
    have hspares := hkept.spares ha
    refine { hg with
      operands := List.forall_mem_cons.2 ⟨fun _ => hkept.typeOf?_alloc ha, hrest⟩
      quads := hg.push ⟨hx.covers, hy.covers, hspares.covers, ?_⟩ }
    have hresult : ∀ tl tr, l.typeOf? x.operand = some tl → l.typeOf? y.operand = some tr →
        Typing.binary op tl tr = some ty :=
      fun tl tr htl htr => hx.eq htl ▸ hy.eq htr ▸ hty
    cases op <;> exact ⟨ty, hspares, hresult⟩
  | @element r references address a m hr hkind ha =>
    have hrefs := hg.references
    rw [hr, List.forall_mem_cons] at hrefs
    refine { hg with
      operands := List.forall_mem_cons.2 ⟨fun hkind => ?_, hall⟩
      references := hrefs.2
      quads := hg.push ⟨?_, ?_, (hkept.spares ha).covers, trivial⟩ }
    · simp [Operand.pointer] at hkind
    · exact Layout.covers_of_kind (by simp [Operand.count])
    · exact Layout.covers_of_kind (by simp [Operand.literal])
  | @result c calls a m hc hvoid ha =>
    have hcalls := hg.calls
    rw [hc, List.forall_mem_cons] at hcalls
    have htemp := hkept.typeOf?_alloc ha
    refine { hg with
      operands := List.forall_mem_cons.2 ⟨fun _ => htemp, hall⟩
      calls := hcalls.2
      quads := hg.push ⟨Layout.covers_of_typeOf? hcalls.1.slot, l.covers_none,
        Layout.covers_of_typeOf? htemp, ?_⟩ }
    intro t tl ht htl
    obtain rfl : c.callee.ty = t := Option.some.inj (htemp.symm.trans ht)
    obtain rfl : c.callee.ty = tl := Option.some.inj (hcalls.1.slot.symm.trans htl)
    have hprimitive := hcalls.1.ty.resolve_left hvoid
    cases hty : c.callee.ty <;> rw [hty] at hprimitive <;> first | rfl | cases hprimitive

end Steps

/-! ## Directories -/

section Directories

variable {scopes : Array Scope} {id : ScopeId} {sym : Symbol}

section

variable (h : ∀ id, ∀ sym ∈ (scopeAt scopes id).symbols, sym.Fits l)

include h

theorem fits_modify {f : Scope → Scope} (hf : ∀ sym ∈ (f (scopeAt scopes id)).symbols, sym.Fits l) :
    ∀ id', ∀ sym ∈ (scopeAt (scopes.modify id f) id').symbols, sym.Fits l := by
  intro id' sym hsym
  rw [scopeAt_modify] at hsym
  split at hsym
  · rename_i hid
    exact hf sym (hid.1 ▸ hsym)
  · exact h id' sym hsym

theorem fits_add (hsym : sym.Fits l) :
    ∀ id', ∀ sym' ∈ (scopeAt (scopes.modify id (·.add sym)) id').symbols, sym'.Fits l :=
  fits_modify h (List.forall_mem_append.2 ⟨h id, by simpa using hsym⟩)

theorem fits_addParam {name : Bytes} {p : Param} (hp : l.typeOf? (.cell p.address) = some p.ty) :
    ∀ id', ∀ sym ∈ (scopeAt (scopes.modify 0 (·.addParam name p)) id').symbols, sym.Fits l := by
  refine fits_modify h fun sym hsym => ?_
  obtain ⟨sym₀, hsym₀, rfl⟩ := List.mem_map.1 hsym
  have hfits := h 0 sym₀ hsym₀
  split
  · rename_i address target params hkind
    split
    · have hparams : sym₀.params = params := by rw [Symbol.params, hkind]
      refine ⟨fun _ => hfits.ty (by simp [Symbol.isFunction, hkind]), ?_⟩
      exact List.forall_mem_append.2 ⟨hparams ▸ hfits.params, by simpa using hp⟩
    · exact hfits
  · exact hfits

end

/-- What is no function has no parameters. -/
theorem Symbol.fits_of_not_function (h : sym.isFunction = false) : sym.Fits l := by
  refine ⟨by simp [h], fun p hp => ?_⟩
  unfold Symbol.params at hp
  split at hp
  · rename_i hkind
    simp [Symbol.isFunction, hkind] at h
  · cases hp

end Directories

theorem Change.typed (h : Change free s s') (hg : Typed l s.2) (hkept : Kept l s.2 others) :
    Typed l s'.2 := by
  cases h with
  | quiet hstroke => exact hstroke.typed hg hkept
  | move _ _ _ hfunction =>
    refine { hg with function := fun f scope hf => ?_ }
    rcases hfunction with rfl | rfl
    · exact hg.function f scope hf
    · cases hf
  | @rename mark g name =>
    exact { hg with
      symbols := fits_modify (f := fun scope => { scope with name }) hg.symbols
        (hg.symbols g.current) }
  | scope segment name kind owner =>
    refine { hg with symbols := fun id sym hsym => ?_ }
    rw [scopeAt_push] at hsym
    split at hsym
    · cases hsym
    · exact hg.symbols id sym hsym
  | symbol id sym hnone =>
    have hfunction : sym.isFunction = false := by
      cases hkind : sym.kind <;> simp [Symbol.address?, Symbol.isFunction, hkind] at hnone ⊢
    exact { hg with symbols := fits_add hg.symbols (Symbol.fits_of_not_function hfunction) }
  | stored id sym ty segment a m htype hkind =>
    have hfits : sym.Fits l := Symbol.fits_of_not_function (by simp [Symbol.isFunction, hkind])
    exact { hg with symbols := fits_add hg.symbols hfits }
  | function sym ty a target m current enclosing function htype hty hdims hkind ha hinner hstays =>
    have hfits : sym.Fits l := ⟨fun _ => by rwa [Symbol.ty, htype], by simp [Symbol.params, hkind]⟩
    refine { hg with function := fun f scope hf => ?_, symbols := fits_add hg.symbols hfits }
    rcases hstays with ⟨-, -, rfl⟩ | ⟨⟨_, rfl⟩, -⟩
    · exact hg.function f scope hf
    · cases hf
      exact ⟨hkept.typeOf?_alloc ha, hty⟩
  | param name sym ty segment a m htype hkind ha =>
    have hfits : sym.Fits l := Symbol.fits_of_not_function (by simp [Symbol.isFunction, hkind])
    exact { hg with symbols := fits_addParam (fits_add hg.symbols hfits) (hkept.typeOf?_alloc ha) }
  | constant ty v a m hi =>
    exact { hg with
      operands := List.forall_mem_cons.2 ⟨fun _ => hkept.typeOf?_intern hi, hg.operands⟩ }

/-! ## Every sequence of actions -/

theorem Row.typed {takes : Bool} (h : Row takes g g') (hg : Typed l g) (hkept : Kept l g others) :
    Typed l g' := by
  obtain ⟨g₁, ⟨h₁, hkept₁⟩, hend⟩ := h.last (P := fun g₁ => Typed l g₁ ∧ Kept l g₁ others)
    ⟨hg, hkept⟩
    fun h hstroke => ⟨hstroke.typed h.1 h.2, h.2.of_alike hstroke.alike⟩
  rcases hend with rfl | ⟨-, htake⟩
  · exact h₁
  · exact htake.typed h₁ hkept₁

theorem Changes.typed (h : Changes free s s') (hg : Typed l s.2) (hkept : Kept l s.2 others) :
    Typed l s'.2 := by
  induction h with
  | refl => exact hg
  | tail hchanges hchange ih => exact hchange.typed ih (Changes.kept hchanges hkept)

theorem typed_perform (a : Action) (hg : Typed l g) (hkept : Kept l g others) :
    Typed l ((Generate.perform a).after g) := by
  rcases Generate.perform_cases a g with hrow | ⟨mark, hchanges⟩
  · exact hrow.typed hg hkept
  · exact Changes.typed hchanges hg hkept

theorem Typed.run {t : Trace} (h : Typed l t.generator) (hkept : Kept l t.generator t.temporaries)
    (events : List Event) : Typed l (t.run events).generator := by
  induction events generalizing t with
  | nil => exact h
  | cons e events ih =>
    have hline : Typed l (t.generator.onLine e.line) := { h with }
    exact ih (typed_perform e.action hline ⟨hkept.layout, hkept.keeps⟩) (hkept.step e)

theorem Typed.start (l : Layout) : Typed l (Trace.start l).generator where
  operands := by simp [Trace.start, Generator.ofMemory]
  references := by simp [Trace.start, Generator.ofMemory]
  calls := by simp [Trace.start, Generator.ofMemory]
  function := by simp [Trace.start, Generator.ofMemory]
  symbols := by
    intro id sym hsym
    rw [(Trace.scopeAt_start l id).1] at hsym
    cases hsym
  quads := by simp [Trace.start, Generator.ofMemory]

/-- Whatever actions are performed over ranges that do not overlap, and whichever of them fail, an
operand that is a cell has the type that the layout gives the cell, and every instruction is well
typed by the layout. -/
theorem emitted_code_typed (l : Layout) (h : l.Disjoint) (events : List Event) :
    (∀ x ∈ ((Trace.start l).run events).generator.operands, x.operand.kind = .address →
      l.typeOf? x.operand = some x.ty) ∧
      ∀ q ∈ ((Trace.start l).run events).generator.quads, q.WellTyped l :=
  have htyped := (Typed.start l).run (Kept.start h) events
  ⟨htyped.operands, htyped.quads⟩

/-- The sum of a character and an integer is written, and a sum that lacks an operand fails and
takes the operand that there is. -/
def sums : List Event :=
  [.pushConst .char (.char 97), .pushConst .int (.int 1), .pushOperator (.arith .sum),
  .collapse Level.term,
    .write, .pushConst .float (.float 0), .pushOperator (.arith .sum), .collapse Level.term].map
    (Event.mk 1)

theorem sums_well_typed : Layout.standard.Disjoint ∧
    ((Trace.start Layout.standard).run sums).generator.quads[0]? =
      some { op := .arith .sum, arg1 := .cell 15000, arg2 := .cell 5000, res := .cell 90000 } ∧
    ∀ q ∈ ((Trace.start Layout.standard).run sums).generator.quads, q.WellTyped Layout.standard :=
  ⟨Layout.standard_disjoint, by decide +kernel, (emitted_code_typed _ Layout.standard_disjoint
  sums).2⟩

end Quadlang
