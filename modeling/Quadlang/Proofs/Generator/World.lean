-- The world of a compilation: what the directories of the program, its classes and its
-- functions hold between two declarations, and that each declaration keeps it in order.
import Quadlang.Proofs.Generator.Declarations

namespace Quadlang

open Source Generate Success

variable {new ps qs : List Placement} {current id id' : ScopeId} {scopes scopes' : Array Scope}
  {m m' : Memory} {s sym : Symbol} {syms : List Symbol} {f : Callee × List Param} {d : Declared}
  {params : List Param} {classes : Classes} {function : Bytes}

/-! ## Stored variables -/

/-- The directory belongs to an instance. -/
def IsObject (scopes : Array Scope) (id : ScopeId) : Prop := (scopeAt scopes id).kind = .object

/-- The symbols of a directory lead to variables in a segment. -/
structure Stored (segment : Segment) (scopes : Array Scope) (m : Memory) (syms : List Symbol)
    (ps : List Placement) : Prop where
  leads : Leads (scopeAt scopes) (IsObject scopes) syms ps
  shaped : ∀ p ∈ ps, p.Shaped
  placed : ∀ p ∈ ps, p.In segment m

theorem Stored.mono {segment : Segment} (h : Stored segment scopes m syms ps) (hm : m.Extends m')
    (hkeep : ∀ id, IsObject scopes id → scopeAt scopes' id = scopeAt scopes id) :
    Stored segment scopes' m' syms ps := by
  refine ⟨h.leads.congr hkeep ?_, h.shaped, fun p hp => (h.placed p hp).mono hm⟩
  intro id hid
  unfold IsObject
  rw [hkeep id hid]
  exact hid

theorem Stored.append {segment : Segment} {syms' : List Symbol} {ps' : List Placement}
    (h : Stored segment scopes m syms ps) (h' : Stored segment scopes m syms' ps') :
    Stored segment scopes m (syms ++ syms') (ps ++ ps') := by
  exact ⟨h.leads.append h'.leads, List.forall_mem_append.2 ⟨h.shaped, h'.shaped⟩,
    List.forall_mem_append.2 ⟨h.placed, h'.placed⟩⟩

theorem scopeAt_of_le (h : scopes.size ≤ id) :
    scopeAt scopes id = Scope.empty [] .program none := by
  unfold scopeAt
  rw [Array.getD_eq_getD_getElem?, Array.getElem?_eq_none h]
  rfl

theorem lt_of_kind (h : (scopeAt scopes id).kind ≠ .program) : id < scopes.size := by
  apply Nat.lt_of_not_le
  intro hle
  rw [scopeAt_of_le hle] at h
  exact h rfl

theorem lt_of_record (h : (scopeAt scopes id).kind = .record) : id < scopes.size :=
  lt_of_kind (by rw [h]; simp)

theorem not_isObject {kind : Scope.Kind} (h : (scopeAt scopes id).kind = kind)
    (hne : kind ≠ .object) : ¬ IsObject scopes id := by
  unfold IsObject
  rwa [h]

theorem ne_of_record (h : (scopeAt scopes id').kind ≠ .record)
    (hid : (scopeAt scopes id).kind = .record) : id ≠ id' := by
  rintro rfl
  exact h hid

/-- Adding to a directory that belongs to no instance keeps those of the instances. -/
theorem Grows.keeps_objects (h : Grows scopes id syms scopes') (hid : ¬ IsObject scopes id) :
    ∀ id', IsObject scopes id' → scopeAt scopes' id' = scopeAt scopes id' := by
  intro id' hobj
  have hne : id' ≠ id := by
    rintro rfl
    exact hid hobj
  apply h.others _ hne
  apply lt_of_kind
  rw [hobj]
  simp

/-! ## Classes -/

/-- Every class has its fields in a directory, without storage, and stands for what the
source says its instances store. The class whose body is open is not complete yet. -/
structure ClassTable (current : ScopeId) (classes : Classes) (scopes : Array Scope) : Prop where
  fields : ∀ {id}, (scopeAt scopes id).kind = .record → ∀ s ∈ (scopeAt scopes id).symbols,
    s.kind = .variable none ∧ s.scope = none
  shapes : ∀ {id}, (scopeAt scopes id).kind = .record →
    (Scope.fields (scopeAt scopes id).symbols).Shaped
  records : ∀ {c}, c ∈ (scopeAt scopes 0).symbols → c.isRecord = true →
    ∃ id, c.scope = some id ∧ (scopeAt scopes id).kind = .record
  complete : ∀ {c}, c ∈ (scopeAt scopes 0).symbols → c.isRecord = true → ∀ id, c.scope = some id →
    id ≠ current → classes.lookup c.name = some (Scope.fields (scopeAt scopes id).symbols).leaves
  known : ∀ k ∈ classes, ∃ c ∈ (scopeAt scopes 0).symbols, c.isRecord = true ∧ c.name = k.1 ∧
    c.scope ≠ some current

/-- The classes stay as they are as long as their symbols and their directories do. -/
theorem ClassTable.congr {current' : ScopeId} (h : ClassTable current classes scopes)
    (hcur : ∀ id, (scopeAt scopes id).kind = .record → id ≠ current)
    (hcur' : ∀ id, (scopeAt scopes id).kind = .record → id ≠ current')
    (hsyms : ∀ c, c.isRecord = true →
      (c ∈ (scopeAt scopes' 0).symbols ↔ c ∈ (scopeAt scopes 0).symbols))
    (hkeep : ∀ id, (scopeAt scopes id).kind = .record → scopeAt scopes' id = scopeAt scopes id)
    (hnew : ∀ id, (scopeAt scopes' id).kind = .record → (scopeAt scopes id).kind = .record) :
    ClassTable current' classes scopes' := by
  refine ⟨?_, ?_, ?_, ?_, ?_⟩
  · intro id hid
    rw [hkeep id (hnew id hid)]
    exact h.fields (hnew id hid)
  · intro id hid
    rw [hkeep id (hnew id hid)]
    exact h.shapes (hnew id hid)
  · intro c hc hrec
    obtain ⟨id, hid, hkind⟩ := h.records ((hsyms c hrec).1 hc) hrec
    exact ⟨id, hid, by rw [hkeep id hkind]; exact hkind⟩
  · intro c hc hrec id hid _
    obtain ⟨id', hid', hkind⟩ := h.records ((hsyms c hrec).1 hc) hrec
    obtain rfl : id = id' := Option.some.inj (hid.symm.trans hid')
    rw [hkeep id hkind]
    exact h.complete ((hsyms c hrec).1 hc) hrec id hid (hcur id hkind)
  · intro k hk
    obtain ⟨c, hc, hrec, hname, -⟩ := h.known k hk
    obtain ⟨id, hid, hkind⟩ := h.records hc hrec
    refine ⟨c, (hsyms c hrec).2 hc, hrec, hname, ?_⟩
    rw [hid]
    intro heq
    exact hcur' id hkind (Option.some.inj heq)

/-! ## Functions -/

/-- The function that a symbol is, with its parameters. -/
def Symbol.function? (s : Symbol) : Option (Callee × List Param) := s.callee?.map (·, s.params)

/-- The functions of a directory, in order of declaration. -/
def functionsOf (syms : List Symbol) : List (Callee × List Param) := syms.filterMap Symbol.function?

/-- A function has a return slot, and each of its parameters has an address of its own. -/
structure FunctionPlaced (m : Memory) (f : Callee × List Param) : Prop where
  type : f.1.ty = .void ∨ Typing.isPrimitive f.1.ty = true
  slot : m.Taken .stack f.1.ty f.1.address
  params : ∀ p ∈ f.2, Typing.isPrimitive p.ty = true ∧ m.Taken .functions p.ty p.address
  distinct : (f.2.map (·.address)).Nodup

theorem FunctionPlaced.mono (h : FunctionPlaced m f) (hm : m.Extends m') : FunctionPlaced m' f :=
  ⟨h.type, hm.taken h.slot, fun p hp => ⟨(h.params p hp).1, hm.taken (h.params p hp).2⟩,
    h.distinct⟩

/-! ## The world -/

/-- The declarations of a program are in order: names are not declared twice, variables have
addresses of their own, and classes and functions are as declared. -/
structure World (current : ScopeId) (d : Declared) (ps : List Placement) (scopes : Array Scope)
    (m : Memory) : Prop where
  nonempty : 0 < scopes.size
  program : (scopeAt scopes 0).kind = .program
  distinct : ((scopeAt scopes 0).symbols.map (·.name)).Nodup
  stored : Stored .locals scopes m (scopeAt scopes 0).symbols ps
  apart : ps.Pairwise Placement.Apart
  leaves : ps.map Placement.leaf = d.leaves
  classes : ClassTable current d.classes scopes
  functions : ∀ f ∈ functionsOf (scopeAt scopes 0).symbols, FunctionPlaced m f
  valid : m.Valid
  layout : m.layout = Layout.standard

theorem World.zero_ne_record (h : World current d ps scopes m) :
    (scopeAt scopes 0).kind ≠ .record := by
  rw [h.program]
  simp

/-- More memory is taken, and of the directories only those of instances and classes matter besides
that of the program, which is as it was. -/
theorem World.around {current' : ScopeId} (h : World current d ps scopes m)
    (hsize : 0 < scopes'.size) (hzero : scopeAt scopes' 0 = scopeAt scopes 0)
    (hkeep : ∀ id, IsObject scopes id → scopeAt scopes' id = scopeAt scopes id)
    (hclasses : ClassTable current' d.classes scopes') (hm : m.Extends m') (hv : m'.Valid) :
    World current' d ps scopes' m' := by
  refine ⟨hsize, ?_, ?_, ?_, h.apart, h.leaves, hclasses, ?_, hv, hm.layout.trans h.layout⟩ <;>
    rw [hzero]
  · exact h.program
  · exact h.distinct
  · exact h.stored.mono hm hkeep
  · exact fun f hf => (h.functions f hf).mono hm

/-- Code takes more memory and changes no directory. -/
theorem World.extend (h : World current d ps scopes m) (hm : m.Extends m') (hv : m'.Valid) :
    World current d ps scopes m' := h.around h.nonempty rfl (fun _ _ => rfl) h.classes hm hv

/-! ## Variables -/

section

variable (h : Grows scopes id syms scopes')

include h

theorem Grows.kind_eq (hid : id' < scopes.size) :
    (scopeAt scopes' id').kind = (scopeAt scopes id').kind := by
  by_cases hne : id' = id
  · subst hne
    rw [h.here]
  · rw [h.others hid hne]

theorem Grows.record_of_record (hid : (scopeAt scopes' id').kind = .record) :
    (scopeAt scopes id').kind = .record := by
  by_cases hlt : id' < scopes.size
  · rwa [h.kind_eq hlt] at hid
  · by_cases hlt' : id' < scopes'.size
    · rw [h.objects (Nat.not_lt.1 hlt) hlt'] at hid
      cases hid
    · rw [scopeAt_of_le (Nat.not_lt.1 hlt')] at hid
      cases hid

theorem Grows.keeps_records (hid : (scopeAt scopes id).kind ≠ .record)
    (hrec : (scopeAt scopes id').kind = .record) :
    scopeAt scopes' id' = scopeAt scopes id' :=
  h.others (lt_of_record hrec) (ne_of_record hid hrec)

theorem Grows.leads {syms' : List Symbol}
    (hleads : Leads (scopeAt scopes') (fun id => scopes.size ≤ id ∧ id < scopes'.size) syms' ps) :
    Leads (scopeAt scopes') (IsObject scopes') syms' ps :=
  hleads.congr (fun _ _ => rfl) fun _ hid => h.objects hid.1 hid.2

end

theorem functionsOf_append (syms syms' : List Symbol) :
    functionsOf (syms ++ syms') = functionsOf syms ++ functionsOf syms' := List.filterMap_append

theorem function?_eq_none (h : s.isFunction = false) : s.function? = none := by
  unfold Symbol.isFunction at h
  unfold Symbol.function? Symbol.callee?
  cases hk : s.kind with
  | function a t ps =>
    rw [hk] at h
    cases h
  | _ => rfl

theorem nodup_add {s : Scope} (h : (s.symbols.map (·.name)).Nodup)
    (hname : sym.name ∉ s.symbols.map (·.name)) : ((s.add sym).symbols.map (·.name)).Nodup := by
  simp only [Scope.add, List.map_append, List.nodup_append]
  refine ⟨h, by simp, ?_⟩
  rintro a ha b hb rfl
  simp only [List.map_cons, List.map_nil, List.mem_singleton] at hb
  exact hname (hb ▸ ha)

/-- A variable of the program is stored apart from all that was stored before. -/
theorem World.variable (h : World 0 d ps scopes m) (hgrows : Grows scopes 0 [s] scopes')
    (hname : s.name ∉ (scopeAt scopes 0).symbols.map (·.name)) (hfun : s.isFunction = false)
    (hrec : s.isRecord = false) (hstores : Stores .locals m new m') (hshaped : ∀ p ∈ new, p.Shaped)
    (hleads : Leads (scopeAt scopes') (fun id => scopes.size ≤ id ∧ id < scopes'.size) [s] new) :
    World 0 { d with leaves := d.leaves ++ new.map Placement.leaf } (ps ++ new) scopes' m' := by
  obtain ⟨hv, hext, hin, happart, hfresh, -, -⟩ := hstores.spec h.valid
  have hsyms : (scopeAt scopes' 0).symbols = (scopeAt scopes 0).symbols ++ [s] := by
    rw [hgrows.here]
  have hobj : ¬ IsObject scopes 0 := not_isObject h.program (by simp)
  refine ⟨Nat.lt_of_lt_of_le h.nonempty hgrows.size, ?_, ?_, ?_, ?_, ?_, ?_, ?_, hv,
    hext.layout.trans h.layout⟩
  · rw [hgrows.here]
    exact h.program
  · rw [hgrows.here]
    exact nodup_add h.distinct hname
  · rw [hsyms]
    exact (h.stored.mono hext (hgrows.keeps_objects hobj)).append ⟨hgrows.leads hleads,
      hshaped, hin⟩
  · refine List.pairwise_append.2 ⟨h.apart, happart, ?_⟩
    rintro p hp q hq b ⟨hpb, hqb⟩
    have htaken := (h.stored.placed p hp).2 b hpb
    have h₁ := h.valid.holds_of_taken htaken
    have h₂ := hv.holds_of_taken ((hin q hq).2 b hqb)
    rw [hext.layout] at h₂
    obtain ⟨-, hty⟩ := h.valid.disjoint.holds_inj h₁ h₂
    apply hfresh q hq b hqb
    rw [← hty]
    exact htaken
  · rw [List.map_append, h.leaves]
  · refine h.classes.congr (fun _ => ne_of_record h.zero_ne_record)
      (fun _ => ne_of_record h.zero_ne_record) ?_ (fun _ => hgrows.keeps_records h.zero_ne_record)
      fun _ => hgrows.record_of_record
    intro c hc
    rw [hsyms, List.mem_append, List.mem_singleton]
    constructor
    · rintro (hc' | rfl)
      · exact hc'
      · rw [hrec] at hc
        cases hc
    · exact .inl
  · intro f hf
    rw [hsyms, functionsOf_append] at hf
    rcases List.mem_append.1 hf with hf | hf
    · exact (h.functions f hf).mono hext
    · simp [functionsOf, function?_eq_none hfun] at hf

/-! ## Bodies of functions -/

/-- The body of a function is open: its directory holds variables only, stored in the segment
of functions. -/
structure Inside (current : ScopeId) (scopes : Array Scope) (m : Memory) (qs : List Placement) :
    Prop where
  kind : (scopeAt scopes current).kind = .function
  stored : Stored .functions scopes m (scopeAt scopes current).symbols qs
  plain : ∀ s ∈ (scopeAt scopes current).symbols, s.isFunction = false ∧ s.isRecord = false

theorem Inside.extend (h : Inside current scopes m qs) (hm : m.Extends m') :
    Inside current scopes m' qs :=
  ⟨h.kind, h.stored.mono hm fun _ _ => rfl, h.plain⟩

theorem Inside.ne_record (h : Inside current scopes m qs) :
    (scopeAt scopes current).kind ≠ .record := by
  rw [h.kind]
  simp

theorem Inside.ne_zero (h : World current d ps scopes m) (h' : Inside current scopes m qs) :
    current ≠ 0 := by
  rintro rfl
  have := h'.kind
  rw [h.program] at this
  cases this

/-- What is added to the directory of a function changes nothing around it. -/
theorem World.local (h : World current d ps scopes m) (hin : Inside current scopes m qs)
    (hgrows : Grows scopes current [s] scopes') (hm : m.Extends m') (hv : m'.Valid) :
    World current d ps scopes' m' := by
  have hne := Inside.ne_zero h hin
  have hzero : scopeAt scopes' 0 = scopeAt scopes 0 := hgrows.others h.nonempty (Ne.symm hne)
  refine h.around (Nat.lt_of_lt_of_le h.nonempty hgrows.size) hzero
    (hgrows.keeps_objects (not_isObject hin.kind (by simp))) ?_ hm hv
  refine h.classes.congr (fun _ => ne_of_record hin.ne_record)
    (fun _ => ne_of_record hin.ne_record) (fun c _ => by rw [hzero])
    (fun _ => hgrows.keeps_records hin.ne_record) fun _ => hgrows.record_of_record

/-- A variable of a function is stored in the segment of functions. -/
theorem Inside.variable (h : Inside current scopes m qs) (hv : m.Valid)
    (hgrows : Grows scopes current [s] scopes') (hfun : s.isFunction = false)
    (hrec : s.isRecord = false) (hstores : Stores .functions m new m')
    (hshaped : ∀ p ∈ new, p.Shaped)
    (hleads : Leads (scopeAt scopes') (fun id => scopes.size ≤ id ∧ id < scopes'.size) [s] new) :
    Inside current scopes' m' (qs ++ new) := by
  obtain ⟨-, hext, hplaced, -, -, -, -⟩ := hstores.spec hv
  have hsyms : (scopeAt scopes' current).symbols = (scopeAt scopes current).symbols ++ [s] := by
    rw [hgrows.here]
  have hobj : ¬ IsObject scopes current := not_isObject h.kind (by simp)
  refine ⟨by rw [hgrows.here]; exact h.kind, ?_, ?_⟩
  · rw [hsyms]
    exact (h.stored.mono hext (hgrows.keeps_objects hobj)).append ⟨hgrows.leads hleads,
      hshaped, hplaced⟩
  · rw [hsyms]
    exact List.forall_mem_append.2 ⟨h.plain, List.forall_mem_singleton.2 ⟨hfun, hrec⟩⟩

theorem World.leaveFunction (h : World current d ps scopes m) (hin : Inside current scopes m qs) :
    World 0 d ps scopes m :=
  h.around h.nonempty rfl (fun _ _ => rfl) (h.classes.congr (fun _ => ne_of_record hin.ne_record)
    (fun _ => ne_of_record h.zero_ne_record) (fun _ _ => Iff.rfl) (fun _ _ => rfl) fun _ => id)
    (.refl m) h.valid

/-! ## New directories -/

/-- The scopes after a declaration that opens a directory. -/
def openScope (scopes : Array Scope) (s : Scope) (sym : Symbol) : Array Scope :=
  (scopes.push s).modify 0 (·.add sym)

theorem scopeAt_openScope (scopes : Array Scope) (s : Scope) (sym : Symbol) (h : 0 < scopes.size)
    (id : ScopeId) :
    scopeAt (openScope scopes s sym) id =
      if id = 0 then (scopeAt scopes 0).add sym
      else if id = scopes.size then s else scopeAt scopes id := by
  unfold openScope
  rw [scopeAt_modify, scopeAt_push]
  by_cases h₀ : id = 0
  · subst h₀
    simp [Nat.ne_of_lt h]
  · simp [h₀]

section

variable (h : 0 < scopes.size)

include h

theorem openScope_kept {s : Scope} (hid : id ≠ 0) (hlt : id < scopes.size) :
    scopeAt (openScope scopes s sym) id = scopeAt scopes id := by
  rw [scopeAt_openScope scopes s sym h, if_neg hid, if_neg (Nat.ne_of_lt hlt)]

theorem openScope_new {s : Scope} : scopeAt (openScope scopes s sym) scopes.size = s := by
  rw [scopeAt_openScope scopes s sym h, if_neg (Nat.ne_of_gt h), if_pos rfl]

theorem openScope_outermost {s : Scope} :
    scopeAt (openScope scopes s sym) 0 = (scopeAt scopes 0).add sym := by
  rw [scopeAt_openScope scopes s sym h, if_pos rfl]

/-- The directories of classes stay as they are. -/
theorem openScope_record {s : Scope}
    (hzero : (scopeAt scopes 0).kind ≠ .record) (hid : (scopeAt scopes id).kind = .record) :
    scopeAt (openScope scopes s sym) id = scopeAt scopes id :=
  openScope_kept h (ne_of_record hzero hid) (lt_of_record hid)

/-- A directory of a class is the new one, or one of before. -/
theorem record_of_openScope {s : Scope} (hzero : (scopeAt scopes 0).kind ≠ .record)
    (hid : (scopeAt (openScope scopes s sym) id).kind = .record) :
    id = scopes.size ∧ s.kind = .record ∨ (scopeAt scopes id).kind = .record := by
  rw [scopeAt_openScope _ _ _ h] at hid
  split at hid
  · exact absurd hid hzero
  · split at hid
    · rename_i hnew
      exact .inl ⟨hnew, hid⟩
    · exact .inr hid

end

theorem name_not_mem_of_find? {s : Scope} {id : Bytes} (h : s.find? id = none) :
    id ∉ s.symbols.map (·.name) := by
  intro hmem
  obtain ⟨sym, hsym, rfl⟩ := List.mem_map.1 hmem
  have := List.find?_eq_none.1 h sym hsym
  simp at this

/-- The variables stay where they are when a function or a class is declared. -/
theorem Stored.opened {s : Scope} (h : Stored .locals scopes m (scopeAt scopes 0).symbols ps)
    (h₀ : 0 < scopes.size) (hprogram : (scopeAt scopes 0).kind = .program)
    (hsym : sym.isFunction = true ∨ sym.isRecord = true) (hm : m.Extends m') :
    Stored .locals (openScope scopes s sym) m' (scopeAt (openScope scopes s sym) 0).symbols ps := by
  have hkeep : ∀ id, IsObject scopes id → scopeAt (openScope scopes s sym) id =
    scopeAt scopes id := by
    intro id hid
    unfold IsObject at hid
    refine openScope_kept h₀ ?_ (lt_of_kind (by rw [hid]; simp))
    rintro rfl
    rw [hprogram] at hid
    cases hid
  rw [openScope_outermost h₀, ← List.append_nil ps]
  exact (h.mono hm hkeep).append ⟨.other hsym .nil, by simp, by simp⟩

theorem functionsOf_openScope {s : Scope} (h : 0 < scopes.size) :
    functionsOf (scopeAt (openScope scopes s sym) 0).symbols =
      functionsOf (scopeAt scopes 0).symbols ++ functionsOf [sym] := by
  rw [openScope_outermost h]
  exact functionsOf_append _ _

/-- A function or a class of a new name is declared, and its directory is open. -/
theorem World.opened {s : Scope} (h : World 0 d ps scopes m)
    (hname : sym.name ∉ (scopeAt scopes 0).symbols.map (·.name))
    (hsym : sym.isFunction = true ∨ sym.isRecord = true) (hm : m.Extends m') (hv : m'.Valid)
    (hclasses : ClassTable scopes.size d.classes (openScope scopes s sym))
    (hfuns : ∀ f ∈ functionsOf [sym], FunctionPlaced m' f) :
    World scopes.size d ps (openScope scopes s sym) m' := by
  refine ⟨by simp [openScope], ?_, ?_, h.stored.opened h.nonempty h.program hsym hm, h.apart,
    h.leaves, hclasses, ?_, hv, hm.layout.trans h.layout⟩
  · rw [openScope_outermost h.nonempty]
    exact h.program
  · rw [openScope_outermost h.nonempty]
    exact nodup_add h.distinct hname
  · rw [functionsOf_openScope h.nonempty]
    exact List.forall_mem_append.2 ⟨fun f hf => (h.functions f hf).mono hm, hfuns⟩

/-- A new function has a return slot and no parameters yet. -/
theorem World.openFunction {id : Bytes} {ty : Ty} {a : Addr} {target : Nat}
    (h : World 0 d ps scopes m) (hname : id ∉ (scopeAt scopes 0).symbols.map (·.name))
    (hty : ty = .void ∨ Typing.isPrimitive ty = true) (ha : m.alloc ty .stack 1 = .ok (a, m')) :
    World scopes.size d ps (openScope scopes (Scope.empty id .function (some id))
        (functionSymbol id ty a target scopes.size)) m' ∧
      Inside scopes.size (openScope scopes (Scope.empty id .function (some id))
        (functionSymbol id ty a target scopes.size)) m' [] ∧
      functionsOf (scopeAt (openScope scopes (Scope.empty id .function (some id))
        (functionSymbol id ty a target scopes.size)) 0).symbols =
        functionsOf (scopeAt scopes 0).symbols ++ [(⟨id, ty, a, target⟩, [])] := by
  have halloc := h.valid.alloc ha
  refine ⟨h.opened hname (.inl rfl) halloc.extends halloc.valid ?_ ?_, ?_,
    functionsOf_openScope h.nonempty⟩
  · refine h.classes.congr (fun _ => ne_of_record h.zero_ne_record)
      (fun _ hid => Nat.ne_of_lt (lt_of_record hid)) ?_
      (fun _ => openScope_record h.nonempty h.zero_ne_record) ?_
    · intro c hc
      rw [openScope_outermost h.nonempty]
      simp only [Scope.add, List.mem_append, List.mem_singleton, or_iff_left_iff_imp]
      rintro rfl
      cases hc
    · intro id' hid
      rcases record_of_openScope h.nonempty h.zero_ne_record hid with ⟨-, hnew⟩ | hid
      · cases hnew
      · exact hid
  · exact List.forall_mem_singleton.2 ⟨hty, halloc.taken.2 (.inr ⟨rfl, rfl, halloc.first⟩),
      List.forall_mem_nil _, .nil⟩
  · constructor <;> rw [openScope_new h.nonempty]
    · rfl
    · exact ⟨.nil, by simp, by simp⟩
    · simp [Scope.empty]

/-! ## Parameters -/

/-- What a parameter changes in the directory of the program. -/
def Symbol.withParam (function : Bytes) (p : Param) (s : Symbol) : Symbol :=
  match s.kind with
  | .function address target params =>
    if s.name = function then { s with kind := .function address target (params ++ [p]) } else s
  | _ => s

theorem symbols_addParam (s : Scope) (function : Bytes) (p : Param) :
    (s.addParam function p).symbols = s.symbols.map (Symbol.withParam function p) := rfl

/-- Only functions change. -/
theorem withParam_eq_self {p : Param} (h : s.isFunction = false) : s.withParam function p = s := by
  unfold Symbol.withParam
  split
  · rename_i hk
    simp [Symbol.isFunction, hk] at h
  · rfl

section

variable (function : Bytes) (p : Param) (s : Symbol)

theorem isFunction_withParam : (s.withParam function p).isFunction = s.isFunction := by
  unfold Symbol.withParam
  split
  · rename_i hk
    split
    · simp [Symbol.isFunction, hk]
    · rfl
  · rfl

theorem name_withParam : (s.withParam function p).name = s.name := by
  unfold Symbol.withParam
  split
  · split <;> rfl
  · rfl

theorem isRecord_withParam : (s.withParam function p).isRecord = s.isRecord := by
  unfold Symbol.withParam
  split
  · rename_i hk
    split
    · simp [Symbol.isRecord, hk]
    · rfl
  · rfl

theorem function?_withParam :
    (s.withParam function p).function? =
      s.function?.map fun f => if f.1.name = function then (f.1, f.2 ++ [p]) else f := by
  unfold Symbol.withParam
  split
  · rename_i a t ps hk
    split
    · rename_i hn
      simp [Symbol.function?, Symbol.callee?, Symbol.params, Symbol.ty, hk, hn]
    · rename_i hn
      simp [Symbol.function?, Symbol.callee?, hk, hn]
  · rename_i hk
    have : s.isFunction = false := by
      unfold Symbol.isFunction
      split
      · rename_i a t ps hk'
        exact absurd hk' (hk a t ps)
      · rfl
    simp [function?_eq_none this]

end

theorem isFunction_of_isRecord (h : s.isRecord = true) : s.isFunction = false := by
  simp only [Symbol.isRecord, decide_eq_true_eq] at h
  simp [Symbol.isFunction, h]

theorem Leads.withParam {scope : ScopeId → Scope} {U : ScopeId → Prop} (h : Leads scope U syms ps)
    (function : Bytes) (p : Param) : Leads scope U (syms.map (Symbol.withParam function p)) ps := by
  induction h with
  | nil => exact .nil
  | stored hk ht hs _ ih =>
    rw [List.map_cons, withParam_eq_self (by simp [Symbol.isFunction, hk])]
    exact .stored hk ht hs ih
  | object hk ht hs hu hr hq _ _ ih =>
    rw [List.map_cons, withParam_eq_self (by simp [Symbol.isFunction, hk])]
    exact .object hk ht hs hu hr hq ih
  | other hk _ ih =>
    refine .other ?_ ih
    rw [isFunction_withParam, isRecord_withParam]
    exact hk

/-- The functions of a directory have different names. -/
theorem name_of_mem_functionsOf (h : f ∈ functionsOf syms) :
    ∃ s ∈ syms, s.callee? = some f.1 ∧ s.params = f.2 ∧ s.name = f.1.name ∧
      s.isFunction = true := by
  obtain ⟨s, hs, hf⟩ := List.mem_filterMap.1 h
  obtain ⟨c, hc, rfl⟩ := Option.map_eq_some_iff.1 hf
  refine ⟨s, hs, hc, rfl, ?_⟩
  unfold Symbol.callee? at hc
  split at hc
  · rename_i hk
    cases hc
    exact ⟨rfl, by simp [Symbol.isFunction, hk]⟩
  · cases hc

theorem functionsOf_names (syms : List Symbol) :
    ((functionsOf syms).map (·.1.name)).Sublist (syms.map (·.name)) := by
  induction syms with
  | nil => exact .slnil
  | cons s syms ih =>
    unfold functionsOf at ih ⊢
    cases hf : s.function? with
    | none =>
      rw [List.filterMap_cons_none hf]
      exact ih.cons _
    | some f =>
      rw [List.filterMap_cons_some hf, List.map_cons, List.map_cons]
      obtain ⟨c, hc, rfl⟩ := Option.map_eq_some_iff.1 hf
      have : c.name = s.name := by
        unfold Symbol.callee? at hc
        split at hc
        · cases hc
          rfl
        · cases hc
      rw [this]
      exact ih.cons_cons _

/-- Only the last function gets the parameter. -/
theorem functionsOf_withParam (hnames : (syms.map (·.name)).Nodup) {fs : List (Callee × List Param)}
    {f : Callee} (p : Param) (h : functionsOf syms = fs ++ [(f, params)]) :
    functionsOf (syms.map (Symbol.withParam f.name p)) = fs ++ [(f, params ++ [p])] := by
  have hmap : functionsOf (syms.map (Symbol.withParam f.name p)) =
      (functionsOf syms).map fun g => if g.1.name = f.name then (g.1, g.2 ++ [p]) else g := by
    unfold functionsOf
    rw [List.filterMap_map, List.map_filterMap]
    congr 1
    funext s
    exact function?_withParam f.name p s
  have hnodup := (functionsOf_names syms).nodup hnames
  rw [h, List.map_append, List.nodup_append] at hnodup
  rw [hmap, h, List.map_append]
  congr 1
  · rw [List.map_congr_left, List.map_id]
    intro g hg
    rw [if_neg]
    · rfl
    · intro heq
      exact hnodup.2.2 g.1.name (List.mem_map_of_mem hg) f.name (by simp) heq
  · simp

theorem scopeAt_addParam (h : 0 < scopes.size) (function : Bytes) (p : Param) :
    scopeAt (scopes.modify 0 (·.addParam function p)) 0 = (scopeAt scopes 0).addParam
      function p := by
  rw [scopeAt_modify, if_pos ⟨rfl, h⟩]

theorem scopeAt_addParam_of_ne (h : id ≠ 0) (function : Bytes) (p : Param) :
    scopeAt (scopes.modify 0 (·.addParam function p)) id = scopeAt scopes id := by
  rw [scopeAt_modify, if_neg fun h' => h h'.1]

theorem World.keeps_objects_addParam (h : World current d ps scopes m) (function : Bytes)
    (p : Param) :
    ∀ id, IsObject scopes id →
      scopeAt (scopes.modify 0 (·.addParam function p)) id = scopeAt scopes id := by
  intro id hid
  apply scopeAt_addParam_of_ne
  rintro rfl
  exact not_isObject h.program (by simp) hid

/-- A parameter in the list of its function changes nothing but the functions. -/
theorem World.addParam {p : Param} (h : World current d ps scopes m)
    (hin : Inside current scopes m qs)
    (hfuns : ∀ f ∈ functionsOf (scopeAt (scopes.modify 0 (·.addParam function p)) 0).symbols,
      FunctionPlaced m f) :
    World current d ps (scopes.modify 0 (·.addParam function p)) m := by
  have hzero := scopeAt_addParam h.nonempty function p
  refine ⟨?_, ?_, ?_, ?_, h.apart, h.leaves, ?_, hfuns, h.valid, h.layout⟩
  · simpa using h.nonempty
  · rw [hzero]
    exact h.program
  · rw [hzero, symbols_addParam, List.map_map]
    simpa [Function.comp_def, name_withParam] using h.distinct
  · rw [hzero, symbols_addParam]
    have hstored := h.stored.mono (.refl m) (h.keeps_objects_addParam function p)
    exact ⟨hstored.leads.withParam _ _, hstored.shaped, hstored.placed⟩
  · refine h.classes.congr (fun _ => ne_of_record hin.ne_record)
      (fun _ => ne_of_record hin.ne_record) ?_
      (fun _ hid => scopeAt_addParam_of_ne (ne_of_record h.zero_ne_record hid) function p) ?_
    · intro c hc
      rw [hzero, symbols_addParam, List.mem_map]
      constructor
      · rintro ⟨s, hs, rfl⟩
        rw [isRecord_withParam] at hc
        rwa [withParam_eq_self (isFunction_of_isRecord hc)]
      · intro hmem
        exact ⟨c, hmem, withParam_eq_self (isFunction_of_isRecord hc)⟩
    · intro id hid
      by_cases h₀ : id = 0
      · subst h₀
        rw [hzero] at hid
        exact hid
      · rwa [scopeAt_addParam_of_ne h₀] at hid

theorem Inside.addParam {p : Param} (h : World current d ps scopes m)
    (hin : Inside current scopes m qs) :
    Inside current (scopes.modify 0 (·.addParam function p)) m qs := by
  have hcurrent : scopeAt (scopes.modify 0 (·.addParam function p)) current =
    scopeAt scopes current :=
    scopeAt_addParam_of_ne (Inside.ne_zero h hin) function p
  constructor <;> rw [hcurrent]
  · exact hin.kind
  · exact hin.stored.mono (.refl m) (h.keeps_objects_addParam function p)
  · exact hin.plain

/-- The addresses of the parameters before were taken when one more is allocated. -/
theorem FunctionPlaced.param {id : Bytes} {ty : Ty} {a : Addr} {f : Callee}
    (h : FunctionPlaced m (f, params)) (hv : m.Valid) (hty : Typing.isPrimitive ty = true)
    (ha : m.alloc ty .functions 1 = .ok (a, m')) :
    FunctionPlaced m' (f, params ++ [⟨id, ty, a⟩]) := by
  have halloc := hv.alloc ha
  refine ⟨h.type, halloc.extends.taken h.slot, ?_, ?_⟩
  · exact List.forall_mem_append.2 ⟨(h.mono halloc.extends).params, List.forall_mem_singleton.2
      ⟨hty, halloc.taken.2 (.inr ⟨rfl, rfl, halloc.first⟩)⟩⟩
  · rw [List.map_append, List.nodup_append]
    refine ⟨h.distinct, by simp, ?_⟩
    rintro b hb c hc rfl
    obtain ⟨p, hp, rfl⟩ := List.mem_map.1 hb
    have haddress : p.address = a := List.mem_singleton.1 hc
    have htaken := (h.params p hp).2
    rw [haddress] at htaken
    obtain ⟨-, hsame⟩ := hv.disjoint.holds_inj (hv.holds_of_taken htaken)
      (halloc.holds halloc.first)
    rw [hsame] at htaken
    exact halloc.fresh halloc.first htaken

/-- A parameter is a variable of the function, and one of its parameters. -/
theorem World.param {ty : Ty} {a : Addr} {f : Callee} {fs : List (Callee × List Param)}
    (h : World current d ps scopes m) (id : Bytes)
    (hin : Inside current scopes m qs) (hty : Typing.isPrimitive ty = true)
    (ha : m.alloc ty .functions 1 = .ok (a, m'))
    (hfuns : functionsOf (scopeAt scopes 0).symbols = fs ++ [(f, params)]) :
    ∃ scopes', scopes' = (scopes.modify current (·.add (paramSymbol id ty a))).modify 0
        (·.addParam f.name ⟨id, ty, a⟩) ∧
      World current d ps scopes' m' ∧ Inside current scopes' m' (qs ++ [⟨[id], ty, [], a⟩]) ∧
      functionsOf (scopeAt scopes' 0).symbols = fs ++ [(f, params ++ [⟨id, ty, a⟩])] := by
  have halloc := h.valid.alloc ha
  have hcur : current < scopes.size := lt_of_kind (by rw [hin.kind]; simp)
  have hstores : Stores .functions m [⟨[id], ty, [], a⟩] m' := .cons ha .nil
  have hgrows : Grows scopes current [paramSymbol id ty a]
      (scopes.modify current (·.add (paramSymbol id ty a))) := Grows.add hcur _
  have hworld := h.local hin hgrows halloc.extends halloc.valid
  have hinside := hin.variable h.valid hgrows rfl rfl hstores
    (List.forall_mem_singleton.2 ⟨hty, .nil⟩) (.stored rfl rfl rfl .nil)
  have hzero := hgrows.others h.nonempty (Ne.symm (Inside.ne_zero h hin))
  refine ⟨_, rfl, ?_⟩
  generalize scopes.modify current (·.add (paramSymbol id ty a)) = scopes₁ at hworld hinside hzero
  have hfuns' : functionsOf (scopeAt (scopes₁.modify 0 (·.addParam f.name ⟨id, ty, a⟩)) 0).symbols =
      fs ++ [(f, params ++ [⟨id, ty, a⟩])] := by
    rw [scopeAt_addParam hworld.nonempty, hzero, symbols_addParam]
    exact functionsOf_withParam h.distinct _ hfuns
  refine ⟨hworld.addParam hinside ?_, Inside.addParam hworld hinside, hfuns'⟩
  intro g hg
  rw [hfuns'] at hg
  have hold := h.functions
  rw [hfuns] at hold
  rcases List.mem_append.1 hg with hg | hg
  · exact (hold g (List.mem_append_left _ hg)).mono halloc.extends
  · obtain rfl := List.mem_singleton.1 hg
    exact (hold (f, params) (List.mem_append_right _ (List.mem_singleton.2 rfl))).param
      h.valid hty ha

/-! ## Bodies of classes -/

/-- The body of a class is open: its directory is that of a class of this name. -/
structure InClass (id : Bytes) (current : ScopeId) (scopes : Array Scope) : Prop where
  kind : (scopeAt scopes current).kind = .record
  declared : classSymbol id current ∈ (scopeAt scopes 0).symbols
  own : ∀ {c}, c ∈ (scopeAt scopes 0).symbols → c.isRecord = true → c.scope = some current →
    c.name = id

/-- The table of classes with one more class, whose body is open. -/
theorem ClassTable.opened {id : Bytes} (h : ClassTable 0 classes scopes)
    (h₀ : 0 < scopes.size) (hzero : (scopeAt scopes 0).kind ≠ .record) :
    ClassTable scopes.size classes
      (openScope scopes (Scope.empty id .record (some id)) (classSymbol id scopes.size)) := by
  refine ⟨?_, ?_, ?_, ?_, ?_⟩
  · intro id' hid
    rcases record_of_openScope h₀ hzero hid with ⟨rfl, -⟩ | hid'
    · rw [openScope_new h₀]
      simp [Scope.empty]
    · rw [openScope_record h₀ hzero hid']
      exact h.fields hid'
  · intro id' hid
    rcases record_of_openScope h₀ hzero hid with ⟨rfl, -⟩ | hid'
    · rw [openScope_new h₀]
      exact trivial
    · rw [openScope_record h₀ hzero hid']
      exact h.shapes hid'
  · intro c hc hrec
    rw [openScope_outermost h₀] at hc
    rcases List.mem_append.1 hc with hc | hc
    · obtain ⟨id', hid', hkind⟩ := h.records hc hrec
      exact ⟨id', hid', by rw [openScope_record h₀ hzero hkind]; exact hkind⟩
    · obtain rfl := List.mem_singleton.1 hc
      exact ⟨scopes.size, rfl, by rw [openScope_new h₀]; rfl⟩
  · intro c hc hrec id' hid' hne
    rw [openScope_outermost h₀] at hc
    rcases List.mem_append.1 hc with hc | hc
    · obtain ⟨id'', hid'', hkind⟩ := h.records hc hrec
      obtain rfl : id' = id'' := Option.some.inj (hid'.symm.trans hid'')
      rw [openScope_record h₀ hzero hkind]
      exact h.complete hc hrec id' hid' (ne_of_record hzero hkind)
    · obtain rfl := List.mem_singleton.1 hc
      exact absurd (Option.some.inj hid').symm hne
  · intro k hk
    obtain ⟨c, hc, hrec, hname', -⟩ := h.known k hk
    obtain ⟨id', hid', hkind⟩ := h.records hc hrec
    refine ⟨c, ?_, hrec, hname', ?_⟩
    · rw [openScope_outermost h₀]
      exact List.mem_append_left _ hc
    · rw [hid']
      intro heq
      exact Nat.ne_of_lt (lt_of_record hkind) (Option.some.inj heq)

/-- A new class has no fields yet. -/
theorem World.openClass {id : Bytes} (h : World 0 d ps scopes m)
    (hname : id ∉ (scopeAt scopes 0).symbols.map (·.name)) :
    World scopes.size d ps (openScope scopes (Scope.empty id .record (some id))
        (classSymbol id scopes.size)) m ∧
      InClass id scopes.size (openScope scopes (Scope.empty id .record (some id))
        (classSymbol id scopes.size)) ∧
      functionsOf (scopeAt (openScope scopes (Scope.empty id .record (some id))
        (classSymbol id scopes.size)) 0).symbols = functionsOf (scopeAt scopes 0).symbols := by
  refine ⟨h.opened hname (.inr rfl) (.refl m) h.valid
    (h.classes.opened h.nonempty h.zero_ne_record) (List.forall_mem_nil _), ?_,
    (functionsOf_openScope h.nonempty).trans (List.append_nil _)⟩
  constructor
  · rw [openScope_new h.nonempty]
    rfl
  · rw [openScope_outermost h.nonempty]
    exact List.mem_append_right _ (List.mem_singleton.2 rfl)
  · intro c hc hrec hscope
    rw [openScope_outermost h.nonempty] at hc
    rcases List.mem_append.1 hc with hc | hc
    · obtain ⟨id', hid', hkind⟩ := h.classes.records hc hrec
      obtain rfl : id' = scopes.size := Option.some.inj (hid'.symm.trans hscope)
      exact absurd (lt_of_record hkind) (Nat.lt_irrefl _)
    · obtain rfl := List.mem_singleton.1 hc
      rfl

/-- The table of classes with one more field of the class whose body is open. -/
theorem ClassTable.field (h : ClassTable current classes scopes)
    (hcurrent : (scopeAt scopes current).kind = .record) (hgrows : Grows scopes current [s] scopes')
    (hzero : scopeAt scopes' 0 = scopeAt scopes 0) (hkind : s.kind = .variable none)
    (hscope : s.scope = none) (hshaped : (Scope.fields [s]).Shaped)
    (hname : s.name ∉ (scopeAt scopes current).symbols.map (·.name)) :
    ClassTable current classes scopes' := by
  have hsyms : (scopeAt scopes' current).symbols = (scopeAt scopes current).symbols ++ [s] := by
    rw [hgrows.here]
  have hother : ∀ {id}, (scopeAt scopes' id).kind = .record → id ≠ current →
      (scopeAt scopes id).kind = .record ∧ scopeAt scopes' id = scopeAt scopes id := by
    intro id hid hne
    have hrec := hgrows.record_of_record hid
    exact ⟨hrec, hgrows.others (lt_of_record hrec) hne⟩
  refine ⟨?_, ?_, ?_, ?_, ?_⟩
  · intro id hid
    by_cases heq : id = current
    · subst heq
      rw [hsyms]
      intro t ht
      rcases List.mem_append.1 ht with ht | ht
      · exact h.fields hcurrent t ht
      · obtain rfl := List.mem_singleton.1 ht
        exact ⟨hkind, hscope⟩
    · rw [(hother hid heq).2]
      exact h.fields (hother hid heq).1
  · intro id hid
    by_cases heq : id = current
    · subst heq
      rw [hsyms]
      exact shaped_fields_concat (h.shapes hcurrent) hshaped hname
    · rw [(hother hid heq).2]
      exact h.shapes (hother hid heq).1
  · intro c hc hrec
    rw [hzero] at hc
    obtain ⟨id, hid, hk⟩ := h.records hc hrec
    exact ⟨id, hid, by rw [hgrows.kind_eq (lt_of_record hk)]; exact hk⟩
  · intro c hc hrec id hid hne
    rw [hzero] at hc
    obtain ⟨id', hid', hk⟩ := h.records hc hrec
    obtain rfl : id = id' := Option.some.inj (hid.symm.trans hid')
    rw [hgrows.others (lt_of_record hk) hne]
    exact h.complete hc hrec id hid hne
  · rw [hzero]
    exact h.known

theorem World.field {id : Bytes} (h : World current d ps scopes m)
    (hin : InClass id current scopes) (hkind : s.kind = .variable none) (hscope : s.scope = none)
    (hshaped : (Scope.fields [s]).Shaped)
    (hname : s.name ∉ (scopeAt scopes current).symbols.map (·.name)) :
    World current d ps (scopes.modify current (·.add s)) m ∧
      InClass id current (scopes.modify current (·.add s)) ∧
      (scopeAt (scopes.modify current (·.add s)) 0) = scopeAt scopes 0 := by
  have hgrows : Grows scopes current [s] (scopes.modify current (·.add s)) :=
    Grows.add (lt_of_record hin.kind) s
  generalize scopes.modify current (·.add s) = scopes' at hgrows
  have hzero : scopeAt scopes' 0 = scopeAt scopes 0 :=
    hgrows.others h.nonempty (Ne.symm (ne_of_record h.zero_ne_record hin.kind))
  have hclasses := h.classes.field hin.kind hgrows hzero hkind hscope hshaped hname
  refine ⟨h.around (Nat.lt_of_lt_of_le h.nonempty hgrows.size) hzero
    (hgrows.keeps_objects (not_isObject hin.kind (by simp))) hclasses (.refl m) h.valid,
    ⟨?_, hzero ▸ hin.declared, hzero ▸ hin.own⟩, hzero⟩
  rw [hgrows.here]
  exact hin.kind

/-- A symbol of a directory without double names is found by its name. -/
theorem find?_of_mem {s : Scope} (h : (s.symbols.map (·.name)).Nodup) (hmem : sym ∈ s.symbols) :
    s.find? sym.name = some sym := by
  unfold Scope.find?
  obtain ⟨l, r, hsplit⟩ := List.append_of_mem hmem
  rw [hsplit] at h ⊢
  rw [List.map_append, List.nodup_append] at h
  rw [List.find?_append, List.find?_eq_none.2]
  · simp
  · intro t ht heq
    simp only [decide_eq_true_eq] at heq
    exact h.2.2 t.name (List.mem_map_of_mem ht) sym.name (by simp) heq

/-- A class is complete when its body is left. -/
theorem World.closeClass {id : Bytes} (h : World current d ps scopes m)
    (hin : InClass id current scopes) :
    World 0 { d with
      classes := d.classes ++ [(id, (Scope.fields (scopeAt scopes current).symbols).leaves)] }
      ps scopes m := by
  have hclasses : ClassTable 0 (d.classes ++
      [(id, (Scope.fields (scopeAt scopes current).symbols).leaves)]) scopes := by
    -- Two classes of one name are one symbol.
    have hsame : ∀ {c}, c ∈ (scopeAt scopes 0).symbols → c.name = id →
      c = classSymbol id current := by
      intro c hc hname
      have h₁ := find?_of_mem h.distinct hc
      have h₂ := find?_of_mem h.distinct hin.declared
      rw [hname] at h₁
      exact Option.some.inj (h₁.symm.trans h₂)
    refine ⟨h.classes.fields, h.classes.shapes, h.classes.records, ?_, ?_⟩
    · intro c hc hrec id' hid' _
      by_cases hcur : id' = current
      · subst hcur
        rw [hin.own hc hrec hid']
        have hnew : d.classes.lookup id = none := by
          refine List.lookup_eq_none_iff.2 fun k hk => bne_iff_ne.2 fun hname => ?_
          obtain ⟨c', hc', -, hname', hscope'⟩ := h.classes.known k hk
          rw [hsame hc' (hname'.trans hname.symm)] at hscope'
          exact hscope' rfl
        simp [List.lookup_append, hnew]
      · rw [List.lookup_append, h.classes.complete hc hrec id' hid' hcur]
        rfl
    · intro k hk
      rcases List.mem_append.1 hk with hk | hk
      · obtain ⟨c, hc, hrec, hname, -⟩ := h.classes.known k hk
        obtain ⟨id', hid', hkind⟩ := h.classes.records hc hrec
        refine ⟨c, hc, hrec, hname, ?_⟩
        rw [hid']
        intro heq
        exact ne_of_record h.zero_ne_record hkind (Option.some.inj heq)
      · obtain rfl := List.mem_singleton.1 hk
        refine ⟨_, hin.declared, rfl, rfl, ?_⟩
        intro heq
        exact ne_of_record h.zero_ne_record hin.kind (Option.some.inj heq)
  exact { h with classes := hclasses }

end Quadlang
