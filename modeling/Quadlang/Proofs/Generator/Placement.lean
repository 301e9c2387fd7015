-- Where declarations put things: each variable, and each field of each instance, gets
-- addresses of its own in the segment of the place of its declaration, and the directories
-- lead to them by name.
import Quadlang.Proofs.Generator.Actions
import Quadlang.Proofs.Generator.Dimensions
import Quadlang.Proofs.Source.Storage

namespace Quadlang

open Source Generate Success

variable {m m' : Memory} {scopes scopes' : Array Scope} {segment : Segment}
  {scope : ScopeId → Scope} {U : ScopeId → Prop} {syms : List Symbol} {id : ScopeId}
  {ps : List Placement}

/-! ## Placements -/

/-- A stored variable with its first address. -/
structure Placement where
  path : List Bytes
  ty : Ty
  dims : List Dim
  address : Addr

namespace Placement

/-- A placement as the source sees it. -/
def leaf (p : Placement) : Leaf := ⟨p.path, p.ty, p.dims.map (·.size)⟩

/-- A placement inside an instance. -/
def under (name : Bytes) (p : Placement) : Placement := { p with path := name :: p.path }

def size (p : Placement) : Int64 := Dim.total p.dims

@[simp]
theorem leaf_under (name : Bytes) (p : Placement) : (p.under name).leaf = p.leaf.under name := rfl

end Placement

/-- Variables get their addresses one after another. -/
inductive Stores (segment : Segment) : Memory → List Placement → Memory → Prop
  | nil {m : Memory} : Stores segment m [] m
  | cons {p : Placement} {ps : List Placement} {m m₁ m' : Memory} :
      m.alloc p.ty segment p.size = .ok (p.address, m₁) → Stores segment m₁ ps m' →
      Stores segment m (p :: ps) m'

theorem Stores.append {segment : Segment} {ps qs : List Placement} {m m₁ m' : Memory}
    (h : Stores segment m ps m₁) (h' : Stores segment m₁ qs m') :
    Stores segment m (ps ++ qs) m' := by
  induction h with
  | nil => exact h'
  | cons ha _ ih => exact .cons ha (ih h')

theorem Stores.under (name : Bytes) (h : Stores segment m ps m') :
    Stores segment m (ps.map (·.under name)) m' := by
  induction h with
  | nil => exact .nil
  | cons ha _ ih => exact .cons ha ih

/-- Two variables share no address. -/
def Placement.Apart (p q : Placement) : Prop :=
  ∀ b, ¬ (InBlock p.address p.size b ∧ InBlock q.address q.size b)

/-- A variable has its addresses in a segment. -/
def Placement.In (segment : Segment) (m : Memory) (p : Placement) : Prop :=
  1 ≤ p.size.toInt ∧ ∀ b, InBlock p.address p.size b → m.Taken segment p.ty b

theorem Placement.In.mono {p : Placement} (h : p.In segment m) (hm : m.Extends m') :
    p.In segment m' :=
  ⟨h.1, fun b hb => hm.taken (h.2 b hb)⟩

/-- What is stored stands in the segment, apart from one another and from all that was
taken before. -/
theorem Stores.spec (hm : m.Valid) (h : Stores segment m ps m') :
    m'.Valid ∧ m.Extends m' ∧ (∀ p ∈ ps, p.In segment m') ∧ ps.Pairwise Placement.Apart ∧
      (∀ p ∈ ps, ∀ b, InBlock p.address p.size b → ¬ m.Taken segment p.ty b) ∧
      (∀ {segment' ty b}, segment' ≠ segment → m'.Taken segment' ty b → m.Taken segment' ty b) ∧
      m'.constants = m.constants := by
  induction h with
  | nil => exact ⟨hm, .refl _, by simp, .nil, by simp, fun _ h => h, rfl⟩
  | @cons p ps m m₁ m' ha h ih =>
    have halloc := hm.alloc ha
    obtain ⟨hv, hext, hin, happart, hfresh, hother, hconst⟩ := ih halloc.valid
    have hp : p.In segment m₁ :=
      ⟨halloc.positive, fun b hb => halloc.taken.2 (.inr ⟨rfl, rfl, hb⟩)⟩
    refine ⟨hv, halloc.extends.trans hext, ?_, ?_, ?_, ?_, hconst.trans halloc.constants⟩
    · intro q hq
      rcases List.mem_cons.1 hq with rfl | hq
      · exact hp.mono hext
      · exact hin q hq
    · refine List.pairwise_cons.2 ⟨?_, happart⟩
      rintro q hq b ⟨hpb, hqb⟩
      -- The block of `p` is taken when `q` gets its own, so the types would have to differ.
      have h₁ := halloc.valid.holds_of_taken (hp.2 b hpb)
      have h₂ := hv.holds_of_taken ((hin q hq).2 b hqb)
      rw [hext.layout] at h₂
      obtain ⟨-, hty⟩ := halloc.valid.disjoint.holds_inj h₁ h₂
      apply hfresh q hq b hqb
      rw [← hty]
      exact hp.2 b hpb
    · intro q hq b hb ht
      rcases List.mem_cons.1 hq with rfl | hq
      · exact halloc.fresh hb ht
      · exact hfresh q hq b hb (halloc.extends.taken ht)
    · intro segment' ty b hne ht
      rcases halloc.taken.1 (hother hne ht) with ht | ⟨rfl, -, -⟩
      · exact ht
      · exact absurd rfl hne

/-! ## Directories -/

/-- The fields of an instance: none of them is a class, and no name is declared twice. -/
structure PlainFields (syms : List Symbol) : Prop where
  records : ∀ s ∈ syms, s.isRecord = false
  distinct : (syms.map (·.name)).Nodup

/-- The symbols of a directory lead to placements: a stored variable to its own, an instance
to those of its directory, which is one of `U`. Functions and classes lead nowhere. -/
inductive Leads (scope : ScopeId → Scope) (U : ScopeId → Prop) :
    List Symbol → List Placement → Prop
  | nil : Leads scope U [] []
  | stored {sym : Symbol} {syms : List Symbol} {ps : List Placement} {ty : Ty} {a : Addr} :
      sym.kind = .variable (some a) → sym.type = .value ty → sym.scope = none →
      Leads scope U syms ps →
      Leads scope U (sym :: syms) (⟨[sym.name], ty, sym.dims, a⟩ :: ps)
  | object {sym : Symbol} {syms : List Symbol} {ps qs : List Placement} {className : Bytes}
      {fields : Template} {inner : ScopeId} :
      sym.kind = .variable none → sym.type = .object className fields → sym.scope = some inner →
      U inner → PlainFields (scope inner).symbols →
      Leads scope U (scope inner).symbols qs → Leads scope U syms ps →
      Leads scope U (sym :: syms) (qs.map (·.under sym.name) ++ ps)
  | other {sym : Symbol} {syms : List Symbol} {ps : List Placement} :
      (sym.isFunction ∨ sym.isRecord) → Leads scope U syms ps → Leads scope U (sym :: syms) ps

theorem Leads.append {scope : ScopeId → Scope} {U : ScopeId → Prop} {syms syms' : List Symbol}
    {ps ps' : List Placement} (h : Leads scope U syms ps) (h' : Leads scope U syms' ps') :
    Leads scope U (syms ++ syms') (ps ++ ps') := by
  induction h with
  | nil => exact h'
  | stored hk ht hs _ ih => exact .stored hk ht hs ih
  | object hk ht hs hu hr hq _ _ ih =>
    rw [List.append_assoc]
    exact .object hk ht hs hu hr hq ih
  | other hk _ ih => exact .other hk ih

/-- Directories depend on the directories of their instances only. -/
theorem Leads.congr {scope' : ScopeId → Scope} {U' : ScopeId → Prop}
    (h : Leads scope U syms ps) (hscope : ∀ id, U id → scope' id = scope id)
    (hU : ∀ id, U id → U' id) :
    Leads scope' U' syms ps := by
  induction h with
  | nil => exact .nil
  | stored hk ht hs _ ih => exact .stored hk ht hs ih
  | object hk ht hs hu hr _ _ ihq ih =>
    rw [← hscope _ hu] at ihq hr
    exact .object hk ht hs (hU _ hu) hr ihq ih
  | other hk _ ih => exact .other hk ih

/-- The path of a placement begins with the name of a symbol. -/
theorem Leads.path_head (h : Leads scope U syms ps) :
    ∀ p ∈ ps, ∃ s ∈ syms, ∃ rest, p.path = s.name :: rest := by
  induction h with
  | nil => simp
  | @stored sym _ _ _ _ _ _ _ _ ih =>
    intro p hp
    rcases List.mem_cons.1 hp with rfl | hp
    · exact ⟨sym, List.mem_cons_self .., [], rfl⟩
    · obtain ⟨s, hs, hpath⟩ := ih p hp
      exact ⟨s, List.mem_cons_of_mem _ hs, hpath⟩
  | @object sym _ _ _ _ _ _ _ _ _ _ _ _ _ _ ih =>
    intro p hp
    rcases List.mem_append.1 hp with hp | hp
    · obtain ⟨q, -, rfl⟩ := List.mem_map.1 hp
      exact ⟨sym, List.mem_cons_self .., q.path, rfl⟩
    · obtain ⟨s, hs, hpath⟩ := ih p hp
      exact ⟨s, List.mem_cons_of_mem _ hs, hpath⟩
  | other _ _ ih =>
    intro p hp
    obtain ⟨s, hs, hpath⟩ := ih p hp
    exact ⟨s, List.mem_cons_of_mem _ hs, hpath⟩

/-- Where no name is declared twice, no two placements have one path. -/
theorem Leads.paths_nodup (h : Leads scope U syms ps)
    (hnames : (syms.map (·.name)).Nodup) : (ps.map (·.path)).Nodup := by
  induction h with
  | nil => exact .nil
  | @stored sym syms ps ty a _ _ _ hleads ih =>
    obtain ⟨hfresh, hrest⟩ := List.nodup_cons.1 hnames
    refine List.nodup_cons.2 ⟨?_, ih hrest⟩
    intro hmem
    obtain ⟨p, hp, hpath⟩ := List.mem_map.1 hmem
    obtain ⟨s, hs, rest, hhead⟩ := hleads.path_head p hp
    rw [hhead] at hpath
    exact hfresh (List.mem_map.2 ⟨s, hs, (List.cons.inj hpath).1⟩)
  | @object sym syms ps qs _ _ _ _ _ _ _ hplain _ hleads ihq ih =>
    obtain ⟨hfresh, hrest⟩ := List.nodup_cons.1 hnames
    rw [List.map_append, List.nodup_append]
    refine ⟨?_, ih hrest, ?_⟩
    · rw [List.map_map]
      show (qs.map ((sym.name :: ·) ∘ (·.path))).Nodup
      rw [← List.map_map]
      exact List.Pairwise.map _ (fun _ _ hne heq => hne (List.cons.inj heq).2) (ihq hplain.distinct)
    · rintro a ha b hb rfl
      rw [List.map_map] at ha
      obtain ⟨q, -, hq⟩ := List.mem_map.1 ha
      obtain ⟨p, hp, hpath⟩ := List.mem_map.1 hb
      obtain ⟨s, hs, rest, hhead⟩ := hleads.path_head p hp
      rw [hhead, ← hq] at hpath
      exact hfresh (List.mem_map.2 ⟨s, hs, (List.cons.inj hpath).1⟩)
  | other _ _ ih => exact ih (List.nodup_cons.1 hnames).2

/-! ## Scopes -/

def scopeAt (scopes : Array Scope) (id : ScopeId) : Scope :=
  scopes.getD id (Scope.empty [] .program none)

theorem scopeAt_push (scopes : Array Scope) (s : Scope) (id : ScopeId) :
    scopeAt (scopes.push s) id = if id = scopes.size then s else scopeAt scopes id := by
  unfold scopeAt
  rw [Array.getD_eq_getD_getElem?, Array.getD_eq_getD_getElem?, Array.getElem?_push]
  split <;> rfl

theorem scopeAt_modify (scopes : Array Scope) (id id' : ScopeId) (f : Scope → Scope) :
    scopeAt (scopes.modify id f) id' =
      if id' = id ∧ id < scopes.size then f (scopeAt scopes id') else scopeAt scopes id' := by
  unfold scopeAt
  rw [Array.getD_eq_getD_getElem?, Array.getD_eq_getD_getElem?, Array.getElem?_modify]
  by_cases h : id = id'
  · subst h
    by_cases hlt : id < scopes.size
    · simp [hlt]
    · simp [hlt]
  · simp [h, Ne.symm h]

/-- A directory got more symbols. New directories belong to instances, and the others are as
before. -/
structure Grows (scopes : Array Scope) (id : ScopeId) (syms : List Symbol)
    (scopes' : Array Scope) : Prop where
  size : scopes.size ≤ scopes'.size
  here : scopeAt scopes' id =
    { scopeAt scopes id with symbols := (scopeAt scopes id).symbols ++ syms }
  others : ∀ {id'}, id' < scopes.size → id' ≠ id → scopeAt scopes' id' = scopeAt scopes id'
  objects : ∀ {id'}, scopes.size ≤ id' → id' < scopes'.size → (scopeAt scopes' id').kind = .object

theorem Grows.refl (scopes : Array Scope) (id : ScopeId) : Grows scopes id [] scopes :=
  ⟨Nat.le_refl _, by simp, fun _ _ => rfl, fun h h' => absurd h' (Nat.not_lt.2 h)⟩

theorem Grows.add (hid : id < scopes.size) (sym : Symbol) :
    Grows scopes id [sym] (scopes.modify id (·.add sym)) := by
  refine ⟨by simp, by simp [scopeAt_modify, hid, Scope.add], ?_, ?_⟩
  · intro id' _ hne
    simp [scopeAt_modify, hne]
  · intro id' h h'
    simp only [Array.size_modify] at h'
    omega

theorem Grows.trans {scopes'' : Array Scope} {syms' : List Symbol} (hid : id < scopes.size)
    (h : Grows scopes id syms scopes') (h' : Grows scopes' id syms' scopes'') :
    Grows scopes id (syms ++ syms') scopes'' := by
  refine ⟨Nat.le_trans h.size h'.size, by simp [h'.here, h.here], ?_, ?_⟩
  · intro id' hlt hne
    rw [h'.others (Nat.lt_of_lt_of_le hlt h.size) hne, h.others hlt hne]
  · intro id' hle hlt
    by_cases hlt' : id' < scopes'.size
    · rw [h'.others hlt' (Nat.ne_of_gt (Nat.lt_of_lt_of_le hid hle))]
      exact h.objects hle hlt'
    · exact h'.objects (Nat.not_lt.1 hlt') hlt

/-- A new directory of an instance, with whatever is put into it, leaves the others alone. -/
theorem Grows.instance {s : Scope} (h : Grows (scopes.push s) scopes.size syms scopes')
    (hs : s.kind = .object) (hid : id < scopes.size) : Grows scopes id [] scopes' := by
  have hsize := h.size
  simp only [Array.size_push] at hsize
  have hkeep : ∀ {id'}, id' < scopes.size → scopeAt scopes' id' = scopeAt scopes id' := by
    intro id' hlt
    rw [h.others (by rw [Array.size_push]; exact Nat.lt_succ_of_lt hlt) (Nat.ne_of_lt hlt),
      scopeAt_push, if_neg (Nat.ne_of_lt hlt)]
  refine ⟨Nat.le_of_succ_le hsize, by simp [hkeep hid], fun hlt _ => hkeep hlt, ?_⟩
  intro id' hle hlt
  rcases Nat.lt_or_eq_of_le hle with hlt' | rfl
  · exact h.objects (by rw [Array.size_push]; exact hlt') hlt
  · rw [h.here]
    simpa [scopeAt_push] using hs

/-! ## Instances -/

namespace Template

/-- What an instance stores. -/
def leaves : Template → List Leaf
  | .nil => []
  | .variable name ty dims rest => ⟨[name], ty, dims.map (·.size)⟩ :: leaves rest
  | .nested name _ fields rest => (leaves fields).map (Leaf.under name) ++ leaves rest

def names : Template → List Bytes
  | .nil => []
  | .variable name _ _ rest | .nested name _ _ rest => name :: names rest

/-- The fields of a template are of types of values, with dimensions in row-major order, and no
name is declared twice. -/
def Shaped : Template → Prop
  | .nil => True
  | .variable name ty dims rest =>
    Typing.isPrimitive ty = true ∧ Strided dims (Dim.total dims).toInt ∧ name ∉ names rest ∧
    Shaped rest
  | .nested name _ fields rest => Shaped fields ∧ name ∉ names rest ∧ Shaped rest

theorem Shaped.names_nodup : {t : Template} → t.Shaped → t.names.Nodup
  | .nil, _ => .nil
  | .variable _ _ _ _, h => List.nodup_cons.2 ⟨h.2.2.1, names_nodup h.2.2.2⟩
  | .nested _ _ _ _, h => List.nodup_cons.2 ⟨h.2.1, names_nodup h.2.2⟩

end Template

/-- A placement is of a type of values, with dimensions in row-major order. -/
def Placement.Shaped (p : Placement) : Prop :=
  Typing.isPrimitive p.ty = true ∧ Strided p.dims p.size.toInt

theorem newScope_eq_ok {name : Bytes} {kind : Scope.Kind} {owner : Option Bytes} {g g' : Generator}
    (h : newScope name kind owner g = .ok id g') :
    id = g.scopes.size ∧ g' = { g with scopes := g.scopes.push (Scope.empty name kind owner) } := by
  obtain ⟨_, _, ⟨rfl, rfl⟩, _, _, rfl, rfl, rfl⟩ := h
  exact ⟨rfl, rfl⟩

end Quadlang
