-- What making an instance does, whether it finds room or not: the directory of the instance becomes
-- a copy of the template field by field, up to the first field that finds no room.
import Quadlang.Proofs.Generator.Placement

namespace Quadlang

open Source Generate Success

variable {scopes scopes' : Array Scope} {segment : Segment}

/-! ## Copies -/

def fieldSymbol (name : Bytes) (ty : Ty) (dims : List Dim) (a : Addr) : Symbol :=
  { name, kind := .variable (some a), type := .value ty, dims }

/-- The symbol of a field that is an instance of its own. -/
def innerSymbol (name className : Bytes) (fields : Template) (inner : ScopeId) : Symbol :=
  { name, kind := .variable none, type := .object className fields, scope := some inner }

/-- Symbols copy a template: the same fields in the same order, with the same types, classes and
dimensions. A field of a type of values is stored, and a field of a class leads to a directory that
copies the fields of the class in turn. Listed beside them are the directories and what is
stored. -/
inductive Template.Copied (scope : ScopeId → Scope) :
    Template → List Symbol → List ScopeId → List Placement → Prop
  | nil : Copied scope .nil [] [] []
  | «variable» {name : Bytes} {ty : Ty} {dims : List Dim} {rest : Template} {a : Addr}
      {syms : List Symbol} {ids : List ScopeId} {ps : List Placement} :
      Copied scope rest syms ids ps →
      Copied scope (.variable name ty dims rest) (fieldSymbol name ty dims a :: syms) ids
        (⟨[name], ty, dims, a⟩ :: ps)
  | nested {name className : Bytes} {fields rest : Template} {inner : ScopeId}
      {inners syms : List Symbol} {ids ids' : List ScopeId} {ps ps' : List Placement} :
      scope inner = ⟨name, .object, some name, inners⟩ → Copied scope fields inners ids ps →
      Copied scope rest syms ids' ps' →
      Copied scope (.nested name className fields rest)
        (innerSymbol name className fields inner :: syms) (inner :: (ids ++ ids'))
        (ps.map (·.under name) ++ ps')

namespace Template.Copied

variable {scope scope' : ScopeId → Scope} {t : Template} {syms : List Symbol} {ids : List ScopeId}
  {ps : List Placement}

section

variable (h : Copied scope t syms ids ps)

include h

/-- A copy depends on its own directories only. -/
theorem congr (hscope : ∀ id ∈ ids, scope' id = scope id) : Copied scope' t syms ids ps := by
  induction h with
  | nil => exact .nil
  | «variable» _ ih => exact .variable (ih hscope)
  | nested hinner _ _ ih ih' =>
    obtain ⟨hhead, htail⟩ := List.forall_mem_cons.1 hscope
    obtain ⟨hleft, hright⟩ := List.forall_mem_append.1 htail
    exact .nested (hhead.trans hinner) (ih hleft) (ih' hright)

theorem leaves_eq : ps.map Placement.leaf = t.leaves := by
  induction h with
  | nil => rfl
  | «variable» _ ih => simp [ih, Template.leaves, Placement.leaf]
  | nested _ _ _ ih ih' => simp [← ih, ← ih', Template.leaves, Function.comp_def]

theorem names_eq : syms.map (·.name) = t.names := by
  induction h with
  | nil => rfl
  | «variable» _ ih => simp [ih, Template.names, fieldSymbol]
  | nested _ _ _ _ ih => simp [ih, Template.names, innerSymbol]

/-- The directories of a copy lead to its fields. -/
theorem leads (hshape : t.Shaped) :
    (∀ p ∈ ps, p.Shaped) ∧ PlainFields syms ∧ Leads scope (· ∈ ids) syms ps := by
  induction h with
  | nil => exact ⟨by simp, ⟨by simp, .nil⟩, .nil⟩
  | «variable» hrest ih =>
    obtain ⟨hps, hplain, hleads⟩ := ih hshape.2.2.2
    refine ⟨List.forall_mem_cons.2 ⟨⟨hshape.1, hshape.2.1⟩, hps⟩,
      ⟨List.forall_mem_cons.2 ⟨rfl, hplain.records⟩, ?_⟩, .stored rfl rfl rfl hleads⟩
    rw [(Copied.variable hrest).names_eq]
    exact hshape.names_nodup
  | nested hinner hfields hrest ih ih' =>
    obtain ⟨hps, hplain, hleads⟩ := ih hshape.1
    obtain ⟨hps', hplain', hleads'⟩ := ih' hshape.2.2
    refine ⟨?_, ⟨List.forall_mem_cons.2 ⟨rfl, hplain'.records⟩, ?_⟩,
      .object rfl rfl rfl List.mem_cons_self ?_ ?_ ?_⟩
    · rw [List.forall_mem_append, List.forall_mem_map]
      exact ⟨hps, hps'⟩
    · rw [(Copied.nested hinner hfields hrest).names_eq]
      exact hshape.names_nodup
    · rw [hinner]
      exact hplain
    · rw [hinner]
      exact hleads.congr (fun _ _ => rfl) fun _ hid => by simp [hid]
    · exact hleads'.congr (fun _ _ => rfl) fun _ hid => by simp [hid]

end

end Template.Copied

/-! ## Numbers in a row -/

/-- The numbers of the directories between two states. -/
def newIds (scopes scopes' : Array Scope) : List ScopeId :=
  List.range' scopes.size (scopes'.size - scopes.size)

theorem mem_newIds {id : Nat} : id ∈ newIds scopes scopes' ↔ scopes.size ≤ id ∧
    id < scopes'.size := by
  unfold newIds
  rw [List.mem_range'_1]
  omega

theorem newIds_self (h : scopes'.size = scopes.size) : newIds scopes scopes' = [] := by
  unfold newIds
  rw [h, Nat.sub_self]
  rfl

theorem newIds_append {scopes₁ scopes₂ : Array Scope} (h : scopes.size ≤ scopes₁.size)
    (h' : scopes₁.size ≤ scopes₂.size) :
    newIds scopes scopes₁ ++ newIds scopes₁ scopes₂ = newIds scopes scopes₂ := by
  unfold newIds
  have hstart : scopes₁.size = scopes.size + (scopes₁.size - scopes.size) := by omega
  have hlength : scopes₂.size - scopes.size =
      (scopes₁.size - scopes.size) + (scopes₂.size - scopes₁.size) := by omega
  rw [hlength, ← List.range'_append_1, ← hstart]

theorem newIds_push {s : Scope} (h : scopes.size < scopes'.size) :
    newIds scopes scopes' = scopes.size :: newIds (scopes.push s) scopes' := by
  unfold newIds
  rw [Array.size_push, ← List.range'_succ]
  congr 1
  omega

/-! ## Filling directories -/

namespace Generate

theorem newScope_ok (name : Bytes) (kind : Scope.Kind) (owner : Option Bytes) (g : Generator) :
    newScope name kind owner g =
      .ok g.scopes.size { g with scopes := g.scopes.push (Scope.empty name kind owner) } := rfl

theorem modifyScope_ok (id : ScopeId) (f : Scope → Scope) (g : Generator) :
    modifyScope id f g = .ok () { g with scopes := g.scopes.modify id f } := rfl

theorem addHere_ok (sym : Symbol) (g : Generator) :
    addHere sym g = .ok () { g with scopes := g.scopes.modify g.current (·.add sym) } := rfl

theorem alloc_of_ok {purpose : Purpose} {ty : Ty} {n : Int64} {a : Addr} {m : Memory}
    {g : Generator} (h : g.memory.alloc ty segment n = .ok (a, m)) :
    alloc purpose ty segment n g = .ok a { g with memory := m } := by
  unfold alloc
  rw [get_bind, h]
  rfl

theorem alloc_of_error {purpose : Purpose} {ty : Ty} {n : Int64} {e : AllocError} {g : Generator}
    (h : g.memory.alloc ty segment n = .error e) :
    alloc purpose ty segment n g = .error (.fault (.noRoom purpose e)) g := by
  unfold alloc
  rw [get_bind, h]
  rfl

end Generate

/-- Filling a directory that succeeds copies the template. -/
theorem fillFields_copied {object : Bytes} : (t : Template) → {scope : ScopeId} →
    {path : List Bytes} → {u : Unit} → {g g' : Generator} → scope < g.scopes.size →
    fillFields object segment scope path t g = .ok u g' →
    ∃ m scopes syms ps, g' = { g with memory := m, scopes } ∧ Grows g.scopes scope syms scopes ∧
      Stores segment g.memory ps m ∧
      t.Copied (scopeAt scopes) syms (newIds g.scopes scopes) ps
  | .nil, scope, path, u, g, g', hid, h => by
    obtain ⟨-, rfl⟩ := h
    refine ⟨g.memory, g.scopes, [], [], rfl, .refl _ _, .nil, ?_⟩
    rw [newIds_self rfl]
    exact .nil
  | .variable name ty dims rest, scope, path, u, g, g', hid, h => by
    simp only [fillFields, modifyScope, bind_eq_ok, modify_eq_ok] at h
    obtain ⟨a, g₁, ha, _, _, rfl, h⟩ := h
    obtain ⟨m₁, hm₁, rfl⟩ := alloc_eq_ok ha
    obtain ⟨m, scopes, syms, ps, rfl, hgrows, hstores, hcopied⟩ :=
      fillFields_copied rest (by simpa using hid) h
    refine ⟨m, scopes, fieldSymbol name ty dims a :: syms, ⟨[name], ty, dims, a⟩ :: ps, rfl,
      (Grows.add hid _).trans hid hgrows, .cons hm₁ hstores, .variable ?_⟩
    have hids : newIds g.scopes scopes =
      newIds (g.scopes.modify scope (·.add (fieldSymbol name ty dims a)))
        scopes := by simp [newIds]
    rw [hids]
    exact hcopied
  | .nested name className fields rest, scope, path, u, g, g', hid, h => by
    simp only [fillFields, modifyScope, bind_eq_ok, modify_eq_ok] at h
    obtain ⟨inner, g₁, hinner, _, g₂, hfill, _, _, rfl, h⟩ := h
    obtain ⟨rfl, rfl⟩ := newScope_eq_ok hinner
    obtain ⟨m₁, scopes₁, syms₁, ps₁, rfl, hgrows₁, hstores₁, hcopied₁⟩ :=
      fillFields_copied fields (by simp) hfill
    have hsize₁ := hgrows₁.size
    simp only [Array.size_push] at hsize₁
    have hid₁ : scope < scopes₁.size := Nat.lt_of_lt_of_le hid (Nat.le_of_succ_le hsize₁)
    obtain ⟨m, scopes, syms, ps, rfl, hgrows, hstores, hcopied⟩ :=
      fillFields_copied rest (by simpa using hid₁) h
    have hsize := hgrows.size
    simp only [Array.size_modify] at hsize
    refine ⟨m, scopes, innerSymbol name className fields g.scopes.size :: syms,
      ps₁.map (·.under name) ++ ps, rfl,
      (hgrows₁.instance rfl hid).trans hid ((Grows.add hid₁ _).trans hid₁ hgrows),
      (hstores₁.under name).append hstores, ?_⟩
    -- What follows the inner instance changes the outer directory and makes new ones.
    have hkeep : ∀ id, g.scopes.size ≤ id → id < scopes₁.size →
        scopeAt scopes id = scopeAt scopes₁ id := by
      intro id hge hlt
      have hne : id ≠ scope := Nat.ne_of_gt (Nat.lt_of_lt_of_le hid hge)
      rw [hgrows.others (by simpa using hlt) hne]
      simp [scopeAt_modify, hne]
    have hdirectory : scopeAt scopes g.scopes.size = ⟨name, .object, some name, syms₁⟩ := by
      rw [hkeep _ (Nat.le_refl _) hsize₁, hgrows₁.here]
      simp [scopeAt_push, Scope.empty]
    have hids : newIds g.scopes scopes = g.scopes.size ::
        (newIds (g.scopes.push (Scope.empty name .object (some name))) scopes₁ ++
          newIds (scopes₁.modify scope (·.add (innerSymbol name className fields g.scopes.size)))
            scopes) := by
      have hlast : newIds (scopes₁.modify scope
          (·.add (innerSymbol name className fields g.scopes.size))) scopes = newIds scopes₁
          scopes := by
        simp [newIds]
      rw [hlast, newIds_append (by simpa using hsize₁) hsize, ← newIds_push (by omega)]
    rw [hids]
    refine .nested hdirectory (hcopied₁.congr ?_) hcopied
    intro id hmem
    rw [mem_newIds, Array.size_push] at hmem
    exact hkeep id (Nat.le_of_succ_le hmem.1) hmem.2

/-- Filling a directory fails at the first field that finds no room. The fields in front of it keep
their addresses. -/
theorem fillFields_eq_error {object : Bytes} : (t : Template) → {scope : ScopeId} →
    {path : List Bytes} → {stop : Stop} → {g g' : Generator} → scope < g.scopes.size →
    fillFields object segment scope path t g = .error stop g' →
    ∃ m scopes syms ps inner ty dims rest e,
      t.leaves = ps.map Placement.leaf ++ ⟨inner, ty, dims.map Dim.size⟩ :: rest ∧
      Stores segment g.memory ps m ∧ m.alloc ty segment (Dim.total dims) = .error e ∧
      stop = .fault (.noRoom (.field object (path ++ inner)) e) ∧
      g' = { g with memory := m, scopes } ∧ Grows g.scopes scope syms scopes
  | .nil, scope, path, stop, g, g', hid, h => (pure_eq_error.1 h).elim
  | .variable name ty dims rest, scope, path, stop, g, g', hid, h => by
    rw [fillFields] at h
    cases ha : g.memory.alloc ty segment (Dim.total dims) with
    | error e =>
      rw [bind_of_error (alloc_of_error ha)] at h
      cases h
      exact ⟨g.memory, g.scopes, [], [], [name], ty, dims, rest.leaves, e, rfl, .nil, ha, rfl, rfl,
        .refl _ _⟩
    | ok r =>
      rw [bind_of_ok (alloc_of_ok ha), bind_of_ok (modifyScope_ok _ _ _)] at h
      obtain ⟨m, scopes, syms, ps, inner, ty', dims', rest', e, hleaves, hstores, herror, rfl, rfl,
        hgrows⟩ := fillFields_eq_error rest (by simpa using hid) h
      refine ⟨m, scopes, _, ⟨[name], ty, dims, r.1⟩ :: ps, inner, ty', dims', rest', e, ?_,
        .cons ha hstores, herror, rfl, rfl, (Grows.add hid _).trans hid hgrows⟩
      simp [Template.leaves, hleaves, Placement.leaf]
  | .nested name className fields rest, scope, path, stop, g, g', hid, h => by
    rw [fillFields, bind_of_ok (newScope_ok _ _ _ _), bind_eq_error] at h
    rcases h with h | ⟨u, g₁, hfill, h⟩
    · obtain ⟨m, scopes, syms, ps, inner, ty, dims, rest', e, hleaves, hstores, herror, rfl, rfl,
        hgrows⟩ := fillFields_eq_error fields (by simp) h
      refine ⟨m, scopes, [], ps.map (·.under name), name :: inner, ty, dims,
        rest'.map (Leaf.under name) ++ rest.leaves, e, ?_, hstores.under name, herror, ?_, rfl,
        hgrows.instance rfl hid⟩
      · simp [Template.leaves, hleaves, Function.comp_def, Leaf.under]
      · simp
    · obtain ⟨m₁, scopes₁, syms₁, ps₁, rfl, hgrows₁, hstores₁, hcopied₁⟩ :=
        fillFields_copied fields (by simp) hfill
      have hsize₁ := hgrows₁.size
      simp only [Array.size_push] at hsize₁
      have hid₁ : scope < scopes₁.size := Nat.lt_of_lt_of_le hid (Nat.le_of_succ_le hsize₁)
      obtain ⟨m, scopes, syms, ps, inner, ty, dims, rest', e, hleaves, hstores, herror, rfl, rfl,
        hgrows⟩ := fillFields_eq_error rest (by simpa using hid₁) h
      refine ⟨m, scopes, _, ps₁.map (·.under name) ++ ps, inner, ty, dims, rest', e, ?_,
        (hstores₁.under name).append hstores, herror, rfl, rfl,
        (hgrows₁.instance rfl hid).trans hid ((Grows.add hid₁ _).trans hid₁ hgrows)⟩
      simp [Template.leaves, hleaves, ← hcopied₁.leaves_eq, Function.comp_def]

/-- An instance always comes to an end: it has its directory, or one of its fields finds no room. -/
theorem instantiate_cases (object : Bytes) (fields : Template) (g : Generator) :
    (∃ g', instantiate object fields g = .ok g.scopes.size g') ∨
      ∃ path e g', instantiate object fields g =
        .error (.fault (.noRoom (.field object path) e)) g' := by
  unfold instantiate
  rw [get_bind, bind_of_ok (newScope_ok _ _ _ _)]
  cases hfill : fillFields object g.segment g.scopes.size [] fields
      { g with scopes := g.scopes.push (Scope.empty object .object (some object)) } with
  | ok u g₁ =>
    rw [bind_of_ok hfill]
    exact .inl ⟨g₁, rfl⟩
  | error stop g₁ =>
    obtain ⟨_, _, _, _, path, _, _, _, e, -, -, -, rfl, -, -⟩ :=
      fillFields_eq_error fields (by simp) hfill
    rw [bind_of_error hfill]
    exact .inr ⟨path, e, g₁, rfl⟩

end Quadlang
