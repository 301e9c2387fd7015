-- Compiled programs are charted: every instruction behind the first fits its place, every
-- temporary is filled by one instruction only, and the constants are of the types of their
-- addresses.
import Quadlang.Proofs.Generator.Outline
import Quadlang.Proofs.Program.Fitting
import Quadlang.Proofs.Value.Types

namespace Quadlang

open Source

variable {p : Program} {code : List Quad} {fs : List (Callee × List Param)} {rs : List Routine}
  {m : Memory} {t : Tree} {b : Assembly}

/-- Instructions that fit their places. The first one is never executed: a program begins where
it jumps to. -/
structure Chart (quads : List Quad) : Prop where
  head : ∃ target, quads[0]? = some (jumpQuad target)
  fits : ∀ i q, 1 ≤ i → quads[i]? = some q → Fits quads i q
  once : quads.Pairwise fun q q' => ∀ a, q.Fills a → ¬ q'.Fills a

/-- A program whose instructions all fit their places. -/
structure Charted (p : Program) : Prop where
  layout : p.layout = Layout.standard
  chart : Chart p.quads.toList
  entry : ∃ e : Nat, p.entry = e ∧ Clear p.quads.toList e ∧ owner p.quads.toList e = none
  consts : ∀ a v, p.consts[a]? = some v → ∃ ty, Layout.standard.Holds .globals ty a ∧ v.HasType ty
  /-- What is read of the addresses of constants is a constant. -/
  known : ∀ q ∈ p.quads.toList, ∀ o ∈ q.sources, o.kind = .address →
    ∀ ty, Layout.standard.Holds .globals ty o.word → ∃ v, p.consts[o.word]? = some v

section

variable {quads : List Quad}

theorem Chart.fits_of_mem (h : Chart quads) {q : Quad} (hq : q ∈ quads) (hop : q.op ≠ .goto) :
    ∃ i, quads[i]? = some q ∧ Fits quads i q := by
  obtain ⟨i, hi⟩ := List.mem_iff_getElem?.1 hq
  cases i with
  | zero =>
    obtain ⟨target, hhead⟩ := h.head
    rw [hhead] at hi
    cases hi
    exact absurd rfl hop
  | succ i => exact ⟨i + 1, hi, h.fits _ q (Nat.le_add_left ..) hi⟩

/-- Two instructions that fill one temporary are one instruction. -/
theorem Chart.eq_of_fills (h : Chart quads) {q q' : Quad} (hq : q ∈ quads) (hq' : q' ∈ quads)
    {a : Addr} (hfill : q.Fills a) (hfill' : q'.Fills a) : q = q' := by
  obtain ⟨i, hi, rfl⟩ := List.mem_iff_getElem.1 hq
  obtain ⟨j, hj, rfl⟩ := List.mem_iff_getElem.1 hq'
  have honce := List.pairwise_iff_getElem.1 h.once
  rcases Nat.lt_trichotomy i j with hij | rfl | hij
  · exact absurd hfill' (honce i j hi hj hij a hfill)
  · rfl
  · exact absurd hfill (honce j i hj hi hij a hfill')

/-- Pointers to elements are integers in temporaries. -/
theorem Chart.holds_pointer (h : Chart quads) {n : Nat} {base p : Addr}
    (hq : elementQuad n base p ∈ quads) : Layout.standard.Holds .temps .int p := by
  obtain ⟨i, -, hfits⟩ := h.fits_of_mem hq (by simp [elementQuad])
  generalize hquad : elementQuad n base p = q at hfits
  have hop := congrArg Quad.op hquad
  cases hfits with
  | @binary op => cases op <;> cases hop
  | @unary op => cases op <;> cases hop
  | element _ _ _ _ _ hp =>
    obtain rfl := Operand.cell_inj (congrArg Quad.res hquad)
    exact hp
  | _ => cases hop

end

/-! ## Routines -/

variable {P : Ty → Value → Prop} {quads : List Quad}

theorem Placed.length_le {base : Nat} (h : Placed quads base code) (hne : code ≠ []) :
    base + code.length ≤ quads.length := by
  have hpos : 0 < code.length := List.length_pos_iff.2 hne
  have hlt : code.length - 1 < code.length := by omega
  obtain ⟨hi, -⟩ := List.getElem?_eq_some_iff.1 (h _ _ (List.getElem?_eq_getElem hlt))
  omega

theorem Routine.Compiled.closed {r : Routine} {start : Nat} (h : r.Compiled P fs start) :
    Closed r.after r.quads :=
  (h.code.closed h.ready).plain rfl rfl

/-- The body of a routine, and where calls of it enter. -/
theorem Routine.Compiled.placed {r : Routine} {start : Nat} (h : r.Compiled P fs start)
    (hstart : 1 ≤ start) (hplaced : Placed quads start r.quads) (hidle : standing quads start = {})
    (hcontained : SelfContained quads (start + r.quads.length)) :
    Piece quads (some r.callee.address) start r.code ∧ Clear quads (start + r.code.length) ∧
      Entry quads r.callee := by
  have hlength := hplaced.length_le (by simp [Routine.quads])
  unfold Routine.quads at hplaced hlength hcontained
  rw [List.length_append, List.length_singleton] at hlength hcontained
  obtain ⟨hcode, hleave⟩ := hplaced.append
  have howner : owner quads (start + r.code.length) = some r.callee.address := by
    rw [owner_leave hleave.head rfl]
    simp [Callee.leave]
  have hall : ∀ k ≤ r.code.length, owner quads (start + k) = some r.callee.address := by
    intro k hk
    rw [hcode.owner h.growth.stays hk, ← hcode.owner h.growth.stays (Nat.le_refl _), howner]
  have hclear : Clear quads (start + r.code.length) := by
    refine ⟨by omega, by omega, ?_, ?_, ?_⟩
    · rw [hcode.standing, h.code.neutral, hidle]
    · intro q hq
      rw [hleave.head] at hq
      obtain rfl := Option.some.inj hq
      rintro ⟨hop, -⟩
      cases hop
    · rw [← Nat.add_assoc] at hcontained
      exact hcontained.back hleave ((closed_nil r.after).plain rfl rfl)
  have hfirst := h.code.clear h.ready hcode hstart hclear
  refine ⟨⟨hcode, hall⟩, hclear, ?_, ?_⟩
  · rw [h.target]
    exact hfirst
  · rw [h.target]
    exact hall 0 (Nat.zero_le _)

section

variable (h : Outline P rs code m)

include h

theorem Outline.neutral (s : Standing) : code.foldl Standing.after s = s := by
  induction h with
  | start => rfl
  | gap _ _ _ ih => exact ih
  | routine _ hr ih =>
    simp only [Routine.quads, List.foldl_append, ih, hr.code.neutral]
    rfl

section

variable (hplaced : Placed quads 1 code) (hidle : standing quads 1 = {})
  (hcontained : SelfContained quads (1 + code.length))

include hplaced hidle hcontained

theorem Outline.entries : ∀ f ∈ rs.map Routine.known, Entry quads f.1 := by
  induction h with
  | start => simp
  | gap _ _ _ ih => exact ih hplaced hcontained
  | @routine rs code r ho hr ih =>
    obtain ⟨hbefore, hlast⟩ := hplaced.append
    rw [List.length_append, ← Nat.add_assoc] at hcontained
    have hstanding := hbefore.standing
    rw [ho.neutral, hidle] at hstanding
    intro f hf
    rw [List.map_append, List.mem_append] at hf
    rcases hf with hf | hf
    · exact ih hbefore (hcontained.back hlast hr.closed) f hf
    · obtain rfl := List.mem_singleton.1 hf
      exact (hr.placed (Nat.le_add_right ..) hlast hstanding hcontained).2.2

theorem Outline.fits : AllFit quads 1 code := by
  induction h with
  | start => exact allFit_nil
  | gap _ _ _ ih => exact ih hplaced hcontained
  | @routine rs code r ho hr ih =>
    have hentries := (Outline.routine ho hr).entries hplaced hidle hcontained
    rw [List.length_append, ← Nat.add_assoc] at hcontained
    obtain ⟨hbefore, hlast⟩ := hplaced.append
    have hstanding := hbefore.standing
    rw [ho.neutral, hidle] at hstanding
    obtain ⟨hpiece, hclear, -⟩ := hr.placed (Nat.le_add_right ..) hlast hstanding hcontained
    have hslot : Layout.standard.Holds .stack r.callee.ty r.callee.address :=
      hr.ready.holds (hr.ready.functions r.known (by simp)).slot
    have hbody := hr.code.fits hr.ready (by simpa using hentries)
      (by rintro f hf; obtain rfl := Option.some.inj hf; exact ⟨rfl, hslot⟩) (fun _ => rfl)
      (Nat.le_add_right ..) hclear hpiece
    have howner : owner quads (1 + code.length + r.code.length) = some r.callee.address :=
      hpiece.owner _ (Nat.le_refl _)
    exact (ih hbefore (hcontained.back hlast hr.closed)).append
      (hbody.append (.cons (.leave howner hclear) allFit_nil))

end

/-- The routines of a program fill temporaries of their own. -/
theorem Outline.growth :
    (code.Pairwise fun q q' => ∀ a, q.Fills a → ¬ q'.Fills a) ∧
      (∀ q ∈ code, ∀ a, q.Fills a → ∃ ty, m.Taken .temps ty a) ∧ ∀ c ∈ m.constants,
        P c.ty c.value := by
  induction h with
  | start hnone => exact ⟨.nil, by simp, by simp [hnone]⟩
  | gap _ hext hconsts ih =>
    refine ⟨ih.1, ?_, by rw [hconsts]; exact ih.2.2⟩
    intro q hq a hfill
    obtain ⟨ty, htaken⟩ := ih.2.1 q hq a hfill
    exact ⟨ty, hext.taken htaken⟩
  | @routine rs code r ho hr ih =>
    have hgrowth := hr.growth
    have hleave : ∀ a, ¬ r.callee.leave.Fills a := by
      rintro a ⟨hstores, -⟩
      cases hstores
    obtain ⟨honce, htaken, hconsts⟩ := ih
    refine ⟨List.pairwise_append.2 ⟨honce, List.pairwise_append.2 ⟨hgrowth.once,
      List.pairwise_singleton .., ?_⟩, ?_⟩, ?_, hgrowth.constants hconsts⟩
    · intro q _ q' hq' a _
      obtain rfl := List.mem_singleton.1 hq'
      exact hleave a
    · intro q hq q' hq' a hfill hfill'
      obtain ⟨ty, ht⟩ := htaken q hq a hfill
      rcases List.mem_append.1 hq' with hq' | hq'
      · exact hgrowth.new q' hq' a hfill' ty ht
      · obtain rfl := List.mem_singleton.1 hq'
        exact hleave a hfill'
    · intro q hq a hfill
      rcases List.mem_append.1 hq with hq | hq
      · obtain ⟨ty, ht⟩ := htaken q hq a hfill
        exact ⟨ty, hgrowth.memory.taken ht⟩
      · rcases List.mem_append.1 hq with hq | hq
        · exact hgrowth.taken q hq a hfill
        · obtain rfl := List.mem_singleton.1 hq
          exact absurd hfill (hleave a)

theorem Outline.known : ∀ q ∈ code, ∀ o ∈ q.sources, o.KnownTo m := by
  induction h with
  | start => simp
  | gap _ hext _ ih => exact fun q hq o ho => (ih q hq o ho).mono hext
  | routine _ hr ih =>
    intro q hq o ho
    rcases List.mem_append.1 hq with hq | hq
    · exact (ih q hq o ho).mono hr.growth.memory
    · exact hr.closed.known q hq o ho

end

/-! ## Programs -/

theorem owner_length (quads : List Quad) : owner quads quads.length = none := by simp [owner]

theorem Assembly.Of.length_quads (h : b.Of P t p) :
    p.quads.toList.length = 1 + b.code.length + b.main.length := by
  rw [h.quads, List.length_append, List.length_cons]
  omega

/-- The routines stand behind the first instruction, and the main body behind them. -/
theorem Assembly.Of.placed (h : b.Of P t p) :
    Placed p.quads.toList 1 b.code ∧ Placed p.quads.toList (1 + b.code.length) b.main := by
  apply Placed.append
  rw [h.quads, List.cons_append, ← List.singleton_append, ← List.append_nil (_ ++ _)]
  exact Placed.of_append [_] (b.code ++ b.main) []

/-- The main body belongs to no function. -/
theorem Assembly.Of.owner_main (h : b.Of P t p) {k : Nat} (hk : k ≤ b.main.length) :
    owner p.quads.toList (1 + b.code.length + k) = none := by
  have hmain := h.placed.2
  rw [hmain.owner h.growth.stays hk, ← hmain.owner h.growth.stays (Nat.le_refl _), ← h.length_quads,
    owner_length]

theorem Assembly.Of.constant {t : Tree} {p : Program} {b : Assembly} (h : b.Of P t p) {a : Addr}
    {v : Value} (hv : p.consts[a]? = some v) : ∃ ty, Layout.standard.Holds .globals ty a ∧
      P ty v := by
  have hgrowth := h.growth
  obtain ⟨-, -, hconsts⟩ := h.outline.growth
  rw [h.consts, Memory.getElem?_values hgrowth.valid.distinct] at hv
  obtain ⟨c, hc, rfl, rfl⟩ := hv
  refine ⟨c.ty, ?_, hgrowth.constants hconsts c hc⟩
  rw [← h.ready.layout, ← hgrowth.memory.layout]
  exact hgrowth.valid.holds_of_taken (hgrowth.valid.constants c hc)

/-- A run begins with the main body. -/
theorem Assembly.Of.entry (h : b.Of P t p) : p.entry = (1 + b.code.length : Nat) := by
  have hfirst : p.quads[0]? = some (jumpQuad (1 + b.code.length)) := by
    rw [← Array.getElem?_toList, h.quads]
    rfl
  unfold Program.entry
  rw [hfirst]
  simp [jumpQuad, Operand.label]

/-- A program put together from the code of a tree is charted, if its constants are of the
types that they are written with. -/
theorem Assembly.Of.charted (h : b.Of P t p) (hP : ∀ {ty v}, P ty v → v.HasType ty) :
    Charted p := by
  have hquads := h.quads
  rw [List.cons_append] at hquads
  have hlength := h.length_quads
  have hidle : standing p.quads.toList 1 = {} := by
    rw [hquads]
    rfl
  obtain ⟨hroutines, hmain⟩ := h.placed
  have hgrowth := h.growth
  have howner : ∀ k ≤ b.main.length, owner p.quads.toList (1 + b.code.length + k) = none :=
    fun k hk => h.owner_main hk
  have hend : Clear p.quads.toList (1 + b.code.length + b.main.length) := by
    refine ⟨by omega, by omega, ?_, ?_, ?_⟩
    · rw [hmain.standing, h.body.neutral, hroutines.standing, h.outline.neutral, hidle]
    · intro q hq
      rw [← hlength, List.getElem?_eq_none (Nat.le_refl _)] at hq
      cases hq
    · intro k q hk hq
      rw [List.getElem?_eq_none (by omega)] at hq
      cases hq
  have hentry := h.body.clear h.ready hmain (Nat.le_add_right ..) hend
  have hfits := (h.outline.fits hroutines hidle hentry.contained).append (h.body.fits h.ready
    (h.outline.entries hroutines hidle hentry.contained) (by simp) (by simp)
    (Nat.le_add_right ..) hend
    ⟨hmain, howner⟩)
  obtain ⟨honce, htaken, -⟩ := h.outline.growth
  refine ⟨h.layout, ⟨⟨_, by rw [hquads]; rfl⟩, ?_, ?_⟩,
    ⟨1 + b.code.length, ?_, hentry, howner 0 (Nat.zero_le _)⟩, ?_, ?_⟩
  · intro i q hi hq
    obtain ⟨k, rfl⟩ := Nat.exists_eq_add_of_le hi
    apply hfits
    rw [hquads, Nat.add_comm 1 k, List.getElem?_cons_succ] at hq
    exact hq
  · rw [hquads]
    refine List.pairwise_cons.2 ⟨?_, List.pairwise_append.2 ⟨honce, hgrowth.once, ?_⟩⟩
    · intro q _ a hfill
      cases hfill.1
    · intro q hq q' hq' a hfill hfill'
      obtain ⟨ty, ht⟩ := htaken q hq a hfill
      exact hgrowth.new q' hq' a hfill' ty ht
  · exact h.entry
  · intro a v hv
    obtain ⟨ty, ha, hv⟩ := h.constant hv
    exact ⟨ty, ha, hP hv⟩
  · intro q hq o ho hkind ty hholds
    have hknown : o.KnownTo b.after := by
      rw [hquads] at hq
      rcases List.mem_cons.1 hq with rfl | hq
      · simp [jumpQuad, Quad.sources] at ho
      · rcases List.mem_append.1 hq with hq | hq
        · exact (h.outline.known q hq o ho).mono hgrowth.memory
        · exact (h.body.closed h.ready).known q hq o ho
    obtain ⟨c, hc, haddress⟩ := hknown hkind ty hholds
    refine ⟨c.value, ?_⟩
    rw [h.consts, Memory.getElem?_values hgrowth.valid.distinct]
    exact ⟨c, hc, haddress, rfl⟩

theorem constant?_hasType {t : Token} {ty : Ty} {v : Value} (h : constant? t = some (ty, v)) :
    v.HasType ty := by
  unfold constant? at h
  split at h
  · obtain ⟨n, -, hn⟩ := Option.map_eq_some_iff.1 h
    cases hn
    rfl
  · obtain ⟨x, -, hx⟩ := Option.map_eq_some_iff.1 h
    cases hx
    rfl
  · split at h
    · cases h
      rfl
    · cases h
  · cases h
    rfl
  · split at h
    · cases h
      rfl
    · split at h
      · cases h
        rfl
      · cases h
  · cases h

/-- Every program that a text compiles to is charted. -/
theorem compile_charted {text : Bytes} (h : compile text = .ok p) : Charted p := by
  obtain ⟨-, t, -, -, hread⟩ := compile_spelled h
  have hlit : t.Literals fun ty v => (v.convert ty).HasType ty := by
    refine hread.literals h ?_
    intro _ _ t _ ty v hconst
    have hty := constant?_hasType hconst
    rw [Value.convert_eq_self hty]
    exact hty
  obtain ⟨b, -, hb⟩ := hread.assembled h (fun ty v => v.HasType ty) hlit
  exact hb.charted id

/-- The ranges of the standard layout are in order as they are. -/
theorem Layout.standard_table : Layout.standard.table = ⟨Layout.standard.slots.toArray⟩ := by
  unfold Layout.table
  rw [List.mergeSort_of_pairwise (by decide)]

/-- A text that compiles to a program with a property. -/
theorem exists_compiled {text : Bytes} {check : Program → Bool}
    (h : (compile text).toOption.any check = true) :
    ∃ p, compile text = .ok p ∧ check p = true := by
  cases hcompile : compile text with
  | error e =>
    rw [hcompile] at h
    cases h
  | ok p =>
    rw [hcompile] at h
    exact ⟨p, rfl, h⟩

end Quadlang
