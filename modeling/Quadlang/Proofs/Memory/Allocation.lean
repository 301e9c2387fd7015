-- What an allocation takes: addresses of the range of its segment and type, none of which
-- was taken before. The addresses taken only grow, and constants stay where they are.
import Quadlang.Memory.Allocator
import Quadlang.Proofs.Memory.Lookup

namespace Quadlang

variable {n a b : Int64} {segment : Segment} {ty : Ty} {l : Layout} {s : Slot}

/-! ## Machine words -/

theorem toInt_add_of_bounds (h : -0x8000000000000000 ≤ a.toInt + b.toInt)
    (h' : a.toInt + b.toInt < 0x8000000000000000) : (a + b).toInt = a.toInt + b.toInt := by
  rw [Int64.toInt_add]
  exact Int.bmod_eq_of_le (by omega) (by omega)

/-! ## Ranges and blocks -/

/-- An address lies in the range of a segment and type. -/
def Layout.Holds (l : Layout) (segment : Segment) (ty : Ty) (a : Addr) : Prop :=
  ∃ s ∈ l.slots, s.owns segment ty = true ∧ s.contains a = true

instance (l : Layout) (segment : Segment) (ty : Ty) (a : Addr) : Decidable (l.Holds segment ty a) :=
  inferInstanceAs (Decidable (∃ s ∈ l.slots, s.owns segment ty = true ∧ s.contains a = true))

theorem Slot.owns_iff : s.owns segment ty = true ↔ s.segment = segment ∧ s.ty = ty := by simp [owns]

theorem Layout.mem_of_range? (h : l.range? segment ty = some s) :
    s ∈ l.slots ∧ s.segment = segment ∧ s.ty = ty := by
  have howns := List.find?_some h
  exact ⟨List.mem_of_find?_eq_some h, Slot.owns_iff.1 howns⟩

/-- The table finds the range of an address. -/
theorem Layout.Disjoint.locate?_of_holds (h : l.Disjoint) {a : Addr} (ha : l.Holds segment ty a) :
    ∃ s, l.table.locate? a = some s ∧ s.segment = segment ∧ s.ty = ty := by
  obtain ⟨s, hs, howns, hc⟩ := ha
  exact ⟨s, h.locate?_table.2 ⟨hs, hc⟩, Slot.owns_iff.1 howns⟩

/-- An address belongs to one segment and type only. -/
theorem Layout.Disjoint.holds_inj (h : l.Disjoint) {segment' : Segment} {ty' : Ty} {a : Addr}
    (ha : l.Holds segment ty a) (ha' : l.Holds segment' ty' a) : segment = segment' ∧ ty = ty' := by
  obtain ⟨s, hs, howns, hc⟩ := ha
  obtain ⟨t, ht, howns', hc'⟩ := ha'
  obtain rfl := h.eq_of_contains hs ht hc hc'
  obtain ⟨rfl, rfl⟩ := Slot.owns_iff.1 howns
  exact Slot.owns_iff.1 howns'

/-- An address is one of the `n` addresses from `a` on. -/
def InBlock (a : Addr) (n : Int64) (b : Addr) : Prop :=
  a.toInt ≤ b.toInt ∧ b.toInt < a.toInt + n.toInt

/-- What is left of a range, where a word can say it. -/
theorem Region.toInt_left {r : Region} (h : -0x8000000000000000 ≤ r.high.toInt - r.next.toInt + 1)
    (h' : r.high.toInt - r.next.toInt + 1 < 0x8000000000000000) :
    r.left.toInt = r.high.toInt - r.next.toInt + 1 := by
  have h₁ : (1 : Int64).toInt = 1 := rfl
  unfold left
  rw [Int64.toInt_add, Int64.toInt_sub, h₁, Int.bmod_add_bmod]
  exact Int.bmod_eq_of_le (by omega) (by omega)

/-! ## Memories -/

namespace Memory

variable {m m' : Memory} {r r' : Region} {segment : Segment} {ty : Ty} {a : Addr} {v : Value}

/-- An address of a segment and type is taken. -/
def Taken (m : Memory) (segment : Segment) (ty : Ty) (a : Addr) : Prop :=
  ∃ r ∈ m.regions, r.owns segment ty = true ∧ r.low.toInt ≤ a.toInt ∧ a.toInt < r.next.toInt

/-- The cursors of a memory stand in their ranges or right behind them, and each constant has
an address of its own. -/
structure Valid (m : Memory) : Prop where
  disjoint : m.layout.Disjoint
  small : ∀ r ∈ m.regions, 0 ≤ r.low.toInt ∧ r.high.toInt < 0x4000000000000000
  cursors : ∀ r ∈ m.regions, r.low.toInt ≤ r.next.toInt ∧ r.next.toInt ≤ r.high.toInt + 1
  constants : ∀ c ∈ m.constants, m.Taken .globals c.ty c.address
  distinct : m.constants.Pairwise fun c d => c.address ≠ d.address

theorem ofLayout_standard_valid : (ofLayout Layout.standard).Valid where
  disjoint := by rw [layout_ofLayout]; exact Layout.standard_disjoint
  small := by decide +kernel
  cursors := by decide +kernel
  constants := by simp [ofLayout]
  distinct := by simp [ofLayout]

theorem mem_layout (h : r ∈ m.regions) : r.toSlot ∈ m.layout.slots :=
  List.mem_map_of_mem h

theorem Valid.holds_of_taken (hm : m.Valid) (h : m.Taken segment ty a) :
    m.layout.Holds segment ty a := by
  obtain ⟨r, hr, howns, hlow, hnext⟩ := h
  have := hm.cursors r hr
  exact ⟨r.toSlot, mem_layout hr, howns, Slot.contains_iff.2 ⟨hlow, by omega⟩⟩

/-- A memory after more allocations. -/
structure Extends (m m' : Memory) : Prop where
  layout : m'.layout = m.layout
  taken : ∀ {segment ty a}, m.Taken segment ty a → m'.Taken segment ty a
  constants : ∃ new, m'.constants = new ++ m.constants

theorem Extends.refl (m : Memory) : m.Extends m := ⟨rfl, id, [], rfl⟩

theorem Extends.trans {m'' : Memory} (h : m.Extends m') (h' : m'.Extends m'') : m.Extends m'' := by
  obtain ⟨new, hnew⟩ := h.constants
  obtain ⟨new', hnew'⟩ := h'.constants
  refine ⟨h'.layout.trans h.layout, fun ht => h'.taken (h.taken ht), new' ++ new, ?_⟩
  rw [hnew', hnew, List.append_assoc]

/-! ## Allocation -/

/-- A successful allocation finds its range with enough room and moves the cursor. -/
theorem alloc_eq_ok_iff :
    m.alloc ty segment n = .ok (a, m') ↔
      ∃ r, m.region? segment ty = some r ∧ 1 ≤ n ∧ n ≤ r.left ∧ a = r.next ∧
        m' = m.advance segment ty n := by
  unfold alloc
  cases m.region? segment ty with
  | none => simp
  | some r =>
    simp only [Option.some.injEq, exists_eq_left']
    split
    · rename_i h
      simp [Int64.not_le.2 h]
    · rename_i h
      split
      · rename_i h'
        simp [Int64.not_le.2 h']
      · rename_i h'
        simp only [Except.ok.injEq, Prod.mk.injEq, Int64.not_lt.1 h, Int64.not_lt.1 h', true_and]
        constructor
        · rintro ⟨rfl, rfl⟩
          exact ⟨rfl, rfl⟩
        · rintro ⟨rfl, rfl⟩
          exact ⟨rfl, rfl⟩

theorem constants_alloc (h : m.alloc ty segment n = .ok (a, m')) : m'.constants = m.constants := by
  obtain ⟨r, -, -, -, -, rfl⟩ := alloc_eq_ok_iff.1 h
  rfl

theorem mem_of_region? (h : m.region? segment ty = some r) :
    r ∈ m.regions ∧ r.owns segment ty = true := by
  have howns := List.find?_some h
  exact ⟨List.mem_of_find?_eq_some h, howns⟩

theorem region_eq (h : m.layout.Disjoint) (hr : r ∈ m.regions) (hr' : r' ∈ m.regions)
    (heq : r.toSlot = r'.toSlot) : r = r' :=
  List.inj_on_of_nodup_map h.nodup hr hr' heq

theorem region_eq_of_owns (h : m.layout.Disjoint) (hr : r ∈ m.regions) (hr' : r' ∈ m.regions)
    (howns : r.owns segment ty = true) (howns' : r'.owns segment ty = true) : r = r' := by
  rw [Slot.owns_iff] at howns howns'
  exact region_eq h hr hr' (h.eq_of_owner (mem_layout hr) (mem_layout hr')
    (howns.1.trans howns'.1.symm) (howns.2.trans howns'.2.symm))

theorem mem_advance (h : m.layout.Disjoint) (hr : m.region? segment ty = some r) :
    r' ∈ (m.advance segment ty n).regions ↔
      r' = { r with next := r.next + n } ∨ r' ∈ m.regions ∧ r'.owns segment ty = false := by
  obtain ⟨hmem, howns⟩ := mem_of_region? hr
  simp only [advance, List.mem_map]
  constructor
  · rintro ⟨r₀, hr₀, rfl⟩
    cases h₀ : r₀.owns segment ty with
    | true => exact .inl (by rw [if_pos rfl, region_eq_of_owns h hr₀ hmem h₀ howns])
    | false => exact .inr ⟨hr₀, h₀⟩
  · rintro (rfl | ⟨hr', h₀⟩)
    · exact ⟨r, hmem, if_pos howns⟩
    · exact ⟨r', hr', by simp [h₀]⟩

/-- What an allocation gives, for a memory whose cursors stand right. -/
structure Allocated (m : Memory) (segment : Segment) (ty : Ty) (n : Int64) (a : Addr)
    (m' : Memory) : Prop where
  positive : 1 ≤ n.toInt
  holds : ∀ {b}, InBlock a n b → m.layout.Holds segment ty b
  fresh : ∀ {b}, InBlock a n b → ¬ m.Taken segment ty b
  taken : ∀ {segment' ty' b}, m'.Taken segment' ty' b ↔
    m.Taken segment' ty' b ∨ segment' = segment ∧ ty' = ty ∧ InBlock a n b
  layout : m'.layout = m.layout
  constants : m'.constants = m.constants
  valid : m'.Valid

theorem Valid.alloc (hm : m.Valid) (h : m.alloc ty segment n = .ok (a, m')) :
    Allocated m segment ty n a m' := by
  obtain ⟨r, hr, hn, hleft, rfl, rfl⟩ := alloc_eq_ok_iff.1 h
  obtain ⟨hmem, howns⟩ := mem_of_region? hr
  have hsmall := hm.small r hmem
  have hcursor := hm.cursors r hmem
  have h₁ : (1 : Int64).toInt = 1 := rfl
  rw [Int64.le_iff_toInt_le, h₁] at hn
  rw [Int64.le_iff_toInt_le, Region.toInt_left (by omega) (by omega)] at hleft
  have hnext : (r.next + n).toInt = r.next.toInt + n.toInt :=
    toInt_add_of_bounds (by omega) (by omega)
  have htaken : ∀ {segment' ty' b}, (m.advance segment ty n).Taken segment' ty' b ↔
      m.Taken segment' ty' b ∨ segment' = segment ∧ ty' = ty ∧ InBlock r.next n b := by
    intro segment' ty' b
    constructor
    · rintro ⟨r', hr', howns', hlow, hnext'⟩
      rcases (mem_advance hm.disjoint hr).1 hr' with rfl | ⟨hr', -⟩
      · by_cases hb : b.toInt < r.next.toInt
        · exact .inl ⟨r, hmem, howns', hlow, hb⟩
        · obtain ⟨rfl, rfl⟩ := Slot.owns_iff.1 howns
          obtain ⟨rfl, rfl⟩ := Slot.owns_iff.1 howns'
          exact .inr ⟨rfl, rfl, by omega, hnext ▸ hnext'⟩
      · exact .inl ⟨r', hr', howns', hlow, hnext'⟩
    · rintro (⟨r', hr', howns', hlow, hnext'⟩ | ⟨rfl, rfl, hb, hb'⟩)
      · cases h₀ : r'.owns segment ty with
        | true =>
          obtain rfl := region_eq_of_owns hm.disjoint hr' hmem h₀ howns
          exact ⟨_, (mem_advance hm.disjoint hr).2 (.inl rfl), howns', hlow, hnext ▸ (by omega)⟩
        | false => exact ⟨r', (mem_advance hm.disjoint hr).2 (.inr ⟨hr', h₀⟩), howns', hlow, hnext'⟩
      · exact ⟨_, (mem_advance hm.disjoint hr).2 (.inl rfl), howns, Int.le_trans hcursor.1 hb,
          hnext ▸ hb'⟩
  refine ⟨hn, ?_, ?_, htaken, layout_advance .., rfl, ?_⟩
  · rintro b ⟨hb, hb'⟩
    exact ⟨r.toSlot, mem_layout hmem, howns, Slot.contains_iff.2 ⟨by omega, by omega⟩⟩
  · rintro b ⟨hb, hb'⟩ ⟨r', hr', howns', hlow, hnext'⟩
    obtain rfl := region_eq_of_owns hm.disjoint hr' hmem howns' howns
    omega
  · refine ⟨by rw [layout_advance]; exact hm.disjoint, ?_, ?_, ?_, hm.distinct⟩
    · intro r' hr'
      rcases (mem_advance hm.disjoint hr).1 hr' with rfl | ⟨hr', -⟩
      · exact hsmall
      · exact hm.small r' hr'
    · intro r' hr'
      rcases (mem_advance hm.disjoint hr).1 hr' with rfl | ⟨hr', -⟩
      · show r.low.toInt ≤ (r.next + n).toInt ∧ (r.next + n).toInt ≤ r.high.toInt + 1
        omega
      · exact hm.cursors r' hr'
    · intro c hc
      exact htaken.2 (.inl (hm.constants c hc))

theorem Allocated.extends (h : Allocated m segment ty n a m') : m.Extends m' :=
  ⟨h.layout, fun ht => h.taken.2 (.inl ht), [], h.constants⟩

theorem Allocated.first (h : Allocated m segment ty n a m') : InBlock a n a := by
  have := h.positive
  exact ⟨Int.le_refl _, by omega⟩

/-! ## Constants -/

/-- A constant is one that is there already, or takes a new address. -/
theorem intern_eq_ok_cases (h : m.intern ty v = .ok (a, m')) :
    (∃ c ∈ m.constants, c.ty = ty ∧ c.value.same v = true ∧ c.address = a ∧ m' = m) ∨
      ∃ m₁, m.alloc ty .globals 1 = .ok (a, m₁) ∧
        m' = { m₁ with constants := ⟨ty, v, a⟩ :: m₁.constants } := by
  unfold intern at h
  cases hc : m.constant? ty v with
  | some b =>
    simp only [hc, Except.ok.injEq, Prod.mk.injEq] at h
    obtain ⟨rfl, rfl⟩ := h
    obtain ⟨c, hfind, rfl⟩ := Option.map_eq_some_iff.1 hc
    have hsame := List.find?_some hfind
    simp only [Bool.and_eq_true, decide_eq_true_eq] at hsame
    exact .inl ⟨c, List.mem_of_find?_eq_some hfind, hsame.1, hsame.2, rfl, rfl⟩
  | none =>
    simp only [hc] at h
    cases ha : m.alloc ty .globals 1 with
    | error e => simp [ha] at h
    | ok r =>
      obtain ⟨b, m₁⟩ := r
      simp only [ha, Except.ok.injEq, Prod.mk.injEq] at h
      obtain ⟨rfl, rfl⟩ := h
      exact .inr ⟨m₁, rfl, rfl⟩

/-- A constant is in the memory afterwards, at an address of its own. -/
theorem Valid.intern (hm : m.Valid) (h : m.intern ty v = .ok (a, m')) :
    m'.Valid ∧ m.Extends m' ∧ (∀ {segment' ty' b}, segment' ≠ .globals →
      m'.Taken segment' ty' b → m.Taken segment' ty' b) ∧
      (∃ c ∈ m'.constants, c.ty = ty ∧ c.address = a ∧ (c.value.same v = true ∨ c.value = v)) ∧
      ∀ c ∈ m'.constants, c ∈ m.constants ∨ c = ⟨ty, v, a⟩ := by
  rcases intern_eq_ok_cases h with ⟨c, hc, hty, hsame, ha, rfl⟩ | ⟨m₁, ha, rfl⟩
  · exact ⟨hm, .refl _, fun _ h => h, ⟨c, hc, hty, ha, .inl hsame⟩, fun c hc => .inl hc⟩
  · have halloc := hm.alloc ha
    have hvalid := halloc.valid
    refine ⟨⟨hvalid.disjoint, hvalid.small, hvalid.cursors, ?_, ?_⟩, ?_, ?_, ?_, ?_⟩
    · intro c hc
      rcases List.mem_cons.1 hc with rfl | hc
      · exact halloc.taken.2 (.inr ⟨rfl, rfl, halloc.first⟩)
      · exact hvalid.constants c hc
    · refine List.pairwise_cons.2 ⟨?_, hvalid.distinct⟩
      rintro c hc rfl
      rw [halloc.constants] at hc
      have htaken := hm.constants c hc
      obtain ⟨-, rfl⟩ := hm.disjoint.holds_inj (hm.holds_of_taken htaken)
        (halloc.holds halloc.first)
      exact halloc.fresh halloc.first htaken
    · refine ⟨halloc.layout, fun ht => halloc.taken.2 (.inl ht), [⟨ty, v, a⟩], ?_⟩
      rw [halloc.constants]
      rfl
    · intro segment' ty' b hne ht
      rcases halloc.taken.1 ht with ht | ⟨rfl, -, -⟩
      · exact ht
      · exact absurd rfl hne
    · exact ⟨_, List.mem_cons_self .., rfl, rfl, .inr rfl⟩
    · intro c hc
      rcases List.mem_cons.1 hc with rfl | hc
      · exact .inr rfl
      · exact .inl (by rwa [halloc.constants] at hc)

/-- The cells of a memory hold its constants and nothing else. -/
theorem getElem?_values (hdistinct : m.constants.Pairwise fun c d => c.address ≠ d.address) :
    m.values[a]? = some v ↔ ∃ c ∈ m.constants, c.address = a ∧ c.value = v := by
  unfold values
  generalize m.constants = cs at hdistinct ⊢
  induction cs with
  | nil => simp [Cells.empty]
  | cons c cs ih =>
    obtain ⟨hc, hcs⟩ := List.pairwise_cons.1 hdistinct
    rw [List.foldr_cons, Cells.getElem?_write]
    split
    · rename_i ha
      subst ha
      constructor
      · intro h
        exact ⟨c, List.mem_cons_self .., rfl, Option.some.inj h⟩
      · rintro ⟨d, hd, hda, rfl⟩
        rcases List.mem_cons.1 hd with rfl | hd
        · rfl
        · exact absurd hda.symm (hc d hd)
    · rename_i ha
      refine (ih hcs).trans ?_
      constructor
      · rintro ⟨d, hd, h⟩
        exact ⟨d, List.mem_cons_of_mem _ hd, h⟩
      · rintro ⟨d, hd, hda, hv⟩
        rcases List.mem_cons.1 hd with rfl | hd
        · exact absurd hda ha
        · exact ⟨d, hd, hda, hv⟩

end Memory

end Quadlang
