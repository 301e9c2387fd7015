-- Blocks of addresses in any layout whose ranges do not overlap: an allocation takes a block
-- behind all blocks of its range, also when the cursor of a range wraps around.
import Mathlib.Data.List.Perm.Subperm
import Quadlang.Proofs.Memory.Allocation

namespace Quadlang

/-! ## Blocks -/

/-- Addresses in a row, for values of one type. -/
structure Block where
  ty : Ty
  first : Addr
  size : Int64
  deriving DecidableEq, Repr

namespace Block

/-- The integer behind the last address. -/
def stop (b : Block) : Int := b.first.toInt + b.size.toInt

/-- No address is in both blocks. -/
def Apart (b c : Block) : Prop := b.stop ≤ c.first.toInt ∨ c.stop ≤ b.first.toInt

instance (b c : Block) : Decidable (b.Apart c) :=
  inferInstanceAs (Decidable (b.stop ≤ c.first.toInt ∨ c.stop ≤ b.first.toInt))

theorem Apart.symm {b c : Block} (h : b.Apart c) : c.Apart b := Or.symm h

end Block

def Constant.block (c : Constant) : Block := ⟨c.ty, c.address, 1⟩

/-- A block is not empty and lies wholly inside the range of a segment and of its type. -/
def Layout.Keeps (l : Layout) (segment : Segment) (b : Block) : Prop :=
  1 ≤ b.size.toInt ∧ ∃ s, l.range? segment b.ty = some s ∧
    s.low.toInt ≤ b.first.toInt ∧ b.stop ≤ s.high.toInt + 1

theorem Layout.Keeps.holds {l : Layout} {segment : Segment} {b : Block} (h : l.Keeps segment b) :
    l.Holds segment b.ty b.first := by
  obtain ⟨hsize, s, hs, hlow, hstop⟩ := h
  obtain ⟨hmem, howner⟩ := mem_of_range? hs
  unfold Block.stop at hstop
  exact ⟨s, hmem, Slot.owns_iff.2 howner, Slot.contains_iff.2 ⟨hlow, by omega⟩⟩

/-! ## Cursors -/

namespace Region

/-- The integer behind the last address taken. A range that ends at the largest address has no
such address when it is full. -/
def free (r : Region) : Int := if r.next = r.high + 1 then r.high.toInt + 1 else r.next.toInt

/-- The cursor stands in the range or right behind it. -/
def Sound (r : Region) : Prop := r.low ≤ r.next ∧ r.next ≤ r.high ∨ r.next = r.high + 1

theorem Sound.free_le {r : Region} (h : r.Sound) : r.free ≤ r.high.toInt + 1 := by
  unfold free
  split
  · exact Int.le_refl _
  · rename_i hne
    obtain ⟨-, hhigh⟩ := h.resolve_right hne
    rw [Int64.le_iff_toInt_le] at hhigh
    omega

theorem left_of_full {r : Region} (h : r.next = r.high + 1) : r.left = 0 := by
  unfold left
  grind

/-- A word wraps around at most once when it is a sum or difference of two. -/
theorem bmod_cases {x : Int} (h : -0x10000000000000000 ≤ x) (h' : x ≤ 0x10000000000000000) :
    x.bmod 0x10000000000000000 = x ∧ -0x8000000000000000 ≤ x ∧ x < 0x8000000000000000 ∨
      x.bmod 0x10000000000000000 = x - 0x10000000000000000 ∧ 0x8000000000000000 ≤ x ∨
      x.bmod 0x10000000000000000 = x + 0x10000000000000000 ∧ x < -0x8000000000000000 := by
  have hsize : ((0x10000000000000000 : Nat) : Int) = 0x10000000000000000 := rfl
  rw [Int.bmod_def, hsize]
  split <;> omega

/-- What is left is no more than a word can say, or nothing can be taken. -/
theorem toInt_left_of_positive {r : Region} (hhigh : r.next ≤ r.high)
    (hleft : 1 ≤ r.left.toInt) : r.left.toInt = r.high.toInt - r.next.toInt + 1 := by
  have h₁ : (1 : Int64).toInt = 1 := rfl
  have hnext : -2 ^ 63 ≤ r.next.toInt := Int64.le_toInt _
  have hend : r.high.toInt < 2 ^ 63 := Int64.toInt_lt _
  rw [Int64.le_iff_toInt_le] at hhigh
  have hword : r.left.toInt = (r.high.toInt - r.next.toInt + 1).bmod 0x10000000000000000 := by
    unfold left
    rw [Int64.toInt_add, Int64.toInt_sub, h₁, Int.bmod_add_bmod]
  rcases @bmod_cases (r.high.toInt - r.next.toInt + 1) (by omega) (by omega) with h | h | h
  all_goals omega

/-- An allocation finds its addresses behind the cursor and moves the cursor behind them. -/
theorem Sound.advance {r : Region} {n : Int64} (h : r.Sound) (hn : 1 ≤ n) (hleft : n ≤ r.left) :
    r.free = r.next.toInt ∧ r.low.toInt ≤ r.next.toInt ∧
      r.next.toInt + n.toInt ≤ r.high.toInt + 1 ∧
      { r with next := r.next + n }.free = r.next.toInt + n.toInt ∧
      { r with next := r.next + n }.Sound := by
  have h₁ : (1 : Int64).toInt = 1 := rfl
  have hn' : 1 ≤ n.toInt := by rwa [Int64.le_iff_toInt_le, h₁] at hn
  have hleft' : n.toInt ≤ r.left.toInt := Int64.le_iff_toInt_le.1 hleft
  have hroom : ¬ r.next = r.high + 1 := by
    intro hfull
    rw [left_of_full hfull] at hleft'
    have h₀ : (0 : Int64).toInt = 0 := rfl
    omega
  obtain ⟨hlow, hhigh⟩ := h.resolve_right hroom
  have htotal := toInt_left_of_positive hhigh (by omega)
  have hlow' := Int64.le_iff_toInt_le.1 hlow
  refine ⟨if_neg hroom, hlow', by omega, ?_⟩
  have hnext : -2 ^ 63 ≤ r.next.toInt := Int64.le_toInt _
  have hend : r.high.toInt < 2 ^ 63 := Int64.toInt_lt _
  by_cases hlast : r.next.toInt + n.toInt = r.high.toInt + 1
  · -- The range is full now, and the cursor may have wrapped around.
    have hfull : r.next + n = r.high + 1 := by
      apply Int64.toInt_inj.1
      rw [Int64.toInt_add, Int64.toInt_add, h₁, hlast]
    exact ⟨(if_pos hfull).trans hlast.symm, .inr hfull⟩
  · have hsum : (r.next + n).toInt = r.next.toInt + n.toInt :=
      toInt_add_of_bounds (by omega) (by omega)
    have hne : ¬ r.next + n = r.high + 1 := by
      intro hfull
      have hwrap : r.next.toInt + n.toInt = (r.high.toInt + 1).bmod 0x10000000000000000 := by
        rw [← hsum, hfull, Int64.toInt_add, h₁]
      rcases @bmod_cases (r.high.toInt + 1) (by omega) (by omega) with h | h | h
      all_goals omega
    refine ⟨(if_neg hne).trans hsum, .inl ⟨?_, ?_⟩⟩
    · rw [Int64.le_iff_toInt_le]
      show r.low.toInt ≤ (r.next + n).toInt
      omega
    · rw [Int64.le_iff_toInt_le]
      show (r.next + n).toInt ≤ r.high.toInt
      omega

end Region

/-! ## Memories -/

namespace Memory

/-- The cursors stand right, and the blocks lie in what is taken without an address in
common. -/
structure Keeps (m : Memory) (bs : List Block) : Prop where
  disjoint : m.layout.Disjoint
  cursors : ∀ r ∈ m.regions, r.Sound
  inside : ∀ b ∈ bs, 1 ≤ b.size.toInt ∧ ∃ r ∈ m.regions, r.ty = b.ty ∧
    r.low.toInt ≤ b.first.toInt ∧ b.stop ≤ r.free
  apart : bs.Pairwise Block.Apart

theorem Keeps.ofLayout {l : Layout} (h : l.Disjoint) : (ofLayout l).Keeps [] where
  disjoint := by rwa [layout_ofLayout]
  cursors := by
    intro r hr
    obtain ⟨s, hs, rfl⟩ := List.mem_map.1 hr
    exact .inl ⟨Int64.le_refl _, h.nonempty s hs⟩
  inside := by simp
  apart := .nil

variable {m m' : Memory} {bs bs' : List Block} {ty : Ty} {segment : Segment} {n : Int64} {a : Addr}

theorem Keeps.subperm (h : m.Keeps bs) (hsub : bs'.Subperm bs) : m.Keeps bs' where
  disjoint := h.disjoint
  cursors := h.cursors
  inside := fun b hb => h.inside b (hsub.subset hb)
  apart := by
    obtain ⟨cs, hperm, hcs⟩ := hsub
    exact (hperm.pairwise_iff Block.Apart.symm).1 (h.apart.sublist hcs)

theorem Keeps.of_regions (h : m.Keeps bs) (heq : m'.regions = m.regions) : m'.Keeps bs := by
  have hlayout : m'.layout = m.layout := by simp [layout, heq]
  exact ⟨hlayout ▸ h.disjoint, heq ▸ h.cursors, heq ▸ h.inside, h.apart⟩

/-- A block in another region has no address of this one. -/
theorem Keeps.apart_of_ne (h : m.Keeps bs) {r r' : Region} (hr : r ∈ m.regions)
    (hr' : r' ∈ m.regions) (hne : r ≠ r') {b c : Block}
    (hb : r.low.toInt ≤ b.first.toInt ∧ b.stop ≤ r.high.toInt + 1)
    (hc : r'.low.toInt ≤ c.first.toInt ∧ c.stop ≤ r'.high.toInt + 1) : b.Apart c := by
  have hout : ¬ (r.low.toInt ≤ r'.high.toInt ∧ r'.low.toInt ≤ r.high.toInt) := fun ho =>
    hne (region_eq h.disjoint hr hr' (h.disjoint.eq_of_meet (mem_layout hr)
    (mem_layout hr') ho.1 ho.2))
  unfold Block.Apart
  omega

theorem range?_layout (m : Memory) (segment : Segment) (ty : Ty) :
    m.layout.range? segment ty = (m.region? segment ty).map (·.toSlot) := by
  unfold Layout.range? layout region?
  rw [List.find?_map]
  rfl

/-- An allocation takes a block of its own. -/
theorem Keeps.alloc (h : m.Keeps bs) (ha : m.alloc ty segment n = .ok (a, m')) :
    m'.Keeps (⟨ty, a, n⟩ :: bs) ∧ m.layout.Keeps segment ⟨ty, a, n⟩ := by
  obtain ⟨r, hr, hn, hleft, rfl, rfl⟩ := alloc_eq_ok_iff.1 ha
  obtain ⟨hmem, howns⟩ := mem_of_region? hr
  obtain ⟨hfree, hlow, hhigh, hfree', hsound⟩ := (h.cursors r hmem).advance hn hleft
  have hn' : 1 ≤ n.toInt := Int64.le_iff_toInt_le.1 hn
  refine ⟨⟨by rw [layout_advance]; exact h.disjoint, ?_, ?_, ?_⟩, hn', ?_⟩
  · intro r' hr'
    rcases (mem_advance h.disjoint hr).1 hr' with rfl | ⟨hr', -⟩
    · exact hsound
    · exact h.cursors r' hr'
  · intro b hb
    rcases List.mem_cons.1 hb with rfl | hb
    · exact ⟨hn', _, (mem_advance h.disjoint hr).2 (.inl rfl), (Slot.owns_iff.1 howns).2, hlow,
        Int.le_of_eq hfree'.symm⟩
    · obtain ⟨hsize, r₀, hr₀, hty, hfirst, hstop⟩ := h.inside b hb
      cases h₀ : r₀.owns segment ty with
      | true =>
        obtain rfl := region_eq_of_owns h.disjoint hr₀ hmem h₀ howns
        exact ⟨hsize, _, (mem_advance h.disjoint hr).2 (.inl rfl), hty, hfirst,
          by rw [hfree']; omega⟩
      | false =>
        exact ⟨hsize, r₀, (mem_advance h.disjoint hr).2 (.inr ⟨hr₀, h₀⟩), hty, hfirst, hstop⟩
  · refine List.pairwise_cons.2 ⟨fun b hb => ?_, h.apart⟩
    obtain ⟨-, r₀, hr₀, -, hfirst, hstop⟩ := h.inside b hb
    by_cases heq : r = r₀
    · subst heq
      exact .inr (hfree ▸ hstop)
    · have hend := (h.cursors r₀ hr₀).free_le
      exact h.apart_of_ne hmem hr₀ heq ⟨hlow, hhigh⟩ ⟨hfirst, by omega⟩
  · refine ⟨r.toSlot, ?_, hlow, hhigh⟩
    rw [range?_layout, hr]
    rfl

/-! ## What is taken between two moments -/

/-- The block between the cursors of a region at two moments. -/
def between (r r' : Region) : Option Block :=
  if r.next = r'.next then none else some ⟨r.ty, r.next, r'.next - r.next⟩

/-- The blocks that were taken between two moments of a memory. -/
def taken (m m' : Memory) : List Block :=
  (m.regions.zip m'.regions).filterMap fun (r, r') => between r r'

theorem taken_self (m : Memory) : m.taken m = [] := by
  unfold taken
  induction m.regions with
  | nil => rfl
  | cons r rs ih => simpa [between] using ih

theorem taken_others {rs : List Region} (h : ∀ r ∈ rs, r.owns segment ty = false) :
    (rs.zip (rs.map fun r =>
      if r.owns segment ty then { r with next := r.next + n } else r)).filterMap
      (fun (r, r') => between r r') = [] := by
  induction rs with
  | nil => rfl
  | cons r rs ih =>
    have hr : r.owns segment ty = false := h r List.mem_cons_self
    have hrest := ih fun r' hr' => h r' (List.mem_cons_of_mem _ hr')
    simpa [between, hr] using hrest

theorem Keeps.taken_alloc (h : m.Keeps bs) (ha : m.alloc ty segment n = .ok (a, m')) :
    m.taken m' = [⟨ty, a, n⟩] := by
  obtain ⟨r, hr, hn, -, rfl, rfl⟩ := alloc_eq_ok_iff.1 ha
  have hne : ¬ r.next = r.next + n := by
    intro heq
    have hzero : n = 0 := by grind
    subst hzero
    exact absurd hn (by decide)
  -- No region in front of this one and none behind it has the same owner.
  obtain ⟨howns, front, back, hregions, hfront⟩ := List.find?_eq_some_iff_append.1 hr
  have howners := h.disjoint.owners
  rw [layout, List.pairwise_map, hregions] at howners
  have hback : ∀ r' ∈ back, r'.owns segment ty = false := by
    intro r' hr'
    obtain ⟨hsegment, hty⟩ := Slot.owns_iff.1 howns
    have hother := (List.pairwise_cons.1 (List.pairwise_append.1 howners).2.1).1 r' hr'
    rw [hsegment, hty] at hother
    rw [Bool.eq_false_iff]
    intro howns'
    obtain ⟨hsegment', hty'⟩ := Slot.owns_iff.1 howns'
    exact hother.elim (absurd hsegment'.symm) (absurd hty'.symm)
  have hfront' : ∀ r' ∈ front, r'.owns segment ty = false := by simpa using hfront
  have hsize : r.next + n - r.next = n := by grind
  simp only [taken, advance, hregions, List.map_append, List.map_cons, howns, if_true]
  rw [List.zip_append (by simp), List.filterMap_append, taken_others hfront', List.nil_append,
    List.zip_cons_cons, List.filterMap_cons]
  have hblock : between r { r with next := r.next + n } = some ⟨ty, r.next, n⟩ := by
    simp [between, hne, hsize, (Slot.owns_iff.1 howns).2]
  simp only [hblock, taken_others hback]

end Memory

end Quadlang
