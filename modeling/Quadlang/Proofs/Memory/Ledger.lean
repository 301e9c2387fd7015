-- Rows of requests to a memory: allocations and constants in any order, some of them refused. An
-- allocation gets the addresses behind all that were taken of its range, and a constant keeps the
-- one address that it got.
import Quadlang.Proofs.Memory.Blocks
import Quadlang.Proofs.Value.Floats

namespace Quadlang

open Float.Model UnpackedFloat

/-- Zero with a minus sign. -/
def negativeZero : Float := Float.ofBits 0x8000000000000000

namespace Value

variable {u v w : Value}

/-- A value that is neither no number nor a negative zero. -/
def Plain (v : Value) : Prop := ∀ x, v = .float x → x.isNaN = false ∧ x ≠ negativeZero

/-- A zero of either sign. -/
def IsZero (v : Value) : Prop := ∃ x s, v = .float x ∧ x.toModel.unpack = .zero s

/-- Two values are the same, or zeros. -/
def Agrees (v w : Value) : Prop := v = w ∨ v.IsZero ∧ w.IsZero

theorem agrees_of_same (h : v.same w = true) : v.Agrees w := by
  unfold same at h
  split at h
  · rename_i x y
    rcases eq_or_zero_of_beq h with rfl | ⟨s, s', hx, hy⟩
    · exact .inl rfl
    · exact .inr ⟨⟨x, s, rfl, hx⟩, y, s', rfl, hy⟩
  · exact .inl (of_decide_eq_true h)

theorem IsZero.same (hv : v.IsZero) (hw : w.IsZero) : v.same w = true := by
  obtain ⟨x, s, rfl, hx⟩ := hv
  obtain ⟨y, s', rfl, hy⟩ := hw
  show (x.toModel.unpack.compare y.toModel.unpack == some .eq) = true
  rw [hx, hy]
  rfl

theorem same_symm (h : v.same w = true) : w.same v = true := by
  rcases agrees_of_same h with rfl | ⟨hv, hw⟩
  · exact h
  · exact hw.same hv

theorem Plain.same_self (h : v.Plain) : v.same v = true := by
  cases v with
  | float x =>
    have hnan : x.toModel.unpack.isNaN = false := (h x rfl).1
    show (x.toModel.unpack.compare x.toModel.unpack == some .eq) = true
    rw [UnpackedFloat.compare_self hnan]
    rfl
  | _ => simp [same]

/-- A zero is that with the minus sign or that without. -/
theorem IsZero.eq (h : v.IsZero) : v = .float negativeZero ∨ v = .float 0 := by
  obtain ⟨x, s, rfl, hx⟩ := h
  cases s with
  | negative => exact .inl (congrArg _ (eq_of_unpack (hx.trans rfl)))
  | positive => exact .inr (congrArg _ (eq_of_unpack (hx.trans rfl)))

theorem Plain.eq_of_zero (h : v.Plain) (hzero : v.IsZero) : v = .float 0 :=
  hzero.eq.resolve_left fun heq => (h _ heq).2 rfl

/-- What agrees with one plain value is one constant. -/
theorem Agrees.same (hu : u.Agrees v) (hw : w.Agrees v) (hv : v.Plain) : u.same w = true := by
  rcases hu with rfl | ⟨hu, hzero⟩ <;> rcases hw with rfl | ⟨hw, hzero'⟩
  · exact hv.same_self
  · exact hzero'.same hw
  · exact hu.same hzero
  · exact hu.same hw

/-- Plain values that agree with one value are the same. -/
theorem Agrees.eq (hv : u.Agrees v) (hw : u.Agrees w) (hplain : v.Plain) (hplain' : w.Plain) :
    v = w := by
  rcases hv with rfl | ⟨hzero, hv⟩
  · rcases hw with rfl | ⟨hzero, hw⟩
    · rfl
    · rw [hplain.eq_of_zero hzero, hplain'.eq_of_zero hw]
  · rcases hw with rfl | ⟨-, hw⟩
    · rw [hplain.eq_of_zero hv, hplain'.eq_of_zero hzero]
    · rw [hplain.eq_of_zero hv, hplain'.eq_of_zero hw]

end Value

/-! ## Requests -/

/-- What a memory is asked for: addresses in a row, or the address of a constant. -/
inductive Request
  | block (ty : Ty) (segment : Segment) (n : Int64)
  | constant (ty : Ty) (v : Value)
  deriving DecidableEq

/-- The answer to a request, and the memory after it. -/
def Memory.serve (m : Memory) : Request → Except AllocError Addr × Memory
  | .block ty segment n =>
    match m.alloc ty segment n with
    | .ok (a, m') => (.ok a, m')
    | .error e => (.error e, m)
  | .constant ty v =>
    match m.intern ty v with
    | .ok (a, m') => (.ok a, m')
    | .error e => (.error e.cause, m)

/-- A memory, and the requests to it with their answers, the newest first. -/
structure Ledger where
  memory : Memory
  entries : List (Request × Except AllocError Addr) := []

namespace Ledger

/-- A memory with nothing allocated. -/
def start (l : Layout) : Ledger := { memory := .ofLayout l }

/-- One request more. -/
def serve (k : Ledger) (r : Request) : Ledger :=
  { memory := (k.memory.serve r).2, entries := (r, (k.memory.serve r).1) :: k.entries }

/-- Requests one after another, whichever of them are refused. -/
def run (k : Ledger) (requests : List Request) : Ledger := requests.foldl serve k

/-- The blocks that allocations were answered with, and their segments. -/
def blocks (k : Ledger) : List (Segment × Block) :=
  k.entries.filterMap fun
    | (.block ty segment n, .ok a) => some (segment, ⟨ty, a, n⟩)
    | _ => none

/-- The constants that were asked for, with the addresses that were answered. -/
def answers (k : Ledger) : List Constant :=
  k.entries.filterMap fun
    | (.constant ty v, .ok a) => some ⟨ty, v, a⟩
    | _ => none

/-- All that is taken: the blocks of allocations, and the address of each constant once. -/
def taken (k : Ledger) : List (Segment × Block) :=
  k.blocks ++ k.memory.constants.map fun c => (.globals, c.block)

/-- How many addresses of a segment and type some blocks have. -/
def total (segment : Segment) (ty : Ty) : List (Segment × Block) → Int
  | [] => 0
  | b :: bs => (if b.1 = segment ∧ b.2.ty = ty then b.2.size.toInt else 0) + total segment ty bs

theorem total_perm {segment : Segment} {ty : Ty} {bs cs : List (Segment × Block)} (h : bs.Perm cs) :
    total segment ty bs = total segment ty cs := by
  induction h with
  | nil => rfl
  | cons b _ ih => simp only [total, ih]
  | swap b c bs => simp only [total]; omega
  | trans _ _ ih ih' => exact ih.trans ih'

variable {l : Layout} {k k' : Ledger} {m : Memory} {ty : Ty} {segment : Segment} {n : Int64}
  {a : Addr} {v : Value}

/-- What a request can do: nothing, or find a constant that is there, or take a block, or take an
address for a new constant. -/
theorem serve_cases (k : Ledger) (r : Request) :
    ((k.serve r).memory = k.memory ∧ (k.serve r).blocks = k.blocks ∧
      ((k.serve r).answers = k.answers ∨ ∃ c ∈ k.memory.constants, ∃ v, c.value.same v = true ∧
        (k.serve r).answers = ⟨c.ty, v, c.address⟩ :: k.answers)) ∨
    (∃ ty segment n a m, k.memory.alloc ty segment n = .ok (a, m) ∧ (k.serve r).memory = m ∧
      (k.serve r).blocks = (segment, ⟨ty, a, n⟩) :: k.blocks ∧ (k.serve r).answers = k.answers) ∨
    ∃ ty v a m, (∀ c ∈ k.memory.constants, ¬ (c.ty = ty ∧ c.value.same v = true)) ∧
      k.memory.alloc ty .globals 1 = .ok (a, m) ∧
      (k.serve r).memory = { m with constants := ⟨ty, v, a⟩ :: m.constants } ∧
      (k.serve r).blocks = k.blocks ∧ (k.serve r).answers = ⟨ty, v, a⟩ :: k.answers := by
  cases r with
  | block ty segment n =>
    cases ha : k.memory.alloc ty segment n with
    | error e => simp [serve, Memory.serve, ha, blocks, answers]
    | ok p =>
      exact .inr (.inl ⟨ty, segment, n, p.1, p.2, ha, by simp [serve, Memory.serve, ha, blocks,
        answers]⟩)
  | constant ty v =>
    cases hc : k.memory.constant? ty v with
    | some a =>
      obtain ⟨c, hfind, rfl⟩ := Option.map_eq_some_iff.1 hc
      have hsame := List.find?_some hfind
      simp only [Bool.and_eq_true, decide_eq_true_eq] at hsame
      obtain ⟨rfl, hsame⟩ := hsame
      refine .inl ⟨?_, ?_, .inr ⟨c, List.mem_of_find?_eq_some hfind, v, hsame, ?_⟩⟩ <;>
        simp [serve, Memory.serve, Memory.intern, hc, blocks, answers]
    | none =>
      have hnew : ∀ c ∈ k.memory.constants, ¬ (c.ty = ty ∧ c.value.same v = true) := by
        simpa [Memory.constant?] using hc
      cases ha : k.memory.alloc ty .globals 1 with
      | error e => simp [serve, Memory.serve, Memory.intern, hc, ha, blocks, answers]
      | ok p =>
        exact .inr (.inr ⟨ty, v, p.1, p.2, hnew, ha,
          by simp [serve, Memory.serve, Memory.intern, hc, ha, blocks, answers]⟩)

/-- What every request keeps holds after all of them. -/
theorem run_keeps {P : Ledger → Prop} (h : P k) (hserve : ∀ k r, P k → P (k.serve r))
    (requests : List Request) : P (k.run requests) := by
  induction requests generalizing k with
  | nil => exact h
  | cons r requests ih => exact ih (hserve k r h)

/-! ## The balance of a range -/

/-- What is taken lies in its ranges without an address in common, and the cursor of each range that
a word can measure stands behind as many addresses as were taken of it. -/
structure Balanced (l : Layout) (k : Ledger) : Prop where
  layout : k.memory.layout = l
  keeps : k.memory.Keeps (k.taken.map (·.2))
  inside : ∀ b ∈ k.taken, l.Keeps b.1 b.2
  filled : ∀ r ∈ k.memory.regions, r.high.toInt - r.low.toInt + 1 < 0x8000000000000000 →
    r.free = r.low.toInt + total r.segment r.ty k.taken

theorem Balanced.start (h : l.Disjoint) : (Ledger.start l).Balanced l where
  layout := Memory.layout_ofLayout l
  keeps := Memory.Keeps.ofLayout h
  inside := by simp [Ledger.start, taken, blocks, Memory.ofLayout]
  filled := by
    intro r hr hsize
    obtain ⟨s, hs, rfl⟩ := List.mem_map.1 hr
    have hne : ¬ s.low = s.high + 1 := by
      intro hwrap
      have hle := Int64.le_iff_toInt_le.1 (h.nonempty s hs)
      have hword : (s.high - s.low + 1).toInt = s.high.toInt - s.low.toInt + 1 :=
        Region.toInt_left (r := { s with next := s.low }) (by dsimp only; omega) hsize
      rw [show s.high - s.low + 1 = 0 by grind] at hword
      have hzero : (0 : Int64).toInt = 0 := rfl
      omega
    simp [Region.free, hne, Ledger.start, taken, blocks, Memory.ofLayout, total]

/-- An allocation takes the block at the cursor. -/
theorem Balanced.grant (h : k.Balanced l) (ha : k.memory.alloc ty segment n = .ok (a, m))
    (hregions : k'.memory.regions = m.regions)
    (htaken : k'.taken.Perm ((segment, ⟨ty, a, n⟩) :: k.taken)) : k'.Balanced l := by
  obtain ⟨hkeeps, hplace⟩ := h.keeps.alloc ha
  have hlayout : k'.memory.layout = m.layout := by simp [Memory.layout, hregions]
  refine ⟨hlayout.trans ((Memory.layout_alloc ha).trans h.layout),
    (hkeeps.subperm (htaken.map _).subperm).of_regions hregions, ?_, ?_⟩
  · intro b hb
    rcases List.mem_cons.1 (htaken.mem_iff.1 hb) with rfl | hb
    · exact h.layout ▸ hplace
    · exact h.inside b hb
  · intro r' hr' hsize
    rw [hregions] at hr'
    rw [total_perm htaken, total]
    obtain ⟨r, hr, hn, hleft, rfl, rfl⟩ := Memory.alloc_eq_ok_iff.1 ha
    obtain ⟨hmem, howns⟩ := Memory.mem_of_region? hr
    obtain ⟨hfree, -, -, hfree', -⟩ := (h.keeps.cursors r hmem).advance hn hleft
    rcases (Memory.mem_advance h.keeps.disjoint hr).1 hr' with rfl | ⟨hr', hother⟩
    · have hfilled := h.filled r hmem hsize
      obtain ⟨rfl, rfl⟩ := Slot.owns_iff.1 howns
      rw [if_pos ⟨rfl, rfl⟩, hfree']
      show r.next.toInt + n.toInt = r.low.toInt + (n.toInt + total r.segment r.ty k.taken)
      omega
    · have hfilled := h.filled r' hr' hsize
      have hne : ¬ (segment = r'.segment ∧ ty = r'.ty) := by
        rintro ⟨rfl, rfl⟩
        simp [Slot.owns] at hother
      rw [if_neg hne]
      omega

theorem Balanced.serve (h : k.Balanced l) (r : Request) : (k.serve r).Balanced l := by
  rcases k.serve_cases r with ⟨hmemory, hblocks, -⟩ | ⟨ty, segment, n, a, m, ha, hmemory,
    hblocks, -⟩ |
    ⟨ty, v, a, m, -, ha, hmemory, hblocks, -⟩
  · have htaken : (k.serve r).taken = k.taken := by rw [taken, taken, hblocks, hmemory]
    exact ⟨hmemory ▸ h.layout, by rw [hmemory, htaken]; exact h.keeps, htaken ▸ h.inside,
      by rw [hmemory, htaken]; exact h.filled⟩
  · refine h.grant ha (by rw [hmemory]) ?_
    rw [taken, taken, hblocks, hmemory, Memory.constants_alloc ha]
    exact .refl _
  · refine h.grant ha (by rw [hmemory]) ?_
    rw [taken, taken, hblocks, hmemory, Memory.constants_alloc ha]
    exact List.perm_middle

theorem Balanced.region? (h : k.Balanced l) {s : Slot} (hs : l.range? segment ty = some s) :
    ∃ r, k.memory.region? segment ty = some r ∧ r.toSlot = s ∧ r ∈ k.memory.regions ∧
      r.segment = segment ∧ r.ty = ty := by
  rw [← h.layout, Memory.range?_layout] at hs
  obtain ⟨r, hr, rfl⟩ := Option.map_eq_some_iff.1 hs
  obtain ⟨hmem, howns⟩ := Memory.mem_of_region? hr
  exact ⟨r, hr, rfl, hmem, Slot.owns_iff.1 howns⟩

/-- What a word says is left of a range is what was not taken of it. -/
theorem Balanced.left (h : k.Balanced l) {r : Region} (hr : r ∈ k.memory.regions)
    (hsize : r.high.toInt - r.low.toInt + 1 < 0x8000000000000000) :
    r.left.toInt = r.high.toInt - r.low.toInt + 1 - total r.segment r.ty k.taken := by
  have hfilled := h.filled r hr hsize
  by_cases hfull : r.next = r.high + 1
  · have hzero : (0 : Int64).toInt = 0 := rfl
    rw [Region.free, if_pos hfull] at hfilled
    rw [Region.left_of_full hfull]
    omega
  · obtain ⟨hlow, hhigh⟩ := (h.keeps.cursors r hr).resolve_right hfull
    rw [Int64.le_iff_toInt_le] at hlow hhigh
    rw [Region.free, if_neg hfull] at hfilled
    rw [Region.toInt_left (by omega) (by omega)]
    omega

/-! ## Constants -/

instance : Std.Symm fun c d : Constant => ¬ (d.ty = c.ty ∧ d.value.same c.value = true) :=
  ⟨fun _ _ h hsame => h ⟨hsame.1.symm, Value.same_symm hsame.2⟩⟩

/-- The table has the constants that were asked for, each of them once. -/
structure Pooled (k : Ledger) : Prop where
  asked : ∀ c ∈ k.memory.constants, c ∈ k.answers
  known : ∀ c ∈ k.answers, ∃ d ∈ k.memory.constants, d.ty = c.ty ∧ d.address = c.address ∧
    d.value.Agrees c.value
  single : k.memory.constants.Pairwise fun c d => ¬ (d.ty = c.ty ∧ d.value.same c.value = true)

theorem Pooled.start (l : Layout) : (Ledger.start l).Pooled :=
  ⟨by simp [Ledger.start, Memory.ofLayout], by simp [Ledger.start, answers], .nil⟩

theorem Pooled.serve (h : k.Pooled) (r : Request) : (k.serve r).Pooled := by
  rcases k.serve_cases r with ⟨hmemory, -, hanswers | ⟨d, hd, v, hsame, hanswers⟩⟩ |
    ⟨ty, segment, n, a, m, ha, hmemory, -, hanswers⟩ | ⟨ty, v, a, m, hnew, ha, hmemory, -, hanswers⟩
  · exact ⟨by rw [hmemory, hanswers]; exact h.asked, by rw [hmemory, hanswers]; exact h.known,
      by rw [hmemory]; exact h.single⟩
  · refine ⟨?_, ?_, by rw [hmemory]; exact h.single⟩
    · rw [hmemory, hanswers]
      exact fun c hc => List.mem_cons_of_mem _ (h.asked c hc)
    · rw [hmemory, hanswers]
      exact List.forall_mem_cons.2 ⟨⟨d, hd, rfl, rfl, Value.agrees_of_same hsame⟩, h.known⟩
  · have hconstants : (k.serve r).memory.constants = k.memory.constants := by
      rw [hmemory, Memory.constants_alloc ha]
    exact ⟨by rw [hconstants, hanswers]; exact h.asked, by rw [hconstants, hanswers]; exact h.known,
      by rw [hconstants]; exact h.single⟩
  · have hconstants : (k.serve r).memory.constants = ⟨ty, v, a⟩ :: k.memory.constants := by
      rw [hmemory, Memory.constants_alloc ha]
    refine ⟨?_, ?_, ?_⟩
    · rw [hconstants, hanswers]
      exact List.forall_mem_cons.2 ⟨List.mem_cons_self, fun c hc =>
        List.mem_cons_of_mem _ (h.asked c hc)⟩
    · rw [hconstants, hanswers]
      refine List.forall_mem_cons.2 ⟨⟨_, List.mem_cons_self, rfl, rfl, .inl rfl⟩, fun c hc => ?_⟩
      obtain ⟨d, hd, hrest⟩ := h.known c hc
      exact ⟨d, List.mem_cons_of_mem _ hd, hrest⟩
    · rw [hconstants]
      exact List.pairwise_cons.2 ⟨hnew, h.single⟩

theorem mem_constants_run (requests : List Request) {c : Constant} (h : c ∈ k.memory.constants) :
    c ∈ (k.run requests).memory.constants := by
  refine run_keeps (P := fun k => c ∈ k.memory.constants) h (fun k r h => ?_) requests
  rcases k.serve_cases r with ⟨hmemory, -⟩ | ⟨ty, segment, n, a, m, ha, hmemory, -⟩ |
    ⟨ty, v, a, m, -, ha, hmemory, -⟩ <;> rw [hmemory]
  · exact h
  · rwa [Memory.constants_alloc ha]
  · exact List.mem_cons_of_mem _ (by rwa [Memory.constants_alloc ha])

theorem Balanced.distinct (h : k.Balanced l) :
    k.memory.constants.Pairwise fun c d => c.address ≠ d.address := by
  have hapart := (List.pairwise_append.1 (List.pairwise_map.1 h.keeps.apart)).2.1
  refine (List.pairwise_map.1 hapart).imp ?_
  rintro c d (hle | hle) heq
  all_goals
    have hone : (1 : Int64).toInt = 1 := rfl
    simp only [Block.stop, Constant.block, heq] at hle
    omega

theorem Balanced.eq_of_address (h : k.Balanced l) {c d : Constant} (hc : c ∈ k.memory.constants)
    (hd : d ∈ k.memory.constants) (heq : c.address = d.address) : c = d :=
  List.inj_on_of_nodup_map (List.pairwise_map.2 h.distinct) hc hd heq

/-- Constants that were asked for have one address exactly if they are the same. -/
theorem Pooled.address_eq_iff (h : k.Pooled) (hk : k.Balanced l) {c d : Constant}
    (hc : c ∈ k.answers) (hd : d ∈ k.answers) (hcplain : c.value.Plain) (hdplain : d.value.Plain) :
    c.address = d.address ↔ c.ty = d.ty ∧ c.value = d.value := by
  obtain ⟨c', hc', hcty, hcaddress, hcvalue⟩ := h.known c hc
  obtain ⟨d', hd', hdty, hdaddress, hdvalue⟩ := h.known d hd
  constructor
  · intro heq
    obtain rfl := hk.eq_of_address hc' hd' (by rw [hcaddress, hdaddress, heq])
    exact ⟨hcty.symm.trans hdty, hcvalue.eq hdvalue hcplain hdplain⟩
  · rintro ⟨hty, hvalue⟩
    have hsame := hdvalue.same (hvalue ▸ hcvalue) hdplain
    have heq : c' = d' := Decidable.byContradiction fun hne =>
      h.single.forall hc' hd' hne ⟨by rw [hdty, hcty, hty], hsame⟩
    rw [← hcaddress, ← hdaddress, heq]

theorem Pooled.taken (h : k.Pooled) {c : Constant} (hc : c ∈ k.answers) :
    (.globals, c.block) ∈ k.taken := by
  obtain ⟨d, hd, hty, haddress, -⟩ := h.known c hc
  refine List.mem_append_right _ (List.mem_map.2 ⟨d, hd, ?_⟩)
  rw [Constant.block, Constant.block, hty, haddress]

end Ledger

/-- Whatever a memory was asked for before: all that is taken lies in its ranges without an address
in common, an allocation gets the lowest address of its range plus the number of addresses taken of
it before, it finds no room exactly if it asks for more than is left, and a request that is refused
leaves the memory as it was. -/
theorem allocations_accounted {l : Layout} (h : l.Disjoint)
    (hsize : ∀ s ∈ l.slots, s.high.toInt - s.low.toInt + 1 < 0x8000000000000000)
    (requests : List Request) :
    let k := (Ledger.start l).run requests
    (k.taken.Pairwise fun b c => b.2.Apart c.2) ∧ (∀ b ∈ k.taken, l.Keeps b.1 b.2) ∧
      (∀ c ∈ k.answers, (.globals, c.block) ∈ k.taken) ∧
      (∀ ty segment n a m, k.memory.alloc ty segment n = .ok (a, m) →
        ∃ s, l.range? segment ty = some s ∧
          a.toInt = s.low.toInt + Ledger.total segment ty k.taken) ∧
      (∀ ty segment n s, l.range? segment ty = some s → 1 ≤ n.toInt →
        ((∃ e, k.memory.alloc ty segment n = .error e ∧ e.category = some .addressSpaceExhausted) ↔
          s.high.toInt - s.low.toInt + 1 - Ledger.total segment ty k.taken < n.toInt)) ∧
      ∀ request e, (k.memory.serve request).1 = .error e →
        (k.memory.serve request).2 = k.memory := by
  intro k
  have hk : k.Balanced l := Ledger.run_keeps (.start h) (fun _ r hk => hk.serve r) requests
  have hsmall : ∀ r ∈ k.memory.regions, r.high.toInt - r.low.toInt + 1 < 0x8000000000000000 := by
    intro r hr
    exact hsize r.toSlot (hk.layout ▸ Memory.mem_layout hr)
  have hpooled : k.Pooled := Ledger.run_keeps (.start l) (fun _ r hk => hk.serve r) requests
  refine ⟨List.pairwise_map.1 hk.keeps.apart, hk.inside, fun c hc => hpooled.taken hc, ?_, ?_, ?_⟩
  · intro ty segment n a m ha
    obtain ⟨r, hr, hn, hleft, rfl, -⟩ := Memory.alloc_eq_ok_iff.1 ha
    obtain ⟨hmem, howns⟩ := Memory.mem_of_region? hr
    obtain ⟨hfree, -⟩ := (hk.keeps.cursors r hmem).advance hn hleft
    obtain ⟨rfl, rfl⟩ := Slot.owns_iff.1 howns
    refine ⟨r.toSlot, ?_, hfree.symm.trans (hk.filled r hmem (hsmall r hmem))⟩
    rw [← hk.layout, Memory.range?_layout, hr]
    rfl
  · intro ty segment n s hs hn
    obtain ⟨r, hr, rfl, hmem, rfl, rfl⟩ := hk.region? hs
    have hone : (1 : Int64).toInt = 1 := rfl
    have hpositive : ¬ n < 1 := by rw [Int64.lt_iff_toInt_lt]; omega
    rw [← hk.left hmem (hsmall r hmem), ← Int64.lt_iff_toInt_lt]
    unfold Memory.alloc
    simp only [hr, if_neg hpositive]
    by_cases hroom : r.left < n
    · simp [hroom, AllocError.category]
    · simp [hroom]
  · intro request e he
    cases request with
    | block ty segment n =>
      cases ha : k.memory.alloc ty segment n <;> simp [Memory.serve, ha] at he ⊢
    | constant ty v =>
      cases hi : k.memory.intern ty v <;> simp [Memory.serve, hi] at he ⊢

/-- A full range that ends at the last address, where the cursor has wrapped around, has no room. -/
theorem scattered_exhausted :
    let k := (Ledger.start scattered).run [.block .int .temps 2]
    scattered.Disjoint ∧ (∀ s ∈ scattered.slots, s.high.toInt - s.low.toInt + 1 <
      0x8000000000000000) ∧ ∃ e, k.memory.alloc .int .temps 1 = .error e ∧
        e.category = some .addressSpaceExhausted := by
  have hdisjoint : scattered.Disjoint := by decide
  have hsize : ∀ s ∈ scattered.slots, s.high.toInt - s.low.toInt + 1 < 0x8000000000000000 := by
    decide
  obtain ⟨-, -, -, -, hroom, -⟩ := allocations_accounted hdisjoint hsize [.block .int .temps 2]
  exact ⟨hdisjoint, hsize, (hroom .int .temps 1 ⟨.temps, .int, 0x7FFFFFFFFFFFFFFE,
    0x7FFFFFFFFFFFFFFF⟩
    (by decide) (by decide)).2 (by decide +kernel)⟩

/-- Whatever a memory was asked for: constants other than no number and negative zero have one
address exactly if they are of one type and the same value. The address lies in the range of
constants of this type. If no negative zero was asked for, it holds the value from then on, and else
the value or the negative zero that had been asked for before. No other cells hold constants, and no
allocation gets an address of one. -/
theorem constants_pooled {l : Layout} (h : l.Disjoint) (requests more : List Request) :
    let k := (Ledger.start l).run requests
    (∀ c ∈ k.answers, ∀ d ∈ k.answers, c.value.Plain → d.value.Plain →
        (c.address = d.address ↔ c.ty = d.ty ∧ c.value = d.value)) ∧
      ((∀ c ∈ k.answers, c.value ≠ .float negativeZero) → ∀ c ∈ k.answers, c.value.Plain →
        (k.run more).memory.values[c.address]? = some c.value) ∧
      (∀ c ∈ k.answers, l.Holds .globals c.ty c.address ∧ (c.value.Plain →
        ∃ v, (k.run more).memory.values[c.address]? = some v ∧ (v = c.value ∨
          v = .float negativeZero ∧ v.same c.value = true ∧ ⟨c.ty, v, c.address⟩ ∈ k.answers))) ∧
      (∀ a v, k.memory.values[a]? = some v → ∃ c ∈ k.answers, c.address = a ∧ c.value = v) ∧
      ∀ b ∈ k.blocks, ∀ c ∈ k.answers, ¬ InBlock b.2.first b.2.size c.address := by
  intro k
  have hk : k.Balanced l := Ledger.run_keeps (.start h) (fun _ r hk => hk.serve r) requests
  have hlater : (k.run more).Balanced l := Ledger.run_keeps hk (fun _ r hk => hk.serve r) more
  have hpooled : k.Pooled := Ledger.run_keeps (.start l) (fun _ r hk => hk.serve r) requests
  have hheld : ∀ c ∈ k.answers, c.value.Plain →
      ∃ v, (k.run more).memory.values[c.address]? = some v ∧ (v = c.value ∨
        v = .float negativeZero ∧ v.same c.value = true ∧ ⟨c.ty, v, c.address⟩ ∈ k.answers) := by
    intro c hc hplain
    obtain ⟨d, hd, hty, haddress, hvalue⟩ := hpooled.known c hc
    refine ⟨d.value, (Memory.getElem?_values hlater.distinct).2
      ⟨d, Ledger.mem_constants_run more hd, haddress, rfl⟩, ?_⟩
    rcases hvalue with hvalue | ⟨hzero, hzero'⟩
    · exact .inl hvalue
    · rcases hzero.eq with hnegative | hpositive
      · refine .inr ⟨hnegative, hzero.same hzero', ?_⟩
        rw [← hty, ← haddress]
        exact hpooled.asked d hd
      · exact .inl (hpositive.trans (hplain.eq_of_zero hzero').symm)
  refine ⟨fun c hc d hd => hpooled.address_eq_iff hk hc hd, fun hnone c hc hplain => ?_,
    fun c hc => ⟨(hk.inside _ (hpooled.taken hc)).holds, hheld c hc⟩, ?_, ?_⟩
  · obtain ⟨v, hv, rfl | ⟨rfl, -, hasked⟩⟩ := hheld c hc hplain
    · exact hv
    · exact absurd rfl (hnone _ hasked)
  · intro a v hv
    obtain ⟨c, hc, haddress, hvalue⟩ := (Memory.getElem?_values hk.distinct).1 hv
    exact ⟨c, hpooled.asked c hc, haddress, hvalue⟩
  · rintro b hb c hc ⟨hfirst, hstop⟩
    obtain ⟨d, hd, -, haddress, -⟩ := hpooled.known c hc
    have hone : (1 : Int64).toInt = 1 := rfl
    have hapart := (List.pairwise_append.1 (List.pairwise_map.1 hk.keeps.apart)).2.2 b hb _
      (List.mem_map_of_mem hd)
    simp only [Block.Apart, Block.stop, Constant.block, haddress] at hapart
    omega

/-- A constant that is asked for again, with another one and an allocation in between. -/
theorem scattered_pooled :
    let k := (Ledger.start scattered).run [.constant .int (.int 3), .block .int .globals 2,
      .constant .int (.int 4), .constant .int (.int 3)]
    scattered.Disjoint ∧ k.answers = [⟨.int, .int 3, -5⟩, ⟨.int, .int 4, -2⟩, ⟨.int, .int 3, -5⟩] ∧
      scattered.Holds .globals .int (-5) ∧ k.memory.values[(-5 : Addr)]? = some (.int 3) := by
  intro k
  have hdisjoint : scattered.Disjoint := by decide
  have hanswers : k.answers = [⟨.int, .int 3, -5⟩, ⟨.int, .int 4, -2⟩, ⟨.int, .int 3, -5⟩] := by
    decide +kernel
  have hfirst : ⟨.int, .int 3, -5⟩ ∈ k.answers := hanswers ▸ List.mem_cons_self
  have hnone : ∀ c ∈ k.answers, c.value ≠ .float negativeZero := by simp [hanswers]
  obtain ⟨-, hexact, hcells, -⟩ := constants_pooled hdisjoint [.constant .int (.int 3),
    .block .int .globals 2, .constant .int (.int 4), .constant .int (.int 3)] []
  exact ⟨hdisjoint, hanswers, (hcells _ hfirst).1, hexact hnone _ hfirst (by rintro x ⟨⟩)⟩

end Quadlang
