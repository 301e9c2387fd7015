-- Arrays in row-major order: the elements of an array stand side by side, each index vector
-- within the sizes has an element of its own, and no machine word overflows on the way to it.
import Mathlib.Data.List.Forall2
import Quadlang.Generator.Declare
import Quadlang.Machine.State
import Quadlang.Proofs.Memory.Allocation

namespace Quadlang

variable {ds : List Dim} {n : Int} {is : List Index}

/-! ## Strides -/

/-- The dimensions of an array of `n` elements in row-major order. -/
inductive Strided : List Dim → Int → Prop
  | nil : Strided [] 1
  | cons {d : Dim} {ds : List Dim} {n : Int} :
      Strided ds n → 1 ≤ d.size.toInt → d.stride.toInt = n → Strided (d :: ds) (d.size.toInt * n)

theorem Strided.positive (h : Strided ds n) : 1 ≤ n := by
  induction h with
  | nil => exact Int.le_refl 1
  | cons _ hsize _ ih => exact Int.mul_pos hsize ih

/-- Indices within the sizes of some dimensions. -/
inductive Within : List Dim → List Int64 → Prop
  | nil : Within [] []
  | cons {d : Dim} {ds : List Dim} {i : Int64} {is : List Int64} :
      0 ≤ i.toInt → i.toInt < d.size.toInt → Within ds is → Within (d :: ds) (i :: is)

/-- The distance of an element from the first one. -/
def Dim.offset : List Dim → List Int64 → Int
  | d :: ds, i :: is => i.toInt * d.stride.toInt + offset ds is
  | _, _ => 0

/-- Elements lie inside the array. -/
theorem Strided.offset_bounds {is : List Int64} (h : Strided ds n) (hw : Within ds is) :
    0 ≤ Dim.offset ds is ∧ Dim.offset ds is < n := by
  induction h generalizing is with
  | nil =>
    cases hw
    simp [Dim.offset]
  | @cons d ds n hs hsize hstride ih =>
    cases hw with
    | @cons _ _ i is hi hi' hw =>
      have hrest := ih hw
      have h₁ : 0 ≤ i.toInt * n := Int.mul_nonneg hi (by omega)
      have h₂ : i.toInt * n + n ≤ d.size.toInt * n := by
        have := Int.mul_le_mul_of_nonneg_right (show i.toInt + 1 ≤ d.size.toInt by omega)
          (show 0 ≤ n by omega)
        rwa [Int.add_mul, Int.one_mul] at this
      simp only [Dim.offset, hstride]
      omega

/-- Different indices lead to different elements. -/
theorem Strided.offset_inj {is js : List Int64} (h : Strided ds n) (hi : Within ds is)
    (hj : Within ds js) (heq : Dim.offset ds is = Dim.offset ds js) : is = js := by
  induction h generalizing is js with
  | nil =>
    cases hi
    cases hj
    rfl
  | @cons d ds n hs hsize hstride ih =>
    cases hi with
    | @cons _ _ i is hi₀ hi₁ hi =>
      cases hj with
      | @cons _ _ j js hj₀ hj₁ hj =>
        have hbi := hs.offset_bounds hi
        have hbj := hs.offset_bounds hj
        simp only [Dim.offset, hstride] at heq
        -- The rest of an offset is less than a stride, so equal offsets have equal first parts.
        have hfirst : i.toInt = j.toInt := by
          have h₁ : i.toInt = (i.toInt * n + Dim.offset ds is) / n := by
            rw [Int.add_comm, Int.add_mul_ediv_right _ _ (by omega),
              Int.ediv_eq_zero_of_lt hbi.1 hbi.2]
            omega
          have h₂ : j.toInt = (j.toInt * n + Dim.offset ds js) / n := by
            rw [Int.add_comm, Int.add_mul_ediv_right _ _ (by omega),
              Int.ediv_eq_zero_of_lt hbj.1 hbj.2]
            omega
          rw [h₁, h₂, heq]
        obtain rfl := Int64.toInt_inj.1 hfirst
        rw [ih hi hj (by omega)]

/-! ## Layout -/

theorem toInt_mul_of_bounds {a b : Int64} (h : -0x8000000000000000 ≤ a.toInt * b.toInt)
    (h' : a.toInt * b.toInt < 0x8000000000000000) : (a * b).toInt = a.toInt * b.toInt := by
  rw [Int64.toInt_mul]
  exact Int.bmod_eq_of_le (by omega) (by omega)

theorem toInt_div_of_pos {a b : Int64} (ha : 0 ≤ a.toInt) (hb : 1 ≤ b.toInt) :
    (a / b).toInt = a.toInt / b.toInt := by
  have h₁ : a.toInt.tdiv b.toInt = a.toInt / b.toInt := Int.tdiv_eq_ediv_of_nonneg ha
  have h₂ : 0 ≤ a.toInt / b.toInt := Int.ediv_nonneg ha (by omega)
  have h₃ : a.toInt / b.toInt ≤ a.toInt := Int.ediv_le_self _ ha
  have h₄ := Int64.toInt_lt a
  rw [Int64.toInt_div, h₁]
  exact Int.bmod_eq_of_le (by omega) (by omega)

/-- The quotient of the limit tells exactly whether there is room for one more dimension, and if
there is, the product does not overflow. -/
theorem room_iff {limit stride size : Int64} (hlimit : 0 ≤ limit.toInt) (hstride : 1 ≤ stride.toInt)
    (hsize : 1 ≤ size.toInt) :
    (¬ limit / stride < size ↔ size.toInt * stride.toInt ≤ limit.toInt) ∧
      (size.toInt * stride.toInt ≤ limit.toInt →
        (stride * size).toInt = size.toInt * stride.toInt) := by
  constructor
  · rw [Int64.not_lt, Int64.le_iff_toInt_le, toInt_div_of_pos hlimit hstride]
    exact Int.le_ediv_iff_mul_le (by omega)
  · intro hle
    have hpos : 0 < size.toInt * stride.toInt := Int.mul_pos hsize hstride
    have hbound := Int64.toInt_lt limit
    rw [Int64.mul_comm, toInt_mul_of_bounds (by omega) (by omega)]

theorem positive_of_not_le {size : Int64} : ¬ size ≤ 0 ↔ 1 ≤ size.toInt := by
  rw [Int64.not_le, Int64.lt_iff_toInt_lt]
  exact Iff.rfl

theorem foldl_mul_size (ds : List Dim) (k : Int64) :
    ds.foldl (fun n d => n * d.size) k = k * Dim.total ds := by
  unfold Dim.total
  induction ds generalizing k with
  | nil => simp
  | cons d ds ih =>
    simp only [List.foldl_cons]
    rw [ih (k * d.size), ih (1 * d.size), Int64.one_mul, Int64.mul_assoc]

/-- The dimensions of a declaration are in row-major order, with as many elements as the
layout says, and not more than the limit. -/
theorem Dim.layOut_strided {limit : Int64} (hlimit : 0 ≤ limit.toInt) {sizes : List Int64}
    {n : Int64} (h : Dim.layOut limit sizes = .ok (n, ds)) :
    Strided ds n.toInt ∧ (sizes ≠ [] → n.toInt ≤ limit.toInt) ∧ ds.map (·.size) = sizes ∧
      Dim.total ds = n := by
  induction sizes generalizing n ds with
  | nil =>
    obtain ⟨rfl, rfl⟩ := h
    exact ⟨.nil, fun h => absurd rfl h, rfl, rfl⟩
  | cons size sizes ih =>
    simp only [Dim.layOut] at h
    cases hr : Dim.layOut limit sizes with
    | error e => simp [hr] at h
    | ok r =>
      obtain ⟨stride, rest⟩ := r
      obtain ⟨hs, -, hmap, htotal⟩ := ih hr
      simp only [hr] at h
      split at h
      · cases h
      · rename_i hsize
        split at h
        · cases h
        · rename_i hmany
          obtain ⟨rfl, rfl⟩ := h
          have hsize' := positive_of_not_le.1 hsize
          obtain ⟨hroom, hmul⟩ := room_iff hlimit hs.positive hsize'
          have hprod := hroom.1 hmany
          refine ⟨?_, fun _ => ?_, by simp [hmap], ?_⟩
          · rw [hmul hprod]
            exact .cons hs hsize' rfl
          · rwa [hmul hprod]
          · rw [← htotal, Int64.mul_comm]
            simp only [Dim.total, List.foldl_cons, Int64.one_mul]
            exact foldl_mul_size rest size

/-! ## Elements -/

/-- Indices that were checked against some dimensions. -/
inductive Checked : List Index → List Dim → Prop
  | nil : Checked [] []
  | cons {i : Index} {is : List Index} {d : Dim} {ds : List Dim} :
      0 ≤ i.index.toInt → i.index.toInt < d.size.toInt → i.stride = d.stride → Checked is ds →
      Checked (i :: is) (d :: ds)

theorem Checked.within (h : Checked is ds) : Within ds (is.map (·.index)) := by
  induction h with
  | nil => exact .nil
  | cons h₀ h₁ _ _ ih => exact .cons h₀ h₁ ih

theorem Checked.length_eq (h : Checked is ds) : is.length = ds.length := by
  induction h with
  | nil => rfl
  | cons _ _ _ _ ih => simp [ih]

/-- Adding up indices times strides to an address, with no product and no sum beyond the machine
words. -/
inductive AddsUp : Int64 → List Index → Int64 → Prop
  | nil {a : Int64} : AddsUp a [] a
  | cons {a b : Int64} {i : Index} {is : List Index} :
      (i.index * i.stride).toInt = i.index.toInt * i.stride.toInt →
      (a + i.index * i.stride).toInt = a.toInt + i.index.toInt * i.stride.toInt →
      AddsUp (a + i.index * i.stride) is b → AddsUp a (i :: is) b

theorem AddsUp.toInt_eq {a b : Int64} (h : AddsUp a is b) (hc : Checked is ds) :
    b.toInt = a.toInt + Dim.offset ds (is.map (·.index)) := by
  induction h generalizing ds with
  | nil =>
    cases hc
    simp [Dim.offset]
  | cons _ hadd _ ih =>
    cases hc with
    | cons _ _ hstride hc =>
      rw [ih hc, hadd, hstride]
      simp only [List.map_cons, Dim.offset]
      omega

section

variable (h : Checked is ds) (hs : Strided ds n) {base : Int64} (hbase : 0 ≤ base.toInt)
  (hn : base.toInt + n ≤ 0x4000000000000000)

include h hs hbase hn

/-- The machine adds up the address of an element without overflow, as long as the array lies
in the lower half of the addresses. -/
theorem Checked.addsUp : AddsUp base is (is.foldl (fun a i => a + i.index * i.stride) base) := by
  induction h generalizing base n with
  | nil => exact .nil
  | @cons i is d ds h₀ h₁ hstride hc ih =>
    cases hs with
    | @cons _ _ n hs hsize hn' =>
      have hpos := hs.positive
      have h₂ : 0 ≤ i.index.toInt * n := Int.mul_nonneg h₀ (by omega)
      have h₃ : i.index.toInt * n + n ≤ d.size.toInt * n := by
        have := Int.mul_le_mul_of_nonneg_right (show i.index.toInt + 1 ≤ d.size.toInt by omega)
          (show 0 ≤ n by omega)
        rwa [Int.add_mul, Int.one_mul] at this
      have hmul : (i.index * i.stride).toInt = i.index.toInt * n := by
        rw [hstride, ← hn']
        apply toInt_mul_of_bounds <;> rw [hn'] <;> omega
      have hadd : (base + i.index * i.stride).toInt = base.toInt + i.index.toInt * n := by
        rw [toInt_add_of_bounds (by omega) (by omega), hmul]
      have hexact : i.stride.toInt = n := by rw [hstride, hn']
      exact .cons (by rw [hmul, hexact]) (by rw [hadd, hexact]) (ih hs (by omega) (by omega))

theorem Checked.foldl_eq :
    (is.foldl (fun a i => a + i.index * i.stride) base).toInt =
      base.toInt + Dim.offset ds (is.map (·.index)) :=
  (h.addsUp hs hbase hn).toInt_eq h

end

theorem Checked.append {is js : List Index} {ds es : List Dim} (h : Checked is ds)
    (h' : Checked js es) : Checked (is ++ js) (ds ++ es) := by
  induction h with
  | nil => exact h'
  | cons hlow hhigh hstride _ ih => exact .cons hlow hhigh hstride ih

/-- The indices of some dimensions are the first ones. -/
theorem Checked.split {es : List Dim} (h : Checked is (ds ++ es)) :
    ∃ js ks, is = js ++ ks ∧ Checked js ds ∧ Checked ks es := by
  induction ds generalizing is with
  | nil => exact ⟨[], is, rfl, .nil, h⟩
  | cons d ds ih =>
    cases h with
    | cons hlow hhigh hstride h =>
      obtain ⟨js, ks, rfl, hjs, hks⟩ := ih h
      exact ⟨_ :: js, ks, rfl, .cons hlow hhigh hstride hjs, hks⟩

theorem Checked.reverse (h : Checked is ds) : Checked is.reverse ds.reverse := by
  induction h with
  | nil => exact .nil
  | cons hlow hhigh hstride _ ih =>
    rw [List.reverse_cons, List.reverse_cons]
    exact ih.append (.cons hlow hhigh hstride .nil)

theorem Checked.drop (h : Checked is ds) (n : Nat) : Checked (is.drop n) (ds.drop n) := by
  induction h generalizing n with
  | nil =>
    rw [List.drop_nil, List.drop_nil]
    exact .nil
  | cons hlow hhigh hstride h ih =>
    cases n with
    | zero => exact .cons hlow hhigh hstride h
    | succ n => exact ih n

/-! ## Sizes -/

/-- The number of elements of an array with some sizes. -/
def volume : List Int64 → Int
  | [] => 1
  | size :: sizes => size.toInt * volume sizes

/-- The distance of an element from the first one in row-major order. -/
def rowMajor : List Int64 → List Int64 → Int
  | _ :: sizes, i :: is => i.toInt * volume sizes + rowMajor sizes is
  | _, _ => 0

/-- An index is one of those that a size allows. -/
def InRange (size i : Int64) : Prop := 0 ≤ i.toInt ∧ i.toInt < size.toInt

instance InRange.decidable (size i : Int64) : Decidable (InRange size i) :=
  inferInstanceAs (Decidable (0 ≤ i.toInt ∧ i.toInt < size.toInt))

/-- Indices with the strides of their dimensions. -/
def unfolded (ds : List Dim) (is : List Int64) : List Index :=
  List.zipWith (fun d i => ⟨i, d.stride⟩) ds is

/-- Indices of the first dimensions only. -/
theorem unfolded_append {is : List Int64} (h : ds.length = is.length) (es : List Dim) :
    unfolded (ds ++ es) is = unfolded ds is := by
  induction ds generalizing is with
  | nil =>
    obtain rfl := List.eq_nil_of_length_eq_zero h.symm
    simp [unfolded]
  | cons d ds ih =>
    cases is with
    | nil => cases h
    | cons i is => exact congrArg (List.cons _) (ih (Nat.succ.inj h))

theorem Strided.eq_volume (h : Strided ds n) : n = volume (ds.map (·.size)) := by
  induction h with
  | nil => rfl
  | cons _ _ _ ih => rw [List.map_cons, volume, ← ih]

theorem Strided.offset_eq (h : Strided ds n) (is : List Int64) :
    Dim.offset ds is = rowMajor (ds.map (·.size)) is := by
  induction h generalizing is with
  | nil => simp [Dim.offset, rowMajor]
  | cons hs _ hstride ih =>
    cases is with
    | nil => rfl
    | cons i is => rw [List.map_cons, rowMajor, Dim.offset, hstride, ih, ← hs.eq_volume]

theorem within_iff {is : List Int64} :
    Within ds is ↔ List.Forall₂ InRange (ds.map (·.size)) is := by
  constructor
  · intro h
    induction h with
    | nil => exact .nil
    | cons hlow hhigh _ ih => exact .cons ⟨hlow, hhigh⟩ ih
  · intro h
    induction ds generalizing is with
    | nil =>
      cases h
      exact .nil
    | cons d ds ih =>
      cases h with
      | cons hi h => exact .cons hi.1 hi.2 (ih h)

theorem Within.checked {is : List Int64} (h : Within ds is) : Checked (unfolded ds is) ds := by
  induction h with
  | nil => exact .nil
  | cons hlow hhigh _ ih => exact .cons hlow hhigh rfl ih

theorem Within.map_unfolded {is : List Int64} (h : Within ds is) :
    (unfolded ds is).map (·.index) = is := by
  induction h with
  | nil => rfl
  | cons _ _ _ ih => exact congrArg (List.cons _) ih

/-- Dimensions in row-major order are those of a declaration with their sizes. -/
theorem Strided.layOut_eq {limit : Int64} (h : Strided ds n) (hn : n ≤ limit.toInt) :
    ∃ total : Int64, total.toInt = n ∧ Dim.layOut limit (ds.map (·.size)) = .ok (total, ds) := by
  induction h with
  | nil => exact ⟨1, rfl, rfl⟩
  | @cons d ds n hs hsize hstride ih =>
    have hpos := hs.positive
    have hle : n ≤ d.size.toInt * n := by
      have := Int.mul_le_mul_of_nonneg_right hsize (show 0 ≤ n by omega)
      rwa [Int.one_mul] at this
    obtain ⟨total, rfl, hrest⟩ := ih (by omega)
    obtain rfl : d.stride = total := Int64.toInt_inj.1 hstride
    obtain ⟨hroom, hmul⟩ := room_iff (show 0 ≤ limit.toInt by omega) hpos hsize
    refine ⟨d.stride * d.size, hmul hn, ?_⟩
    rw [List.map_cons, Dim.layOut, hrest]
    simp only [if_neg (positive_of_not_le.2 hsize), if_neg (hroom.2 hn)]

/-! ## Exact products -/

variable {sizes : List Int64}

theorem volume_append (xs ys : List Int64) : volume (xs ++ ys) = volume xs * volume ys := by
  induction xs with
  | nil => simp [volume]
  | cons x xs ih => rw [List.cons_append, volume, volume, ih, Int.mul_assoc]

theorem volume_pos (h : ∀ s ∈ sizes, 0 < s.toInt) : 0 < volume sizes := by
  induction sizes with
  | nil => decide
  | cons s sizes ih =>
    obtain ⟨hs, h⟩ := List.forall_mem_cons.1 h
    exact Int.mul_pos hs (ih h)

theorem Strided.sizes_pos (h : Strided ds n) : ∀ s ∈ ds.map (·.size), 0 < s.toInt := by
  induction h with
  | nil => simp
  | cons _ hsize _ ih => exact List.forall_mem_cons.2 ⟨hsize, ih⟩

/-- A part of the product is at most the product. -/
theorem volume_part_le {xs ys : List Int64} (h : ∀ s ∈ xs ++ ys, 0 < s.toInt) :
    volume xs ≤ volume (xs ++ ys) ∧ volume ys ≤ volume (xs ++ ys) := by
  obtain ⟨hxs, hys⟩ := List.forall_mem_append.1 h
  have hx := volume_pos hxs
  have hy := volume_pos hys
  have hright := Int.mul_le_mul_of_nonneg_left (show 1 ≤ volume ys from hy) (Int.le_of_lt hx)
  have hleft := Int.mul_le_mul_of_nonneg_right (show 1 ≤ volume xs from hx) (Int.le_of_lt hy)
  rw [volume_append]
  omega

/-- Positive sizes have dimensions in row-major order if their product is a word. -/
theorem strided_of_positive (h : ∀ s ∈ sizes, 0 < s.toInt)
    (hsmall : volume sizes < 0x8000000000000000) :
    ∃ ds, Strided ds (volume sizes) ∧ ds.map (·.size) = sizes := by
  induction sizes with
  | nil => exact ⟨[], .nil, rfl⟩
  | cons s sizes ih =>
    obtain ⟨hs, hrest⟩ := List.forall_mem_cons.1 h
    have hle := (@volume_part_le [s] sizes h).2
    have hpos := volume_pos hrest
    obtain ⟨ds, hds, hmap⟩ := ih hrest (Int.lt_of_le_of_lt hle hsmall)
    have hstride : (Int64.ofInt (volume sizes)).toInt = volume sizes :=
      Int64.toInt_ofInt_of_le (by omega) (Int.lt_of_le_of_lt hle hsmall)
    exact ⟨⟨s, Int64.ofInt (volume sizes)⟩ :: ds, .cons hds hs hstride, by simp [hmap]⟩

theorem Strided.stride_eq (h : Strided ds n) {i : Nat} {d : Dim} (hd : ds[i]? = some d) :
    d.stride.toInt = volume ((ds.map (·.size)).drop (i + 1)) := by
  induction h generalizing i with
  | nil => simp at hd
  | cons hs _ hstride ih =>
    cases i with
    | zero =>
      obtain rfl := Option.some.inj hd
      exact hstride.trans hs.eq_volume
    | succ i => exact ih hd

section

variable (h : ∀ s ∈ ds.map (·.size), 0 < s.toInt)
  (hsmall : volume (ds.map (·.size)) < 0x8000000000000000)

include h hsmall

theorem toInt_total : (Dim.total ds).toInt = volume (ds.map (·.size)) := by
  induction ds with
  | nil => rfl
  | cons d ds ih =>
    have hle := (@volume_part_le [d.size] (ds.map Dim.size) h).2
    have hpos := volume_pos h
    have hrest := ih (List.forall_mem_cons.1 h).2 (Int.lt_of_le_of_lt hle hsmall)
    have htotal : Dim.total (d :: ds) = d.size * Dim.total ds := by
      rw [← foldl_mul_size, Dim.total, List.foldl_cons, Int64.one_mul]
    rw [List.map_cons, volume] at hpos hsmall ⊢
    rw [htotal, toInt_mul_of_bounds (by rw [hrest]; omega) (by rw [hrest]; omega), hrest]

/-- The products of the first sizes are exact as long as the whole one is. -/
theorem total_prefix (i : Nat) :
    (Dim.total (ds.take i)).toInt = volume ((ds.map (·.size)).take i) := by
  have hsplit : ds.map (·.size) = (ds.take i).map (·.size) ++ (ds.drop i).map (·.size) := by
    rw [← List.map_append, List.take_append_drop]
  rw [hsplit] at h hsmall
  rw [toInt_total (fun s hs => h s (List.mem_append_left _ hs))
    (Int.lt_of_le_of_lt (volume_part_le h).1 hsmall), List.map_take]

end

/-- Sizes are accepted exactly if all are positive and their product is at most the limit. Then each
dimension has its size, and the product of the sizes behind it as its stride, and the size of a
symbol with these dimensions is the product. No quotient or product on the way overflows, and none
is a quotient by zero. -/
theorem dimensions_exact {limit : Int64} (hlimit : 0 ≤ limit.toInt) {sizes : List Int64}
    (hne : sizes ≠ []) :
    ((∃ r, Dim.layOut limit sizes = .ok r) ↔
      (∀ s ∈ sizes, 0 < s.toInt) ∧ volume sizes ≤ limit.toInt) ∧
    (∀ n ds, Dim.layOut limit sizes = .ok (n, ds) → ds.map (·.size) = sizes ∧
      (∀ i d, ds[i]? = some d → d.stride.toInt = volume (sizes.drop (i + 1)) ∧
        (Dim.total (ds.take i) * d.size).toInt = (Dim.total (ds.take i)).toInt * d.size.toInt) ∧
      ∀ sym : Symbol, sym.dims = ds → sym.size.toInt = volume sizes) ∧
    ∀ size rest stride ds, size :: rest <:+ sizes → Dim.layOut limit rest = .ok (stride, ds) →
      stride ≠ 0 ∧ (limit / stride).toInt = limit.toInt / stride.toInt ∧
        (¬ size ≤ 0 → ¬ limit / stride < size →
          (stride * size).toInt = stride.toInt * size.toInt) := by
  have hbound := Int64.toInt_lt limit
  have hgood : ∀ n ds, Dim.layOut limit sizes = .ok (n, ds) → Strided ds (volume sizes) ∧
      volume sizes ≤ limit.toInt ∧ ds.map (·.size) = sizes := by
    intro n ds h
    obtain ⟨hs, hle, hmap, -⟩ := Dim.layOut_strided hlimit h
    have hn := hs.eq_volume
    rw [hmap] at hn
    exact ⟨hn ▸ hs, hn ▸ hle hne, hmap⟩
  refine ⟨⟨?_, ?_⟩, ?_, ?_⟩
  · rintro ⟨⟨n, ds⟩, h⟩
    obtain ⟨hs, hle, hmap⟩ := hgood n ds h
    exact ⟨hmap ▸ hs.sizes_pos, hle⟩
  · rintro ⟨hpos, hle⟩
    obtain ⟨ds, hs, hmap⟩ := strided_of_positive hpos (by omega)
    obtain ⟨total, -, h⟩ := hs.layOut_eq hle
    exact ⟨_, hmap ▸ h⟩
  · intro n ds h
    obtain ⟨hs, hle, rfl⟩ := hgood n ds h
    have hprefix := total_prefix hs.sizes_pos (by omega)
    refine ⟨rfl, fun i d hd => ⟨hs.stride_eq hd, ?_⟩, ?_⟩
    · have hnext : Dim.total (ds.take i) * d.size = Dim.total (ds.take (i + 1)) := by
        rw [List.take_add_one, hd, Dim.total, Dim.total, List.foldl_append]
        rfl
      rw [hnext, hprefix, hprefix, List.take_add_one, List.getElem?_map, hd, volume_append]
      simp [volume]
    · rintro sym rfl
      have hall := hprefix sym.dims.length
      rwa [List.take_length, List.take_of_length_le (by simp)] at hall
  · intro size rest stride ds hsuffix h
    have hpos := (Dim.layOut_strided hlimit h).1.positive
    refine ⟨?_, toInt_div_of_pos hlimit hpos, fun hsize hroom => ?_⟩
    · rintro rfl
      exact absurd hpos (by decide)
    · obtain ⟨hiff, hmul⟩ := room_iff hlimit hpos (positive_of_not_le.1 hsize)
      rw [hmul (hiff.1 hroom), Int.mul_comm]

/-- An array whose number of elements would be zero as a word is refused, and one that fills the
limit is laid out. -/
theorem huge_dimensions :
    (¬ ∃ r, Dim.layOut 0x7FFFFFFFFFFFFFFF [0x4000000000000000, 4] = .ok r) ∧
      Dim.layOut 5000 [5, 1000] = .ok (5000, [⟨5, 1000⟩, ⟨1000, 1⟩]) ∧
        (Dim.total [⟨5, 1000⟩, ⟨1000, 1⟩]).toInt = 5000 := by
  refine ⟨?_, by decide, ?_⟩
  · intro h
    obtain ⟨-, hle⟩ := (@dimensions_exact 0x7FFFFFFFFFFFFFFF (by decide)
      [0x4000000000000000, 4] (by simp)).1.1 h
    exact absurd hle (by decide)
  · obtain ⟨-, -, hsize⟩ := (@dimensions_exact 5000 (by decide) [5, 1000] (by simp)).2.1
      5000 [⟨5, 1000⟩, ⟨1000, 1⟩] (by decide)
    exact hsize { name := [], kind := .record, type := .value .int, dims := [⟨5, 1000⟩, ⟨1000, 1⟩] }
      rfl

end Quadlang
