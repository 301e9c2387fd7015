-- Equality and order of floating-point numbers: numbers that are equal as numbers are the same
-- number, or zeros, and no two numbers are each less than the other. Of the integers only zero is
-- rounded to a zero.
import Quadlang.Value

namespace Quadlang

open Float.Model UnpackedFloat

/-! ## Comparison -/

theorem UnpackedFloat.eq_of_compare {a b : UnpackedFloat} (h : a.compare b = some .eq) :
    a = b ∨ ∃ s s', a = .zero s ∧ b = .zero s' := by
  have hthen : ∀ {e e' : Int} {m m' : Nat}, (compare e e').then (compare m m') = .eq →
      e = e' ∧ m = m' := by
    intro e e' m m' h
    rw [Ordering.then_eq_eq] at h
    exact ⟨Int.compare_eq_eq.1 h.1, Nat.compare_eq_eq.1 h.2⟩
  cases a with
  | notANumber => cases h
  | infinity s =>
    cases b with
    | infinity s' =>
      left
      cases s <;> cases s' <;> first | rfl | cases h
    | notANumber | zero | finite => cases s <;> cases h
  | zero s =>
    cases b with
    | zero s' => exact .inr ⟨s, s', rfl, rfl⟩
    | notANumber => cases h
    | infinity s' | finite s' => cases s' <;> cases h
  | finite s m e =>
    cases b with
    | notANumber => cases h
    | infinity s' => cases s' <;> cases h
    | zero s' => cases s <;> cases h
    | finite s' m' e' =>
      left
      cases s with
      | negative =>
        cases s' with
        | negative =>
          obtain ⟨rfl, rfl⟩ := hthen (Ordering.swap_eq_eq.1 (Option.some.inj h))
          rfl
        | positive => cases h
      | positive =>
        cases s' with
        | negative => cases h
        | positive =>
          obtain ⟨rfl, rfl⟩ := hthen (Option.some.inj h)
          rfl

theorem UnpackedFloat.compare_self {a : UnpackedFloat} (h : a.isNaN = false) :
    a.compare a = some .eq := by
  cases a with
  | notANumber => cases h
  | infinity s => cases s <;> rfl
  | zero => rfl
  | finite s m e =>
    have hthen : (compare e e).then (compare m m) = .eq := by
      rw [Std.compare_self, Std.compare_self]
      rfl
    cases s with
    | negative => exact congrArg (fun o => some o.swap) hthen
    | positive => exact congrArg some hthen

theorem UnpackedFloat.compare_swap (a b : UnpackedFloat) :
    b.compare a = (a.compare b).map Ordering.swap := by
  have hthen : ∀ (e e' : Int) (m m' : Nat),
      (compare e' e).then (compare m' m) = ((compare e e').then (compare m m')).swap := by
    intro e e' m m'
    rw [Ordering.swap_then, Int.compare_swap, Nat.compare_swap]
  cases a with
  | notANumber => cases b <;> rfl
  | infinity s =>
    cases b with
    | infinity s' => cases s <;> cases s' <;> rfl
    | notANumber | zero | finite => cases s <;> rfl
  | zero s =>
    cases b with
    | notANumber | zero => rfl
    | infinity s' | finite s' => cases s' <;> rfl
  | finite s m e =>
    cases b with
    | notANumber => cases s <;> rfl
    | infinity s' => cases s' <;> cases s <;> rfl
    | zero s' => cases s <;> rfl
    | finite s' m' e' =>
      cases s <;> cases s'
      · exact congrArg (fun o => some o.swap) (hthen e e' m m')
      · rfl
      · rfl
      · exact congrArg some (hthen e e' m m')

theorem compare_of_float_lt {x y : Float} (h : x < y) :
    x.toModel.unpack.compare y.toModel.unpack = some .lt := by
  have : (x.toModel.unpack.compare y.toModel.unpack == some .lt) = true := of_decide_eq_true h
  simpa using this

theorem float_lt_asymm {x y : Float} (h : x < y) : ¬ y < x := by
  intro h'
  have hswap := UnpackedFloat.compare_swap x.toModel.unpack y.toModel.unpack
  rw [compare_of_float_lt h, compare_of_float_lt h'] at hswap
  cases hswap

/-! ## Bits -/

theorem finite_congr {s : Sign} {m m' : Nat} {e e' : Int} {h : 0 < m} {h' : 0 < m'} (hm : m = m')
    (he : e = e') : UnpackedFloat.finite s m e h = .finite s m' e' h' := by
  subst hm he
  rfl

/-- What bits stand for: their sign, and the number that the other bits are, which holds the
exponent and the mantissa. -/
theorem unpack_cases (b : BitVec Format.binary64.numBits) :
    ∃ (s : Sign) (n : Nat), (s = .positive ∧ b.toNat = n ∨ s = .negative ∧
      b.toNat = 0x8000000000000000 + n) ∧
      ((n = 2047 * 0x10000000000000 ∧ unpack .binary64 b = .infinity s) ∨
        (unpackExponent b = -1#_ ∧ unpackMantissa b ≠ 0#_ ∧ unpack .binary64 b = .notANumber) ∨
        (n = 0 ∧ unpack .binary64 b = .zero s) ∨
        (n < 0x10000000000000 ∧ ∃ h, unpack .binary64 b = .finite s n (-1074) h) ∨
        ∃ h, unpack .binary64 b = .finite s (0x10000000000000 + n % 0x10000000000000)
          ((n / 0x10000000000000 : Nat) - 1075) h) := by
  have hwidth : b.toNat < 0x10000000000000000 := b.isLt
  obtain ⟨n, hn⟩ : ∃ n, n = b.toNat % 0x8000000000000000 := ⟨_, rfl⟩
  have hexp : (unpackExponent b).toNat = n / 0x10000000000000 := by
    simp [unpackExponent, Nat.shiftRight_eq_div_pow]
    omega
  have hman : (unpackMantissa b).toNat = n % 0x10000000000000 := by
    simp [unpackMantissa]
    omega
  have hsign : unpackSign b = 0#1 ↔ b.toNat < 0x8000000000000000 := by
    rw [← BitVec.toNat_inj]
    show (b.extractLsb 63 63).toNat = 0 ↔ _
    rw [BitVec.extractLsb_toNat, Nat.shiftRight_eq_div_pow]
    omega
  refine ⟨Sign.ofBitVec (unpackSign b), n, ?_, ?_⟩
  · unfold Sign.ofBitVec
    by_cases h : b.toNat < 0x8000000000000000
    · exact .inl ⟨if_pos (hsign.2 h), by omega⟩
    · exact .inr ⟨if_neg (mt hsign.1 h), by omega⟩
  have hfull : unpackExponent b = -1#_ ↔ n / 0x10000000000000 = 2047 := by
    rw [← hexp, ← BitVec.toNat_inj]
    exact Iff.rfl
  have hleast : unpackExponent b = 0#_ ↔ n / 0x10000000000000 = 0 := by
    rw [← hexp, ← BitVec.toNat_inj]
    exact Iff.rfl
  have hzero : unpackMantissa b = 0#_ ↔ n % 0x10000000000000 = 0 := by
    rw [← hman, ← BitVec.toNat_inj]
    exact Iff.rfl
  have hbias : ((Format.binary64.exponentBias : Nat) : Int) = 1023 := rfl
  unfold UnpackedFloat.unpack
  by_cases hexp₁ : n / 0x10000000000000 = 2047
  · rw [if_pos (hfull.2 hexp₁)]
    by_cases hman₁ : n % 0x10000000000000 = 0
    · rw [if_pos (hzero.2 hman₁)]
      exact .inl ⟨by omega, rfl⟩
    · rw [if_neg (mt hzero.1 hman₁)]
      exact .inr (.inl ⟨hfull.2 hexp₁, mt hzero.1 hman₁, rfl⟩)
  · rw [if_neg (mt hfull.1 hexp₁)]
    by_cases hexp₂ : n / 0x10000000000000 = 0
    · have hsame : n % 0x10000000000000 = n := by omega
      rw [if_pos (hleast.2 hexp₂)]
      by_cases hman₁ : n % 0x10000000000000 = 0
      · rw [dif_pos (hzero.2 hman₁)]
        exact .inr (.inr (.inl ⟨by omega, rfl⟩))
      · rw [dif_neg (mt hzero.1 hman₁)]
        refine .inr (.inr (.inr (.inl ⟨by omega, by omega, ?_⟩)))
        exact finite_congr (hman.trans hsame) (by simp only [hexp, hexp₂, hbias]; rfl)
    · rw [if_neg (mt hleast.1 hexp₂)]
      refine .inr (.inr (.inr (.inr ⟨by omega, ?_⟩)))
      have hone : (1#1 ++ unpackMantissa b).toNat = 0x10000000000000 + n % 0x10000000000000 := by
        rw [BitVec.toNat_append, hman, Nat.shiftLeft_eq]
        exact (Nat.two_pow_add_eq_or_of_lt (Nat.mod_lt _ (Nat.two_pow_pos 52)) 1).symm
      exact finite_congr hone (by simp only [hexp, hbias]; omega)

/-- Bits that stand for one number are the same. -/
theorem unpack_inj {b c : BitVec Format.binary64.numBits} (hb : Format.binary64.Valid b)
    (hc : Format.binary64.Valid c) (h : unpack .binary64 b = unpack .binary64 c) : b = c := by
  obtain ⟨s, n, hbits, hb'⟩ := unpack_cases b
  obtain ⟨s', n', hbits', hc'⟩ := unpack_cases c
  suffices hsame : s = s' ∧ n = n' ∨ b = c by
    rcases hsame with ⟨rfl, rfl⟩ | heq
    · apply BitVec.eq_of_toNat_eq
      rcases hbits with ⟨hs, hb⟩ | ⟨hs, hb⟩ <;> rcases hbits' with ⟨hs', hc⟩ | ⟨hs', hc⟩
      · rw [hb, hc]
      · cases hs.symm.trans hs'
      · cases hs.symm.trans hs'
      · rw [hb, hc]
    · exact heq
  rcases hb' with ⟨hn, hb₁⟩ | ⟨hexp, hman, hb₁⟩ | ⟨hn, hb₁⟩ | ⟨hn, _, hb₁⟩ | ⟨_, hb₁⟩ <;>
    rcases hc' with ⟨hn', hc₁⟩ | ⟨hexp', hman', hc₁⟩ | ⟨hn', hc₁⟩ | ⟨hn', _, hc₁⟩ | ⟨_, hc₁⟩ <;>
    rw [hb₁, hc₁] at h <;> injection h
  · rename_i hs
    exact .inl ⟨hs, hn.trans hn'.symm⟩
  · exact .inr ((hb.eq_packedNaN hexp hman).trans (hc.eq_packedNaN hexp' hman').symm)
  · rename_i hs
    exact .inl ⟨hs, hn.trans hn'.symm⟩
  all_goals
    rename_i hs hm he
    exact .inl ⟨hs, by omega⟩

theorem eq_of_unpack {x y : Float} (h : x.toModel.unpack = y.toModel.unpack) : x = y := by
  obtain ⟨⟨bits, hbits⟩⟩ := x
  obtain ⟨⟨bits', hbits'⟩⟩ := y
  obtain rfl : bits = bits' := UInt64.toBitVec_inj.1 (unpack_inj hbits hbits' h)
  rfl

/-- Numbers that are equal are the same, or zeros. -/
theorem eq_or_zero_of_beq {x y : Float} (h : (x == y) = true) :
    x = y ∨ ∃ s s', x.toModel.unpack = .zero s ∧ y.toModel.unpack = .zero s' := by
  have hcompare : x.toModel.unpack.compare y.toModel.unpack = some .eq := by
    have : (x.toModel.unpack.compare y.toModel.unpack == some .eq) = true := h
    simpa using this
  exact (UnpackedFloat.eq_of_compare hcompare).imp_left eq_of_unpack

/-- The bits of a number that is not negative. -/
def Unsigned (x : Float) : Prop := x.toBits.toNat < 0x8000000000000000

/-! ## Numbers without a sign -/

/-- A number is not negative, or none at all. -/
def Positive : UnpackedFloat → Prop
  | .notANumber => True
  | .infinity s | .zero s | .finite s _ _ _ => s = .positive

theorem msb_packComponents (e : BitVec 11) (m : BitVec 52) :
    (packComponents .binary64 .positive e m).msb = false := by
  have houter := @BitVec.msb_append (1 + 11) 52 (0#1 ++ e) m
  have hinner := @BitVec.msb_append 1 11 0#1 e
  exact houter.trans hinner

theorem Positive.msb_pack {u : UnpackedFloat} (h : Positive u) :
    (UnpackedFloat.pack .binary64 u).msb = false := by
  cases u with
  | notANumber => exact msb_packComponents _ _
  | infinity s =>
    obtain rfl : s = .positive := h
    exact msb_packComponents _ _
  | zero s =>
    obtain rfl : s = .positive := h
    exact msb_packComponents _ _
  | finite s m e =>
    obtain rfl : s = .positive := h
    delta UnpackedFloat.pack
    dsimp only
    split
    · exact msb_packComponents _ _
    · split
      · exact msb_packComponents _ _
      · exact msb_packComponents _ _

theorem positive_unpack {b : BitVec Format.binary64.numBits} (hb : b.toNat < 0x8000000000000000) :
    Positive (unpack .binary64 b) := by
  obtain ⟨s, n, hbits, hcases⟩ := unpack_cases b
  have hs : s = .positive := hbits.elim And.left fun hneg => absurd hneg.2 (by omega)
  rcases hcases with ⟨-, h⟩ | ⟨-, -, h⟩ | ⟨-, h⟩ | ⟨-, _, h⟩ | ⟨_, h⟩ <;> rw [h]
  · exact hs
  · trivial
  · exact hs
  · exact hs
  · exact hs

/-- Numbers that are equal are the same if neither has a sign. -/
theorem Unsigned.eq_of_beq {x y : Float} (hx : Unsigned x) (hy : Unsigned y) (h : (x == y) = true) :
    x = y := by
  rcases eq_or_zero_of_beq h with heq | ⟨s, s', hzero, hzero'⟩
  · exact heq
  · have hs : Positive x.toModel.unpack := positive_unpack hx
    have hs' : Positive y.toModel.unpack := positive_unpack hy
    rw [hzero] at hs
    rw [hzero'] at hs'
    obtain rfl : s = .positive := hs
    obtain rfl : s' = .positive := hs'
    exact eq_of_unpack (hzero.trans hzero'.symm)

theorem unsigned_ofBits {n : UInt64} (h : n.toNat < 0x8000000000000000) :
    Unsigned (Float.ofBits n) := by
  have hmsb := (positive_unpack (show n.toBitVec.toNat < 0x8000000000000000 from h)).msb_pack
  rw [BitVec.msb_eq_false_iff_two_mul_lt] at hmsb
  show (UnpackedFloat.pack .binary64 _).toNat < 0x8000000000000000
  exact Nat.lt_of_mul_lt_mul_left hmsb

/-! ## Integers as floating-point numbers -/

theorem mantissa_shiftRight (em : ExtendedMantissa) (n : Nat) :
    (em >>> n).mantissa = em.mantissa / Nat.pow 2 n := by
  show (Nat.repeat ExtendedMantissa.shiftRightOne n em).mantissa = _
  induction n with
  | zero => simp [Nat.repeat]
  | succ n ih =>
    show (Nat.repeat ExtendedMantissa.shiftRightOne n em).mantissa / 2 = _
    rw [ih, Nat.div_div_eq_div_mul]
    rfl

theorem mantissa_le_rounded (em : ExtendedMantissa) : em.mantissa ≤ em.roundedMantissa := by
  unfold ExtendedMantissa.roundedMantissa Accuracy.roundToNearestEven
  split <;> grind

/-- Shifting leaves at least one bit of a number and at most the bits that a mantissa has. -/
theorem shiftToTargetExponent_bounds {m : Nat} {e : Int} (hm : 0 < m) (he : -52 ≤ e) :
    0 < (shiftToTargetExponent .binary64 m e .exact).1.mantissa ∧
      (shiftToTargetExponent .binary64 m e .exact).1.mantissa < 0x20000000000000 ∧
      -52 ≤ (shiftToTargetExponent .binary64 m e .exact).2 := by
  have htarget : Format.binary64.targetExponent (totalExponent m e) = max (m.log2 + e - 52)
    (-1074) := by
    show max ((m.log2 : Int) + 1 + e - 53) (-1074) = _
    omega
  have hshift : (Format.binary64.targetExponent (totalExponent m e) - e).toNat = m.log2 - 52 := by
    omega
  have hmantissa : (shiftToTargetExponent .binary64 m e .exact).1.mantissa =
      m / Nat.pow 2 (m.log2 - 52) := by
    rw [← hshift]
    exact mantissa_shiftRight _ _
  have hlow : Nat.pow 2 m.log2 ≤ m := Nat.log2_self_le (by omega)
  have hhigh : m < Nat.pow 2 (m.log2 + 1) := Nat.lt_log2_self
  have hle : Nat.pow 2 (m.log2 - 52) ≤ Nat.pow 2 m.log2 := Nat.pow_le_pow_right (by decide)
    (by omega)
  have hpos : 0 < Nat.pow 2 (m.log2 - 52) := Nat.two_pow_pos _
  refine ⟨?_, ?_, ?_⟩
  · rw [hmantissa]
    exact Nat.div_pos (Nat.le_trans hle hlow) hpos
  · have hsplit : Nat.pow 2 (53 + (m.log2 - 52)) = 0x20000000000000 * Nat.pow 2 (m.log2 - 52) :=
      Nat.pow_add 2 53 _
    rw [hmantissa, Nat.div_lt_iff_lt_mul hpos, ← hsplit]
    exact Nat.lt_of_lt_of_le hhigh (Nat.pow_le_pow_right (by decide) (by omega))
  · show -52 ≤ e + ((Format.binary64.targetExponent (totalExponent m e) - e).toNat : Int)
    omega

/-- An integer other than zero is not rounded to zero. -/
theorem round_finite (s : Sign) {k : Nat} (hk : 0 < k) :
    ∃ m e h, round .binary64 s k 0 = .finite s m e h ∧ m < 0x20000000000000 ∧ -52 ≤ e := by
  have htarget : Format.binary64.targetExponent (totalExponent k 0) = max ((k.log2 : Int) - 52)
    (-1074) := by
    show max ((k.log2 : Int) + 1 + 0 - 53) (-1074) = _
    omega
  obtain ⟨d, hd⟩ : ∃ d, d = (0 - Format.binary64.targetExponent (totalExponent k 0)).toNat :=
    ⟨_, rfl⟩
  -- The first shift makes room for all bits of the mantissa, the second takes up a carry.
  have hfirst := shiftToTargetExponent_bounds (m := k <<< d) (e := 0 - d)
    (by rw [Nat.shiftLeft_eq]; exact Nat.mul_pos hk (Nat.two_pow_pos d)) (by omega)
  have hsecond := shiftToTargetExponent_bounds
    (Nat.lt_of_lt_of_le hfirst.1 (mantissa_le_rounded _)) hfirst.2.2
  refine ⟨_, _, hsecond.1, ?_, hsecond.2⟩
  subst hd
  exact dif_neg (Nat.ne_of_gt hsecond.1)

theorem unpack_eq_zero {b : BitVec Format.binary64.numBits} {s : Sign}
    (h : unpack .binary64 b = .zero s) :
    unpackExponent b = 0#_ ∧ unpackMantissa b = 0#_ := by
  unfold UnpackedFloat.unpack at h
  by_cases hfull : unpackExponent b = -1#_
  · rw [if_pos hfull] at h
    split at h <;> cases h
  rw [if_neg hfull] at h
  by_cases hleast : unpackExponent b = 0#_
  · rw [if_pos hleast] at h
    by_cases hzero : unpackMantissa b = 0#_
    · exact ⟨hleast, hzero⟩
    · rw [dif_neg hzero] at h
      cases h
  · rw [if_neg hleast] at h
    cases h

/-- A number that has not too many bits is packed into bits that are not zero. -/
theorem unpack_pack_ne_zero {s s' : Sign} {m : Nat} {e : Int} {hm : 0 < m}
    (hlt : m < 0x20000000000000)
    (he : -52 ≤ e) : unpack .binary64 (UnpackedFloat.pack .binary64 (.finite s m e hm)) ≠
      .zero s' := by
  intro h
  obtain ⟨hexponent, hmantissa⟩ := unpack_eq_zero h
  delta UnpackedFloat.pack at hexponent hmantissa
  dsimp only at hexponent hmantissa
  have hbias : (e + (Format.binary64.exponentBias : Nat) + (52 : Nat)).toNat =
    (e + 1075).toNat := by
    show (e + 1023 + 52).toNat = _
    omega
  rw [hbias] at hexponent hmantissa
  split at hexponent
  · rw [UnpackedFloat.packedInfinity, unpackExponent_packComponents] at hexponent
    revert hexponent
    decide
  · rename_i hfinite
    rw [if_neg hfinite] at hmantissa
    split at hexponent
    · rw [unpackExponent_packComponents] at hexponent
      have hmod : (e + 1075).toNat % 2048 = 0 := congrArg BitVec.toNat hexponent
      omega
    · rename_i hlog
      rw [if_neg hlog, unpackMantissa_packComponents] at hmantissa
      have hmod : m % 0x10000000000000 = 0 := congrArg BitVec.toNat hmantissa
      have hne : m.log2 + 1 ≠ 53 := hlog
      have hlt' : m.log2 < 53 := (Nat.log2_lt (by omega)).2 hlt
      have hsmall : m < 0x10000000000000 := (Nat.log2_lt (k := 52) (by omega)).1 (by omega)
      omega

theorem unpack_nearest {n : Int64} (h : n ≠ 0) (s : Sign) :
    (Value.nearest n).toModel.unpack ≠ .zero s := by
  have hround : ∀ (sign : Sign) {k : Nat}, 0 < k →
      unpack .binary64 (UnpackedFloat.pack .binary64 (round .binary64 sign k 0)) ≠ .zero s := by
    intro sign k hk
    obtain ⟨m, e, hm, heq, hlt, he⟩ := round_finite sign hk
    rw [heq]
    exact unpack_pack_ne_zero hlt he
  have hne : n.toInt ≠ 0 := fun hzero => h (Int64.toInt_inj.1 hzero)
  show unpack .binary64 (UnpackedFloat.pack .binary64 (normalize .binary64 n.toInt 0 .positive)) ≠ _
  unfold UnpackedFloat.normalize
  split
  · rename_i hlt
    exact hround _ (by have := Int.compare_eq_lt.1 hlt; omega)
  · rename_i heq
    exact absurd (Int.compare_eq_eq.1 heq) hne
  · rename_i hgt
    exact hround _ (by have := Int.compare_eq_gt.1 hgt; omega)

/-- Only zero becomes a zero. -/
theorem nearest_beq_zero (n : Int64) : (Value.nearest n == 0) = true ↔ n = 0 := by
  constructor
  · intro h
    have hcompare : (Value.nearest n).toModel.unpack.compare (0 : Float).toModel.unpack =
      some .eq := by
      have : ((Value.nearest n).toModel.unpack.compare (0 : Float).toModel.unpack == some .eq) =
        true := h
      simpa using this
    have hzero : (0 : Float).toModel.unpack = .zero .positive := rfl
    apply Decidable.byContradiction
    intro hn
    rcases UnpackedFloat.eq_of_compare hcompare with heq | ⟨s, -, heq, -⟩
    · exact unpack_nearest hn _ (heq.trans hzero)
    · exact unpack_nearest hn s heq
  · rintro rfl
    decide +kernel

end Quadlang
