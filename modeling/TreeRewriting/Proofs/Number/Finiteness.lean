/-
TreeRewriting/Proofs/Number/Finiteness.lean

Operations that lead from finite numbers to finite numbers.

Design.  What is not finite is told by the exponent of its word.  Negation turns
the sign and leaves the exponent alone.  Any other operation computes its result
exactly, rounds it, and packs it into a word.  Packing makes an infinity of what
has too large an exponent, and of nothing else (`InRange`).  Rounding may raise
the exponent.  To say when it does not raise it too far, magnitudes are counted in
units of the smallest positive number: rounding adds at most half a last place,
and a magnitude that stays below the first power of two without a number by more
than that is rounded to a number (`Small`).  The largest numbers stay below that
power by a whole last place, so there is room for what is small against it
(`inRange_sub`).

Main results: `isFinite_neg` and `isFinite_sub_one`.
-/
import TreeRewriting.Proofs.Number.Comparison

namespace TreeRewriting.Number

open Float.Model Float.Model.UnpackedFloat

/-! ### Packing -/

/-- The number stays finite when it is packed: it is a zero, or its exponent is not too
large. -/
def InRange : UnpackedFloat → Prop
  | .zero _ => True
  | .finite _ _ e _ => e ≤ 971
  | .infinity _ | .notANumber => False

/-- What is not finite is told by its exponent. -/
theorem isFinite_unpacked_iff {w : Word} :
    (unpacked w).isFinite = true ↔
      unpackExponent w ≠ -BitVec.ofNat Format.binary64.exponentBits 1 := by
  rw [unpacked, UnpackedFloat.unpack]
  split_ifs with hmax hm hzero hm
  · exact iff_of_false Bool.false_ne_true (not_not_intro hmax)
  · exact iff_of_false Bool.false_ne_true (not_not_intro hmax)
  · exact iff_of_true rfl hmax
  · exact iff_of_true rfl hmax
  · exact iff_of_true rfl hmax

/-- The parts of a finite number are bounded. -/
theorem bounds_of_unpacked {w : Word} {s : Sign} {m : Nat} {e : Int} {hm : 0 < m}
    (h : unpacked w = .finite s m e hm) : m < 2 ^ 53 ∧ -1074 ≤ e ∧ e ≤ 971 := by
  have hmantissa : (unpackMantissa w).toNat < 2 ^ 52 := (unpackMantissa w).isLt
  have hexponent : (unpackExponent w).toNat < 2 ^ 11 := (unpackExponent w).isLt
  have hlead := toNat_leadingBit (unpackMantissa w)
  have hbias := bias_eq
  rw [unpacked, UnpackedFloat.unpack] at h
  split_ifs at h with hmax hm hzero hm
  · have hzero : (unpackExponent w).toNat = 0 := congrArg BitVec.toNat hzero
    cases h
    omega
  · have hmax : (unpackExponent w).toNat ≠ 2047 := fun h => hmax (BitVec.eq_of_toNat_eq h)
    have hzero : (unpackExponent w).toNat ≠ 0 := fun h => hzero (BitVec.eq_of_toNat_eq h)
    cases h
    omega

theorem isFinite_pack {u : UnpackedFloat} (h : InRange u) :
    (unpacked (UnpackedFloat.pack Format.binary64 u)).isFinite = true := by
  have hbias := bias_eq
  rw [isFinite_unpacked_iff]
  fun_cases UnpackedFloat.pack Format.binary64 u with
  | case1 => cases h
  | case2 => cases h
  | case3 s =>
    rw [packedZero, unpackExponent_packComponents]
    decide
  | case4 s m e hm biased hlarge =>
    have he : e ≤ 971 := h
    have hlarge : 2 ^ 11 ≤ biased + 1 := hlarge
    omega
  | case5 s m e hm bits biased hfits =>
    rw [unpackExponent_packComponents]
    intro hmax
    have hmax : biased % 2 ^ 11 = 2047 := congrArg BitVec.toNat hmax
    have hfits : ¬ 2 ^ 11 ≤ biased + 1 := hfits
    omega
  | case6 =>
    rw [unpackExponent_packComponents]
    decide

/-! ### The mantissa -/

/-- Twice the mantissa, with the bit that rounding looks at first. -/
def doubled (em : ExtendedMantissa) : Nat := 2 * em.mantissa + em.roundBit.toNat

/-- Rounding adds at most a half. -/
theorem roundedMantissa_le (em : ExtendedMantissa) : 2 * em.roundedMantissa ≤ doubled em + 1 := by
  obtain ⟨m, round, sticky⟩ := em
  cases round <;> cases sticky
  · show 2 * m ≤ 2 * m + 0 + 1
    omega
  · show 2 * m ≤ 2 * m + 0 + 1
    omega
  · show 2 * (m + m % 2) ≤ 2 * m + 1 + 1
    omega
  · show 2 * (m + 1) ≤ 2 * m + 1 + 1
    omega

theorem doubled_shiftRightOne (em : ExtendedMantissa) :
    doubled em.shiftRightOne = em.mantissa := by
  show 2 * (em.mantissa / 2) + (em.mantissa % 2 != 0).toNat = em.mantissa
  rcases Nat.mod_two_eq_zero_or_one em.mantissa with hbit | hbit <;> rw [hbit]
  · show 2 * (em.mantissa / 2) + 0 = em.mantissa
    omega
  · show 2 * (em.mantissa / 2) + 1 = em.mantissa
    omega

/-- Shifting adds nothing. -/
theorem doubled_shiftRight_le (em : ExtendedMantissa) (n : Nat) :
    doubled (em >>> n) * 2 ^ n ≤ doubled em := by
  induction n with
  | zero => exact Nat.le_of_eq (Nat.mul_one _)
  | succ n ih =>
    have hstep : doubled (em >>> (n + 1)) = (em >>> n).mantissa := doubled_shiftRightOne _
    calc doubled (em >>> (n + 1)) * 2 ^ (n + 1)
        = 2 * (em >>> n).mantissa * 2 ^ n := by rw [hstep, Nat.pow_succ]; ring
      _ ≤ doubled (em >>> n) * 2 ^ n := Nat.mul_le_mul_right _ (Nat.le_add_right _ _)
      _ ≤ doubled em := ih

/-- A mantissa that is shifted and then rounded grows by at most half a last place. -/
theorem roundedMantissa_shiftRight_le (m n : Nat) :
    2 * ((ExtendedMantissa.ofMantissaAndAccuracy m .exact >>> n).roundedMantissa * 2 ^ n)
      ≤ 2 * m + 2 ^ n := by
  generalize hem : ExtendedMantissa.ofMantissaAndAccuracy m .exact = em
  have hdoubled : doubled em = 2 * m := by rw [← hem]; rfl
  calc 2 * ((em >>> n).roundedMantissa * 2 ^ n)
      = 2 * (em >>> n).roundedMantissa * 2 ^ n := (Nat.mul_assoc ..).symm
    _ ≤ (doubled (em >>> n) + 1) * 2 ^ n := Nat.mul_le_mul_right _ (roundedMantissa_le _)
    _ = doubled (em >>> n) * 2 ^ n + 2 ^ n := Nat.succ_mul ..
    _ ≤ 2 * m + 2 ^ n := Nat.add_le_add_right (hdoubled ▸ doubled_shiftRight_le em n) _

/-! ### Magnitudes -/

/-- A magnitude in units of the smallest positive number. -/
def magnitude (m : Nat) (e : Int) : Nat := m * 2 ^ (e + 1074).toNat

/-- The last place of the largest numbers is this power of two, in the same units. -/
def topPlace : Nat := 2045

theorem topPlace_eq : topPlace = 2045 := rfl

/-- Rounding does not reach the first power of two that has no number. -/
def Small (m : Nat) (e : Int) : Prop :=
  2 * magnitude m e + 2 ^ topPlace < 2 ^ (topPlace + 53 + 1)

theorem log2_add_lt {m k l : Nat} (hm : m ≠ 0) (h : 2 * (m * 2 ^ k) < 2 ^ (l + 1)) :
    m.log2 + k < l := by
  have hpow : 2 ^ (m.log2 + k + 1) < 2 ^ (l + 1) :=
    calc 2 ^ (m.log2 + k + 1) = 2 * (2 ^ m.log2 * 2 ^ k) := by rw [Nat.pow_succ', Nat.pow_add]
      _ ≤ 2 * (m * 2 ^ k) :=
        Nat.mul_le_mul_left _ (Nat.mul_le_mul_right _ (Nat.log2_self_le hm))
      _ < 2 ^ (l + 1) := h
  exact Nat.lt_of_succ_lt_succ ((Nat.pow_lt_pow_iff_right (Nat.lt_succ_self 1)).mp hpow)

/-- A number has 53 bits, unless they lie below the last place of the smallest numbers. -/
theorem targetExponent_eq (m : Nat) (e : Int) :
    Format.binary64.targetExponent (totalExponent m e) = max (m.log2 + e - 52) (-1074) := by
  rw [Format.targetExponent, totalExponent]
  show max (_ - ((1 + 52 : Nat) : Int)) (3 - 2 ^ 10 - ((1 + 52 : Nat) : Int)) = _
  omega

theorem Small.targetExponent_le {m : Nat} {e : Int} (h : Small m e) (hhigh : e ≤ 971) :
    Format.binary64.targetExponent (totalExponent m e) ≤ 971 := by
  have htop := topPlace_eq
  rw [targetExponent_eq]
  by_cases hm : m = 0
  · have hlog : m.log2 = 0 := by rw [hm, Nat.log2_zero]
    omega
  · have hlog : m.log2 + (e + 1074).toNat < topPlace + 53 :=
      log2_add_lt hm (Nat.lt_of_le_of_lt (Nat.le_add_right _ _) h)
    omega

/-! ### Rounding -/

/-- Rounding keeps the exponent to which it shifts, or goes one further when the mantissa has
gained a bit. -/
theorem inRange_of_shifted {s : Sign} {m : Nat} {e e' : Int} {a : Accuracy}
    {em : ExtendedMantissa} (hshift : shiftToTargetExponent Format.binary64 m e a = (em, e'))
    (hlow : -1074 ≤ e') (hhigh : e' ≤ 971)
    (hlog : em.roundedMantissa ≠ 0 → em.roundedMantissa.log2 + e' ≤ 1023) :
    InRange (roundWithAccuracy Format.binary64 s m e a) := by
  rw [roundWithAccuracy, hshift]
  simp only [shiftToTargetExponent, shiftToExponent, targetExponent_eq]
  split_ifs with hzero
  · trivial
  · show _ ≤ (971 : Int)
    by_cases hq : em.roundedMantissa = 0
    · have hlog : em.roundedMantissa.log2 = 0 := by rw [hq, Nat.log2_zero]
      omega
    · have hlog := hlog hq
      omega

theorem inRange_roundWithAccuracy (s : Sign) {m : Nat} {e : Int} (hlow : -1074 ≤ e)
    (hhigh : e ≤ 971) (h : Small m e) :
    InRange (roundWithAccuracy Format.binary64 s m e .exact) := by
  have htop := topPlace_eq
  have htarget := h.targetExponent_le hhigh
  refine inRange_of_shifted rfl ?_ ?_ ?_
  · omega
  · omega
  generalize Format.binary64.targetExponent (totalExponent m e) = t at htarget ⊢
  generalize hn : (t - e).toNat = n
  have hrounded := roundedMantissa_shiftRight_le m n
  generalize (ExtendedMantissa.ofMantissaAndAccuracy m .exact >>> n).roundedMantissa = q at *
  intro hq
  -- what is added is half the last place of the result, at most that of the largest numbers
  have hplace : n + (e + 1074).toNat ≤ topPlace := by omega
  have hbound : 2 * (q * 2 ^ (n + (e + 1074).toNat)) < 2 ^ (topPlace + 53 + 1) :=
    calc 2 * (q * 2 ^ (n + (e + 1074).toNat))
        = 2 * (q * 2 ^ n) * 2 ^ (e + 1074).toNat := by rw [Nat.pow_add]; ring
      _ ≤ (2 * m + 2 ^ n) * 2 ^ (e + 1074).toNat := Nat.mul_le_mul_right _ hrounded
      _ = 2 * magnitude m e + 2 ^ (n + (e + 1074).toNat) := by rw [magnitude, Nat.pow_add]; ring
      _ ≤ 2 * magnitude m e + 2 ^ topPlace :=
        Nat.add_le_add_left (Nat.pow_le_pow_right Nat.two_pos hplace) _
      _ < 2 ^ (topPlace + 53 + 1) := h
  have hlog := log2_add_lt hq hbound
  omega

/-- Going down to a smaller exponent keeps the magnitude. -/
theorem magnitude_shiftLeft (m : Nat) {e t : Int} (he : -1074 ≤ e) (ht : -1074 ≤ t) :
    magnitude (m <<< (e - t).toNat) (min e t) = magnitude m e := by
  rw [magnitude, magnitude, Nat.shiftLeft_eq, Nat.mul_assoc, ← Nat.pow_add]
  congr 2
  omega

theorem inRange_round (s : Sign) {m : Nat} {e : Int} (hlow : -1074 ≤ e) (hhigh : e ≤ 971)
    (h : Small m e) : InRange (UnpackedFloat.round Format.binary64 s m e) := by
  have htarget := targetExponent_eq m e
  rw [UnpackedFloat.round]
  generalize Format.binary64.targetExponent (totalExponent m e) = t at htarget ⊢
  have hexponent : e - ↑(e - t).toNat = min e t := by omega
  simp only [decreaseExponent, hexponent]
  refine inRange_roundWithAccuracy s (by omega) (by omega) ?_
  rwa [Small, magnitude_shiftLeft m hlow (by omega)]

theorem inRange_normalize {m : Int} {e : Int} (z : Sign) (hlow : -1074 ≤ e) (hhigh : e ≤ 971)
    (h : Small m.natAbs e) : InRange (UnpackedFloat.normalize Format.binary64 m e z) := by
  rw [UnpackedFloat.normalize]
  split
  next hm =>
    have hm : m < 0 := compare_lt_iff_lt.mp hm
    have habs : (-m).toNat = m.natAbs := by omega
    rw [habs]
    exact inRange_round .negative hlow hhigh h
  next => trivial
  next hm =>
    have hm : 0 < m := compare_gt_iff_gt.mp hm
    have habs : m.toNat = m.natAbs := by omega
    rw [habs]
    exact inRange_round .positive hlow hhigh h

/-! ### Differences -/

/-- Taking away less than half the last place of the largest numbers leaves a number. -/
theorem inRange_sub {s s' : Sign} {m m' : Nat} {e e' : Int} {hm : 0 < m} {hm' : 0 < m'}
    (hmantissa : m < 2 ^ 53) (hlow : -1074 ≤ e) (hhigh : e ≤ 971) (hlow' : -1074 ≤ e')
    (hsmall : 2 * magnitude m' e' < 2 ^ topPlace) :
    InRange (UnpackedFloat.sub Format.binary64 (.finite s m e hm) (.finite s' m' e' hm')) := by
  have htop := topPlace_eq
  refine inRange_normalize .positive (by omega) (by omega) ?_
  have hmin : -1074 ≤ min e e' := by omega
  have hm₁ := magnitude_shiftLeft m hlow hmin
  have hm₂ := magnitude_shiftLeft m' hlow' hmin
  rw [min_eq_right (min_le_left e e')] at hm₁
  rw [min_eq_right (min_le_right e e')] at hm₂
  generalize m <<< (e - min e e').toNat = m₁ at hm₁ ⊢
  generalize m' <<< (e' - min e e').toNat = m₂ at hm₂ ⊢
  have habs : (s.apply ↑m₁ - s'.apply ↑m₂).natAbs ≤ m₁ + m₂ := by
    cases s <;> cases s' <;> simp only [Sign.apply] <;> omega
  have hplace : 2 ^ (e + 1074).toNat ≤ 2 ^ topPlace :=
    Nat.pow_le_pow_right Nat.two_pos (by omega)
  -- the first operand leaves a last place free, and half of it is enough for rounding
  have hfirst : magnitude m e ≤ (2 ^ 53 - 1) * 2 ^ topPlace :=
    Nat.mul_le_mul (by omega) hplace
  have hsum : magnitude (s.apply ↑m₁ - s'.apply ↑m₂).natAbs (min e e')
      ≤ magnitude m e + magnitude m' e' :=
    calc _ ≤ (m₁ + m₂) * 2 ^ (min e e' + 1074).toNat := Nat.mul_le_mul_right _ habs
      _ = magnitude m₁ (min e e') + magnitude m₂ (min e e') := Nat.add_mul ..
      _ = magnitude m e + magnitude m' e' := by rw [hm₁, hm₂]
  rw [Small, Nat.add_assoc, Nat.pow_add]
  omega

/-! ### Operations -/

theorem isFinite_eq (x : Number) : x.isFinite = x.unpack.isFinite :=
  congrArg UnpackedFloat.isFinite (unpack_toFloat x)

theorem isNaN_eq (x : Number) : x.isNaN = x.unpack.isNaN :=
  congrArg UnpackedFloat.isNaN (unpack_toFloat x)

theorem isNaN_of_isFinite {x : Number} (h : x.isFinite = true) : x.isNaN = false := by
  rw [isFinite_eq] at h
  rw [isNaN_eq]
  cases hx : x.unpack with
  | notANumber =>
    rw [hx] at h
    cases h
  | _ => rfl

/-- The sign bit is no part of the exponent. -/
theorem unpackExponent_xor_sign (w : Word) :
    unpackExponent (w ^^^ 0x8000000000000000) = unpackExponent w := by
  have hsign : BitVec.extractLsb 62 52 (0x8000000000000000 : Word) = 0 := rfl
  have hfield : BitVec.extractLsb 62 52 (w ^^^ 0x8000000000000000) = BitVec.extractLsb 62 52 w := by
    rw [BitVec.extractLsb_xor, hsign]
    exact BitVec.xor_zero
  exact congrArg (BitVec.cast rfl) hfield

/-- The inverse of a finite number is finite. -/
theorem isFinite_neg {x : Number} (h : x.isFinite = true) : (-x).isFinite = true := by
  rw [isFinite_eq, unpack, isFinite_unpacked_iff] at h ⊢
  rwa [← unpackExponent_xor_sign] at h

/-- Finite operands are not passed on. -/
theorem lift_of_isFinite (f : Float → Float → Float) {x y : Number} (hx : x.isFinite = true)
    (hy : y.isFinite = true) : lift f x y = ofFloat (f x.toFloat y.toFloat) := by
  rw [lift, isNaN_of_isFinite hx, isNaN_of_isFinite hy]
  rfl

/-! ### Constants -/

@[simp] theorem isFinite_zero : (0 : Number).isFinite = true := by decide +kernel

@[simp] theorem isFinite_one : (1 : Number).isFinite = true := by decide +kernel

@[simp] theorem isFinite_two : (2 : Number).isFinite = true := by decide +kernel

@[simp] theorem isFinite_neg_one : (-1 : Number).isFinite = true := isFinite_neg isFinite_one

theorem unpack_one : (1 : Number).unpack = .finite .positive (2 ^ 52) (-52) (by decide) :=
  rfl

/-- One less than a finite number is finite. -/
theorem isFinite_sub_one {x : Number} (h : x.isFinite = true) : (x - 1).isFinite = true := by
  have hsub : x - 1 = ofFloat (x.toFloat - (1 : Number).toFloat) :=
    lift_of_isFinite _ h isFinite_one
  rw [isFinite_eq] at h
  rw [hsub, isFinite_eq]
  apply isFinite_pack
  show InRange (UnpackedFloat.sub Format.binary64 x.toFloat.toModel.unpack
    (1 : Number).toFloat.toModel.unpack)
  rw [unpack_toFloat, unpack_toFloat, unpack_one]
  rcases hx : x.unpack with s | - | s | ⟨s, m, e, hm⟩
  · rw [hx] at h
    cases h
  · rw [hx] at h
    cases h
  · show (-52 : Int) ≤ 971
    decide
  · obtain ⟨hmantissa, hlow, hhigh⟩ := bounds_of_unpacked hx
    refine inRange_sub hmantissa hlow hhigh (by decide) ?_
    rw [magnitude, ← Nat.pow_add, ← Nat.pow_succ']
    exact Nat.pow_lt_pow_right (Nat.lt_succ_self 1) (by decide)

end TreeRewriting.Number
