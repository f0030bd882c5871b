/-
TreeRewriting/Proofs/Number/Comparison.lean

What it means for two numbers to compare equal.

Design.  A word has three fields: a sign, an exponent and a mantissa.  To be
computed with it is unpacked, to a sign, a mantissa and an exponent as integers
or to one of the special values, and the result is packed into a word again.
Packing undoes unpacking (`pack_unpacked`), so numbers with the same value are
the same, and so are numbers that compare equal (`eq_of_beq`).  There are two
exceptions.  The two zeros compare equal, and their signs differ.  A not-a-number
loses its sign and its payload when it is unpacked, but compares equal to nothing.
-/
import Mathlib
import TreeRewriting.Number

namespace TreeRewriting.Number

open Float.Model Float.Model.UnpackedFloat

/-- The words that numbers are. -/
abbrev Word := BitVec Format.binary64.numBits

/-- The value of a word, unpacked. -/
abbrev unpacked (w : Word) : UnpackedFloat := UnpackedFloat.unpack Format.binary64 w

/-- The value of a number, unpacked. -/
def unpack (x : Number) : UnpackedFloat := unpacked x.bits.toBitVec

theorem bias_eq :
    Format.binary64.exponentBias + Format.binary64.mantissaBitsWithoutImplicit = 1075 := rfl

/-! ### Fields -/

/-- A word has nothing but its three fields. -/
theorem eq_of_fields {w w' : Word} (hs : unpackSign w = unpackSign w')
    (he : unpackExponent w = unpackExponent w') (hm : unpackMantissa w = unpackMantissa w') :
    w = w' := by
  have hs : (unpackSign w).toNat = (unpackSign w').toNat := congrArg BitVec.toNat hs
  have he : (unpackExponent w).toNat = (unpackExponent w').toNat := congrArg BitVec.toNat he
  have hm : (unpackMantissa w).toNat = (unpackMantissa w').toNat := congrArg BitVec.toNat hm
  -- as parts of the number that the word is in binary
  simp only [unpackSign, unpackExponent, unpackMantissa, BitVec.toNat_cast,
    BitVec.extractLsb_toNat, Nat.shiftRight_eq_div_pow] at hs he hm
  have hw : w.toNat < 2 ^ 64 := w.isLt
  have hw' : w'.toNat < 2 ^ 64 := w'.isLt
  apply BitVec.eq_of_toNat_eq
  omega

theorem toBitVec_ofBitVec (s : BitVec 1) : (Sign.ofBitVec s).toBitVec = s := by
  by_cases h : s = 0#1
  · subst h
    rfl
  · obtain rfl : s = 1#1 := by bv_omega
    rfl

/-- The fields of a word, put together again, are the word. -/
theorem packComponents_fields {w : Word} {e : BitVec Format.binary64.exponentBits}
    {m : BitVec Format.binary64.mantissaBitsWithoutImplicit} (he : unpackExponent w = e)
    (hm : unpackMantissa w = m) :
    packComponents Format.binary64 (Sign.ofBitVec (unpackSign w)) e m = w := by
  apply eq_of_fields
  · rw [unpackSign_packComponents, toBitVec_ofBitVec]
  · rw [unpackExponent_packComponents, he]
  · rw [unpackMantissa_packComponents, hm]

/-! ### Packing what was unpacked -/

/-- A mantissa with its leading bit. -/
theorem toNat_leadingBit (v : BitVec 52) : (1#1 ++ v).toNat = 2 ^ 52 + v.toNat := by
  have h : 2 ^ 52 * 1 + v.toNat = 2 ^ 52 * 1 ||| v.toNat := Nat.two_pow_add_eq_or_of_lt v.isLt 1
  rw [BitVec.toNat_append]
  exact h.symm

/-- Without its leading bit a mantissa is packed with zero in the exponent field. -/
theorem pack_of_lt (s : Sign) {m : Nat} (hm : 0 < m) (h : m < 2 ^ 52) :
    UnpackedFloat.pack Format.binary64 (.finite s m (-1074) hm)
      = packComponents Format.binary64 s 0 (BitVec.ofNat _ m) := by
  have hbits : m.log2 + 1 ≠ 53 := by
    have hlt : m.log2 < 52 := (Nat.log2_lt hm.ne').mpr h
    omega
  rw [UnpackedFloat.pack]
  exact (if_neg (by decide : ¬ 2 ^ 11 ≤ 1 + 1)).trans (if_neg hbits)

/-- With its leading bit a mantissa is packed with its exponent in the exponent field. -/
theorem pack_of_le (s : Sign) {m n : Nat} (hm : 0 < m) (h : 2 ^ 52 ≤ m) (h' : m < 2 ^ 53)
    (hn : n < 2047) :
    UnpackedFloat.pack Format.binary64 (.finite s m (n - 1075) hm)
      = packComponents Format.binary64 s (BitVec.ofNat _ n) (BitVec.ofNat _ m) := by
  have hbits : m.log2 + 1 = 53 := by
    have hle : 52 ≤ m.log2 := (Nat.le_log2 hm.ne').mpr h
    have hlt : m.log2 < 53 := (Nat.log2_lt hm.ne').mpr h'
    omega
  have hbiased : ((n : Int) - 1075 + Format.binary64.exponentBias
      + Format.binary64.mantissaBitsWithoutImplicit).toNat = n := by
    have hbias := bias_eq
    omega
  have hfits : ¬ 2 ^ 11 ≤ n + 1 := by omega
  rw [UnpackedFloat.pack]
  simp only [hbiased]
  exact (if_neg hfits).trans (if_pos hbits)

/-- Packing undoes unpacking, unless the word is a not-a-number. -/
theorem pack_unpacked {w : Word} (h : unpacked w ≠ .notANumber) :
    UnpackedFloat.pack Format.binary64 (unpacked w) = w := by
  have hmantissa : (unpackMantissa w).toNat < 2 ^ 52 := (unpackMantissa w).isLt
  have hexponent : (unpackExponent w).toNat < 2 ^ 11 := (unpackExponent w).isLt
  rw [unpacked, UnpackedFloat.unpack] at h ⊢
  split_ifs at h ⊢ with hmax hm hzero hm
  · exact packComponents_fields hmax hm
  · exact absurd rfl h
  · exact packComponents_fields hzero hm
  · simp only [hzero]
    refine (pack_of_lt _ _ hmantissa).trans (packComponents_fields hzero ?_)
    rw [BitVec.ofNat_toNat, BitVec.setWidth_eq]
  · have hlead := toNat_leadingBit (unpackMantissa w)
    have hmax : (unpackExponent w).toNat ≠ 2047 := fun h => hmax (BitVec.eq_of_toNat_eq h)
    refine (pack_of_le _ _ (by omega) (by omega) (by omega)).trans (packComponents_fields ?_ ?_)
    · rw [BitVec.ofNat_toNat, BitVec.setWidth_eq]
    · apply BitVec.eq_of_toNat_eq
      rw [BitVec.toNat_ofNat, hlead]
      show (unpackMantissa w).toNat = (2 ^ 52 + (unpackMantissa w).toNat) % 2 ^ 52
      omega

/-- The value of a number is the same after it has been packed. -/
theorem unpack_toFloat (x : Number) : x.toFloat.toModel.unpack = x.unpack := by
  by_cases h : x.unpack = .notANumber
  · show unpacked (UnpackedFloat.pack Format.binary64 x.unpack) = x.unpack
    rw [h]
    rfl
  · exact congrArg unpacked (pack_unpacked h)

/-- Numbers with the same value are the same, unless the value is not-a-number. -/
theorem eq_of_unpack_eq {x y : Number} (h : x.unpack = y.unpack) (hx : x.unpack ≠ .notANumber) :
    x = y := by
  have hy : y.unpack ≠ .notANumber := h ▸ hx
  have hword : x.bits.toBitVec = y.bits.toBitVec :=
    calc x.bits.toBitVec
        = UnpackedFloat.pack Format.binary64 x.unpack := (pack_unpacked hx).symm
      _ = UnpackedFloat.pack Format.binary64 y.unpack := congrArg _ h
      _ = y.bits.toBitVec := pack_unpacked hy
  exact Number.ext (UInt64.toBitVec_inj.mp hword)

/-! ### Comparison -/

/-- Magnitudes that compare equal have the same exponent and the same mantissa. -/
theorem eq_of_magnitude {m m' : Nat} {e e' : Int}
    (h : (compare e e').then (compare m m') = .eq) : e = e' ∧ m = m' := by
  obtain ⟨he, hm⟩ := Ordering.then_eq_eq.mp h
  exact ⟨Std.compare_eq_iff_eq.mp he, Std.compare_eq_iff_eq.mp hm⟩

/-- Unpacked numbers that compare equal are the same or both are zeros, and neither is
not-a-number. -/
theorem eq_or_zeros_of_compare {u v : UnpackedFloat} (h : u.compare v = some .eq) :
    u ≠ .notANumber ∧ (u = v ∨ ∃ s t, u = .zero s ∧ v = .zero t) := by
  cases u with
  | notANumber => cases h
  | infinity s =>
    refine ⟨nofun, .inl ?_⟩
    cases v with
    | infinity t => cases s <;> cases t <;> first | rfl | cases h
    | _ => cases s <;> cases h
  | zero s =>
    refine ⟨nofun, .inr ?_⟩
    cases v with
    | zero t => exact ⟨s, t, rfl, rfl⟩
    | notANumber => cases h
    | infinity t => cases t <;> cases h
    | finite t => cases t <;> cases h
  | finite s m e =>
    refine ⟨nofun, .inl ?_⟩
    cases v with
    | notANumber => cases s <;> cases h
    | infinity t => cases s <;> cases t <;> cases h
    | zero => cases s <;> cases h
    | finite t m' e' =>
      -- numbers of different signs are unequal, and of negative ones the order is reversed
      rcases s with - | - <;> rcases t with - | -
      · obtain ⟨rfl, rfl⟩ := eq_of_magnitude (Ordering.swap_eq_eq.mp (Option.some.inj h))
        rfl
      · cases h
      · cases h
      · obtain ⟨rfl, rfl⟩ := eq_of_magnitude (Option.some.inj h)
        rfl

theorem eq_zero_of_unpack {x : Number} {s : Sign} (h : x.unpack = .zero s) :
    x = 0 ∨ x = -0 := by
  have hx : x.unpack ≠ .notANumber := by
    rw [h]
    nofun
  cases s with
  | positive => exact .inl (eq_of_unpack_eq h hx)
  | negative => exact .inr (eq_of_unpack_eq h hx)

/-- Numbers that compare equal are the same or both are zeros. -/
theorem eq_or_zeros_of_beq {x y : Number} (h : (x == y) = true) :
    x = y ∨ (x = 0 ∨ x = -0) ∧ (y = 0 ∨ y = -0) := by
  have hcompare : x.toFloat.toModel.unpack.compare y.toFloat.toModel.unpack = some .eq :=
    beq_iff_eq.mp h
  rw [unpack_toFloat, unpack_toFloat] at hcompare
  obtain ⟨hx, heq | ⟨s, t, hs, ht⟩⟩ := eq_or_zeros_of_compare hcompare
  · exact .inl (eq_of_unpack_eq heq hx)
  · exact .inr ⟨eq_zero_of_unpack hs, eq_zero_of_unpack ht⟩

/-- Both zeros compare equal to zero, and nothing else does. -/
theorem eq_zero_of_beq {x : Number} (h : (x == 0) = true) : x = 0 ∨ x = -0 := by
  rcases eq_or_zeros_of_beq h with rfl | ⟨hx, -⟩
  · exact .inl rfl
  · exact hx

/-- Nothing else compares equal to a number that is no zero. -/
theorem eq_of_beq {x y : Number} (h : (x == y) = true) (hy : y ≠ 0) (hy' : y ≠ -0) : x = y := by
  rcases eq_or_zeros_of_beq h with heq | ⟨-, hzero | hzero⟩
  · exact heq
  · exact absurd hzero hy
  · exact absurd hzero hy'

theorem eq_one_of_beq {x : Number} (h : (x == 1) = true) : x = 1 :=
  eq_of_beq h (by decide +kernel) (by decide +kernel)

end TreeRewriting.Number
