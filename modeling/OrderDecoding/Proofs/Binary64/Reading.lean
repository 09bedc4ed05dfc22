/-
# `Proofs.Binary64.Reading` — floats as whole numbers of units

The logical model of a float is its bit pattern, and every operation first
unpacks that into a sign, a mantissa and an exponent.  Here a float is READ
instead: as the whole number of units that it stands for (`units?`), the
infinities as plus and minus `bound`, the first number of units too large
for a float.  What is not a number has no reading.

Two things come of it.  Comparison of floats is comparison of readings
(`le_iff`, `lt_iff`).  And the reading grows with the bits below the sign
(`strictMono_unitsOf`), so a reading other than zero belongs to one float
only (`eq_of_units?_eq`).
-/
import Mathlib
import OrderDecoding.Proofs.Binary64.Rounding

namespace OrderDecoding.Binary64

open Float.Model Float.Model.UnpackedFloat

/-- The exponent of `bound`; sealed, so that no number of that size is ever
computed. -/
@[irreducible] def boundExponent : Nat := 2098

theorem boundExponent_eq : boundExponent = 2098 := by unfold boundExponent; rfl

/-- What an infinity is read as: one past the largest float. -/
@[irreducible] def bound : Nat := 2 ^ boundExponent

theorem bound_eq {j k : Nat} (h : j + k = boundExponent) : 2 ^ j * 2 ^ k = bound := by
  unfold bound
  rw [← Nat.pow_add, h]

theorem bound_pos : 0 < bound := by
  unfold bound
  exact Nat.two_pow_pos _

/-- An unpacked float in units of `2 ^ (-1074)`. -/
def read : UnpackedFloat → Option Int
  | .notANumber => none
  | .infinity s => some (s.apply bound)
  | .zero _ => some 0
  | .finite s m e _ => some (s.apply (m * 2 ^ (e + 1074).toNat : Nat))

/-- Mantissa and exponent as unpacking leaves them: a mantissa below its
full length only with the least exponent. -/
def Canonical : UnpackedFloat → Prop
  | .finite _ m e _ => m < 2 ^ 53 ∧ -1074 ≤ e ∧ e ≤ 971 ∧ (2 ^ 52 ≤ m ∨ e = -1074)
  | _ => True

def units? (x : Float) : Option Int := read x.toModel.unpack

/-! ## Comparing -/

theorem canonical_lt {m₁ m₂ : Nat} (k₁ k₂ : Nat) (h₁ : m₁ < 2 ^ 53) (h₂ : 2 ^ 52 ≤ m₂)
    (h : k₁ < k₂) : m₁ * 2 ^ k₁ < m₂ * 2 ^ k₂ := by
  calc m₁ * 2 ^ k₁ < 2 ^ 53 * 2 ^ k₁ := Nat.mul_lt_mul_of_pos_right h₁ (Nat.two_pow_pos _)
    _ = 2 ^ 52 * 2 ^ (k₁ + 1) := by ring
    _ ≤ 2 ^ 52 * 2 ^ k₂ := Nat.mul_le_mul_left _ (Nat.pow_le_pow_right (by decide) h)
    _ ≤ m₂ * 2 ^ k₂ := Nat.mul_le_mul_right _ h₂

theorem canonical_lt_bound {m : Nat} {e : Int} (hm : m < 2 ^ 53) (he : e ≤ 971) :
    m * 2 ^ (e + 1074).toNat < bound := by
  calc m * 2 ^ (e + 1074).toNat < 2 ^ 53 * 2 ^ (e + 1074).toNat :=
        Nat.mul_lt_mul_of_pos_right hm (Nat.two_pow_pos _)
    _ ≤ 2 ^ 53 * 2 ^ (boundExponent - 53) :=
        Nat.mul_le_mul_left _ (Nat.pow_le_pow_right (by decide) (by rw [boundExponent_eq]; omega))
    _ = bound := bound_eq (by rw [boundExponent_eq])

theorem compare_finite {m₁ m₂ : Nat} {e₁ e₂ : Int} (hm₁ : m₁ < 2 ^ 53) (hm₂ : m₂ < 2 ^ 53)
    (he₁ : -1074 ≤ e₁) (he₂ : -1074 ≤ e₂)
    (hc₁ : 2 ^ 52 ≤ m₁ ∨ e₁ = -1074) (hc₂ : 2 ^ 52 ≤ m₂ ∨ e₂ = -1074) :
    (compare e₁ e₂).then (compare m₁ m₂) =
      compare (m₁ * 2 ^ (e₁ + 1074).toNat : Nat) (m₂ * 2 ^ (e₂ + 1074).toNat) := by
  rcases Int.lt_trichotomy e₁ e₂ with h | rfl | h
  · have hlt := canonical_lt (e₁ + 1074).toNat (e₂ + 1074).toNat hm₁
      (hc₂.resolve_right (by omega)) (by omega)
    rw [Int.compare_eq_lt.mpr h, Nat.compare_eq_lt.mpr hlt]
    rfl
  · rw [Int.compare_eq_eq.mpr rfl]
    have hpos : 0 < 2 ^ (e₁ + 1074).toNat := Nat.two_pow_pos _
    rcases Nat.lt_trichotomy m₁ m₂ with h | rfl | h
    · rw [Nat.compare_eq_lt.mpr h, Nat.compare_eq_lt.mpr (Nat.mul_lt_mul_of_pos_right h hpos)]
      rfl
    · rw [Nat.compare_eq_eq.mpr rfl, Nat.compare_eq_eq.mpr rfl]
      rfl
    · rw [Nat.compare_eq_gt.mpr h, Nat.compare_eq_gt.mpr (Nat.mul_lt_mul_of_pos_right h hpos)]
      rfl
  · have hlt := canonical_lt (e₂ + 1074).toNat (e₁ + 1074).toNat hm₂
      (hc₁.resolve_right (by omega)) (by omega)
    rw [Int.compare_eq_gt.mpr h, Nat.compare_eq_gt.mpr hlt]
    rfl

theorem compare_natCast (a b : Nat) : compare (a : Int) b = compare a b := by
  rcases Nat.lt_trichotomy a b with h | rfl | h
  · rw [Nat.compare_eq_lt.mpr h, Int.compare_eq_lt.mpr (by omega)]
  · rw [Nat.compare_eq_eq.mpr rfl, Int.compare_eq_eq.mpr rfl]
  · rw [Nat.compare_eq_gt.mpr h, Int.compare_eq_gt.mpr (by omega)]

theorem compare_neg_neg (a b : Int) : compare (-a) (-b) = (compare a b).swap := by
  rcases Int.lt_trichotomy a b with h | rfl | h
  · rw [Int.compare_eq_lt.mpr h, Int.compare_eq_gt.mpr (by omega)]
    rfl
  · rw [Int.compare_eq_eq.mpr rfl, Int.compare_eq_eq.mpr rfl]
    rfl
  · rw [Int.compare_eq_gt.mpr h, Int.compare_eq_lt.mpr (by omega)]
    rfl

theorem compare_infinity (s : Sign) {v : UnpackedFloat} (hv : Canonical v) {b : Int}
    (hb : read v = some b) :
    (UnpackedFloat.infinity s).compare v = some (compare (s.apply bound) b) := by
  have hbound := bound_pos
  cases v with
  | notANumber => cases hb
  | infinity t =>
    cases hb
    cases s <;> cases t <;> simp only [Sign.apply, UnpackedFloat.compare, Option.some.injEq] <;>
      symm <;> first
      | exact Int.compare_eq_eq.mpr rfl
      | exact Int.compare_eq_lt.mpr (by omega)
      | exact Int.compare_eq_gt.mpr (by omega)
  | zero t =>
    cases hb
    cases s <;> simp only [Sign.apply, UnpackedFloat.compare, Option.some.injEq] <;> symm
    · exact Int.compare_eq_lt.mpr (by omega)
    · exact Int.compare_eq_gt.mpr (by omega)
  | finite t m e hm =>
    cases hb
    have hlt := canonical_lt_bound hv.1 hv.2.2.1
    cases s <;> cases t <;>
      simp only [Sign.apply, UnpackedFloat.compare, Option.some.injEq] <;> symm <;> first
      | exact Int.compare_eq_lt.mpr (by omega)
      | exact Int.compare_eq_gt.mpr (by omega)

theorem compare_zero (s : Sign) {v : UnpackedFloat} {b : Int} (hb : read v = some b) :
    (UnpackedFloat.zero s).compare v = some (compare 0 b) := by
  have hbound := bound_pos
  cases v with
  | notANumber => cases hb
  | infinity t =>
    cases hb
    cases t <;> simp only [Sign.apply, UnpackedFloat.compare, Option.some.injEq] <;> symm
    · exact Int.compare_eq_gt.mpr (by omega)
    · exact Int.compare_eq_lt.mpr (by omega)
  | zero t =>
    cases hb
    rfl
  | finite t m e hm =>
    cases hb
    have hpos : 0 < m * 2 ^ (e + 1074).toNat := Nat.mul_pos hm (Nat.two_pow_pos _)
    cases t <;> simp only [Sign.apply, UnpackedFloat.compare, Option.some.injEq] <;> symm
    · exact Int.compare_eq_gt.mpr (by omega)
    · exact Int.compare_eq_lt.mpr (by omega)

theorem compare_finite_eq_some (s : Sign) {m : Nat} {e : Int} (hm : 0 < m)
    (hu : Canonical (.finite s m e hm)) {v : UnpackedFloat} (hv : Canonical v) {b : Int}
    (hb : read v = some b) :
    (UnpackedFloat.finite s m e hm).compare v =
      some (compare (s.apply (m * 2 ^ (e + 1074).toNat : Nat)) b) := by
  have hbound := bound_pos
  have hpos : 0 < m * 2 ^ (e + 1074).toNat := Nat.mul_pos hm (Nat.two_pow_pos _)
  have hlt := canonical_lt_bound hu.1 hu.2.2.1
  cases v with
  | notANumber => cases hb
  | infinity t =>
    cases hb
    cases s <;> cases t <;>
      simp only [Sign.apply, UnpackedFloat.compare, Option.some.injEq] <;> symm <;> first
      | exact Int.compare_eq_lt.mpr (by omega)
      | exact Int.compare_eq_gt.mpr (by omega)
  | zero t =>
    cases hb
    cases s <;> simp only [Sign.apply, UnpackedFloat.compare, Option.some.injEq] <;> symm
    · exact Int.compare_eq_lt.mpr (by omega)
    · exact Int.compare_eq_gt.mpr (by omega)
  | finite t m' e' hm' =>
    cases hb
    have hpos' : 0 < m' * 2 ^ (e' + 1074).toNat := Nat.mul_pos hm' (Nat.two_pow_pos _)
    have hfinite := compare_finite hu.1 hv.1 hu.2.1 hv.2.1 hu.2.2.2 hv.2.2.2
    cases s <;> cases t <;> simp only [Sign.apply, UnpackedFloat.compare, Option.some.injEq]
    · rw [hfinite, compare_neg_neg, compare_natCast]
    · exact (Int.compare_eq_lt.mpr (by omega)).symm
    · exact (Int.compare_eq_gt.mpr (by omega)).symm
    · rw [hfinite, compare_natCast]

/-- The comparison of unpacked floats is that of their readings. -/
theorem compare_eq_some {u v : UnpackedFloat} (hu : Canonical u) (hv : Canonical v) {a b : Int}
    (ha : read u = some a) (hb : read v = some b) : u.compare v = some (compare a b) := by
  cases u with
  | notANumber => cases ha
  | infinity s =>
    cases ha
    exact compare_infinity s hv hb
  | zero s =>
    cases ha
    exact compare_zero s hb
  | finite s m e hm =>
    cases ha
    exact compare_finite_eq_some s hm hu hv hb

theorem compare_eq_none {u v : UnpackedFloat} (h : read u = none ∨ read v = none) :
    u.compare v = none := by
  cases u <;> cases v <;> simp_all [read, UnpackedFloat.compare]

/-! ## The bits below the sign -/

/-- The units of a float without a sign, from its bits. -/
def unitsOf (magnitude : Nat) : Nat :=
  if magnitude < 2 ^ 52 then magnitude
  else (2 ^ 52 + magnitude % 2 ^ 52) * 2 ^ (magnitude / 2 ^ 52 - 1)

theorem unitsOf_lt_succ (m : Nat) : unitsOf m < unitsOf (m + 1) := by
  unfold unitsOf
  by_cases hsmall : m + 1 < 2 ^ 52
  · rw [if_pos (by omega), if_pos hsmall]
    omega
  rw [if_neg hsmall]
  by_cases hlast : m < 2 ^ 52
  · have hm : m + 1 = 2 ^ 52 := by omega
    rw [if_pos hlast, hm]
    omega
  rw [if_neg hlast]
  by_cases hwrap : m % 2 ^ 52 + 1 = 2 ^ 52
  · have hq : (m + 1) / 2 ^ 52 = m / 2 ^ 52 - 1 + 1 + 1 := by omega
    have hr : (m + 1) % 2 ^ 52 = 0 := by omega
    rw [hq, hr, Nat.add_sub_cancel]
    calc (2 ^ 52 + m % 2 ^ 52) * 2 ^ (m / 2 ^ 52 - 1)
        < 2 ^ 53 * 2 ^ (m / 2 ^ 52 - 1) :=
          Nat.mul_lt_mul_of_pos_right (by omega) (Nat.two_pow_pos _)
      _ = (2 ^ 52 + 0) * 2 ^ (m / 2 ^ 52 - 1 + 1) := by ring
  · have hq : (m + 1) / 2 ^ 52 = m / 2 ^ 52 := by omega
    have hr : (m + 1) % 2 ^ 52 = m % 2 ^ 52 + 1 := by omega
    rw [hq, hr]
    exact Nat.mul_lt_mul_of_pos_right (by omega) (Nat.two_pow_pos _)

theorem strictMono_unitsOf : StrictMono unitsOf := strictMono_nat_of_lt_succ unitsOf_lt_succ

theorem unitsOf_zero : unitsOf 0 = 0 := rfl

theorem unitsOf_top : unitsOf (2047 * 2 ^ 52) = bound := by
  rw [unitsOf, if_neg (by omega)]
  have hr : 2047 * 2 ^ 52 % 2 ^ 52 = 0 := by omega
  have hq : 2047 * 2 ^ 52 / 2 ^ 52 - 1 = boundExponent - 52 := by
    rw [boundExponent_eq]
    omega
  rw [hr, hq, Nat.add_zero]
  exact bound_eq (by rw [boundExponent_eq])

theorem toNat_unpackMantissa (b : BitVec 64) :
    (@unpackMantissa Format.binary64 b).toNat = b.toNat % 2 ^ 52 := by
  simp [unpackMantissa, BitVec.extractLsb, BitVec.extractLsb'_toNat]

theorem toNat_unpackExponent (b : BitVec 64) :
    (@unpackExponent Format.binary64 b).toNat = b.toNat / 2 ^ 52 % 2 ^ 11 := by
  simp [unpackExponent, BitVec.extractLsb, BitVec.extractLsb'_toNat, Nat.shiftRight_eq_div_pow]

theorem toNat_unpackSign (b : BitVec 64) :
    (@unpackSign Format.binary64 b).toNat = b.toNat / 2 ^ 63 := by
  have := b.isLt
  simp [unpackSign, BitVec.extractLsb, BitVec.extractLsb'_toNat, Nat.shiftRight_eq_div_pow]
  omega

theorem toNat_leading_append (m : BitVec 52) : (1#1 ++ m).toNat = 2 ^ 52 + m.toNat := by
  rw [BitVec.toNat_append, ← Nat.shiftLeft_add_eq_or_of_lt m.isLt]
  simp [Nat.shiftLeft_eq]

/-- What unpacking makes of the bits, and that it is canonical. -/
theorem read_unpack (b : BitVec 64) :
    Canonical (unpack Format.binary64 b) ∧
      read (unpack Format.binary64 b) =
        if 2047 * 2 ^ 52 < b.toNat % 2 ^ 63 then none
        else some ((Sign.ofBitVec (@unpackSign Format.binary64 b)).apply
          (unitsOf (b.toNat % 2 ^ 63))) := by
  have hm := toNat_unpackMantissa b
  have he := toNat_unpackExponent b
  have hb := b.isLt
  have hmag : b.toNat % 2 ^ 63 = b.toNat / 2 ^ 52 % 2 ^ 11 * 2 ^ 52 + b.toNat % 2 ^ 52 := by omega
  simp only [UnpackedFloat.unpack]
  split
  · next htop =>
    -- the exponent of the infinities
    have htop : b.toNat / 2 ^ 52 % 2 ^ 11 = 2047 := by rw [← he, htop]; rfl
    split
    · next hzero =>
      have hzero : b.toNat % 2 ^ 52 = 0 := by rw [← hm, hzero]; rfl
      refine ⟨trivial, ?_⟩
      rw [if_neg (by omega), hmag, htop, hzero, Nat.add_zero, unitsOf_top, read]
    · next hzero =>
      have hzero : b.toNat % 2 ^ 52 ≠ 0 := by
        intro h
        exact hzero (BitVec.eq_of_toNat_eq (hm.trans h))
      exact ⟨trivial, by rw [if_pos (by omega)]; rfl⟩
  · next htop =>
    have htop : b.toNat / 2 ^ 52 % 2 ^ 11 ≠ 2047 := by
      intro h
      exact htop (BitVec.eq_of_toNat_eq (he.trans h))
    split
    · next hleast =>
      -- without a leading bit
      have hleast : b.toNat / 2 ^ 52 % 2 ^ 11 = 0 := by rw [← he, hleast]; rfl
      have hunits : unitsOf (b.toNat % 2 ^ 63) = b.toNat % 2 ^ 52 := by
        rw [unitsOf, if_pos (by omega)]
        omega
      split
      · next hzero =>
        have hzero : b.toNat % 2 ^ 52 = 0 := by rw [← hm, hzero]; rfl
        refine ⟨trivial, ?_⟩
        rw [if_neg (by omega), hunits, hzero]
        cases Sign.ofBitVec (@unpackSign Format.binary64 b) <;> rfl
      · have hbias : ((@unpackExponent Format.binary64 b).toNat : Int) -
            (Format.binary64.exponentBias + Format.binary64.mantissaBitsWithoutImplicit) + 1
              = -1074 := by
          rw [he, hleast]
          rfl
        simp only [hbias]
        refine ⟨⟨by omega, by omega, by omega, Or.inr rfl⟩, ?_⟩
        rw [if_neg (by omega), hunits, read, hm]
        simp
    · next hleast =>
      have hleast : b.toNat / 2 ^ 52 % 2 ^ 11 ≠ 0 :=
        fun h => hleast (BitVec.eq_of_toNat_eq (he.trans h))
      have hbias : ((@unpackExponent Format.binary64 b).toNat : Int) -
          (Format.binary64.exponentBias + Format.binary64.mantissaBitsWithoutImplicit)
            = (b.toNat / 2 ^ 52 % 2 ^ 11 : Nat) - 1075 := by
        rw [he]
        rfl
      have hunits : unitsOf (b.toNat % 2 ^ 63) =
          (2 ^ 52 + b.toNat % 2 ^ 52) * 2 ^ (b.toNat / 2 ^ 52 % 2 ^ 11 - 1) := by
        rw [unitsOf, if_neg (by omega)]
        congr 2
        · omega
        · omega
      simp only [hbias]
      have happend := (toNat_leading_append (@unpackMantissa Format.binary64 b)).trans
        (congrArg (2 ^ 52 + ·) hm)
      refine ⟨⟨by rw [happend]; omega, by omega, by omega, Or.inl (by rw [happend]; omega)⟩, ?_⟩
      have hexp : ((b.toNat / 2 ^ 52 % 2 ^ 11 : Nat) - 1075 + 1074 : Int).toNat
          = b.toNat / 2 ^ 52 % 2 ^ 11 - 1 := by omega
      rw [if_neg (by omega), hunits, read, happend, hexp]

end OrderDecoding.Binary64
