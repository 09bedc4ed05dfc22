/-
# `Proofs.Binary64.Quotients` — quotients and counts in units

The quotient of two finite floats is the exact ratio of their readings,
rounded and then saturated (`units?_div`).  The machine divides mantissas,
the first of them so far extended that no place that is kept gets lost, and
of the remainder it remembers how it compares with zero and with the half
of the divisor: that is a `Cut` of the exact ratio, like those of a sum.

A count is a whole number of ones, rounded in the same way (`units?_ofNat`).
All laws of quotients and counts come from this and from the rounding being
monotone.
-/
import OrderDecoding.Proofs.Binary64.Lawful

namespace OrderDecoding.Binary64

open Float.Model Float.Model.UnpackedFloat

/-- The units of one, by their logarithm; sealed like `boundExponent`. -/
@[irreducible] def oneExponent : Nat := 1074

theorem oneExponent_eq : oneExponent = 1074 := by unfold oneExponent; rfl

/-- The units of one. -/
def one : Nat := 2 ^ oneExponent

theorem one_pos : 0 < one := Nat.two_pow_pos _

/-! ## Dividing mantissas -/

theorem cut_fraction (n : Nat) {d : Nat} (hd : 0 < d) :
    Cut (.ofMantissaAndAccuracy (n / d) (accuracyOfFraction (n % d) d)) n d := by
  unfold accuracyOfFraction
  split
  · next hzero => exact ⟨rfl, by simp [ExtendedMantissa.ofMantissaAndAccuracy, hzero]; omega,
      by simp [ExtendedMantissa.ofMantissaAndAccuracy, hzero]⟩
  · next hzero =>
    rcases Nat.lt_trichotomy (2 * (n % d)) d with h | h | h
    · rw [Nat.compare_eq_lt.mpr h]
      exact ⟨rfl, by simp [ExtendedMantissa.ofMantissaAndAccuracy, h],
        by simp [ExtendedMantissa.ofMantissaAndAccuracy, hzero]; omega⟩
    · rw [Nat.compare_eq_eq.mpr h]
      exact ⟨rfl, by simp [ExtendedMantissa.ofMantissaAndAccuracy, h],
        by simp [ExtendedMantissa.ofMantissaAndAccuracy, h]⟩
    · rw [Nat.compare_eq_gt.mpr h]
      exact ⟨rfl, by simp [ExtendedMantissa.ofMantissaAndAccuracy, h.le],
        by simp [ExtendedMantissa.ofMantissaAndAccuracy, hzero]; omega⟩

theorem log2_div_two_pow (n k : Nat) : (n / 2 ^ k).log2 = n.log2 - k := by
  rw [Nat.log2_eq_log_two, Nat.log_div_base_pow, ← Nat.log2_eq_log_two]

theorem log2_mul_two_pow_div {n d k : Nat} (h : n / d ≠ 0) :
    (n * 2 ^ k / d).log2 = (n / d).log2 + k := by
  have hback : n * 2 ^ k / d / 2 ^ k = n / d := by
    rw [Nat.div_div_eq_div_mul, Nat.mul_div_mul_right _ _ (Nat.two_pow_pos k)]
  have hlog := log2_div_two_pow (n * 2 ^ k / d) k
  have hle : k ≤ (n * 2 ^ k / d).log2 := by
    refine (Nat.le_log2 ?_).mpr (Nat.le_of_not_lt fun hlt => ?_)
    · intro hzero
      rw [hzero, Nat.zero_div] at hback
      exact h hback.symm
    · rw [Nat.div_eq_of_lt hlt] at hback
      exact h hback.symm
  rw [hback] at hlog
  omega

/-- The quotient of the mantissas has all the bits that are kept if the
first is far enough extended. -/
theorem full_quotient {m₁ m₂ k : Nat} (h₁ : 0 < m₁) (h₂ : 0 < m₂)
    (h : m₂.log2 + 53 ≤ m₁.log2 + k) : 2 ^ 52 ≤ m₁ * 2 ^ k / m₂ := by
  rw [Nat.le_div_iff_mul_le h₂]
  calc 2 ^ 52 * m₂ ≤ 2 ^ 52 * 2 ^ (m₂.log2 + 1) := Nat.mul_le_mul_left _ Nat.lt_log2_self.le
    _ = 2 ^ (m₂.log2 + 53) := by rw [← Nat.pow_add]; congr 1; omega
    _ ≤ 2 ^ (m₁.log2 + k) := Nat.pow_le_pow_right (by decide) h
    _ ≤ m₁ * 2 ^ k := by
      rw [Nat.pow_add]
      exact Nat.mul_le_mul_right _ (Nat.log2_self_le h₁.ne')

/-- The logarithm of a ratio that is scaled up and down. -/
theorem log2_scaled {n d : Nat} (up down : Nat) (h : n / d = 0 → up = 0) :
    (n * 2 ^ up / (d * 2 ^ down)).log2 = (n / d).log2 + up - down := by
  rw [← Nat.div_div_eq_div_mul, log2_div_two_pow]
  by_cases hzero : n / d = 0
  · rw [h hzero, Nat.pow_zero, Nat.mul_one, Nat.add_zero]
  · rw [log2_mul_two_pow_div hzero]

/-- The exponent of the extended quotient. -/
def quotientExponent (m₁ m₂ : Nat) (e₁ e₂ : Int) : Int :=
  min (e₁ - e₂) (max (m₁.log2 + e₁ - (m₂.log2 + e₂) - 53) (-1074))

/-- The first mantissa, extended down to it. -/
def extended (m₁ m₂ : Nat) (e₁ e₂ : Int) : Nat :=
  m₁ * 2 ^ (e₁ - e₂ - quotientExponent m₁ m₂ e₁ e₂).toNat

theorem divCore_eq (m₁ m₂ : Nat) (e₁ e₂ : Int) :
    divCore Format.binary64 m₁ e₁ m₂ e₂ =
      (extended m₁ m₂ e₁ e₂ / m₂, quotientExponent m₁ m₂ e₁ e₂,
        accuracyOfFraction (extended m₁ m₂ e₁ e₂ % m₂) m₂) := by
  have htarget : min (e₁ - e₂)
      (Format.binary64.targetExponent (totalExponent m₁ e₁ - totalExponent m₂ e₂)) =
        quotientExponent m₁ m₂ e₁ e₂ := by
    change min (e₁ - e₂)
      (max ((m₁.log2 : Int) + 1 + e₁ - ((m₂.log2 : Int) + 1 + e₂) - 53) (-1074)) = _
    unfold quotientExponent
    omega
  simp only [divCore, htarget, Nat.shiftLeft_eq, extended]

section

variable {p m n d w : Nat} {e : Int}

/-- The excess of a ratio over another one that is its multiple by a power
of two. -/
theorem excess_of_scaled (hw : 0 < w) (hd : d = m * w)
    (hn : n * 2 ^ (-(e + 1074)).toNat = p * 2 ^ (e + 1074).toNat * w)
    (hfull : -1074 < e → 52 ≤ (p / m).log2) :
    (excess (n / d) : Int) = max ((p / m).log2 + e - 52) (-1074) + 1074 := by
  have hratio : n / d = p * 2 ^ (e + 1074).toNat / (m * 2 ^ (-(e + 1074)).toNat) := by
    rw [← Nat.mul_div_mul_right n d (Nat.two_pow_pos (-(e + 1074)).toNat), hn, hd,
      Nat.mul_right_comm m, Nat.mul_div_mul_right _ _ hw]
  have hzero : p / m = 0 → (e + 1074).toNat = 0 := by
    intro hquot
    rw [hquot] at hfull
    have : ¬ -1074 < e := fun hlow => absurd (hfull hlow) (by decide)
    omega
  rw [hratio, excess, log2_scaled _ _ hzero]
  omega

/-- The mantissa of a fraction after its first shift, and the exponent it
then has, in terms of the ratio that it is in units. -/
theorem first_shift_fraction (hm : 0 < m) (hw : 0 < w) (hd : d = m * w)
    (hn : n * 2 ^ (-(e + 1074)).toNat = p * 2 ^ (e + 1074).toNat * w)
    (hfull : -1074 < e → 52 ≤ (p / m).log2) :
    let first := shiftToTargetExponent Format.binary64 (p / m) e (accuracyOfFraction (p % m) m)
    first.1.roundedMantissa = roundQuotient n (d * 2 ^ excess (n / d)) ∧
      first.2 = excess (n / d) - 1074 := by
  intro first
  obtain ⟨t, ht⟩ : ∃ t, t = max ((p / m).log2 + e - 52) (-1074) := ⟨_, rfl⟩
  have hexcess : (excess (n / d) : Int) = t + 1074 := ht ▸ excess_of_scaled hw hd hn hfull
  have hfirst : first = shiftToExponent (p / m) e (accuracyOfFraction (p % m) m) t := by
    simp only [first, shiftToTargetExponent, targetExponent_eq]
    rw [ht]
  have hle : e ≤ t := by omega
  refine ⟨?_, ?_⟩
  · obtain ⟨up, hup⟩ : ∃ up : Nat, up = (e + 1074).toNat := ⟨_, rfl⟩
    obtain ⟨down, hdown⟩ : ∃ down : Nat, down = (-(e + 1074)).toNat := ⟨_, rfl⟩
    rw [← hup, ← hdown] at hn
    have hsplit : excess (n / d) + down = (t - e).toNat + up := by omega
    rw [hfirst]
    refine ((cut_fraction p hm).shiftRight hm _).roundedMantissa.trans ?_
    calc roundQuotient p (m * 2 ^ (t - e).toNat)
        = roundQuotient (p * (2 ^ up * w)) (m * 2 ^ (t - e).toNat * (2 ^ up * w)) :=
          (roundQuotient_mul (Nat.mul_pos (Nat.two_pow_pos up) hw)).symm
      _ = roundQuotient (n * 2 ^ down) (d * 2 ^ excess (n / d) * 2 ^ down) := by
          rw [hn, ← Nat.mul_assoc p, Nat.mul_assoc d, ← Nat.pow_add, hsplit, Nat.pow_add, hd]
          congr 1
          ring
      _ = roundQuotient n (d * 2 ^ excess (n / d)) := roundQuotient_mul (Nat.two_pow_pos down)
  · rw [hfirst]
    change e + ((t - e).toNat : Int) = _
    omega

end

/-- The same of a quotient, whose operands are extended first. -/
theorem first_shift_div {m₁ m₂ : Nat} (h₁ : 0 < m₁) (h₂ : 0 < m₂) {e₁ e₂ : Int}
    (he₁ : -1074 ≤ e₁) (he₂ : -1074 ≤ e₂) :
    let n := m₁ * 2 ^ (e₁ + 1074).toNat * one
    let d := m₂ * 2 ^ (e₂ + 1074).toNat
    let core := divCore Format.binary64 m₁ e₁ m₂ e₂
    let first := shiftToTargetExponent Format.binary64 core.1 core.2.1 core.2.2
    first.1.roundedMantissa = roundQuotient n (d * 2 ^ excess (n / d)) ∧
      first.2 = excess (n / d) - 1074 := by
  intro n d core first
  obtain ⟨e, he⟩ : ∃ e, e = quotientExponent m₁ m₂ e₁ e₂ := ⟨_, rfl⟩
  have hvalue : e = min (e₁ - e₂) (max (m₁.log2 + e₁ - (m₂.log2 + e₂) - 53) (-1074)) := he
  obtain ⟨p, hp⟩ : ∃ p, p = extended m₁ m₂ e₁ e₂ := ⟨_, rfl⟩
  have hextended : p = m₁ * 2 ^ (e₁ - e₂ - e).toNat := by rw [hp, extended, he]
  have hcore : core = (p / m₂, e, accuracyOfFraction (p % m₂) m₂) := by
    rw [hp, he]
    exact divCore_eq m₁ m₂ e₁ e₂
  have hfull : -1074 < e → 52 ≤ (p / m₂).log2 := by
    intro hlow
    have hquot : 2 ^ 52 ≤ p / m₂ := hextended ▸ full_quotient h₁ h₂ (by omega)
    exact (Nat.le_log2 (by omega)).mpr hquot
  have hn : n * 2 ^ (-(e + 1074)).toNat = p * 2 ^ (e + 1074).toNat * 2 ^ (e₂ + 1074).toNat := by
    have hexp : (e₁ + 1074).toNat + oneExponent + (-(e + 1074)).toNat =
        (e₁ - e₂ - e).toNat + (e + 1074).toNat + (e₂ + 1074).toNat := by
      rw [oneExponent_eq]
      omega
    rw [hextended, Nat.mul_assoc m₁, Nat.mul_assoc m₁, ← Nat.pow_add, ← Nat.pow_add, ← hexp,
      Nat.pow_add, Nat.pow_add, ← Nat.mul_assoc m₁, ← Nat.mul_assoc m₁]
    rfl
  simp only [first, hcore]
  exact first_shift_fraction h₂ (Nat.two_pow_pos _) rfl hn hfull

/-! ## Quotients -/

theorem roundSignedRatio_apply (s : Sign) (n d : Nat) :
    roundSignedRatio (s.apply n * one) d = s.apply (roundRatio (n * one) d) := by
  cases s
  · rw [Sign.apply, Int.neg_mul, roundSignedRatio_neg, ← Int.natCast_mul, roundSignedRatio_natCast]
    rfl
  · rw [Sign.apply, ← Int.natCast_mul, roundSignedRatio_natCast]
    rfl

/-- The quotient of a finite operand and a positive one. -/
theorem read_div {u : UnpackedFloat} (hu : Canonical u) {a : Int} (ha : read u = some a)
    (hlt : a.natAbs < bound) {m : Nat} {e : Int} {hm : 0 < m}
    (hv : Canonical (.finite .positive m e hm)) :
    let q := UnpackedFloat.div Format.binary64 u (.finite .positive m e hm)
    Rounded q ∧ read q = some (roundSignedRatio (a * one) (m * 2 ^ (e + 1074).toNat)) := by
  cases u with
  | notANumber => cases ha
  | infinity s =>
    cases ha
    cases s <;> simp only [Sign.apply] at hlt <;> omega
  | zero s =>
    cases ha
    refine ⟨trivial, ?_⟩
    rw [Int.zero_mul]
    exact congrArg some (Int.zero_mul _).symm
  | finite s m' e' hm' =>
    cases ha
    have hsign : s / .positive = s := by cases s <;> rfl
    have hspec := roundWithAccuracy_spec s (first_shift_div hm' hm hu.2.1 hv.2.1)
      (roundQuotient_ratio_le _ _) (roundQuotient_full_or_exact _ _)
    rw [roundSignedRatio_apply]
    simp only [UnpackedFloat.div, hsign]
    exact hspec

theorem units?_div {x y : Float} {a b : Int} (hx : FiniteUnits x a) (hy : FiniteUnits y b)
    (hb : 0 < b) :
    units? (x / y) = some (saturate (roundSignedRatio (a * one) b.toNat)) := by
  obtain ⟨m, e, hm, hunpack⟩ := unpack_of_pos hy hb
  have hread : read y.toModel.unpack = some b := hy.1
  have hcanonical := canonical_unpack y
  rw [hunpack] at hread hcanonical
  obtain rfl : (m * 2 ^ (e + 1074).toNat : Nat) = b := Option.some.inj hread
  obtain ⟨hround, hquot⟩ := read_div (canonical_unpack x) hx.1 hx.2 hcanonical
  change units? (.ofModel (Float.Model.pack (UnpackedFloat.div _ x.toModel.unpack
    y.toModel.unpack))) = _
  rw [hunpack]
  refine (units?_pack hround).trans ?_
  rw [hquot]
  rfl

theorem units?_one : units? 1 = some (one : Int) := by
  have hunpack : (1 : Float).toModel.unpack = .finite .positive (2 ^ 52) (-52) (by decide) := rfl
  have hsplit : oneExponent = 52 + (-52 + 1074 : Int).toNat := by
    rw [oneExponent_eq]
    rfl
  rw [units?, hunpack, read, Sign.apply, one, hsplit, Nat.pow_add]

/-! ## Counts -/

/-- Multiplying by one leaves the reading as it is. -/
theorem read_mul_one {u : UnpackedFloat} (hu : Canonical u) {a : Int} (ha : read u = some a)
    (hlt : a.natAbs < bound) :
    let p := UnpackedFloat.mul Format.binary64 u
      (.finite .positive (2 ^ 52) (-52) (Nat.two_pow_pos 52))
    Rounded p ∧ read p = some a := by
  cases u with
  | notANumber => cases ha
  | infinity s =>
    cases ha
    cases s <;> simp only [Sign.apply] at hlt <;> omega
  | zero s =>
    cases ha
    exact ⟨trivial, rfl⟩
  | finite s m e hm =>
    cases ha
    obtain ⟨hshort, hlow, -, hfull⟩ := hu
    have hsign : s * .positive = s := by cases s <;> rfl
    have hlog : m.log2 ≤ 52 := Nat.lt_succ_iff.mp ((Nat.log2_lt hm.ne').mpr hshort)
    have htarget : Format.binary64.targetExponent (totalExponent (m * 2 ^ 52) (e + -52)) = e := by
      have : 2 ^ 52 ≤ m → 52 ≤ m.log2 := (Nat.le_log2 hm.ne').mpr
      rw [targetExponent_eq, log2_mul_two_pow hm]
      omega
    have hshift : (e - (e + -52)).toNat = 52 := by omega
    have hfirst : shiftToTargetExponent Format.binary64 (m * 2 ^ 52) (e + -52) .exact =
        (ExtendedMantissa.ofMantissaAndAccuracy (m * 2 ^ 52) .exact >>> 52, e) := by
      simp only [shiftToTargetExponent, shiftToExponent, htarget, hshift, Prod.mk.injEq, true_and]
      omega
    have hround : (ExtendedMantissa.ofMantissaAndAccuracy (m * 2 ^ 52) .exact
        >>> 52).roundedMantissa = m := by
      refine ((cut_exact _).shiftRight Nat.one_pos 52).roundedMantissa.trans ?_
      rw [roundQuotient_mul (Nat.two_pow_pos 52), roundQuotient, Nat.mod_one, Nat.div_one]
      rfl
    have hspec := roundWithAccuracy_spec s (q := m) (k := (e + 1074).toNat)
      (by rw [hfirst]; exact ⟨hround, by omega⟩) hshort.le (hfull.imp_right (by omega))
    simp only [UnpackedFloat.mul, hsign]
    exact hspec

theorem units?_mul_one {x : Float} {a : Int} (hx : FiniteUnits x a) :
    units? (x * 1) = some a := by
  obtain ⟨hround, hread⟩ := read_mul_one (canonical_unpack x) hx.1 hx.2
  have hpack := (units?_pack hround).trans (congrArg _ hread)
  rw [Option.map_some, hx.saturate] at hpack
  exact hpack

theorem one_eq {k : Nat} (h : k = 1074) : 2 ^ k = one := by
  rw [one, oneExponent_eq, h]

theorem units?_toFloat (w : UInt64) :
    units? w.toFloat = some (saturate (roundUnits (w.toNat * one))) := by
  obtain ⟨hround, hread⟩ := normalize_spec (w.toNat : Int) (e := 0) (by decide) .positive
  refine (units?_pack hround).trans ?_
  rw [hread, one_eq (by decide), ← Int.natCast_mul, roundSigned_natCast]
  rfl

/-- Where places are dropped none have to be filled up before. -/
theorem round_of_le (s : Sign) {m : Nat} {e : Int}
    (h : e ≤ Format.binary64.targetExponent (totalExponent m e)) :
    UnpackedFloat.round Format.binary64 s m e =
      roundWithAccuracy Format.binary64 s m e .exact := by
  have hzero : (e - Format.binary64.targetExponent (totalExponent m e)).toNat = 0 := by omega
  simp only [UnpackedFloat.round, decreaseExponent, hzero, Nat.shiftLeft_zero]
  rw [Nat.cast_zero, Int.sub_zero]

theorem ofScientific_eq_round {n : Nat} (hn : 0 < n) :
    UnpackedFloat.ofScientific Format.binary64 n 0 =
      UnpackedFloat.round Format.binary64 .positive (n * 2 ^ 53) (-53) := by
  have hlarge : ¬ (0 : Int) > 2 ^ Format.binary64.exponentBits := by decide
  have hsmall : ¬ (0 : Int) < -(2 ^ Format.binary64.exponentBits + n.log2) := by
    have : (0 : Int) < 2 ^ Format.binary64.exponentBits := by decide
    omega
  have hfits : (-53 : Int) ≤ Format.binary64.targetExponent (totalExponent (n * 2 ^ 53) (-53)) := by
    rw [targetExponent_eq, log2_mul_two_pow hn]
    omega
  have hten : 10 ^ Int.toNat 0 = 1 := rfl
  rw [round_of_le _ hfits, UnpackedFloat.ofScientific, dif_neg hn.ne', if_neg hlarge,
    if_neg hsmall, if_pos (Int.le_refl 0)]
  simp only [UnpackedFloat.mul]
  rw [Nat.shiftLeft_eq, hten, Nat.mul_one]
  rfl

theorem units?_ofScientific {n : Nat} (hn : 0 < n) :
    units? (.ofModel (Float.Model.ofScientific n 0)) =
      some (saturate (roundUnits (n * one))) := by
  obtain ⟨hround, hread⟩ := round_spec .positive (m := n * 2 ^ 53)
    (Nat.mul_pos hn (Nat.two_pow_pos 53)) (e := -53) (by decide)
  have hunits : n * 2 ^ 53 * 2 ^ ((-53 : Int) + 1074).toNat = n * one := by
    rw [Nat.mul_assoc, ← Nat.pow_add, one_eq (by decide)]
  rw [hunits, ← ofScientific_eq_round hn] at hread
  rw [← ofScientific_eq_round hn] at hround
  refine (units?_pack hround).trans ?_
  rw [hread]
  rfl

/-- A whole number as a float. -/
theorem units?_ofNat (n : Nat) :
    units? (Float.ofNat n) = some (saturate (roundUnits (n * one))) := by
  change units? (Float.ofScientific n false 0) = _
  unfold Float.ofScientific
  by_cases hsmall : n < 2 ^ 53
  · have hshort : Short (n * one) := ⟨n, oneExponent, hsmall, rfl⟩
    have hlt : n * one < bound := by
      refine Nat.lt_of_lt_of_le (Nat.mul_lt_mul_of_pos_right hsmall one_pos) ?_
      rw [← bound_eq (j := 53) (k := boundExponent - 53) (by rw [boundExponent_eq])]
      refine Nat.mul_le_mul_left _ (Nat.pow_le_pow_right (by decide) ?_)
      rw [boundExponent_eq, oneExponent_eq]
      decide
    have hword : n.toUInt64.toNat = n := by
      rw [Nat.toUInt64_eq, UInt64.toNat_ofNat', Nat.mod_eq_of_lt (by omega)]
    have hsaturate : saturate (n * one : Nat) = (n * one : Nat) := saturate_of_natAbs_le hlt.le
    have hunits := units?_toFloat n.toUInt64
    rw [hword, roundUnits_of_short hshort, hsaturate] at hunits
    have hone : Float.exactlyRepresentablePowersOfTen[0] = 1 := by decide +kernel
    rw [dif_pos ⟨hsmall, by decide⟩, roundUnits_of_short hshort, hsaturate]
    change units? (n.toUInt64.toFloat * Float.exactlyRepresentablePowersOfTen[0]) = _
    rw [hone]
    exact units?_mul_one ⟨hunits, hlt⟩
  · rw [dif_neg (by omega)]
    exact units?_ofScientific (by omega)

/-! ## The laws of quotients -/

theorem div_le_div_right {x y t : Float} (hxy : x ≤ y) (hy : y < posInf) (hzero : 0 < t)
    (hpos : t < posInf) : x / t ≤ y / t := by
  obtain ⟨c, hc, hcpos⟩ := finiteUnits_of_pos hzero hpos
  obtain ⟨a, b, ha, hb, hab⟩ := le_iff.mp hxy
  rcases eq_negInf_or_finiteUnits hy with rfl | ⟨b', hfb⟩
  · rw [eq_negInf_of_le hxy, negInf_div hc hcpos]
    exact negInf_le_units units?_negInf
  obtain rfl : b = b' := Option.some.inj (hb.symm.trans hfb.1)
  rcases eq_negInf_or_finiteUnits (lt_posInf_iff.mpr ⟨a, ha, by have := hfb.2; omega⟩) with
    rfl | ⟨a', hfa⟩
  · rw [negInf_div hc hcpos]
    exact negInf_le_units (units?_div hfb hc hcpos)
  obtain rfl : a = a' := Option.some.inj (ha.symm.trans hfa.1)
  refine le_iff.mpr ⟨_, _, units?_div hfa hc hcpos, units?_div hfb hc hcpos, ?_⟩
  refine saturate_le_saturate (roundSignedRatio_le_roundSignedRatio (by omega) ?_)
  exact Int.mul_le_mul_of_nonneg_right hab (Int.natCast_nonneg one)

theorem zero_div {t : Float} (hzero : 0 < t) (hpos : t < posInf) : 0 / t = 0 := by
  obtain ⟨c, hc, hcpos⟩ := finiteUnits_of_pos hzero hpos
  obtain ⟨m, e, hm, hu⟩ := unpack_of_pos hc hcpos
  change Float.ofModel (Float.Model.pack (UnpackedFloat.div _ _ t.toModel.unpack)) = _
  rw [hu]
  rfl

/-- A ratio that is a short number stays as it is. -/
theorem roundSignedRatio_mul {a : Int} {d : Nat} (hd : 0 < d) (ha : Short a.natAbs) :
    roundSignedRatio (a * d) d = a := by
  have hnear := distance_roundSignedRatio_le (n := a * d) hd ha
  have hzero : (roundSignedRatio (a * d) d - a) * d = 0 := by
    rw [Int.sub_mul]
    omega
  have := (Int.mul_eq_zero.mp hzero).resolve_right (by omega)
  omega

theorem units?_of_one_le {t : Float} (hone : 1 ≤ t) (hpos : t < posInf) :
    ∃ c, FiniteUnits t c ∧ (one : Int) ≤ c := by
  obtain ⟨o, c, ho, hc, hle⟩ := le_iff.mp hone
  obtain ⟨c', hc', hlt⟩ := lt_posInf_iff.mp hpos
  obtain rfl : c = c' := Option.some.inj (hc.symm.trans hc')
  obtain rfl : (one : Int) = o := Option.some.inj (units?_one.symm.trans ho)
  exact ⟨c, ⟨hc, by have := one_pos; omega⟩, hle⟩

theorem one_lt_bound : one < bound := by
  obtain ⟨a, ha, hlt⟩ := lt_posInf_iff.mp one_lt_posInf
  obtain rfl : (one : Int) = a := Option.some.inj (units?_one.symm.trans ha)
  omega

theorem bound_le_one_mul_one : bound ≤ one * one := by
  unfold bound one
  rw [← Nat.pow_add]
  exact Nat.pow_le_pow_right (by decide) (by rw [boundExponent_eq, oneExponent_eq]; decide)

theorem one_div_pos {t : Float} (hone : 1 ≤ t) (hpos : t < posInf) : 0 < 1 / t := by
  obtain ⟨c, hc, hle⟩ := units?_of_one_le hone hpos
  have hcpos : 0 < c := by have := one_pos; omega
  -- the reciprocal is a unit at least
  have hunit : 1 ≤ roundSignedRatio (one * one) c.toNat := by
    have hshort : Short (1 : Int).natAbs := ⟨1, 0, by decide, rfl⟩
    rw [← roundSignedRatio_mul (d := c.toNat) (by omega) hshort]
    refine roundSignedRatio_le_roundSignedRatio (by omega) ?_
    have := bound_le_one_mul_one
    have := hc.2
    rw [Int.one_mul, ← Int.natCast_mul]
    omega
  refine lt_iff.mpr ⟨0, _, finiteUnits_zero.1,
    units?_div ⟨units?_one, by have := one_lt_bound; omega⟩ hc hcpos, ?_⟩
  have := bound_pos
  unfold saturate
  omega

theorem div_le_self {x t : Float} (hzero : 0 ≤ x) (hx : x < posInf) (hone : 1 ≤ t)
    (hpos : t < posInf) : x / t ≤ x := by
  obtain ⟨c, hc, hle⟩ := units?_of_one_le hone hpos
  have hcpos : 0 < c := by have := one_pos; omega
  obtain ⟨a, ha, ha0⟩ := units?_of_zero_le hzero
  obtain ⟨a', ha', hlt⟩ := lt_posInf_iff.mp hx
  obtain rfl : a = a' := Option.some.inj (ha.symm.trans ha')
  have hfa : FiniteUnits x a := ⟨ha, by omega⟩
  refine le_iff.mpr ⟨_, a, units?_div hfa hc hcpos, ha, ?_⟩
  have hround : roundSignedRatio (a * one) c.toNat ≤ a := by
    have hscaled : a * one ≤ a * c.toNat := Int.mul_le_mul_of_nonneg_left (by omega) ha0
    have := roundSignedRatio_le_roundSignedRatio (d := c.toNat) (by omega) hscaled
    rwa [roundSignedRatio_mul (by omega) hfa.short] at this
  exact (saturate_le_saturate hround).trans hfa.saturate.le

theorem le_div_self {x t : Float} (hzero : x ≤ 0) (hone : 1 ≤ t) (hpos : t < posInf) :
    x ≤ x / t := by
  obtain ⟨c, hc, hle⟩ := units?_of_one_le hone hpos
  have hcpos : 0 < c := by have := one_pos; omega
  obtain ⟨a, z, ha, hz, haz⟩ := le_iff.mp hzero
  obtain rfl : z = 0 := Option.some.inj (hz.symm.trans finiteUnits_zero.1)
  rcases eq_negInf_or_finiteUnits (lt_posInf_iff.mpr ⟨a, ha, by have := bound_pos; omega⟩) with
    rfl | ⟨a', hfa⟩
  · rw [negInf_div hc hcpos]
    exact negInf_le_units units?_negInf
  obtain rfl : a = a' := Option.some.inj (ha.symm.trans hfa.1)
  refine le_iff.mpr ⟨a, _, ha, units?_div hfa hc hcpos, ?_⟩
  have hround : a ≤ roundSignedRatio (a * one) c.toNat := by
    have hscaled : a * c.toNat ≤ a * one := Int.mul_le_mul_of_nonpos_left haz (by omega)
    have := roundSignedRatio_le_roundSignedRatio (d := c.toNat) (by omega) hscaled
    rwa [roundSignedRatio_mul (by omega) hfa.short] at this
  exact hfa.saturate.ge.trans (saturate_le_saturate hround)

/-! ## The laws of counts -/

theorem zero_lt_minTemperature : 0 < 1 / Float.ofNat 100000000 := by decide +kernel

theorem ofNat_one : Float.ofNat 1 = 1 := by decide +kernel

theorem ofNat_le_ofNat {m n : Nat} (h : m ≤ n) : Float.ofNat m ≤ Float.ofNat n := by
  refine le_iff.mpr ⟨_, _, units?_ofNat m, units?_ofNat n, saturate_le_saturate ?_⟩
  rw [← roundSigned_natCast, ← roundSigned_natCast]
  exact roundSigned_le_roundSigned (Int.ofNat_le.mpr (Nat.mul_le_mul_right one h))

theorem ofNat_lt_posInf {n : Nat} (h : n < Word.bound) : Float.ofNat n < posInf := by
  refine lt_posInf_iff.mpr ⟨_, units?_ofNat n, ?_⟩
  have hword : Word.bound * one = 1 * 2 ^ (64 + oneExponent) := by
    rw [Nat.one_mul, Nat.pow_add]
    rfl
  have hshort : Short (Word.bound * one) := ⟨1, 64 + oneExponent, by decide, hword⟩
  have hround : roundUnits (n * one) ≤ Word.bound * one := by
    have := roundSigned_le_roundSigned (Int.ofNat_le.mpr (Nat.mul_le_mul_right one h.le))
    rw [roundSigned_natCast, roundSigned_natCast, roundUnits_of_short hshort] at this
    omega
  have hlt : Word.bound * one < bound := by
    unfold bound
    rw [hword, Nat.one_mul]
    exact Nat.pow_lt_pow_right (by decide) (by rw [boundExponent_eq, oneExponent_eq]; decide)
  unfold saturate
  omega

/-- Floats obey the laws of quotients, whatever `exp` and `log` are. -/
theorem lawfulQuotient (exp log : Float → Float) : @LawfulQuotient Float (floatScore exp log) :=
  let _ := floatScore exp log
  { div_le_div_right, zero_div, one_div_pos, div_le_self, le_div_self, zero_lt_minTemperature
    count_one := ofNat_one
    count_le_count := ofNat_le_ofNat
    count_lt_posInf := ofNat_lt_posInf }

end OrderDecoding.Binary64
