/-
# `Proofs.Binary64.Rounding` — rounding to fifty-three bits

Every finite float is a whole number of UNITS, the smallest positive float
being one of them.  So the exact sum of two floats is a whole number as
well, and what the machine does with it is `roundUnits`: fifty-three
leading bits stay, ties go to the even neighbour.  The exact quotient of
two floats is no whole number, but a ratio of such, and is rounded in the
same way (`roundRatio`); a whole number is a ratio over one.

All that is ever used of it is that the result is a NEAREST number of
fifty-three bits (`distance_roundRatio_le`).  That rounding is monotone
follows from this alone, whatever is done with ties.
-/
import Mathlib.Tactic.Ring
import Mathlib.Tactic.Linarith

namespace OrderDecoding.Binary64

/-! ## The quotient of a rounding -/

/-- The whole number nearest to `n / h`, the even one of two. -/
def roundQuotient (n h : Nat) : Nat :=
  if 2 * (n % h) < h then n / h
  else if 2 * (n % h) = h then n / h + n / h % 2
  else n / h + 1

theorem roundQuotient_cases (n h : Nat) :
    (roundQuotient n h = n / h ∧ 2 * (n % h) ≤ h) ∨
      (roundQuotient n h = n / h + 1 ∧ h ≤ 2 * (n % h)) := by
  unfold roundQuotient
  split
  · exact Or.inl ⟨rfl, by omega⟩
  · split
    · rcases Nat.mod_two_eq_zero_or_one (n / h) with hq | hq
      · exact Or.inl ⟨by omega, by omega⟩
      · exact Or.inr ⟨by omega, by omega⟩
    · exact Or.inr ⟨rfl, by omega⟩

/-- No multiple of `h` is nearer to `n`. -/
theorem distance_roundQuotient_le {n h : Nat} (hh : 0 < h) (t : Int) :
    ((roundQuotient n h * h : Int) - n).natAbs ≤ (t * h - n).natAbs := by
  have hn : ((n / h : Nat) : Int) * h + (n % h : Nat) = n := by
    exact_mod_cast Nat.div_add_mod' n h
  have hr : n % h < h := Nat.mod_lt n hh
  -- a multiple of `h` is at most the lower neighbour of `n` or at least the upper one
  have hside : t * h ≤ (n / h : Nat) * h ∨ ((n / h : Nat) : Int) * h + h ≤ t * h := by
    rcases Int.lt_or_le t ((n / h : Nat) + 1) with hlt | hge
    · exact Or.inl (Int.mul_le_mul_of_nonneg_right (by omega) (by omega))
    · right
      have := Int.mul_le_mul_of_nonneg_right hge (Int.natCast_nonneg h)
      linarith [Int.add_mul ((n / h : Nat) : Int) 1 h]
  rcases roundQuotient_cases n h with ⟨hq, hle⟩ | ⟨hq, hle⟩
  · rw [hq]
    omega
  · rw [hq]
    push_cast
    rw [Int.add_mul, Int.one_mul]
    push_cast at hn hside
    omega

/-! ## Numbers of fifty-three bits -/

/-- A number with at most fifty-three bits before its trailing zeros. -/
def Short (n : Nat) : Prop := ∃ m k, m < 2 ^ 53 ∧ n = m * 2 ^ k

theorem short_zero : Short 0 := ⟨0, 0, by decide, rfl⟩

theorem short_of_le {m k : Nat} (h : m ≤ 2 ^ 53) : Short (m * 2 ^ k) := by
  rcases Nat.lt_or_eq_of_le h with hlt | rfl
  · exact ⟨m, k, hlt, rfl⟩
  · exact ⟨2 ^ 52, k + 1, by decide, by rw [Nat.pow_succ]; ring⟩

/-- The number of bits that a number has beyond fifty-three. -/
def excess (n : Nat) : Nat := n.log2 - 52

/-- A number of units as a float holds it. -/
def roundUnits (n : Nat) : Nat := roundQuotient n (2 ^ excess n) * 2 ^ excess n

theorem lt_two_pow_excess (n : Nat) : n < 2 ^ 53 * 2 ^ excess n := by
  have h : n < 2 ^ (n.log2 + 1) := Nat.lt_log2_self
  rw [← Nat.pow_add]
  refine Nat.lt_of_lt_of_le h (Nat.pow_le_pow_right (by decide) ?_)
  unfold excess
  omega

theorem two_pow_excess_le {n : Nat} (h : 0 < excess n) : 2 ^ 52 * 2 ^ excess n ≤ n := by
  have hn : n ≠ 0 := by
    rintro rfl
    simp [excess] at h
  have hlog : 52 + excess n = n.log2 := by
    unfold excess at h ⊢
    omega
  rw [← Nat.pow_add, hlog]
  exact Nat.log2_self_le hn

/-! ## Ratios -/

/-- The ratio `n / d`, in units, as a float holds it. -/
def roundRatio (n d : Nat) : Nat :=
  roundQuotient n (d * 2 ^ excess (n / d)) * 2 ^ excess (n / d)

theorem roundRatio_one (n : Nat) : roundRatio n 1 = roundUnits n := by
  rw [roundRatio, roundUnits, Nat.div_one, Nat.one_mul]

theorem roundQuotient_ratio_le (n d : Nat) :
    roundQuotient n (d * 2 ^ excess (n / d)) ≤ 2 ^ 53 := by
  have hlt : n / (d * 2 ^ excess (n / d)) < 2 ^ 53 := by
    rw [← Nat.div_div_eq_div_mul, Nat.div_lt_iff_lt_mul (Nat.two_pow_pos _)]
    exact lt_two_pow_excess (n / d)
  rcases roundQuotient_cases n (d * 2 ^ excess (n / d)) with ⟨h, -⟩ | ⟨h, -⟩ <;> omega

/-- Short of its full length a rounded mantissa is only where no bit was
dropped. -/
theorem roundQuotient_full_or_exact (n d : Nat) :
    2 ^ 52 ≤ roundQuotient n (d * 2 ^ excess (n / d)) ∨ excess (n / d) = 0 := by
  refine (Nat.eq_zero_or_pos (excess (n / d))).symm.imp_left fun h => ?_
  have hle : 2 ^ 52 ≤ n / (d * 2 ^ excess (n / d)) := by
    rw [← Nat.div_div_eq_div_mul, Nat.le_div_iff_mul_le (Nat.two_pow_pos _)]
    exact two_pow_excess_le h
  rcases roundQuotient_cases n (d * 2 ^ excess (n / d)) with ⟨h, -⟩ | ⟨h, -⟩ <;> omega

theorem short_roundRatio (n d : Nat) : Short (roundRatio n d) :=
  short_of_le (roundQuotient_ratio_le n d)

/-- No short number is nearer to `n / d` than what that is rounded to; told
without fractions.  Short numbers below the leading bit of `n / d` are no
multiples of the last place kept, but the leading bit itself is one and is
nearer. -/
theorem distance_roundRatio_le {n d x : Nat} (hd : 0 < d) (hx : Short x) :
    ((roundRatio n d * d : Int) - n).natAbs ≤ ((x * d : Int) - n).natAbs := by
  obtain ⟨m, j, hm, rfl⟩ := hx
  have hpos : 0 < d * 2 ^ excess (n / d) := Nat.mul_pos hd (Nat.two_pow_pos _)
  have hmultiple (t : Nat) : ((roundRatio n d * d : Int) - n).natAbs ≤
      ((t * 2 ^ excess (n / d) * d : Nat) - (n : Int)).natAbs := by
    have hle := distance_roundQuotient_le (n := n) hpos (t : Int)
    have hleft : (roundQuotient n (d * 2 ^ excess (n / d)) : Int) * (d * 2 ^ excess (n / d) : Nat)
        = roundRatio n d * d := by
      rw [roundRatio]
      push_cast
      ring
    have hright : (t : Int) * (d * 2 ^ excess (n / d) : Nat)
        = (t * 2 ^ excess (n / d) * d : Nat) := by
      push_cast
      ring
    rwa [hleft, hright] at hle
  rcases Nat.lt_or_ge j (excess (n / d)) with hj | hj
  · have hbelow : m * 2 ^ j ≤ 2 ^ 52 * 2 ^ excess (n / d) := by
      calc m * 2 ^ j ≤ 2 ^ 53 * 2 ^ j := Nat.mul_le_mul_right _ hm.le
        _ = 2 ^ 52 * 2 ^ (j + 1) := by rw [Nat.pow_succ]; ring
        _ ≤ 2 ^ 52 * 2 ^ excess (n / d) :=
            Nat.mul_le_mul_left _ (Nat.pow_le_pow_right (by decide) hj)
    have hlead : 2 ^ 52 * 2 ^ excess (n / d) * d ≤ n :=
      (Nat.le_div_iff_mul_le hd).mp (two_pow_excess_le (by omega))
    have hscaled := Nat.mul_le_mul_right d hbelow
    have hnear := hmultiple (2 ^ 52)
    rw [← Int.natCast_mul (m * 2 ^ j)]
    generalize m * 2 ^ j * d = a at hscaled ⊢
    generalize 2 ^ 52 * 2 ^ excess (n / d) * d = b at hscaled hnear hlead
    omega
  · have hx : m * 2 ^ j = m * 2 ^ (j - excess (n / d)) * 2 ^ excess (n / d) := by
      rw [Nat.mul_assoc, ← Nat.pow_add, Nat.sub_add_cancel hj]
    have hnear := hmultiple (m * 2 ^ (j - excess (n / d)))
    rw [← hx] at hnear
    exact_mod_cast hnear

/-! ## Ratios with a sign -/

/-- Rounding away from the sign. -/
def roundSignedRatio (n : Int) (d : Nat) : Int := n.sign * roundRatio n.natAbs d

theorem roundRatio_zero (d : Nat) : roundRatio 0 d = 0 := by
  rw [roundRatio, Nat.zero_div]
  simp [roundQuotient]

theorem roundSignedRatio_natCast (n d : Nat) : roundSignedRatio n d = roundRatio n d := by
  rcases Nat.eq_zero_or_pos n with rfl | h
  · rw [roundRatio_zero]
    exact Int.zero_mul _
  · rw [roundSignedRatio, Int.sign_eq_one_of_pos (by omega), Int.one_mul, Int.natAbs_natCast]

theorem roundSignedRatio_neg (n : Int) (d : Nat) :
    roundSignedRatio (-n) d = -roundSignedRatio n d := by
  rw [roundSignedRatio, Int.sign_neg, Int.natAbs_neg, Int.neg_mul, roundSignedRatio]

theorem natAbs_roundSignedRatio (n : Int) (d : Nat) :
    (roundSignedRatio n d).natAbs = roundRatio n.natAbs d := by
  rcases Int.eq_nat_or_neg n with ⟨k, rfl | rfl⟩
  · rw [roundSignedRatio_natCast, Int.natAbs_natCast, Int.natAbs_natCast]
  · rw [roundSignedRatio_neg, roundSignedRatio_natCast, Int.natAbs_neg, Int.natAbs_neg,
      Int.natAbs_natCast, Int.natAbs_natCast]

theorem distance_roundSignedRatio_le {n x : Int} {d : Nat} (hd : 0 < d) (hx : Short x.natAbs) :
    (roundSignedRatio n d * d - n).natAbs ≤ (x * d - n).natAbs := by
  -- by symmetry for `n` without a sign; there a negative `x` is further away than zero
  suffices h : ∀ (n : Nat) (x : Int), Short x.natAbs →
      (roundSignedRatio n d * d - n).natAbs ≤ (x * d - n).natAbs by
    obtain ⟨k, rfl | rfl⟩ := Int.eq_nat_or_neg n
    · exact h k x hx
    · have := h k (-x) (by rwa [Int.natAbs_neg])
      rw [Int.neg_mul] at this
      rw [roundSignedRatio_neg, Int.neg_mul]
      omega
  intro n x hx
  rw [roundSignedRatio_natCast]
  rcases Int.le_total 0 x with h0 | h0
  · obtain ⟨y, rfl⟩ := Int.eq_ofNat_of_zero_le h0
    exact distance_roundRatio_le hd hx
  · have hzero := distance_roundRatio_le (n := n) hd short_zero
    have hside : x * d ≤ 0 := Int.mul_nonpos_of_nonpos_of_nonneg h0 (Int.natCast_nonneg d)
    push_cast at hzero
    omega

theorem roundSignedRatio_le_roundSignedRatio {m n : Int} {d : Nat} (hd : 0 < d) (h : m ≤ n) :
    roundSignedRatio m d ≤ roundSignedRatio n d := by
  rcases Int.lt_or_eq_of_le h with hlt | rfl
  · have hm := distance_roundSignedRatio_le (n := m) (x := roundSignedRatio n d) hd
      (natAbs_roundSignedRatio n d ▸ short_roundRatio _ d)
    have hn := distance_roundSignedRatio_le (n := n) (x := roundSignedRatio m d) hd
      (natAbs_roundSignedRatio m d ▸ short_roundRatio _ d)
    by_contra hgt
    have hscaled : roundSignedRatio n d * d < roundSignedRatio m d * d :=
      Int.mul_lt_mul_of_pos_right (by omega) (by omega)
    omega
  · exact Int.le_refl _

/-! ## Whole numbers -/

theorem roundUnits_of_short {n : Nat} (h : Short n) : roundUnits n = n := by
  have := distance_roundRatio_le (n := n) Nat.one_pos h
  rw [roundRatio_one] at this
  omega

/-- Rounding away from the sign. -/
def roundSigned (n : Int) : Int := n.sign * roundUnits n.natAbs

theorem roundSignedRatio_one (n : Int) : roundSignedRatio n 1 = roundSigned n := by
  rw [roundSignedRatio, roundRatio_one, roundSigned]

theorem roundSigned_natCast (n : Nat) : roundSigned n = roundUnits n := by
  rw [← roundSignedRatio_one, roundSignedRatio_natCast, roundRatio_one]

theorem roundSigned_neg (n : Int) : roundSigned (-n) = -roundSigned n := by
  rw [← roundSignedRatio_one, roundSignedRatio_neg, roundSignedRatio_one]

theorem roundSigned_of_short {n : Int} (h : Short n.natAbs) : roundSigned n = n := by
  rw [roundSigned, roundUnits_of_short h, Int.sign_mul_natAbs]

theorem distance_roundSigned_le {n x : Int} (hx : Short x.natAbs) :
    (roundSigned n - n).natAbs ≤ (x - n).natAbs := by
  have h := distance_roundSignedRatio_le (n := n) Nat.one_pos hx
  rwa [roundSignedRatio_one, Nat.cast_one, Int.mul_one, Int.mul_one] at h

theorem roundSigned_le_roundSigned {m n : Int} (h : m ≤ n) : roundSigned m ≤ roundSigned n := by
  rw [← roundSignedRatio_one, ← roundSignedRatio_one]
  exact roundSignedRatio_le_roundSignedRatio Nat.one_pos h

end OrderDecoding.Binary64
