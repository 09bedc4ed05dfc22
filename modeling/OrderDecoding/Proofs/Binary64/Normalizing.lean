/-
# `Proofs.Binary64.Normalizing` — the machine's rounding is `roundUnits`

The logical model rounds by shifting a mantissa to the right one place at
a time, with two more bits to remember what was dropped: whether the
last place dropped was set, and whether any before it was.  `Cut` says
what the two bits mean, and is kept by each shift (`Cut.shiftRightOne`).
-/
import OrderDecoding.Proofs.Binary64.Reading

namespace OrderDecoding.Binary64

open Float.Model Float.Model.UnpackedFloat

/-! ## Shifting -/

/-- A mantissa is `n / h` rounded down; the two bits beside it say how the
remainder compares with zero and with the half of `h`. -/
structure Cut (em : ExtendedMantissa) (n h : Nat) : Prop where
  mantissa : em.mantissa = n / h
  roundBit : em.roundBit = true ↔ h ≤ 2 * (n % h)
  stickyBit : em.stickyBit = true ↔ n % h ≠ 0 ∧ 2 * (n % h) ≠ h

theorem cut_exact (n : Nat) : Cut (.ofMantissaAndAccuracy n .exact) n 1 where
  mantissa := (Nat.div_one n).symm
  roundBit := by simp [ExtendedMantissa.ofMantissaAndAccuracy, Nat.mod_one]
  stickyBit := by simp [ExtendedMantissa.ofMantissaAndAccuracy, Nat.mod_one]

theorem Cut.shiftRightOne {em : ExtendedMantissa} {n h : Nat} (hh : 0 < h) (hc : Cut em n h) :
    Cut em.shiftRightOne n (h * 2) := by
  obtain ⟨hm, hr, hs⟩ := hc
  have hlt : n % h < h := Nat.mod_lt n hh
  have hmod : n % (h * 2) = n % h + h * (n / h % 2) := Nat.mod_mul
  refine ⟨?_, ?_, ?_⟩
  · rw [ExtendedMantissa.shiftRightOne, hm, Nat.div_div_eq_div_mul]
  · simp only [ExtendedMantissa.shiftRightOne, hm, hmod, bne_iff_ne]
    rcases Nat.mod_two_eq_zero_or_one (n / h) with hq | hq <;> rw [hq] <;> omega
  · simp only [ExtendedMantissa.shiftRightOne, Bool.or_eq_true, hr, hs, hmod]
    rcases Nat.mod_two_eq_zero_or_one (n / h) with hq | hq <;> rw [hq] <;> omega

theorem Cut.shiftRight {em : ExtendedMantissa} {n h : Nat} (hh : 0 < h) (hc : Cut em n h) (s : Nat) :
    Cut (em >>> s) n (h * 2 ^ s) := by
  change Cut (s.repeat ExtendedMantissa.shiftRightOne em) n (h * 2 ^ s)
  induction s with
  | zero =>
    rw [Nat.pow_zero, Nat.mul_one]
    exact hc
  | succ s ih =>
    rw [Nat.pow_succ, ← Nat.mul_assoc]
    exact ih.shiftRightOne (Nat.mul_pos hh (Nat.two_pow_pos s))

theorem Cut.roundedMantissa {em : ExtendedMantissa} {n h : Nat} (hc : Cut em n h) :
    em.roundedMantissa = roundQuotient n h := by
  obtain ⟨hm, hr, hs⟩ := hc
  obtain ⟨m, r, s⟩ := em
  simp only at hm hr hs
  subst hm
  cases r <;> cases s <;>
    simp only [ExtendedMantissa.roundedMantissa, ExtendedMantissa.accuracy,
      Accuracy.roundToNearestEven, roundQuotient] <;>
    simp only [Bool.false_eq_true, false_iff, true_iff, not_and] at hr hs <;>
    split <;> first | omega | (split <;> omega)

theorem roundQuotient_mul {n h c : Nat} (hc : 0 < c) :
    roundQuotient (n * c) (h * c) = roundQuotient n h := by
  unfold roundQuotient
  rw [Nat.mul_div_mul_right _ _ hc, Nat.mul_mod_mul_right, ← Nat.mul_assoc]
  simp only [Nat.mul_lt_mul_right hc, Nat.mul_right_cancel_iff hc]

/-! ## Rounding -/

theorem targetExponent_eq (m : Nat) (e : Int) :
    Format.binary64.targetExponent (totalExponent m e) = max (m.log2 + e - 52) (-1074) := by
  change max ((m.log2 : Int) + 1 + e - 53) (-1074) = _
  omega

theorem log2_mul_two_pow {m : Nat} (hm : 0 < m) (k : Nat) : (m * 2 ^ k).log2 = m.log2 + k := by
  have hpos : m * 2 ^ k ≠ 0 := (Nat.mul_pos hm (Nat.two_pow_pos k)).ne'
  refine (Nat.log2_eq_iff hpos).mpr ⟨?_, ?_⟩
  · rw [Nat.pow_add]
    exact Nat.mul_le_mul_right _ (Nat.log2_self_le hm.ne')
  · rw [Nat.add_right_comm, Nat.pow_add]
    exact Nat.mul_lt_mul_of_pos_right Nat.lt_log2_self (Nat.two_pow_pos k)

/-- The mantissa after the first shift, and the exponent it then has. -/
theorem first_shift {m : Nat} (hm : 0 < m) {e : Int} (he : -1074 ≤ e) :
    let n := m * 2 ^ (e + 1074).toNat
    let t := Format.binary64.targetExponent (totalExponent m e)
    let d := decreaseExponent m e t
    let first := shiftToTargetExponent Format.binary64 d.1 d.2 .exact
    first.1.roundedMantissa = roundQuotient n (2 ^ excess n) ∧ first.2 = excess n - 1074 := by
  intro n t d first
  have hn : n.log2 = m.log2 + (e + 1074).toNat := log2_mul_two_pow hm _
  have ht : t = excess n - 1074 := by
    have := targetExponent_eq m e
    unfold excess
    omega
  rcases Int.lt_or_le e t with hlt | hle
  · -- places are dropped
    have hd : d = (m, e) := by
      have : (e - t).toNat = 0 := by omega
      simp [d, decreaseExponent, this]
    have hfirst : first = shiftToExponent m e .exact t := by
      change shiftToTargetExponent Format.binary64 d.1 d.2 .exact = _
      rw [hd]
      rfl
    have hsplit : excess n = (t - e).toNat + (e + 1074).toNat := by omega
    refine ⟨?_, ?_⟩
    · rw [hfirst]
      refine ((cut_exact m).shiftRight Nat.one_pos _).roundedMantissa.trans ?_
      rw [hsplit, Nat.pow_add, Nat.one_mul]
      exact (roundQuotient_mul (Nat.two_pow_pos _)).symm
    · rw [hfirst]
      change e + ((t - e).toNat : Int) = _
      omega
  · -- places are filled up, none is dropped
    have hd : d = (m * 2 ^ (e - t).toNat, t) := by
      simp only [d, decreaseExponent, Nat.shiftLeft_eq, Prod.mk.injEq, true_and]
      omega
    have hlog := log2_mul_two_pow hm (e - t).toNat
    have htarget :
        Format.binary64.targetExponent (totalExponent (m * 2 ^ (e - t).toNat) t) = t := by
      have := targetExponent_eq m e
      rw [targetExponent_eq, hlog]
      omega
    have hfirst : first = shiftToExponent (m * 2 ^ (e - t).toNat) t .exact t := by
      change shiftToTargetExponent Format.binary64 d.1 d.2 .exact = _
      rw [hd]
      simp only [shiftToTargetExponent, htarget]
    have hzero : (t - t).toNat = 0 := by omega
    refine ⟨?_, ?_⟩
    · rw [hfirst]
      have hsplit : n = m * 2 ^ (e - t).toNat * 2 ^ excess n := by
        have hexp : (e + 1074).toNat = (e - t).toNat + excess n := by omega
        calc n = m * 2 ^ ((e - t).toNat + excess n) := congrArg (m * 2 ^ ·) hexp
          _ = m * 2 ^ (e - t).toNat * 2 ^ excess n := by rw [Nat.pow_add, Nat.mul_assoc]
      have hround := roundQuotient_mul (n := m * 2 ^ (e - t).toNat) (h := 1)
        (Nat.two_pow_pos (excess n))
      rw [← hsplit, Nat.one_mul] at hround
      refine (((cut_exact _).shiftRight Nat.one_pos _).roundedMantissa.trans ?_).trans hround.symm
      rw [hzero, Nat.pow_zero, Nat.one_mul]
    · rw [hfirst]
      change t + ((t - t).toNat : Int) = _
      omega

/-- Unpacked results before packing: canonical but for the size of the
exponent. -/
def Rounded : UnpackedFloat → Prop
  | .finite _ m e _ => m < 2 ^ 53 ∧ -1074 ≤ e ∧ (2 ^ 52 ≤ m ∨ e = -1074)
  | _ => True

/-- A rounded mantissa of at most fifty-three bits, or one that rounding up
has carried into a place more: that place is shifted out again. -/
theorem last_shift (s : Sign) {q k : Nat} (hle : q ≤ 2 ^ 53) (hshort : 2 ^ 52 ≤ q ∨ k = 0) :
    let last := shiftToTargetExponent Format.binary64 q (k - 1074) .exact
    let u := if h : last.1.mantissa = 0 then UnpackedFloat.zero s
      else .finite s last.1.mantissa last.2 (Nat.pos_of_ne_zero h)
    Rounded u ∧ read u = some (s.apply (q * 2 ^ k : Nat)) := by
  rcases Nat.lt_or_eq_of_le hle with hlt | rfl
  · have hlog : q.log2 ≤ 52 := by
      rcases Nat.eq_zero_or_pos q with rfl | hpos
      · decide
      · have := (Nat.log2_lt hpos.ne').mpr hlt
        omega
    have hlast : shiftToTargetExponent Format.binary64 q (k - 1074) .exact
        = (.ofMantissaAndAccuracy q .exact, (k : Int) - 1074) := by
      have : (Format.binary64.targetExponent (totalExponent q (k - 1074))
          - ((k : Int) - 1074)).toNat = 0 := by
        rw [targetExponent_eq]
        omega
      simp only [shiftToTargetExponent, shiftToExponent, this]
      simp [HShiftRight.hShiftRight, Nat.repeat]
    intro last u
    by_cases hzero : q = 0
    · have hu : u = .zero s := by
        simp only [u, last, hlast]
        exact dif_pos hzero
      rw [hu, hzero, Nat.zero_mul]
      cases s <;> exact ⟨trivial, rfl⟩
    · have hu : u = .finite s q (k - 1074) (Nat.pos_of_ne_zero hzero) := by
        simp only [u, last, hlast]
        exact dif_neg hzero
      have hexp : ((k : Int) - 1074 + 1074).toNat = k := by omega
      rw [hu]
      refine ⟨⟨hlt, by omega, hshort.imp_right (by omega)⟩, ?_⟩
      rw [read, hexp]
  · have hlast : shiftToTargetExponent Format.binary64 (2 ^ 53) (k - 1074) .exact
        = (⟨2 ^ 52, false, false⟩, (k : Int) - 1074 + 1) := by
      have : (Format.binary64.targetExponent (totalExponent (2 ^ 53) (k - 1074))
          - ((k : Int) - 1074)).toNat = 1 := by
        rw [targetExponent_eq, Nat.log2_two_pow]
        omega
      simp only [shiftToTargetExponent, shiftToExponent, this]
      rfl
    intro last u
    have hu : u = .finite s (2 ^ 52) (k - 1074 + 1) (Nat.two_pow_pos 52) := by
      simp only [u, last, hlast]
      exact dif_neg (Nat.two_pow_pos 52).ne'
    have hexp : ((k : Int) - 1074 + 1 + 1074).toNat = k + 1 := by omega
    rw [hu]
    refine ⟨⟨Nat.pow_lt_pow_right (by decide) (by decide), by omega, Or.inl (Nat.le_refl _)⟩, ?_⟩
    rw [read, hexp, Nat.pow_succ]
    congr 3
    ring

/-- What rounding comes to is what the first shift comes to. -/
theorem roundWithAccuracy_spec (s : Sign) {m : Nat} {e : Int} {accuracy : Accuracy} {q k : Nat}
    (hfirst : (shiftToTargetExponent Format.binary64 m e accuracy).1.roundedMantissa = q ∧
      (shiftToTargetExponent Format.binary64 m e accuracy).2 = k - 1074)
    (hle : q ≤ 2 ^ 53) (hshort : 2 ^ 52 ≤ q ∨ k = 0) :
    Rounded (roundWithAccuracy Format.binary64 s m e accuracy) ∧
      read (roundWithAccuracy Format.binary64 s m e accuracy) =
        some (s.apply (q * 2 ^ k : Nat)) := by
  simp only [roundWithAccuracy, hfirst.1, hfirst.2]
  exact last_shift s hle hshort

theorem round_spec (s : Sign) {m : Nat} (hm : 0 < m) {e : Int} (he : -1074 ≤ e) :
    Rounded (UnpackedFloat.round Format.binary64 s m e) ∧
      read (UnpackedFloat.round Format.binary64 s m e) =
        some (s.apply (roundUnits (m * 2 ^ (e + 1074).toNat))) := by
  have hle := roundQuotient_ratio_le (m * 2 ^ (e + 1074).toNat) 1
  have hfull := roundQuotient_full_or_exact (m * 2 ^ (e + 1074).toNat) 1
  rw [Nat.div_one, Nat.one_mul] at hle hfull
  exact roundWithAccuracy_spec s (first_shift hm he) hle hfull

theorem normalize_spec (a : Int) {e : Int} (he : -1074 ≤ e) (z : Sign) :
    Rounded (UnpackedFloat.normalize Format.binary64 a e z) ∧
      read (UnpackedFloat.normalize Format.binary64 a e z) =
        some (roundSigned (a * (2 ^ (e + 1074).toNat : Nat))) := by
  rcases Int.lt_trichotomy a 0 with h | rfl | h
  · obtain ⟨k, rfl⟩ : ∃ k : Nat, a = -k := ⟨a.natAbs, by omega⟩
    rw [UnpackedFloat.normalize, Int.compare_eq_lt.mpr h]
    obtain ⟨hr, hv⟩ := round_spec .negative (m := k) (by omega) he
    simp only [Int.neg_neg, Int.toNat_natCast]
    refine ⟨hr, hv.trans ?_⟩
    rw [Int.neg_mul, roundSigned_neg, ← Int.natCast_mul, roundSigned_natCast]
    rfl
  · rw [UnpackedFloat.normalize, Int.compare_eq_eq.mpr rfl, Int.zero_mul]
    exact ⟨trivial, rfl⟩
  · obtain ⟨k, rfl⟩ : ∃ k : Nat, a = k := ⟨a.natAbs, by omega⟩
    rw [UnpackedFloat.normalize, Int.compare_eq_gt.mpr h]
    obtain ⟨hr, hv⟩ := round_spec .positive (m := k) (by omega) he
    simp only [Int.toNat_natCast]
    refine ⟨hr, hv.trans ?_⟩
    rw [← Int.natCast_mul, roundSigned_natCast]
    rfl

end OrderDecoding.Binary64
