/-
# `Proofs.Binary64.Lawful` — floats obey the laws of scores

Every law of `LawfulScore` about order, sums, differences and quotients
holds of the machine's floats as the logical model has them.  `exp` and
`log` have no model: what is asked of them is listed in `ExpLog`, and is
little — the values at `-∞` and at zero, signs, and a bound that the
logarithm of the largest float is far below.

The law that needs the most is that a row's maximum stays mild when the
normaliser is taken off (`mild_sub`).  A float moves by at most twice what
is added to it, so the difference is some thousand at most; and the
neighbours of the largest float are too far apart for that to matter.
-/
import OrderDecoding.Proofs.Binary64.Arithmetic
import OrderDecoding.Proofs.Lawful

namespace OrderDecoding.Binary64

/-! ## What can be a score -/

theorem lt_posInf_iff {x : Float} : x < posInf ↔ ∃ a, units? x = some a ∧ a < bound := by
  rw [lt_iff]
  constructor
  · rintro ⟨a, b, ha, hb, hlt⟩
    rw [units?_posInf, Option.some.injEq] at hb
    exact ⟨a, ha, by omega⟩
  · rintro ⟨a, ha, hlt⟩
    exact ⟨a, bound, ha, units?_posInf, hlt⟩

theorem negInf_lt_iff {x : Float} : negInf < x ↔ ∃ a, units? x = some a ∧ -(bound : Int) < a := by
  rw [lt_iff]
  constructor
  · rintro ⟨b, a, hb, ha, hlt⟩
    rw [units?_negInf, Option.some.injEq] at hb
    exact ⟨a, ha, by omega⟩
  · rintro ⟨a, ha, hlt⟩
    exact ⟨-(bound : Int), a, units?_negInf, ha, hlt⟩

theorem finiteUnits_of_lt {x : Float} (hneg : negInf < x) (hpos : x < posInf) :
    ∃ a, FiniteUnits x a := by
  obtain ⟨a, ha, hlow⟩ := negInf_lt_iff.mp hneg
  obtain ⟨b, hb, hhigh⟩ := lt_posInf_iff.mp hpos
  rw [ha, Option.some.injEq] at hb
  exact ⟨a, ha, by omega⟩

theorem FiniteUnits.negInf_lt {x : Float} {a : Int} (h : FiniteUnits x a) : negInf < x :=
  negInf_lt_iff.mpr ⟨a, h.1, by have := h.2; omega⟩

theorem eq_negInf_or_finiteUnits {x : Float} (h : x < posInf) :
    x = negInf ∨ ∃ a, FiniteUnits x a := by
  obtain ⟨a, ha, hlt⟩ := lt_posInf_iff.mp h
  have hle := natAbs_units?_le ha
  rcases Int.lt_or_eq_of_le (show -(bound : Int) ≤ a by omega) with hlow | rfl
  · exact Or.inr ⟨a, ha, by omega⟩
  · exact Or.inl (eq_negInf ha)

/-! ## Sums -/

theorem negInf_le_units {x : Float} {a : Int} (h : units? x = some a) : negInf ≤ x :=
  le_iff.mpr ⟨_, a, units?_negInf, h, by have := natAbs_units?_le h; omega⟩

/-- Sums of scores are numbers. -/
theorem units?_add_of_lt {x y : Float} (hx : x < posInf) (hy : y < posInf) :
    ∃ a, units? (x + y) = some a := by
  obtain ⟨b, hb, hblt⟩ := lt_posInf_iff.mp hy
  rcases eq_negInf_or_finiteUnits hx with rfl | ⟨a, ha⟩
  · exact ⟨_, negInf_add hb hblt ▸ units?_negInf⟩
  · rcases eq_negInf_or_finiteUnits hy with rfl | ⟨c, hc⟩
    · exact ⟨_, add_negInf ha.1 (by have := ha.2; omega) ▸ units?_negInf⟩
    · exact ⟨_, units?_add ha hc⟩

theorem add_le_add {x y z w : Float} (hxy : x ≤ y) (hzw : z ≤ w) (hy : y < posInf)
    (hw : w < posInf) : x + z ≤ y + w := by
  obtain ⟨a, b, ha, hb, hab⟩ := le_iff.mp hxy
  obtain ⟨c, d, hc, hd, hcd⟩ := le_iff.mp hzw
  obtain ⟨b', hb', hblt⟩ := lt_posInf_iff.mp hy
  obtain ⟨d', hd', hdlt⟩ := lt_posInf_iff.mp hw
  obtain rfl : b = b' := Option.some.inj (hb.symm.trans hb')
  obtain rfl : d = d' := Option.some.inj (hd.symm.trans hd')
  obtain ⟨e, he⟩ := units?_add_of_lt hy hw
  have hx : x < posInf := lt_posInf_iff.mpr ⟨a, ha, by omega⟩
  have hz : z < posInf := lt_posInf_iff.mpr ⟨c, hc, by omega⟩
  rcases eq_negInf_or_finiteUnits hx with rfl | ⟨a', hfa⟩
  · rw [negInf_add hc (by omega)]
    exact negInf_le_units he
  rcases eq_negInf_or_finiteUnits hz with rfl | ⟨c', hfc⟩
  · rw [add_negInf ha (by omega)]
    exact negInf_le_units he
  obtain rfl : a = a' := Option.some.inj (ha.symm.trans hfa.1)
  obtain rfl : c = c' := Option.some.inj (hc.symm.trans hfc.1)
  have hfb : FiniteUnits y b := ⟨hb, by have := hfa.2; omega⟩
  have hfd : FiniteUnits w d := ⟨hd, by have := hfc.2; omega⟩
  refine le_iff.mpr ⟨_, _, units?_add hfa hfc, units?_add hfb hfd, ?_⟩
  exact saturate_le_saturate (roundSigned_le_roundSigned (by omega))

theorem finiteUnits_zero : FiniteUnits 0 0 := ⟨rfl, bound_pos⟩

/-- Adding zero leaves the reading as it is. -/
theorem units?_add_zero {x : Float} {a : Int} (h : units? x = some a) :
    units? (x + 0) = some a ∧ units? (0 + x) = some a := by
  have hle := natAbs_units?_le h
  have hzero := finiteUnits_zero
  rcases Nat.lt_or_eq_of_le hle with hlt | heq
  · have hx : FiniteUnits x a := ⟨h, hlt⟩
    rw [units?_add hx hzero, units?_add hzero hx, Int.add_zero, Int.zero_add,
      roundSigned_of_short hx.short, hx.saturate]
    exact ⟨rfl, rfl⟩
  · rcases (show a = bound ∨ a = -(bound : Int) by omega) with rfl | rfl
    · have hbound := bound_pos
      obtain rfl : x = posInf := eq_of_units?_eq h units?_posInf (by omega)
      exact ⟨units?_posInf, units?_posInf⟩
    · obtain rfl := eq_negInf h
      exact ⟨units?_negInf, units?_negInf⟩

theorem roundSigned_eq_zero {n : Int} (h : roundSigned n = 0) : n = 0 := by
  have hone : Short (1 : Int).natAbs := ⟨1, 0, by decide, rfl⟩
  have hneg : Short (-1 : Int).natAbs := ⟨1, 0, by decide, rfl⟩
  have h1 := distance_roundSigned_le (n := n) hone
  have h2 := distance_roundSigned_le (n := n) hneg
  omega

/-- A float read as zero is one of the two zeros. -/
theorem eq_zero_or {x : Float} (h : units? x = some 0) : x = 0.0 ∨ x = -0.0 := by
  obtain ⟨-, hx⟩ := units?_eq_some h
  have hmag : magnitude x = 0 := by
    refine unitsOf_eq_zero.mp ?_
    unfold signedUnits at hx
    split at hx <;> omega
  by_cases hsign : x.toBits.toNat < 2 ^ 63
  · exact Or.inl (eq_of_magnitude_eq hmag (iff_of_true hsign (by decide +kernel)))
  · exact Or.inr (eq_of_magnitude_eq hmag (iff_of_false hsign (by decide +kernel)))

/-- Sums keep the order of places.  Where two sums read the same they are
the same float or both zero, and then only signs are left to compare. -/
theorem floatPlace_add_le {x y z : Float} (h : floatPlace x ≤ floatPlace y) (hx : x < posInf)
    (hy : y < posInf) (hz : z < posInf) : floatPlace (x + z) ≤ floatPlace (y + z) := by
  obtain ⟨a, ha, halt⟩ := lt_posInf_iff.mp hx
  obtain ⟨b, hb, hblt⟩ := lt_posInf_iff.mp hy
  obtain ⟨c, hc, hclt⟩ := lt_posInf_iff.mp hz
  have hab := le_of_floatPlace_le ha hb h
  obtain ⟨s, t, hs, ht, hst⟩ := le_iff.mp
    (add_le_add (le_iff.mpr ⟨a, b, ha, hb, hab⟩) (le_self_iff.mpr ⟨c, hc⟩ : z ≤ z) hy hz)
  rcases Int.lt_or_eq_of_le hst with hlt | rfl
  · exact floatPlace_le_of_lt hs ht hlt
  by_cases hzero : s = 0
  · subst hzero
    rcases eq_negInf_or_finiteUnits hx with rfl | ⟨a', hfa⟩
    · rw [negInf_add hc hclt] at hs
      exact absurd (Option.some.inj (hs.symm.trans units?_negInf)) (by have := bound_pos; omega)
    rcases eq_negInf_or_finiteUnits hz with rfl | ⟨c', hfc⟩
    · rw [add_negInf ha halt] at hs
      exact absurd (Option.some.inj (hs.symm.trans units?_negInf)) (by have := bound_pos; omega)
    obtain rfl : a = a' := Option.some.inj (ha.symm.trans hfa.1)
    obtain rfl : c = c' := Option.some.inj (hc.symm.trans hfc.1)
    have hfb : FiniteUnits y b := ⟨hb, by have := hfa.2; omega⟩
    have hvanish {n : Int} (h : saturate (roundSigned n) = 0) : n = 0 := by
      have hbound := bound_pos
      exact roundSigned_eq_zero (by unfold saturate at h; omega)
    have hac : a + c = 0 := hvanish (Option.some.inj ((units?_add hfa hfc).symm.trans hs))
    have hbc : b + c = 0 := hvanish (Option.some.inj ((units?_add hfb hfc).symm.trans ht))
    obtain rfl : a = b := by omega
    by_cases ha0 : a = 0
    · subst ha0
      obtain rfl : c = 0 := by omega
      rcases eq_zero_or ha with rfl | rfl <;> rcases eq_zero_or hb with rfl | rfl <;>
        rcases eq_zero_or hc with rfl | rfl <;> first
        | exact UInt64.le_refl _
        | decide +kernel
        | exact absurd h (by decide +kernel)
    · rw [eq_of_units?_eq ha hb ha0]
      exact UInt64.le_refl _
  · rw [eq_of_units?_eq hs ht hzero]
    exact UInt64.le_refl _

/-! ## Differences and quotients -/

theorem sub_le_sub_right {x y z : Float} (hxy : x ≤ y) (hy : y < posInf) (hneg : negInf < z)
    (hpos : z < posInf) : x - z ≤ y - z := by
  obtain ⟨a, b, ha, hb, hab⟩ := le_iff.mp hxy
  obtain ⟨b', hb', hblt⟩ := lt_posInf_iff.mp hy
  obtain rfl : b = b' := Option.some.inj (hb.symm.trans hb')
  obtain ⟨c, hc⟩ := finiteUnits_of_lt hneg hpos
  have hclt := hc.2
  rcases eq_negInf_or_finiteUnits hy with rfl | ⟨b', hfb⟩
  · obtain rfl : x = negInf := by
      rw [units?_negInf, Option.some.injEq] at hb
      have := natAbs_units?_le ha
      exact eq_negInf (ha.trans (congrArg some (by omega)))
    rw [negInf_sub hc.1 (by omega)]
    exact negInf_le_units units?_negInf
  · obtain rfl : b = b' := Option.some.inj (hb.symm.trans hfb.1)
    rcases eq_negInf_or_finiteUnits (lt_posInf_iff.mpr ⟨a, ha, by omega⟩) with rfl | ⟨a', hfa⟩
    · rw [negInf_sub hc.1 (by omega)]
      exact negInf_le_units (units?_sub hfb hc)
    · obtain rfl : a = a' := Option.some.inj (ha.symm.trans hfa.1)
      refine le_iff.mpr ⟨_, _, units?_sub hfa hc, units?_sub hfb hc, ?_⟩
      exact saturate_le_saturate (roundSigned_le_roundSigned (by omega))

theorem zero_div_le {x : Float} (h : (0 : Float) / x ≤ 0 / x) : (0 : Float) / x ≤ 0 := by
  change Float.ofModel (Float.Model.pack (Float.Model.UnpackedFloat.div _ _ x.toModel.unpack))
    ≤ Float.ofModel (Float.Model.pack (Float.Model.UnpackedFloat.div _ _ x.toModel.unpack)) at h
  change Float.ofModel (Float.Model.pack (Float.Model.UnpackedFloat.div _ _ x.toModel.unpack)) ≤ _
  generalize x.toModel.unpack = u at h
  cases u with
  | notANumber => exact absurd h (by decide +kernel)
  | infinity s => cases s <;> decide +kernel
  | zero s => cases s <;> exact absurd h (by decide +kernel)
  | finite s m e hm =>
    change Float.ofModel (Float.Model.pack (.zero (.positive / s))) ≤ 0
    cases s <;> decide +kernel

/-! ## Small summands -/

/-- The distance of the largest float from `bound`, which is that of its
neighbours from it. -/
@[irreducible] def gap : Nat := 2 ^ (boundExponent - 53)

/-- Twice the units of 1024. -/
@[irreducible] def reach : Nat := 2 ^ (boundExponent - 1013)

theorem two_mul_reach_lt_gap : 2 * reach < gap := by
  unfold reach gap
  rw [← Nat.pow_succ']
  exact Nat.pow_lt_pow_right (by decide) (by rw [boundExponent_eq]; decide)

theorem short_reach : Short reach := by
  refine ⟨1, boundExponent - 1013, by decide, ?_⟩
  unfold reach
  exact (Nat.one_mul _).symm

theorem FiniteUnits.add_gap_le {x : Float} {a : Int} (h : FiniteUnits x a) :
    a.natAbs + gap ≤ bound := by
  have hsplit : 2 ^ 53 * gap = bound := by
    unfold gap
    exact bound_eq (by rw [boundExponent_eq])
  have hcanonical := canonical_unpack x
  have hread : read x.toModel.unpack = some a := h.1
  have hlt := h.2
  generalize x.toModel.unpack = u at hcanonical hread
  cases u with
  | notANumber => cases hread
  | infinity s =>
    cases hread
    cases s <;> simp only [Float.Model.UnpackedFloat.Sign.apply] at hlt <;> omega
  | zero s =>
    cases hread
    omega
  | finite s m e hm =>
    cases hread
    have hunits : m * 2 ^ (e + 1074).toNat ≤ (2 ^ 53 - 1) * gap := by
      refine Nat.mul_le_mul (by have := hcanonical.1; omega) ?_
      unfold gap
      refine Nat.pow_le_pow_right (by decide) ?_
      have := hcanonical.2.2.1
      rw [boundExponent_eq]
      omega
    cases s <;> simp only [Float.Model.UnpackedFloat.Sign.apply] <;> omega

/-- The units of what is at most 1024. -/
theorem two_mul_units_le {x : Float} (h : x ≤ 1024) :
    ∃ a, units? x = some a ∧ 2 * a ≤ reach := by
  have hunpack : (1024 : Float).toModel.unpack = .finite .positive (2 ^ 52) (-42) (by decide) := rfl
  have hunits : units? 1024 = some ((2 ^ 52 * 2 ^ 1032 : Nat) : Int) := by
    rw [units?, hunpack, read, Float.Model.UnpackedFloat.Sign.apply,
      show (-42 + 1074 : Int).toNat = 1032 from rfl]
  obtain ⟨a, b, ha, hb, hab⟩ := le_iff.mp h
  rw [hunits, Option.some.injEq] at hb
  refine ⟨a, ha, ?_⟩
  have hreach : reach = 2 * (2 ^ 52 * 2 ^ 1032) := by
    have hsplit : boundExponent - 1013 = 1032 + 52 + 1 := by rw [boundExponent_eq]
    have hpow (k : Nat) : 2 ^ (k + 52 + 1) = 2 * (2 ^ 52 * 2 ^ k) := by
      rw [Nat.pow_succ', Nat.pow_add, Nat.mul_comm (2 ^ 52)]
    unfold reach
    rw [hsplit]
    exact hpow 1032
  omega

theorem add_lt_posInf {x y : Float} (hx : x < posInf) (hy : y ≤ 1024) : x + y < posInf := by
  have hbound := bound_pos
  obtain ⟨b, hb, hble⟩ := two_mul_units_le hy
  have hgap := two_mul_reach_lt_gap
  rcases eq_negInf_or_finiteUnits hx with rfl | ⟨a, ha⟩
  · have hlt : b < bound := by
      have := finiteUnits_zero.add_gap_le
      omega
    rw [negInf_add hb hlt]
    exact lt_posInf_iff.mpr ⟨_, units?_negInf, by omega⟩
  have hagap := ha.add_gap_le
  rcases eq_negInf_or_finiteUnits (lt_posInf_iff.mpr ⟨b, hb, by omega⟩) with rfl | ⟨b', hfb⟩
  · rw [add_negInf ha.1 (by have := ha.2; omega)]
    exact lt_posInf_iff.mpr ⟨_, units?_negInf, by omega⟩
  obtain rfl : b = b' := Option.some.inj (hb.symm.trans hfb.1)
  refine lt_posInf_iff.mpr ⟨_, units?_add ha hfb, ?_⟩
  have hnear := distance_roundSigned_le (n := a + b) ha.short
  unfold saturate
  omega

/-- A finite float less its sum with something small. -/
theorem mild_sub {x t : Float} {a l : Int} (hx : FiniteUnits x a) (ht : units? t = some l)
    (hl : 0 ≤ l) (hle : 2 * l ≤ reach) :
    ∃ d, FiniteUnits (x - (x + t)) d ∧ d ≤ 0 ∧ -(reach : Int) ≤ d := by
  have hgap := two_mul_reach_lt_gap
  have hagap := hx.add_gap_le
  have hbound : FiniteUnits t l := ⟨ht, by have := finiteUnits_zero.add_gap_le; omega⟩
  -- the sum is at least `x` and at most twice as far from it as the exact sum
  have hlow : a ≤ roundSigned (a + l) := by
    have := roundSigned_le_roundSigned (show a ≤ a + l by omega)
    rwa [roundSigned_of_short hx.short] at this
  have hnear := distance_roundSigned_le (n := a + l) hx.short
  have hsum : FiniteUnits (x + t) (roundSigned (a + l)) := by
    refine ⟨?_, by omega⟩
    rw [units?_add hx hbound, saturate_of_natAbs_le (by omega)]
  have hdlow : -(reach : Int) ≤ roundSigned (a - roundSigned (a + l)) := by
    have := roundSigned_le_roundSigned (show -(reach : Int) ≤ a - roundSigned (a + l) by omega)
    rwa [roundSigned_of_short (by rw [Int.natAbs_neg]; exact short_reach)] at this
  have hdhigh : roundSigned (a - roundSigned (a + l)) ≤ 0 := by
    have := roundSigned_le_roundSigned (show a - roundSigned (a + l) ≤ 0 by omega)
    rwa [roundSigned_of_short (show Short (0 : Int).natAbs from short_zero)] at this
  refine ⟨_, ⟨?_, by omega⟩, hdhigh, hdlow⟩
  rw [units?_sub hx hsum, saturate_of_natAbs_le (by omega)]

theorem negInf_lt_add {x y : Float} {c d : Int} (hx : FiniteUnits x c) (hy : FiniteUnits y d)
    (hd : d ≤ 0) (hle : -(reach : Int) ≤ d) : negInf < x + y := by
  have hgap := two_mul_reach_lt_gap
  have hcgap := hx.add_gap_le
  have hnear := distance_roundSigned_le (n := c + d) hx.short
  refine negInf_lt_iff.mpr ⟨_, units?_add hx hy, ?_⟩
  have hbound := bound_pos
  unfold saturate
  omega

/-! ## Order -/

theorem le_trans {x y z : Float} (hxy : x ≤ y) (hyz : y ≤ z) : x ≤ z := by
  obtain ⟨a, b, ha, hb, hab⟩ := le_iff.mp hxy
  obtain ⟨b', c, hb', hc, hbc⟩ := le_iff.mp hyz
  obtain rfl : b = b' := Option.some.inj (hb.symm.trans hb')
  exact le_iff.mpr ⟨a, c, ha, hc, Int.le_trans hab hbc⟩

theorem le_self_left {x y : Float} (h : x ≤ y) : x ≤ x := by
  obtain ⟨a, -, ha, -, -⟩ := le_iff.mp h
  exact le_self_iff.mpr ⟨a, ha⟩

theorem le_self_right {x y : Float} (h : x ≤ y) : y ≤ y := by
  obtain ⟨-, b, -, hb, -⟩ := le_iff.mp h
  exact le_self_iff.mpr ⟨b, hb⟩

theorem le_or_le {x y : Float} (hx : x ≤ x) (hy : y ≤ y) : x ≤ y ∨ y ≤ x := by
  obtain ⟨a, ha⟩ := le_self_iff.mp hx
  obtain ⟨b, hb⟩ := le_self_iff.mp hy
  rcases Int.le_total a b with hab | hba
  · exact Or.inl (le_iff.mpr ⟨a, b, ha, hb, hab⟩)
  · exact Or.inr (le_iff.mpr ⟨b, a, hb, ha, hba⟩)

theorem lt_iff_le_not_le {x y : Float} : x < y ↔ x ≤ y ∧ ¬ y ≤ x := by
  constructor
  · intro hlt
    obtain ⟨a, b, ha, hb, hab⟩ := lt_iff.mp hlt
    refine ⟨le_iff.mpr ⟨a, b, ha, hb, hab.le⟩, fun hle => ?_⟩
    obtain ⟨b', a', hb', ha', hba⟩ := le_iff.mp hle
    have := Option.some.inj (ha.symm.trans ha')
    have := Option.some.inj (hb.symm.trans hb')
    omega
  · rintro ⟨hle, hnot⟩
    obtain ⟨a, b, ha, hb, hab⟩ := le_iff.mp hle
    refine lt_iff.mpr ⟨a, b, ha, hb, ?_⟩
    by_contra hge
    exact hnot (le_iff.mpr ⟨b, a, hb, ha, by omega⟩)

theorem negInf_le {x : Float} (h : x ≤ x) : negInf ≤ x := by
  obtain ⟨a, ha⟩ := le_self_iff.mp h
  exact negInf_le_units ha

theorem le_posInf {x : Float} (h : x ≤ x) : x ≤ posInf := by
  obtain ⟨a, ha⟩ := le_self_iff.mp h
  have hle := natAbs_units?_le ha
  exact le_iff.mpr ⟨a, _, ha, units?_posInf, by omega⟩

theorem eq_negInf_of_le {x : Float} (h : x ≤ negInf) : x = negInf := by
  obtain ⟨a, b, ha, hb, hab⟩ := le_iff.mp h
  have hb := Option.some.inj (hb.symm.trans units?_negInf)
  have hle := natAbs_units?_le ha
  exact eq_negInf (ha.trans (congrArg some (by omega)))

theorem le_of_places {x y : Float} (hx : x ≤ x) (hy : y ≤ y)
    (h : floatPlace x ≤ floatPlace y) : x ≤ y := by
  obtain ⟨a, ha⟩ := le_self_iff.mp hx
  obtain ⟨b, hb⟩ := le_self_iff.mp hy
  exact le_iff.mpr ⟨a, b, ha, hb, le_of_floatPlace_le ha hb h⟩

theorem zero_add_le {x : Float} (h : x ≤ x) : 0 + x ≤ x := by
  obtain ⟨a, ha⟩ := le_self_iff.mp h
  exact le_iff.mpr ⟨a, a, (units?_add_zero ha).2, ha, Int.le_refl a⟩

theorem le_zero_add {x : Float} (h : x ≤ x) : x ≤ 0 + x := by
  obtain ⟨a, ha⟩ := le_self_iff.mp h
  exact le_iff.mpr ⟨a, a, ha, (units?_add_zero ha).2, Int.le_refl a⟩

theorem le_add_zero {x : Float} (h : x ≤ x) : x ≤ x + 0 := by
  obtain ⟨a, ha⟩ := le_self_iff.mp h
  exact le_iff.mpr ⟨a, a, ha, (units?_add_zero ha).1, Int.le_refl a⟩

/-- The reading of what is above zero, or not below it. -/
theorem units?_of_zero_le {x : Float} (h : 0 ≤ x) : ∃ a, units? x = some a ∧ 0 ≤ a := by
  obtain ⟨z, a, hz, ha, hle⟩ := le_iff.mp h
  obtain rfl : z = 0 := Option.some.inj (hz.symm.trans finiteUnits_zero.1)
  exact ⟨a, ha, hle⟩

theorem finiteUnits_of_pos {x : Float} (hzero : 0 < x) (hpos : x < posInf) :
    ∃ a, FiniteUnits x a ∧ 0 < a := by
  obtain ⟨z, a, hz, ha, hlt⟩ := lt_iff.mp hzero
  obtain ⟨a', ha', hhigh⟩ := lt_posInf_iff.mp hpos
  obtain rfl : a = a' := Option.some.inj (ha.symm.trans ha')
  obtain rfl : z = 0 := Option.some.inj (hz.symm.trans finiteUnits_zero.1)
  exact ⟨a, ⟨ha, by omega⟩, hlt⟩

/-! ## The laws -/

/-- What is asked of `exp` and `log`. -/
structure ExpLog (exp log : Float → Float) : Prop where
  exp_negInf : exp negInf = 0
  exp_zero : exp 0 = 1
  exp_nonneg : ∀ {x : Float}, x ≤ x → 0 ≤ exp x
  exp_le_one : ∀ {x : Float}, x ≤ 0 → exp x ≤ 1
  log_nonneg : ∀ {x : Float}, 1 ≤ x → x < posInf → 0 ≤ log x
  log_le : ∀ {x : Float}, 1 ≤ x → x < posInf → log x ≤ 1024

theorem one_le : (1 : Float) ≤ 1024 := by decide +kernel

theorem negInf_lt_zero : negInf < 0 := by decide +kernel

theorem zero_lt_one : (0 : Float) < 1 := by decide +kernel

theorem one_lt_posInf : 1 < posInf := by decide +kernel

theorem minTemperature_lt_posInf : 1 / Float.ofNat 100000000 < posInf := by decide +kernel

theorem mild_sub_add_log {exp log : Float → Float} (h : ExpLog exp log) {x z : Float}
    (hneg : negInf < x) (hpos : x < posInf) (hz : 1 ≤ z) (hlt : z < posInf) :
    @Score.Mild Float (floatScore exp log) (x - (x + log z)) := by
  let _ := floatScore exp log
  obtain ⟨a, ha⟩ := finiteUnits_of_lt hneg hpos
  obtain ⟨l, hl, hsmall⟩ := two_mul_units_le (h.log_le hz hlt)
  obtain ⟨l', hl', hol⟩ := units?_of_zero_le (h.log_nonneg hz hlt)
  obtain rfl : l = l' := Option.some.inj (hl.symm.trans hl')
  obtain ⟨d, hd, hdle, hdge⟩ := mild_sub ha hl hol hsmall
  have hzero : (0 : Float) < posInf := by
    refine lt_posInf_iff.mpr ⟨0, finiteUnits_zero.1, ?_⟩
    have := bound_pos
    omega
  refine ⟨?_, hd.negInf_lt, ?_⟩
  · exact le_iff.mpr ⟨d, 0, hd.1, finiteUnits_zero.1, hdle⟩
  · intro y hyneg hyle
    have hylt : y < posInf := by
      refine lt_iff_le_not_le.mpr ⟨le_posInf (le_self_left hyle), ?_⟩
      intro hge
      exact (lt_iff_le_not_le.mp hzero).2 (le_trans hge hyle)
    obtain ⟨b, hb⟩ := finiteUnits_of_lt hyneg hylt
    exact negInf_lt_add hb hd hdle hdge

/-- Floats obey the laws of comparing, whatever stands for `exp` and `log`. -/
theorem lawfulOrder (exp log : Float → Float) : @LawfulOrder Float (floatScore exp log) :=
  let _ := floatScore exp log
  { le_trans, le_self_left, le_or_le, negInf_le
    lt_iff := lt_iff_le_not_le
    ranks_total := by
      intro x y
      simp only [Score.ranks, decide_eq_true_iff]
      exact UInt64.le_total _ _
    ranks_trans := by
      intro x y z
      simp only [Score.ranks, decide_eq_true_iff]
      exact UInt64.le_trans
    ranks_antisymm := by
      intro x y
      simp only [Score.ranks, decide_eq_true_iff]
      intro hxy hyx
      exact floatPlace_injective (UInt64.le_antisymm hxy hyx)
    le_of_ranks := by
      intro x y hx hy
      simp only [Score.ranks, decide_eq_true_iff]
      exact le_of_places hx hy }

instance : LawfulOrder Float := lawfulOrder Float.exp Float.log

/-- Floats obey the laws of scores, given what is asked of `exp` and
`log`. -/
theorem lawfulScore {exp log : Float → Float} (h : ExpLog exp log) :
    @LawfulScore Float (floatScore exp log) :=
  let _ := floatScore exp log
  let _ := lawfulOrder exp log
  { le_trans, le_self_left, le_self_right, le_or_le, negInf_le, le_posInf, negInf_lt_zero,
    zero_lt_one, one_lt_posInf, zero_add_le, le_zero_add, le_add_zero, add_le_add,
    sub_le_sub_right, zero_div_le, minTemperature_lt_posInf
    lt_iff := lt_iff_le_not_le
    eq_negInf := eq_negInf_of_le
    ranks_total := LawfulOrder.ranks_total
    ranks_trans := LawfulOrder.ranks_trans
    ranks_antisymm := LawfulOrder.ranks_antisymm
    le_of_ranks := LawfulOrder.le_of_ranks
    ranks_add := by
      intro x y z
      simp only [Score.ranks, decide_eq_true_iff]
      exact floatPlace_add_le
    add_negInf := by
      intro x hx
      obtain ⟨a, ha, hlt⟩ := lt_posInf_iff.mp hx
      exact add_negInf ha hlt
    add_lt_posInf := fun {x y} hx hy => add_lt_posInf hx (le_trans hy one_le)
    sub_self := by
      intro x hneg hpos
      obtain ⟨a, ha⟩ := finiteUnits_of_lt hneg hpos
      exact sub_self ha
    negInf_sub := by
      intro x hneg
      obtain ⟨a, ha, hlt⟩ := negInf_lt_iff.mp hneg
      exact negInf_sub ha hlt
    negInf_div := by
      intro x hzero hpos
      obtain ⟨a, ha, hlt⟩ := finiteUnits_of_pos hzero hpos
      exact negInf_div ha hlt
    exp_negInf := h.exp_negInf
    exp_zero := h.exp_zero
    exp_nonneg := h.exp_nonneg
    exp_le_one := h.exp_le_one
    log_nonneg := h.log_nonneg
    add_log_lt_posInf := fun {x z} hx hz hlt => add_lt_posInf hx (h.log_le hz hlt)
    mild_sub_add_log := mild_sub_add_log h }

/-! ## The sign of zero -/

theorem zero_ne_negZero : (0.0 : Float) ≠ -0.0 := by decide +kernel

theorem zero_le_negZero : (0.0 : Float) ≤ -0.0 := by decide +kernel

theorem not_floatPlace_zero_le : ¬ floatPlace 0.0 ≤ floatPlace (-0.0) := by decide +kernel

/-- All numbers but the zero with a sign stand at the top of their size. -/
theorem floatPlace_le_of_le {x y : Float} (hle : x ≤ y) (hy : y ≠ -0.0) :
    floatPlace x ≤ floatPlace y := by
  obtain ⟨a, b, ha, hb, hab⟩ := le_iff.mp hle
  rcases Int.lt_or_eq_of_le hab with hlt | rfl
  · exact floatPlace_le_of_lt ha hb hlt
  by_cases hzero : a = 0
  · subst hzero
    obtain rfl : y = 0.0 := (eq_zero_or hb).resolve_right hy
    rcases eq_zero_or ha with rfl | rfl <;> decide +kernel
  · rw [eq_of_units?_eq ha hb hzero]
    exact UInt64.le_refl _

/-- A sum is the zero with a sign only if the first summand is. -/
theorem add_ne_negZero {x y : Float} (hne : x ≠ -0.0) (hx : x < posInf) (hy : y < posInf) :
    x + y ≠ -0.0 := by
  have hbound := bound_pos
  have hunits : units? (-0.0) = some 0 := rfl
  have hnegInf : negInf ≠ -0.0 := by decide +kernel
  obtain ⟨b, hb, hblt⟩ := lt_posInf_iff.mp hy
  rcases eq_negInf_or_finiteUnits hx with rfl | ⟨a, ha⟩
  · rwa [negInf_add hb hblt]
  rcases eq_negInf_or_finiteUnits hy with rfl | ⟨b', hfb⟩
  · rwa [add_negInf ha.1 (by have := ha.2; omega)]
  obtain rfl : b = b' := Option.some.inj (hb.symm.trans hfb.1)
  intro hsum
  have hvanish : a + b = 0 := by
    have hread := units?_add ha hfb
    rw [hsum, hunits, Option.some.injEq] at hread
    exact roundSigned_eq_zero (by unfold saturate at hread; omega)
  by_cases hzero : a = 0
  · subst hzero
    obtain rfl : b = 0 := by omega
    obtain rfl : x = 0.0 := (eq_zero_or ha.1).resolve_right hne
    rcases eq_zero_or hb with rfl | rfl <;> exact absurd hsum (by decide +kernel)
  · rw [add_of_neg ha (hb.trans (congrArg some (by omega))) hzero] at hsum
    exact absurd hsum (by decide +kernel)

/-- The zero with a sign is the only score that is not topmost. -/
theorem topmost_iff (exp log : Float → Float) {x : Float} :
    @Score.Topmost Float (floatScore exp log) x ↔ x ≠ -0.0 := by
  let _ := floatScore exp log
  simp only [Score.Topmost, Score.ranks, decide_eq_true_iff]
  constructor
  · rintro htop rfl
    exact not_floatPlace_zero_le (htop _ zero_le_negZero)
  · exact fun hne y hle => floatPlace_le_of_le hle hne

/-- Whatever `exp` and `log` are, sums have no sign at zero. -/
theorem lawfulZero (exp log : Float → Float) : @LawfulZero Float (floatScore exp log) :=
  let _ := floatScore exp log
  { topmost_zero := (topmost_iff exp log).mpr zero_ne_negZero
    topmost_add := fun htop hx hy =>
      (topmost_iff exp log).mpr (add_ne_negZero ((topmost_iff exp log).mp htop) hx hy) }

end OrderDecoding.Binary64
