/-
# `Proofs.Binary64.Order` — the two orders of floats

`≤` compares readings; it leaves out what is not a number, and does not
tell the two zeros apart.  The order of places (`floatPlace`) is a linear
order of all bit patterns.  On numbers the second refines the first
(`le_of_floatPlace_le`).
-/
import OrderDecoding.Proofs.Binary64.Reading
import OrderDecoding.Score

namespace OrderDecoding.Binary64

open Float.Model Float.Model.UnpackedFloat

/-! ## Readings from bits -/

/-- The bits of a float below its sign. -/
def magnitude (x : Float) : Nat := x.toBits.toNat % 2 ^ 63

/-- The units of a float without its sign, with it again. -/
def signedUnits (x : Float) : Int :=
  if x.toBits.toNat < 2 ^ 63 then unitsOf (magnitude x) else -unitsOf (magnitude x)

theorem canonical_unpack (x : Float) : Canonical x.toModel.unpack :=
  (read_unpack x.toModel.toBits.toBitVec).1

theorem units?_eq (x : Float) :
    units? x = if 2047 * 2 ^ 52 < magnitude x then none else some (signedUnits x) := by
  have hread := (read_unpack x.toModel.toBits.toBitVec).2
  have hsign := toNat_unpackSign x.toModel.toBits.toBitVec
  have hlt := x.toModel.toBits.toNat_lt
  change read _ = _
  rw [Float.Model.unpack, hread]
  change (if 2047 * 2 ^ 52 < magnitude x then _ else _) = _
  congr 2
  change Sign.apply _ (unitsOf (magnitude x) : Int) = _
  change _ = x.toBits.toNat / 2 ^ 63 at hsign
  change x.toBits.toNat < _ at hlt
  rw [signedUnits]
  split
  · have : @unpackSign Format.binary64 x.toModel.toBits.toBitVec = 0#1 :=
      BitVec.eq_of_toNat_eq (hsign.trans (by simp; omega))
    rw [this]
    rfl
  · have : @unpackSign Format.binary64 x.toModel.toBits.toBitVec = 1#1 :=
      BitVec.eq_of_toNat_eq (hsign.trans (by simp; omega))
    rw [this]
    rfl

theorem units?_eq_some {x : Float} {a : Int} (h : units? x = some a) :
    magnitude x ≤ 2047 * 2 ^ 52 ∧ signedUnits x = a := by
  rw [units?_eq] at h
  split at h
  · cases h
  · exact ⟨by omega, Option.some.inj h⟩

theorem natAbs_units?_le {x : Float} {a : Int} (h : units? x = some a) : a.natAbs ≤ bound := by
  obtain ⟨hmag, rfl⟩ := units?_eq_some h
  have hle := strictMono_unitsOf.le_iff_le.mpr hmag
  rw [unitsOf_top] at hle
  unfold signedUnits
  split <;> omega

theorem eq_of_magnitude_eq {x y : Float} (hmag : magnitude x = magnitude y)
    (hsign : x.toBits.toNat < 2 ^ 63 ↔ y.toBits.toNat < 2 ^ 63) : x = y := by
  have hx := x.toBits.toNat_lt
  have hy := y.toBits.toNat_lt
  unfold magnitude at hmag
  exact Float.toBits_inj.mp (UInt64.toNat.inj (by omega))

theorem unitsOf_eq_zero {m : Nat} : unitsOf m = 0 ↔ m = 0 :=
  strictMono_unitsOf.injective.eq_iff' unitsOf_zero

/-- A reading other than zero belongs to one float only. -/
theorem eq_of_units?_eq {x y : Float} {a : Int} (hx : units? x = some a) (hy : units? y = some a)
    (ha : a ≠ 0) : x = y := by
  obtain ⟨-, hx⟩ := units?_eq_some hx
  obtain ⟨-, hy⟩ := units?_eq_some hy
  unfold signedUnits at hx hy
  have hmag : unitsOf (magnitude x) = unitsOf (magnitude y) := by
    split at hx <;> split at hy <;> omega
  refine eq_of_magnitude_eq (strictMono_unitsOf.injective hmag) ?_
  split at hx <;> split at hy <;> first
    | exact iff_of_true ‹_› ‹_›
    | exact iff_of_false ‹_› ‹_›
    | omega

/-! ## Comparing floats -/

theorem le_iff {x y : Float} :
    x ≤ y ↔ ∃ a b, units? x = some a ∧ units? y = some b ∧ a ≤ b := by
  change (decide (x.toModel.unpack.le y.toModel.unpack = true) = true) ↔ _
  rw [decide_eq_true_iff, UnpackedFloat.le]
  constructor
  · intro h
    cases ha : read x.toModel.unpack with
    | none => simp [compare_eq_none (Or.inl ha)] at h
    | some a =>
      cases hb : read y.toModel.unpack with
      | none => simp [compare_eq_none (Or.inr hb)] at h
      | some b =>
        rw [compare_eq_some (canonical_unpack x) (canonical_unpack y) ha hb] at h
        exact ⟨a, b, ha, hb, Int.isLE_compare.mp h⟩
  · rintro ⟨a, b, ha, hb, hle⟩
    rw [compare_eq_some (canonical_unpack x) (canonical_unpack y) ha hb]
    exact Int.isLE_compare.mpr hle

theorem lt_iff {x y : Float} :
    x < y ↔ ∃ a b, units? x = some a ∧ units? y = some b ∧ a < b := by
  change (decide (x.toModel.unpack.lt y.toModel.unpack = true) = true) ↔ _
  rw [decide_eq_true_iff, UnpackedFloat.lt]
  constructor
  · intro h
    cases ha : read x.toModel.unpack with
    | none => simp [compare_eq_none (Or.inl ha)] at h
    | some a =>
      cases hb : read y.toModel.unpack with
      | none => simp [compare_eq_none (Or.inr hb)] at h
      | some b =>
        rw [compare_eq_some (canonical_unpack x) (canonical_unpack y) ha hb] at h
        exact ⟨a, b, ha, hb, by simpa [Int.compare_eq_lt] using h⟩
  · rintro ⟨a, b, ha, hb, hlt⟩
    rw [compare_eq_some (canonical_unpack x) (canonical_unpack y) ha hb, Int.compare_eq_lt.mpr hlt]
    rfl

theorem le_self_iff {x : Float} : x ≤ x ↔ ∃ a, units? x = some a := by
  rw [le_iff]
  constructor
  · rintro ⟨a, _, ha, -⟩
    exact ⟨a, ha⟩
  · rintro ⟨a, ha⟩
    exact ⟨a, a, ha, ha, Int.le_refl a⟩

/-! ## Places -/

theorem toNat_floatPlace (x : Float) :
    (floatPlace x).toNat =
      if x.toBits.toNat < 2 ^ 63 then x.toBits.toNat + 2 ^ 63 else 2 ^ 64 - 1 - x.toBits.toNat := by
  have hlt := x.toBits.toNat_lt
  simp only [floatPlace, UInt64.lt_iff_toNat_lt]
  change (if x.toBits.toNat < 2 ^ 63 then _ else _ : UInt64).toNat = _
  split
  · next h =>
    rw [UInt64.toNat_or]
    change x.toBits.toNat ||| 2 ^ 63 = _
    rw [Nat.or_two_pow_eq_add_of_lt h]
  · rw [UInt64.toNat_not]
    rfl

theorem floatPlace_injective {x y : Float} (h : floatPlace x = floatPlace y) : x = y := by
  have hx := toNat_floatPlace x
  have hy := toNat_floatPlace y
  have := x.toBits.toNat_lt
  have := y.toBits.toNat_lt
  rw [h] at hx
  refine Float.toBits_inj.mp (UInt64.toNat.inj ?_)
  split at hx <;> split at hy <;> omega

/-- The place of a number from its sign and the bits below it. -/
theorem floatPlace_le_iff {x y : Float} : floatPlace x ≤ floatPlace y ↔
    if x.toBits.toNat < 2 ^ 63 then
      y.toBits.toNat < 2 ^ 63 ∧ magnitude x ≤ magnitude y
    else y.toBits.toNat < 2 ^ 63 ∨ magnitude y ≤ magnitude x := by
  have hx := toNat_floatPlace x
  have hy := toNat_floatPlace y
  have := x.toBits.toNat_lt
  have := y.toBits.toNat_lt
  rw [UInt64.le_iff_toNat_le]
  unfold magnitude
  split at hx
  · rw [if_pos ‹_›]
    split at hy <;> omega
  · rw [if_neg ‹_›]
    split at hy <;> omega

theorem le_of_floatPlace_le {x y : Float} {a b : Int} (ha : units? x = some a)
    (hb : units? y = some b) (h : floatPlace x ≤ floatPlace y) : a ≤ b := by
  obtain ⟨-, rfl⟩ := units?_eq_some ha
  obtain ⟨-, rfl⟩ := units?_eq_some hb
  rw [floatPlace_le_iff] at h
  unfold signedUnits
  split at h
  · rw [if_pos ‹_›, if_pos h.1]
    have := strictMono_unitsOf.le_iff_le.mpr h.2
    omega
  · rw [if_neg ‹_›]
    rcases h with h | h
    · rw [if_pos h]
      omega
    · have := strictMono_unitsOf.le_iff_le.mpr h
      split <;> omega

theorem floatPlace_le_of_lt {x y : Float} {a b : Int} (ha : units? x = some a)
    (hb : units? y = some b) (h : a < b) : floatPlace x ≤ floatPlace y := by
  refine (UInt64.le_total (floatPlace x) (floatPlace y)).resolve_right fun hle => ?_
  have := le_of_floatPlace_le hb ha hle
  omega

end OrderDecoding.Binary64
