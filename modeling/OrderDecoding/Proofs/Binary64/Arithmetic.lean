/-
# `Proofs.Binary64.Arithmetic` — sums and differences in units

The sum of two finite floats is the exact sum of their readings, rounded
and then saturated (`units?_add`).  Whatever is said of sums later follows
from that: they are monotone, because rounding is, and a small summand
moves a float by little, because rounding is to the nearest.

An infinity is no exact number, and sums with one are read off the
operation (`negInf_add`, `negInf_sub`).
-/
import OrderDecoding.Proofs.Binary64.Packing
import OrderDecoding.Proofs.Binary64.Order

namespace OrderDecoding.Binary64

open Float.Model Float.Model.UnpackedFloat

/-! ## Unpacked operands -/

theorem Canonical.rounded {u : UnpackedFloat} (h : Canonical u) : Rounded u := by
  cases u with
  | finite s m e hm => exact ⟨h.1, h.2.1, h.2.2.2⟩
  | _ => trivial

theorem Canonical.neg {u : UnpackedFloat} (h : Canonical u) : Canonical u.neg := by
  cases u <;> exact h

theorem apply_neg (s : Sign) (n : Int) : (-s).apply n = -s.apply n := by
  cases s
  · exact (Int.neg_neg n).symm
  · rfl

theorem read_neg {u : UnpackedFloat} {a : Int} (h : read u = some a) :
    read u.neg = some (-a) := by
  cases u with
  | notANumber => cases h
  | infinity s =>
    cases h
    rw [UnpackedFloat.neg, read, apply_neg]
  | zero s =>
    cases h
    rfl
  | finite s m e hm =>
    cases h
    rw [UnpackedFloat.neg, read, apply_neg]

/-- A finite operand is a short number of units. -/
theorem short_of_canonical {u : UnpackedFloat} (hu : Canonical u) {a : Int}
    (ha : read u = some a) : Short a.natAbs := by
  cases u with
  | notANumber => cases ha
  | infinity s =>
    cases ha
    refine ⟨1, boundExponent, by decide, ?_⟩
    have : bound = 1 * 2 ^ boundExponent := by
      unfold bound
      rw [Nat.one_mul]
    cases s <;> simp only [Sign.apply] <;> omega
  | zero s =>
    cases ha
    exact short_zero
  | finite s m e hm =>
    cases ha
    refine ⟨m, (e + 1074).toNat, hu.1, ?_⟩
    cases s <;> simp only [Sign.apply] <;> omega

theorem sub_eq_add_neg (u v : UnpackedFloat) :
    UnpackedFloat.sub Format.binary64 u v = UnpackedFloat.add Format.binary64 u v.neg := by
  cases u with
  | notANumber => rfl
  | infinity s => cases v <;> rfl
  | zero s => cases v <;> rfl
  | finite s m e hm =>
    cases v with
    | finite t m' e' hm' =>
      simp only [UnpackedFloat.sub, UnpackedFloat.neg, UnpackedFloat.add, apply_neg]
      rw [Int.sub_eq_add_neg]
    | _ => rfl

theorem unpacked_add_comm (u v : UnpackedFloat) :
    UnpackedFloat.add Format.binary64 u v = UnpackedFloat.add Format.binary64 v u := by
  cases u with
  | notANumber => cases v <;> rfl
  | infinity s =>
    cases v with
    | infinity t => cases s <;> cases t <;> rfl
    | _ => rfl
  | zero s =>
    cases v with
    | zero t => cases s <;> cases t <;> rfl
    | _ => rfl
  | finite s m e hm =>
    cases v with
    | finite t m' e' hm' =>
      change normalize Format.binary64 (s.apply (decreaseExponent m e (min e e')).1
          + t.apply (decreaseExponent m' e' (min e e')).1) (min e e') .positive
        = normalize Format.binary64 (t.apply (decreaseExponent m' e' (min e' e)).1
          + s.apply (decreaseExponent m e (min e' e)).1) (min e' e) .positive
      rw [Int.add_comm, Int.min_comm]
    | _ => rfl

theorem apply_decreaseExponent (s : Sign) (m : Nat) {e t : Int} (hte : t ≤ e) (ht : -1074 ≤ t) :
    s.apply (decreaseExponent m e t).1 * (2 ^ (t + 1074).toNat : Nat) =
      s.apply (m * 2 ^ (e + 1074).toNat : Nat) := by
  have hexp : (e + 1074).toNat = (e - t).toNat + (t + 1074).toNat := by omega
  have hshift : (decreaseExponent m e t).1 * 2 ^ (t + 1074).toNat
      = m * 2 ^ (e + 1074).toNat := by
    rw [decreaseExponent, Nat.shiftLeft_eq, hexp, Nat.pow_add, Nat.mul_assoc]
  cases s
  · simp only [Sign.apply]
    rw [Int.neg_mul, ← Int.natCast_mul, hshift]
  · simp only [Sign.apply]
    rw [← Int.natCast_mul, hshift]

/-- The sum of finite operands. -/
theorem read_add {u v : UnpackedFloat} (hu : Canonical u) (hv : Canonical v) {a b : Int}
    (ha : read u = some a) (hb : read v = some b) (hab : a.natAbs < bound)
    (hbb : b.natAbs < bound) :
    Rounded (UnpackedFloat.add Format.binary64 u v) ∧
      read (UnpackedFloat.add Format.binary64 u v) = some (roundSigned (a + b)) := by
  have hsa := short_of_canonical hu ha
  have hsb := short_of_canonical hv hb
  cases u with
  | notANumber => cases ha
  | infinity s =>
    cases ha
    cases s <;> simp only [Sign.apply] at hab <;> omega
  | zero s =>
    cases ha
    rw [Int.zero_add, roundSigned_of_short hsb]
    cases v with
    | notANumber => cases hb
    | infinity t =>
      cases hb
      cases t <;> simp only [Sign.apply] at hbb <;> omega
    | zero t =>
      cases hb
      cases s <;> cases t <;> exact ⟨trivial, rfl⟩
    | finite t m e hm => exact ⟨hv.rounded, hb⟩
  | finite s m e hm =>
    cases v with
    | notANumber => cases hb
    | infinity t =>
      cases hb
      cases t <;> simp only [Sign.apply] at hbb <;> omega
    | zero t =>
      cases hb
      rw [Int.add_zero, roundSigned_of_short hsa]
      exact ⟨hu.rounded, ha⟩
    | finite t m' e' hm' =>
      cases ha
      cases hb
      have hmin : -1074 ≤ min e e' := by
        have := hu.2.1
        have := hv.2.1
        omega
      have hsum := normalize_spec
        (s.apply (decreaseExponent m e (min e e')).1
          + t.apply (decreaseExponent m' e' (min e e')).1) hmin .positive
      rw [Int.add_mul, apply_decreaseExponent s m (by omega) hmin,
        apply_decreaseExponent t m' (by omega) hmin] at hsum
      exact hsum

/-! ## Floats -/

/-- A float with a reading between the infinities. -/
def FiniteUnits (x : Float) (a : Int) : Prop := units? x = some a ∧ a.natAbs < bound

theorem FiniteUnits.short {x : Float} {a : Int} (h : FiniteUnits x a) : Short a.natAbs :=
  short_of_canonical (canonical_unpack x) h.1

theorem FiniteUnits.saturate {x : Float} {a : Int} (h : FiniteUnits x a) : saturate a = a :=
  saturate_of_natAbs_le h.2.le

theorem units?_pack {u : UnpackedFloat} (h : Rounded u) :
    units? (.ofModel (Float.Model.pack u)) = (read u).map saturate := by
  change read (unpack Format.binary64 (UInt64.ofBitVec _).toBitVec) = _
  rw [UInt64.toBitVec_ofBitVec]
  exact read_pack h

theorem units?_add {x y : Float} {a b : Int} (hx : FiniteUnits x a) (hy : FiniteUnits y b) :
    units? (x + y) = some (saturate (roundSigned (a + b))) := by
  obtain ⟨hround, hread⟩ :=
    read_add (canonical_unpack x) (canonical_unpack y) hx.1 hy.1 hx.2 hy.2
  refine (units?_pack hround).trans ?_
  rw [hread]
  rfl

theorem float_add_comm (x y : Float) : x + y = y + x := by
  change Float.ofModel (Float.Model.pack (UnpackedFloat.add _ _ _))
    = Float.ofModel (Float.Model.pack (UnpackedFloat.add _ _ _))
  rw [unpacked_add_comm]

theorem units?_sub {x y : Float} {a b : Int} (hx : FiniteUnits x a) (hy : FiniteUnits y b) :
    units? (x - y) = some (saturate (roundSigned (a - b))) := by
  have hb : (-b).natAbs < bound := by
    have := hy.2
    omega
  obtain ⟨hround, hread⟩ :=
    read_add (canonical_unpack x) (canonical_unpack y).neg hx.1 (read_neg hy.1) hx.2 hb
  rw [← sub_eq_add_neg] at hround hread
  refine (units?_pack hround).trans ?_
  rw [hread]
  rfl

/-! ## Infinities -/

/-- The two infinities, as a score has them. -/
def negInf : Float := -1.0 / 0.0

def posInf : Float := 1.0 / 0.0

theorem unpack_negInf : negInf.toModel.unpack = .infinity .negative := rfl

theorem unpack_posInf : posInf.toModel.unpack = .infinity .positive := rfl

theorem units?_negInf : units? negInf = some (-(bound : Int)) := by
  rw [units?, unpack_negInf, read, Sign.apply]

theorem units?_posInf : units? posInf = some (bound : Int) := by
  rw [units?, unpack_posInf, read, Sign.apply]

theorem eq_negInf {x : Float} (h : units? x = some (-(bound : Int))) : x = negInf := by
  have := bound_pos
  exact eq_of_units?_eq h units?_negInf (by omega)

theorem negInf_add {x : Float} {a : Int} (hx : units? x = some a) (h : a < bound) :
    negInf + x = negInf := by
  change Float.ofModel (Float.Model.pack (UnpackedFloat.add _ _ x.toModel.unpack)) = _
  have hread : read x.toModel.unpack = some a := hx
  rw [unpack_negInf]
  generalize x.toModel.unpack = u at hread
  cases u with
  | notANumber => cases hread
  | infinity s =>
    cases s with
    | negative => rfl
    | positive =>
      cases hread
      exact absurd h (Int.lt_irrefl _)
  | zero s => rfl
  | finite s m e hm => rfl

theorem add_negInf {x : Float} {a : Int} (hx : units? x = some a) (h : a < bound) :
    x + negInf = negInf := by
  change Float.ofModel (Float.Model.pack (UnpackedFloat.add _ x.toModel.unpack _)) = _
  have hread : read x.toModel.unpack = some a := hx
  rw [unpack_negInf]
  generalize x.toModel.unpack = u at hread
  cases u with
  | notANumber => cases hread
  | infinity s =>
    cases s with
    | negative => rfl
    | positive =>
      cases hread
      exact absurd h (Int.lt_irrefl _)
  | zero s => rfl
  | finite s m e hm => rfl

theorem negInf_sub {x : Float} {a : Int} (hx : units? x = some a) (h : -(bound : Int) < a) :
    negInf - x = negInf := by
  change Float.ofModel (Float.Model.pack (UnpackedFloat.sub _ _ x.toModel.unpack)) = _
  have hread : read x.toModel.unpack = some a := hx
  rw [unpack_negInf]
  generalize x.toModel.unpack = u at hread
  cases u with
  | notANumber => cases hread
  | infinity s =>
    cases s with
    | negative =>
      cases hread
      exact absurd h (Int.lt_irrefl _)
    | positive => rfl
  | zero s => rfl
  | finite s m e hm => rfl

/-- A positive finite divisor. -/
theorem unpack_of_pos {x : Float} {a : Int} (hx : FiniteUnits x a) (h : 0 < a) :
    ∃ m e hm, x.toModel.unpack = .finite .positive m e hm := by
  have hread : read x.toModel.unpack = some a := hx.1
  have hlt := hx.2
  generalize x.toModel.unpack = u at hread
  cases u with
  | notANumber => cases hread
  | infinity s =>
    cases hread
    cases s <;> simp only [Sign.apply] at hlt <;> omega
  | zero s =>
    cases hread
    exact absurd h (Int.lt_irrefl 0)
  | finite s m e hm =>
    cases s with
    | negative =>
      cases hread
      simp only [Sign.apply] at h
      omega
    | positive => exact ⟨m, e, hm, rfl⟩

theorem negInf_div {x : Float} {a : Int} (hx : FiniteUnits x a) (h : 0 < a) :
    negInf / x = negInf := by
  obtain ⟨m, e, hm, hu⟩ := unpack_of_pos hx h
  change Float.ofModel (Float.Model.pack (UnpackedFloat.div _ _ x.toModel.unpack)) = _
  rw [hu]
  rfl

theorem sub_self {x : Float} {a : Int} (hx : FiniteUnits x a) : x - x = 0 := by
  change Float.ofModel (Float.Model.pack (UnpackedFloat.sub _ x.toModel.unpack _)) = _
  have hread : read x.toModel.unpack = some a := hx.1
  have hlt := hx.2
  generalize x.toModel.unpack = u at hread
  cases u with
  | notANumber => cases hread
  | infinity s =>
    cases hread
    cases s <;> simp only [Sign.apply] at hlt <;> omega
  | zero s => cases s <;> rfl
  | finite s m e hm =>
    simp only [UnpackedFloat.sub, Int.sub_self]
    rfl

/-! ## Sums that vanish -/

/-- A sum that vanishes, of operands that do not, is the zero without a
sign. -/
theorem unpacked_add_of_neg {u v : UnpackedFloat} (hu : Canonical u) (hv : Canonical v) {a : Int}
    (ha : read u = some a) (hneg : read v = some (-a)) (hne : a ≠ 0) (hlt : a.natAbs < bound) :
    UnpackedFloat.add Format.binary64 u v = .zero .positive := by
  cases u with
  | notANumber => cases ha
  | infinity s =>
    cases ha
    cases s <;> simp only [Sign.apply] at hlt <;> omega
  | zero s =>
    cases ha
    exact absurd rfl hne
  | finite s m e hm =>
    cases v with
    | notANumber => cases hneg
    | infinity t =>
      rw [read, Option.some.injEq] at hneg
      cases t <;> simp only [Sign.apply] at hneg <;> omega
    | zero t =>
      rw [read, Option.some.injEq] at hneg
      omega
    | finite t m' e' hm' =>
      rw [read, Option.some.injEq] at ha hneg
      have hmin : -1074 ≤ min e e' := by
        have := hu.2.1
        have := hv.2.1
        omega
      have hsum : (s.apply (decreaseExponent m e (min e e')).1
          + t.apply (decreaseExponent m' e' (min e e')).1)
            * (2 ^ (min e e' + 1074).toNat : Nat) = 0 := by
        rw [Int.add_mul, apply_decreaseExponent s m (by omega) hmin,
          apply_decreaseExponent t m' (by omega) hmin, ha, hneg, Int.add_right_neg]
      have hpow : ((2 ^ (min e e' + 1074).toNat : Nat) : Int) ≠ 0 :=
        Int.natCast_ne_zero.mpr (Nat.two_pow_pos _).ne'
      change normalize Format.binary64 (s.apply (decreaseExponent m e (min e e')).1
          + t.apply (decreaseExponent m' e' (min e e')).1) (min e e') .positive = _
      rw [(Int.mul_eq_zero.mp hsum).resolve_right hpow]
      rfl

theorem add_of_neg {x y : Float} {a : Int} (hx : FiniteUnits x a) (hy : units? y = some (-a))
    (ha : a ≠ 0) : x + y = 0 := by
  change Float.ofModel (Float.Model.pack (UnpackedFloat.add _ _ _)) = _
  rw [unpacked_add_of_neg (canonical_unpack x) (canonical_unpack y) hx.1 hy ha hx.2]
  rfl

end OrderDecoding.Binary64
