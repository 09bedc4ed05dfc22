/-
# `Proofs.Binary64.Packing` — back into bits

A rounded result is packed into bits, and too large an exponent becomes an
infinity on the way.  In readings: what is packed is SATURATED
(`read_pack`), cut down to what lies between the infinities.
-/
import OrderDecoding.Proofs.Binary64.Normalizing

namespace OrderDecoding.Binary64

open Float.Model Float.Model.UnpackedFloat

/-- Cut down to the readings that there are. -/
def saturate (n : Int) : Int := max (-bound) (min bound n)

theorem saturate_of_natAbs_le {n : Int} (h : n.natAbs ≤ bound) : saturate n = n := by
  unfold saturate
  omega

theorem saturate_le_saturate {m n : Int} (h : m ≤ n) : saturate m ≤ saturate n := by
  unfold saturate
  omega

theorem saturate_apply_of_le (s : Sign) {n : Nat} (h : bound ≤ n) :
    saturate (s.apply n) = s.apply bound := by
  cases s <;> simp only [Sign.apply, saturate] <;> omega

theorem saturate_apply_of_lt (s : Sign) {n : Nat} (h : n < bound) :
    saturate (s.apply n) = s.apply n := by
  refine saturate_of_natAbs_le ?_
  cases s <;> simp only [Sign.apply] <;> omega

/-! ## The bits of what is packed -/

theorem toNat_packComponents (s : Sign) (e : BitVec 11) (m : BitVec 52) :
    (packComponents Format.binary64 s e m).toNat =
      s.toBitVec.toNat * 2 ^ 63 + e.toNat * 2 ^ 52 + m.toNat := by
  have he := e.isLt
  have hm := m.isLt
  change ((s.toBitVec ++ e) ++ m).toNat = _
  rw [BitVec.toNat_append, ← Nat.shiftLeft_add_eq_or_of_lt hm, BitVec.toNat_append,
    ← Nat.shiftLeft_add_eq_or_of_lt he, Nat.shiftLeft_eq, Nat.shiftLeft_eq]
  ring

/-- Reading back sign, exponent and mantissa; `k` are the bits of the
last two. -/
theorem read_packComponents (s : Sign) (e : BitVec 11) (m : BitVec 52) {k : Nat}
    (hk : e.toNat * 2 ^ 52 + m.toNat = k) :
    read (unpack Format.binary64 (packComponents Format.binary64 s e m)) =
      if 2047 * 2 ^ 52 < k then none else some (s.apply (unitsOf k)) := by
  have he := e.isLt
  have hm := m.isLt
  have hmag : (packComponents Format.binary64 s e m).toNat % 2 ^ 63 = k := by
    rw [toNat_packComponents]
    omega
  rw [(read_unpack _).2, hmag, unpackSign_packComponents, Sign.ofBitVec_toBitVec]

theorem read_packedInfinity (s : Sign) :
    read (unpack Format.binary64 (packedInfinity Format.binary64 s)) = some (s.apply bound) := by
  have hbits : (-1#11).toNat * 2 ^ 52 + (0 : BitVec 52).toNat = 2047 * 2 ^ 52 := by decide
  refine (read_packComponents s (-1#11) 0 hbits).trans ?_
  rw [if_neg (Nat.lt_irrefl _), unitsOf_top]

theorem read_pack_finite (s : Sign) {m : Nat} {e : Int} (hpos : 0 < m)
    (h : Rounded (.finite s m e hpos)) :
    read (unpack Format.binary64 (UnpackedFloat.pack Format.binary64 (.finite s m e hpos))) =
      some (saturate (s.apply (m * 2 ^ (e + 1074).toNat : Nat))) := by
  obtain ⟨hm, he, hlead⟩ := h
  have hbias : (e + Format.binary64.exponentBias
      + Format.binary64.mantissaBitsWithoutImplicit).toNat = (e + 1075).toNat :=
    congrArg Int.toNat (Int.add_assoc e 1023 52)
  simp only [UnpackedFloat.pack, hbias]
  change read (unpack _ (if 2 ^ 11 ≤ (e + 1075).toNat + 1 then _
    else if m.log2 + 1 = 53 then _ else _)) = _
  split
  · -- past the largest exponent
    have hlarge : bound ≤ m * 2 ^ (e + 1074).toNat := by
      rw [← bound_eq (j := 52) (k := boundExponent - 52) (by rw [boundExponent_eq])]
      refine Nat.mul_le_mul (hlead.resolve_right (by omega))
        (Nat.pow_le_pow_right (by decide) ?_)
      rw [boundExponent_eq]
      omega
    rw [read_packedInfinity, saturate_apply_of_le s hlarge]
  · have hsmall := canonical_lt_bound (e := e) hm (by omega)
    have hmbits : (BitVec.ofNat 52 m).toNat = m % 2 ^ 52 := BitVec.toNat_ofNat ..
    rw [saturate_apply_of_lt s hsmall]
    split
    · next hlog =>
      -- the leading bit is left out
      have hlow : 2 ^ 52 ≤ m := by
        have := Nat.log2_self_le hpos.ne'
        rwa [show m.log2 = 52 by omega] at this
      have hebits : (BitVec.ofNat 11 (e + 1075).toNat).toNat = (e + 1075).toNat := by
        rw [BitVec.toNat_ofNat]
        omega
      have hunits : unitsOf ((e + 1075).toNat * 2 ^ 52 + m % 2 ^ 52)
          = m * 2 ^ (e + 1074).toNat := by
        rw [unitsOf, if_neg (by omega)]
        congr 2
        · omega
        · omega
      refine (read_packComponents s _ _ (by rw [hebits, hmbits])).trans ?_
      rw [if_neg (by omega), hunits]
    · next hlog =>
      have hlow : m < 2 ^ 52 := by
        by_contra hge
        have : 52 ≤ m.log2 := (Nat.le_log2 hpos.ne').mpr (by omega)
        have : m.log2 < 53 := (Nat.log2_lt hpos.ne').mpr hm
        omega
      have hexp : (e + 1074).toNat = 0 := by omega
      have hunits : unitsOf (m % 2 ^ 52) = m * 2 ^ (e + 1074).toNat := by
        rw [unitsOf, if_pos (by omega), hexp]
        omega
      refine (read_packComponents s 0#11 _ (k := m % 2 ^ 52) ?_).trans ?_
      · rw [hmbits, BitVec.toNat_zero, Nat.zero_mul, Nat.zero_add]
      · rw [if_neg (by omega), hunits]

theorem read_pack {u : UnpackedFloat} (h : Rounded u) :
    read (unpack Format.binary64 (UnpackedFloat.pack Format.binary64 u)) =
      (read u).map saturate := by
  cases u with
  | notANumber =>
    have hbits : (-1#11).toNat * 2 ^ 52 + (1#52 <<< 51).toNat = 2047 * 2 ^ 52 + 2 ^ 51 := by
      decide
    refine (read_packComponents .positive (-1#11) (1#52 <<< 51) hbits).trans ?_
    rw [if_pos (by decide)]
    rfl
  | infinity s =>
    rw [UnpackedFloat.pack, read_packedInfinity, read, Option.map_some,
      saturate_apply_of_le s (Nat.le_refl _)]
  | zero s =>
    refine (read_packComponents s 0 0 (k := 0) rfl).trans ?_
    rw [if_neg (Nat.not_lt_zero _), unitsOf_zero, read, Option.map_some,
      saturate_of_natAbs_le (Nat.zero_le _)]
    cases s <;> rfl
  | finite s m e hpos => exact read_pack_finite s hpos h

end OrderDecoding.Binary64
