/-
# `Proofs.Lawful` — what is true of scores whatever their rounding

Decoding is written over any type with the operations of `Score`, and a
theorem about it may use of these what `LawfulScore` says.  Nothing there
is an identity of real numbers that rounding breaks: sums are monotone but
not associative, `0 + x` is between `x` and `x` but need not BE `x` (a zero
may lose its sign), and a difference is known only to be MILD where the
normaliser of a row is taken off the row's own maximum.

Values that are not numbers are not left out.  `x ≤ x` says that `x` is a
number, and `x < posInf` that it can be a score: a number below `+∞`,
though maybe `-∞`.
-/
import OrderDecoding.Score.Draw
import OrderDecoding.Word

namespace OrderDecoding

open Score

/-- Finite and so small that no score can get lost by adding it: what is
not masked is not masked afterwards either. -/
structure Score.Mild {α : Type} [Score α] (y : α) : Prop where
  nonpos : y ≤ 0
  unmasked : negInf < y
  negInf_lt_add : ∀ {x : α}, negInf < x → x ≤ 0 → negInf < x + y

/-- The laws of comparing, as numbers and by place.  Nothing is asked of
`exp` and `log` here, so floats obey them as they are. -/
class LawfulOrder (α : Type) [Score α] : Prop where
  le_trans {x y z : α} : x ≤ y → y ≤ z → x ≤ z
  le_self_left {x y : α} : x ≤ y → x ≤ x
  le_or_le {x y : α} : x ≤ x → y ≤ y → x ≤ y ∨ y ≤ x
  lt_iff {x y : α} : x < y ↔ x ≤ y ∧ ¬ y ≤ x
  negInf_le {x : α} : x ≤ x → negInf ≤ x
  ranks_total (x y : α) : ranks x y = true ∨ ranks y x = true
  ranks_trans {x y z : α} : ranks x y = true → ranks y z = true → ranks x z = true
  ranks_antisymm {x y : α} : ranks x y = true → ranks y x = true → x = y
  le_of_ranks {x y : α} : x ≤ x → y ≤ y → ranks x y = true → x ≤ y

/-- The laws of scores. -/
class LawfulScore (α : Type) [Score α] : Prop where
  le_trans {x y z : α} : x ≤ y → y ≤ z → x ≤ z
  le_self_left {x y : α} : x ≤ y → x ≤ x
  le_self_right {x y : α} : x ≤ y → y ≤ y
  le_or_le {x y : α} : x ≤ x → y ≤ y → x ≤ y ∨ y ≤ x
  lt_iff {x y : α} : x < y ↔ x ≤ y ∧ ¬ y ≤ x
  negInf_le {x : α} : x ≤ x → negInf ≤ x
  le_posInf {x : α} : x ≤ x → x ≤ posInf
  eq_negInf {x : α} : x ≤ negInf → x = negInf
  negInf_lt_zero : negInf < (0 : α)
  zero_lt_one : (0 : α) < 1
  one_lt_posInf : (1 : α) < posInf
  ranks_total (x y : α) : ranks x y = true ∨ ranks y x = true
  ranks_trans {x y z : α} : ranks x y = true → ranks y z = true → ranks x z = true
  ranks_antisymm {x y : α} : ranks x y = true → ranks y x = true → x = y
  le_of_ranks {x y : α} : x ≤ x → y ≤ y → ranks x y = true → x ≤ y
  zero_add_le {x : α} : x ≤ x → 0 + x ≤ x
  le_zero_add {x : α} : x ≤ x → x ≤ 0 + x
  le_add_zero {x : α} : x ≤ x → x ≤ x + 0
  add_le_add {x y z w : α} : x ≤ y → z ≤ w → y < posInf → w < posInf → x + z ≤ y + w
  ranks_add {x y z : α} : ranks x y = true → x < posInf → y < posInf → z < posInf →
    ranks (x + z) (y + z) = true
  add_negInf {x : α} : x < posInf → x + negInf = negInf
  add_lt_posInf {x y : α} : x < posInf → y ≤ 1 → x + y < posInf
  sub_self {x : α} : negInf < x → x < posInf → x - x = 0
  sub_le_sub_right {x y z : α} : x ≤ y → y < posInf → negInf < z → z < posInf → x - z ≤ y - z
  negInf_sub {x : α} : negInf < x → negInf - x = negInf
  negInf_div {x : α} : 0 < x → x < posInf → negInf / x = negInf
  zero_div_le {x : α} : (0 : α) / x ≤ 0 / x → (0 : α) / x ≤ 0
  minTemperature_lt_posInf : Row.minTemperature < (posInf : α)
  exp_negInf : exp (negInf : α) = 0
  exp_zero : exp (0 : α) = 1
  exp_nonneg {x : α} : x ≤ x → 0 ≤ exp x
  exp_le_one {x : α} : x ≤ 0 → exp x ≤ 1
  log_nonneg {x : α} : 1 ≤ x → x < posInf → 0 ≤ log x
  add_log_lt_posInf {x z : α} : x < posInf → 1 ≤ z → z < posInf → x + log z < posInf
  mild_sub_add_log {x z : α} : negInf < x → x < posInf → 1 ≤ z → z < posInf →
    Mild (x - (x + log z))

/-- The last place among the scores of its size: that of every number but
the zero with a sign. -/
def Score.Topmost {α : Type} [Score α] (y : α) : Prop := ∀ x : α, x ≤ y → ranks x y = true

/-- A sum has no sign at zero unless both summands have, so sums from zero on
are ranked as they compare. -/
class LawfulZero (α : Type) [Score α] : Prop where
  topmost_zero : Topmost (0 : α)
  topmost_add {x y : α} : Topmost x → x < posInf → y < posInf → Topmost (x + y)

/-- Dividing keeps the order and the sign, and takes nothing further away
from zero if the divisor is one or more.  Counts keep the order, and are
finite as far as words reach. -/
class LawfulQuotient (α : Type) [Score α] : Prop where
  div_le_div_right {x y t : α} : x ≤ y → y < posInf → 0 < t → t < posInf → x / t ≤ y / t
  zero_div {t : α} : 0 < t → t < posInf → 0 / t = 0
  one_div_pos {t : α} : 1 ≤ t → t < posInf → 0 < 1 / t
  div_le_self {x t : α} : 0 ≤ x → x < posInf → 1 ≤ t → t < posInf → x / t ≤ x
  le_div_self {x t : α} : x ≤ 0 → 1 ≤ t → t < posInf → x ≤ x / t
  zero_lt_minTemperature : 0 < (Row.minTemperature : α)
  count_one : (count 1 : α) = 1
  count_le_count {m n : Nat} : m ≤ n → (count m : α) ≤ count n
  count_lt_posInf {n : Nat} : n < Word.bound → (count n : α) < posInf

instance LawfulScore.toLawfulOrder {α : Type} [Score α] [LawfulScore α] : LawfulOrder α where
  le_trans := LawfulScore.le_trans
  le_self_left := LawfulScore.le_self_left
  le_or_le := LawfulScore.le_or_le
  lt_iff := LawfulScore.lt_iff
  negInf_le := LawfulScore.negInf_le
  ranks_total := LawfulScore.ranks_total
  ranks_trans := LawfulScore.ranks_trans
  ranks_antisymm := LawfulScore.ranks_antisymm
  le_of_ranks := LawfulScore.le_of_ranks

namespace LawfulScore

variable {α : Type} [Score α] {x y z : α}

/-! ## The order -/

section

variable [LawfulOrder α]

theorem le_of_lt (h : x < y) : x ≤ y := (LawfulOrder.lt_iff.mp h).1

theorem not_le_of_lt (h : x < y) : ¬ y ≤ x := (LawfulOrder.lt_iff.mp h).2

theorem lt_of_lt_of_le (hxy : x < y) (hyz : y ≤ z) : x < z :=
  LawfulOrder.lt_iff.mpr ⟨LawfulOrder.le_trans (le_of_lt hxy) hyz,
    fun h => not_le_of_lt hxy (LawfulOrder.le_trans hyz h)⟩

theorem lt_of_le_of_lt (hxy : x ≤ y) (hyz : y < z) : x < z :=
  LawfulOrder.lt_iff.mpr ⟨LawfulOrder.le_trans hxy (le_of_lt hyz),
    fun h => not_le_of_lt hyz (LawfulOrder.le_trans h hxy)⟩

theorem lt_of_not_le (hx : x ≤ x) (hy : y ≤ y) (h : ¬ y ≤ x) : x < y :=
  LawfulOrder.lt_iff.mpr ⟨(LawfulOrder.le_or_le hx hy).resolve_right h, h⟩

theorem lt_irrefl : ¬ x < x := fun h => not_le_of_lt h (le_of_lt h)

end

variable [LawfulScore α]

theorem zero_le_zero : (0 : α) ≤ 0 := le_self_right (le_of_lt negInf_lt_zero)

theorem zero_lt_posInf : (0 : α) < posInf := lt_of_lt_of_le zero_lt_one (le_of_lt one_lt_posInf)

theorem negInf_lt_posInf : (negInf : α) < posInf :=
  lt_of_lt_of_le negInf_lt_zero (le_of_lt zero_lt_posInf)

theorem negInf_le_negInf : (negInf : α) ≤ negInf := le_self_left (le_of_lt negInf_lt_zero)

theorem self_le_of_lt_posInf (h : x < posInf) : x ≤ x := le_self_left (le_of_lt h)

theorem lt_posInf_of_nonpos (h : x ≤ 0) : x < posInf := lt_of_le_of_lt h zero_lt_posInf

/-- What is a number and not masked is above `-∞`. -/
theorem negInf_lt (hx : x ≤ x) (h : ¬ x ≤ negInf) : negInf < x := lt_of_not_le negInf_le_negInf hx h

/-- Of the numbers `-∞` alone is not above itself. -/
theorem not_negInf_lt_iff (hx : x ≤ x) : ¬ negInf < x ↔ x = negInf := by
  constructor
  · intro hmasked
    refine Classical.byContradiction fun hne => ?_
    exact hmasked (negInf_lt hx fun hle => hne (eq_negInf hle))
  · rintro rfl
    exact lt_irrefl

theorem add_nonpos (hx : x ≤ 0) (hy : y ≤ 0) : x + y ≤ 0 :=
  le_trans (add_le_add hx hy zero_lt_posInf zero_lt_posInf) (zero_add_le zero_le_zero)

/-- A finite value is at most its sum with a logarithm. -/
theorem le_add_log (hx : x < posInf) (hz : 1 ≤ z) (hlt : z < posInf) : x ≤ x + log z := by
  have hself := self_le_of_lt_posInf hx
  have hlog : log z < posInf :=
    lt_of_le_of_lt (le_zero_add (le_self_right (log_nonneg hz hlt)))
      (add_log_lt_posInf zero_lt_posInf hz hlt)
  exact le_trans (le_add_zero hself) (add_le_add hself (log_nonneg hz hlt) hx hlog)

end LawfulScore

end OrderDecoding
