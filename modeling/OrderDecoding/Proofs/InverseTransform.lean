/-
# `Proofs.InverseTransform` — weights as lengths

A pick lays the weights end to end and answers with the one whose stretch
holds a number from the unit interval.  Over floats the ends of the stretches
are rounded; over exact numbers they are the sums of the weights, and this is
what the pick is said to do there.

The walk is followed with a length that is already covered
(`pickFrom_eq_some_iff`): up to it the number drawn is past all stretches, and
it lies on the stretch of an entry behind it.  The last entry with a weight,
which answers when the walk comes to its end, never does so here, because the
number drawn is below the sum of all weights.
-/
import Mathlib.MeasureTheory.Measure.Lebesgue.Basic
import OrderDecoding.Proofs.Drawing

namespace OrderDecoding
namespace Row

/-! ## Larger numbers, later entries -/

section

variable {K : Type} [Zero K] [Add K] [LinearOrder K] [DecidableLT K] [DecidableLE K]

theorem pickFrom_mono {weights : List K} {n : Nat} {passed r r' : K} {last : Option Nat}
    {i j : Nat} (h : r ≤ r') (hi : pickFrom r passed last (weights.zipIdx n) = some i)
    (hj : pickFrom r' passed last (weights.zipIdx n) = some j) : i ≤ j := by
  induction weights generalizing n passed last with
  | nil => exact Nat.le_of_eq (Option.some.inj (hi.symm.trans hj))
  | cons w rest ih =>
    rw [List.zipIdx_cons, pickFrom] at hi hj
    by_cases hw : w ≤ 0
    · rw [if_pos hw] at hi hj
      exact ih hi hj
    rw [if_neg hw] at hi hj
    by_cases hr' : r' < passed + w
    · rw [if_pos (lt_of_le_of_lt h hr')] at hi
      rw [if_pos hr'] at hj
      exact Nat.le_of_eq (Option.some.inj (hi.symm.trans hj))
    rw [if_neg hr'] at hj
    by_cases hr : r < passed + w
    · -- the smaller number stops here, the larger one here or behind
      rw [if_pos hr] at hi
      cases hi
      rcases pickFrom_eq_some hj with hlast | ⟨v, hmem, -⟩
      · exact Nat.le_of_eq (Option.some.inj hlast)
      · exact Nat.le_of_succ_le (List.le_snd_of_mem_zipIdx hmem)
    · rw [if_neg hr] at hi
      exact ih hi hj

theorem pick_mono {weights : List K} {r r' : K} {i j : Nat} (h : r ≤ r')
    (hi : pick weights r = some i) (hj : pick weights r' = some j) : i ≤ j :=
  pickFrom_mono h hi hj

end

/-! ## Stretches -/

section

variable {K : Type} [Field K] {r passed w : K} {weights rest : List K} {i : Nat}

/-- The sum of the weights before an entry. -/
def sumBefore (weights : List K) (i : Nat) : K := (weights.take i).sum

theorem sumBefore_succ : sumBefore (w :: rest) (i + 1) = w + sumBefore rest i := by
  rw [sumBefore, List.take_succ_cons, List.sum_cons, sumBefore]

variable [LinearOrder K]

/-- A number lies on the stretch of an entry when some length is passed
before all of them. -/
def OnStretch (r passed : K) (weights : List K) (i : Nat) : Prop :=
  ∃ w, weights[i]? = some w ∧
    r ∈ Set.Ico (passed + sumBefore weights i) (passed + sumBefore weights i + w)

theorem onStretch_zero : OnStretch r passed (w :: rest) 0 ↔ passed ≤ r ∧ r < passed + w := by
  simp [OnStretch, sumBefore]

theorem onStretch_succ :
    OnStretch r passed (w :: rest) (i + 1) ↔ OnStretch r (passed + w) rest i := by
  simp only [OnStretch, List.getElem?_cons_succ, sumBefore_succ, add_assoc]

variable [IsStrictOrderedRing K]

theorem sumBefore_nonneg (h : ∀ w ∈ weights, 0 ≤ w) : 0 ≤ sumBefore weights i :=
  List.sum_nonneg fun w hw => h w (List.mem_of_mem_take hw)

theorem OnStretch.le (h : ∀ w ∈ weights, 0 ≤ w) (hr : OnStretch r passed weights i) :
    passed ≤ r := by
  obtain ⟨w, -, hlow, -⟩ := hr
  have := sumBefore_nonneg (i := i) h
  linarith

/-- A stretch ends where those behind it begin. -/
theorem sumBefore_add_le_sum (h : ∀ w ∈ weights, 0 ≤ w) (hw : weights[i]? = some w) :
    sumBefore weights i + w ≤ weights.sum := by
  have hrest : 0 ≤ (weights.drop (i + 1)).sum :=
    List.sum_nonneg fun v hv => h v (List.mem_of_mem_drop hv)
  obtain ⟨hi, rfl⟩ := List.getElem?_eq_some_iff.mp hw
  calc sumBefore weights i + weights[i] = (weights.take (i + 1)).sum :=
      (List.sum_take_succ weights i hi).symm
    _ ≤ (weights.take (i + 1)).sum + (weights.drop (i + 1)).sum := le_add_of_nonneg_right hrest
    _ = weights.sum := List.sum_take_add_sum_drop weights (i + 1)

/-! ## The stretch that is picked -/

variable [DecidableLT K] [DecidableLE K]

theorem pickFrom_eq_some_iff {n : Nat} {last : Option Nat} (h : ∀ w ∈ weights, 0 ≤ w)
    (hlow : passed ≤ r) (hhigh : r < passed + weights.sum) :
    pickFrom r passed last (weights.zipIdx n) = some i ↔
      ∃ j, i = n + j ∧ OnStretch r passed weights j := by
  induction weights generalizing n passed last with
  | nil =>
    rw [List.sum_nil, add_zero] at hhigh
    exact absurd hlow (not_le_of_gt hhigh)
  | cons w rest ih =>
    have hzero : 0 ≤ w := h w List.mem_cons_self
    have hrest : ∀ v ∈ rest, 0 ≤ v := fun v hv => h v (List.mem_cons_of_mem w hv)
    rw [List.sum_cons, ← add_assoc] at hhigh
    rw [List.zipIdx_cons, pickFrom]
    -- behind the first entry the places are one further on
    have hshift : ¬ r < passed + w → ((∃ j, i = n + 1 + j ∧ OnStretch r (passed + w) rest j) ↔
        ∃ j, i = n + j ∧ OnStretch r passed (w :: rest) j) := by
      intro hpast
      constructor
      · rintro ⟨j, rfl, hj⟩
        exact ⟨j + 1, by omega, onStretch_succ.mpr hj⟩
      · rintro ⟨j, rfl, hj⟩
        cases j with
        | zero => exact absurd (onStretch_zero.mp hj).2 hpast
        | succ j => exact ⟨j, by omega, onStretch_succ.mp hj⟩
    by_cases hw : w ≤ 0
    · obtain rfl : w = 0 := le_antisymm hw hzero
      rw [if_pos hw, ← hshift (by rw [add_zero]; exact not_lt_of_ge hlow)]
      simp only [add_zero] at hhigh ⊢
      exact ih hrest hlow hhigh
    rw [if_neg hw]
    by_cases hr : r < passed + w
    · rw [if_pos hr, Option.some.injEq]
      constructor
      · rintro rfl
        exact ⟨0, rfl, onStretch_zero.mpr ⟨hlow, hr⟩⟩
      · rintro ⟨j, rfl, hj⟩
        cases j with
        | zero => rfl
        | succ j => exact absurd hr (not_lt_of_ge ((onStretch_succ.mp hj).le hrest))
    · rw [if_neg hr, ← hshift hr]
      exact ih hrest (not_lt.mp hr) hhigh

/-- Over weights that are not negative the pick is the entry whose stretch
holds the number drawn. -/
theorem pick_eq_some_iff (h : ∀ w ∈ weights, 0 ≤ w) (hr : r ∈ Set.Ico 0 weights.sum) :
    pick weights r = some i ↔ OnStretch r 0 weights i := by
  rw [pick, pickFrom_eq_some_iff h hr.1 (by rw [zero_add]; exact hr.2)]
  simp only [zero_add, exists_eq_left']

/-- So the numbers for which an entry is picked are its stretch. -/
theorem setOf_pick_eq (h : ∀ w ∈ weights, 0 ≤ w) (hw : weights[i]? = some w) :
    {r | r ∈ Set.Ico 0 weights.sum ∧ pick weights r = some i} =
      Set.Ico (sumBefore weights i) (sumBefore weights i + w) := by
  have hstretch {r : K} : OnStretch r 0 weights i ↔
      r ∈ Set.Ico (sumBefore weights i) (sumBefore weights i + w) := by
    simp only [OnStretch, hw, Option.some.injEq, zero_add, exists_eq_left']
  ext r
  constructor
  · rintro ⟨hr, hpick⟩
    exact hstretch.mp ((pick_eq_some_iff h hr).mp hpick)
  · intro hr
    have hunit : r ∈ Set.Ico 0 weights.sum :=
      ⟨le_trans (sumBefore_nonneg h) hr.1, lt_of_lt_of_le hr.2 (sumBefore_add_le_sum h hw)⟩
    exact ⟨hunit, (pick_eq_some_iff h hunit).mpr (hstretch.mpr hr)⟩

theorem exists_pick (hr : r ∈ Set.Ico 0 weights.sum) : ∃ i, pick weights r = some i := by
  rw [← Option.isSome_iff_exists, ← Option.ne_none_iff_isSome]
  intro hnone
  have hsum : weights.sum ≤ weights.length • (0 : K) :=
    List.sum_le_card_nsmul weights 0 (pick_eq_none_iff.mp hnone)
  rw [smul_zero] at hsum
  exact absurd (lt_of_le_of_lt hr.1 hr.2) (not_lt_of_ge hsum)

/-- Every number is on one stretch. -/
theorem existsUnique_onStretch (h : ∀ w ∈ weights, 0 ≤ w) (hr : r ∈ Set.Ico 0 weights.sum) :
    ∃! i, OnStretch r 0 weights i := by
  obtain ⟨i, hi⟩ := exists_pick hr
  refine ⟨i, (pick_eq_some_iff h hr).mp hi, fun j hj => ?_⟩
  exact Option.some.inj (((pick_eq_some_iff h hr).mpr hj).symm.trans hi)

end

/-! ## Inverse transform sampling -/

/-- A draw by weight picks with the next number of the generator.  Over exact
numbers a pick gives nothing only where no weight is positive, gives nothing
without weight, and does not go back as the number grows.  Of weights that
are not negative and sum to one each is picked on its own stretch of the unit
interval, and these have the weights for their lengths and share out the
interval. -/
theorem draws_invert_summed_weights :
    (∀ (α : Type) [Score α] (weights : List α) (g : Generator),
      weights.all Score.isFinite = true → weightedSample weights g =
        (pick weights (g.nextUnit (α := α)).1, (g.nextUnit (α := α)).2)) ∧
    ∀ weights : List ℝ,
      (∀ r, pick weights r = none ↔ ∀ w ∈ weights, ¬ 0 < w) ∧
      (∀ r i, pick weights r = some i → ∃ w, weights[i]? = some w ∧ 0 < w) ∧
      (∀ r r' i j, r ≤ r' → pick weights r = some i → pick weights r' = some j → i ≤ j) ∧
      ((∀ w ∈ weights, 0 ≤ w) → weights.sum = 1 →
        (∀ (i : Nat) (w : ℝ), weights[i]? = some w →
          {r | r ∈ Set.Ico 0 1 ∧ pick weights r = some i} =
            Set.Ico (sumBefore weights i) (sumBefore weights i + w) ∧
          MeasureTheory.volume {r | r ∈ Set.Ico 0 1 ∧ pick weights r = some i} =
            ENNReal.ofReal w) ∧
        ∀ r ∈ Set.Ico (0 : ℝ) 1, ∃! i, ∃ w, weights[i]? = some w ∧
          r ∈ Set.Ico (sumBefore weights i) (sumBefore weights i + w)) := by
  refine ⟨fun α _ weights g hfinite => if_pos hfinite, fun weights => ⟨fun r => ?_, ?_, ?_, ?_⟩⟩
  · simp only [pick_eq_none_iff, not_lt]
  · intro r i hpick
    obtain ⟨w, hw, hpos⟩ := pick_eq_some hpick
    exact ⟨w, hw, lt_of_not_ge hpos⟩
  · intro r r' i j hle hi hj
    exact pick_mono hle hi hj
  · intro hnonneg hsum
    refine ⟨fun i w hw => ?_, fun r hr => ?_⟩
    · have hstretch := setOf_pick_eq hnonneg hw
      rw [hsum] at hstretch
      refine ⟨hstretch, ?_⟩
      rw [hstretch, Real.volume_Ico, add_sub_cancel_left]
    · have hunique := existsUnique_onStretch hnonneg (hsum ▸ hr)
      simpa only [OnStretch, zero_add] using hunique

/-- A quarter and three quarters, with entries between that have no weight. -/
noncomputable def quarters : List ℝ := [0, 1 / 4, 0, 3 / 4]

/-- The entry between is never picked, and the last on all numbers from a
quarter on. -/
theorem quarters_drawn :
    (∀ w ∈ quarters, 0 ≤ w) ∧ quarters.sum = 1 ∧
    pick quarters 0 ≠ none ∧
    {r | r ∈ Set.Ico 0 1 ∧ pick quarters r = some 3} = Set.Ico (1 / 4) 1 ∧
    MeasureTheory.volume {r | r ∈ Set.Ico 0 1 ∧ pick quarters r = some 3} =
      ENNReal.ofReal (3 / 4) ∧
    MeasureTheory.volume {r | r ∈ Set.Ico 0 1 ∧ pick quarters r = some 2} = ENNReal.ofReal 0 := by
  have hnonneg : ∀ w ∈ quarters, 0 ≤ w := by
    simp only [quarters, List.forall_mem_cons]
    norm_num
  have hsum : quarters.sum = 1 := by norm_num [quarters]
  obtain ⟨hnone, -, -, hexact⟩ := draws_invert_summed_weights.2 quarters
  obtain ⟨hdrawn, -⟩ := hexact hnonneg hsum
  obtain ⟨hset, hlength⟩ := hdrawn 3 (3 / 4) rfl
  refine ⟨hnonneg, hsum, fun h => ?_, ?_, hlength, (hdrawn 2 0 rfl).2⟩
  · exact (hnone 0).mp h (3 / 4) (by simp [quarters]) (by norm_num)
  · rw [hset]
    norm_num [sumBefore, quarters]

end Row

end OrderDecoding
