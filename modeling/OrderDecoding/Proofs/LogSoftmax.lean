/-
# `Proofs.LogSoftmax` — log-probabilities of a row

The log-softmax of a valid row takes one number off all entries, and the
number is at least as large as each of them (`logSoftmax_cases`).  So every
log-probability is at most zero, and what was masked stays masked.  Where
the row has something to choose, the best of its log-probabilities is MILD:
added to a score it does not drown it.
-/
import OrderDecoding.Proofs.Masking

namespace OrderDecoding
namespace Row

open Score LawfulScore

variable {α : Type} [Score α] {row : List α}

theorem length_logSoftmax (row : List α) : (logSoftmax row).length = row.length := by
  simp only [logSoftmax]
  split <;> simp

variable [LawfulScore α]

/-! ## The maximum -/

theorem foldl_maximum (hnum : Numbers row) {m : α} (hm : m ≤ m) :
    let r := row.foldl (fun m s => if m < s then s else m) m
    m ≤ r ∧ (∀ x ∈ row, x ≤ r) ∧ (r = m ∨ r ∈ row) := by
  induction row generalizing m with
  | nil => exact ⟨hm, fun _ hx => absurd hx List.not_mem_nil, Or.inl rfl⟩
  | cons s rest ih =>
    have hs : s ≤ s := hnum s List.mem_cons_self
    have hrest : Numbers rest := by
      intro x hx
      exact hnum x (List.mem_cons_of_mem s hx)
    intro r
    by_cases hlt : m < s
    · obtain ⟨hle, hall, hmem⟩ := ih hrest hs
      have hstep : r = rest.foldl (fun m s => if m < s then s else m) s := by
        simp only [r, List.foldl_cons, if_pos hlt]
      rw [hstep]
      refine ⟨le_trans (le_of_lt hlt) hle, fun x hx => ?_, Or.inr ?_⟩
      · rcases List.mem_cons.mp hx with rfl | hx
        · exact hle
        · exact hall x hx
      · rcases hmem with hmem | hmem
        · rw [hmem]
          exact List.mem_cons_self
        · exact List.mem_cons_of_mem s hmem
    · obtain ⟨hle, hall, hmem⟩ := ih hrest hm
      have hstep : r = rest.foldl (fun m s => if m < s then s else m) m := by
        simp only [r, List.foldl_cons, if_neg hlt]
      have hsm : s ≤ m := by
        by_contra hnot
        exact hlt (lt_of_not_le hm hs hnot)
      rw [hstep]
      refine ⟨hle, fun x hx => ?_, hmem.imp_right (List.mem_cons_of_mem s)⟩
      rcases List.mem_cons.mp hx with rfl | hx
      · exact le_trans hsm hle
      · exact hall x hx

theorem le_maximum (h : Numbers row) {x : α} (hx : x ∈ row) : x ≤ maximum row :=
  (foldl_maximum h negInf_le_negInf).2.1 x hx

theorem maximum_mem (h : Numbers row) (hmass : negInf < maximum row) : maximum row ∈ row := by
  rcases (foldl_maximum h negInf_le_negInf).2.2 with heq | hmem
  · exact absurd (le_of_eq_of_le heq negInf_le_negInf) (not_le_of_lt hmass)
  · exact hmem

theorem maximum_lt_posInf (h : Valid row) : maximum row < posInf := by
  rcases (foldl_maximum h.numbers negInf_le_negInf).2.2 with heq | hmem
  · exact lt_of_le_of_lt (le_of_eq_of_le heq negInf_le_negInf) negInf_lt_posInf
  · exact h _ hmem

/-- Above `-∞` the maximum is where there is something to choose. -/
theorem negInf_lt_maximum_iff (h : Numbers row) :
    negInf < maximum row ↔ hasMass row = true := by
  rw [hasMass_iff]
  constructor
  · intro hmass
    obtain ⟨i, hi⟩ := List.mem_iff_getElem?.mp (maximum_mem h hmass)
    exact ⟨i, _, hi, hmass⟩
  · rintro ⟨i, x, hi, hx⟩
    exact lt_of_lt_of_le hx (le_maximum h (List.mem_of_getElem? hi))

/-! ## Sums of weights -/

theorem foldl_add_lt_posInf {weights : List α} (h : ∀ w ∈ weights, w ≤ 1) {acc : α}
    (hacc : acc < posInf) : weights.foldl (· + ·) acc < posInf := by
  induction weights generalizing acc with
  | nil => exact hacc
  | cons w rest ih =>
    exact ih (fun x hx => h x (List.mem_cons_of_mem w hx))
      (add_lt_posInf hacc (h w List.mem_cons_self))

/-- Weights do not make a sum smaller. -/
theorem le_foldl_add {weights : List α} (h : ∀ w ∈ weights, 0 ≤ w ∧ w ≤ 1) {acc : α}
    (hacc : acc < posInf) : acc ≤ weights.foldl (· + ·) acc := by
  induction weights generalizing acc with
  | nil => exact self_le_of_lt_posInf hacc
  | cons w rest ih =>
    obtain ⟨hnonneg, hone⟩ := h w List.mem_cons_self
    have hself := self_le_of_lt_posInf hacc
    have hstep : acc ≤ acc + w := le_trans (le_add_zero hself)
      (add_le_add hself hnonneg hacc (lt_of_le_of_lt hone one_lt_posInf))
    have hrest : ∀ x ∈ rest, 0 ≤ x ∧ x ≤ 1 := by
      intro x hx
      exact h x (List.mem_cons_of_mem w hx)
    exact le_trans hstep (ih hrest (add_lt_posInf hacc hone))

/-- With a weight of one, weights sum to one at least. -/
theorem one_le_foldl_add {weights : List α} (h : ∀ w ∈ weights, 0 ≤ w ∧ w ≤ 1)
    (hone : (1 : α) ∈ weights) {acc : α} (hzero : 0 ≤ acc) (hacc : acc < posInf) :
    1 ≤ weights.foldl (· + ·) acc := by
  induction weights generalizing acc with
  | nil => cases hone
  | cons w rest ih =>
    have hrest : ∀ x ∈ rest, 0 ≤ x ∧ x ≤ 1 := by
      intro x hx
      exact h x (List.mem_cons_of_mem w hx)
    obtain ⟨hnonneg, hle⟩ := h w List.mem_cons_self
    have hnext : acc + w < posInf := add_lt_posInf hacc hle
    have hw : w < posInf := lt_of_le_of_lt hle one_lt_posInf
    rcases List.mem_cons.mp hone with rfl | hmem
    · have hself := le_self_left (le_of_lt (one_lt_posInf (α := α)))
      have hstep : (1 : α) ≤ acc + 1 :=
        le_trans (le_zero_add hself) (add_le_add hzero hself hacc hw)
      exact le_trans hstep (le_foldl_add hrest hnext)
    · have hstep : 0 ≤ acc + w :=
        le_trans (le_add_zero zero_le_zero) (add_le_add hzero hnonneg hacc hw)
      exact ih hrest hmem hstep hnext

/-! ## The log-softmax -/

/-- The weights of a row before they are divided by their total: between
zero and one, and one for its largest entry. -/
theorem weights_of_valid (hvalid : Valid row) (hmass : negInf < maximum row) :
    let weights := row.map fun s => exp (s - maximum row)
    (∀ w ∈ weights, 0 ≤ w ∧ w ≤ 1) ∧ (1 : α) ∈ weights ∧
      1 ≤ total weights ∧ total weights < posInf := by
  intro weights
  have hm := maximum_lt_posInf hvalid
  have hshift : ∀ x ∈ row, x - maximum row ≤ 0 := by
    intro x hx
    have := sub_le_sub_right (le_maximum hvalid.numbers hx) hm hmass hm
    rwa [sub_self hmass hm] at this
  have hunit : ∀ w ∈ weights, 0 ≤ w ∧ w ≤ 1 := by
    intro w hw
    obtain ⟨x, hx, rfl⟩ := List.mem_map.mp hw
    exact ⟨exp_nonneg (le_self_left (hshift x hx)), exp_le_one (hshift x hx)⟩
  have hone : (1 : α) ∈ weights := List.mem_map.mpr
    ⟨maximum row, maximum_mem hvalid.numbers hmass, by rw [sub_self hmass hm, exp_zero]⟩
  exact ⟨hunit, hone, one_le_foldl_add hunit hone zero_le_zero zero_lt_posInf,
    foldl_add_lt_posInf (fun w hw => (hunit w hw).2) zero_lt_posInf⟩

/-- Nothing to choose, or one number taken off every entry. -/
theorem logSoftmax_cases (hvalid : Valid row) :
    (hasMass row = false ∧ logSoftmax row = row.map fun _ => negInf) ∨
      ∃ logZ, negInf < logZ ∧ logZ < posInf ∧ (∀ x ∈ row, x ≤ logZ) ∧
        (∃ m ∈ row, Mild (m - logZ)) ∧ logSoftmax row = row.map (· - logZ) := by
  have hm := maximum_lt_posInf hvalid
  by_cases hmass : maximum row ≤ negInf
  · refine Or.inl ⟨?_, by rw [logSoftmax, if_pos hmass]⟩
    rw [← Bool.not_eq_true, ← negInf_lt_maximum_iff hvalid.numbers]
    exact fun hlt => not_le_of_lt hlt hmass
  · have hlow := negInf_lt (self_le_of_lt_posInf hm) hmass
    have hmem := maximum_mem hvalid.numbers hlow
    obtain ⟨-, -, hz, hzlt⟩ := weights_of_valid hvalid hlow
    set m := maximum row
    set weights := row.map fun s => exp (s - m) with hweights
    have hlogZ : m ≤ m + log (total weights) := le_add_log hm hz hzlt
    refine Or.inr ⟨m + log (total weights), lt_of_lt_of_le hlow hlogZ,
      add_log_lt_posInf hm hz hzlt, fun x hx => le_trans (le_maximum hvalid.numbers hx) hlogZ,
      ⟨m, hmem, mild_sub_add_log hlow hm hz hzlt⟩, ?_⟩
    rw [logSoftmax, if_neg hmass]

/-- Log-probabilities are at most zero. -/
theorem logSoftmax_nonpos (hvalid : Valid row) {y : α} (hy : y ∈ logSoftmax row) : y ≤ 0 := by
  rcases logSoftmax_cases hvalid with ⟨-, heq⟩ | ⟨logZ, hlow, hhigh, hle, -, heq⟩
  · rw [heq] at hy
    obtain ⟨x, -, rfl⟩ := List.mem_map.mp hy
    exact le_of_lt negInf_lt_zero
  · rw [heq] at hy
    obtain ⟨x, hx, rfl⟩ := List.mem_map.mp hy
    have := sub_le_sub_right (hle x hx) hhigh hlow hhigh
    rwa [sub_self hlow hhigh] at this

theorem valid_logSoftmax (hvalid : Valid row) : Valid (logSoftmax row) :=
  fun _ hy => lt_posInf_of_nonpos (logSoftmax_nonpos hvalid hy)

/-- Log-probabilities that leave something to choose have a mild one among
them. -/
theorem exists_mild_logSoftmax (hvalid : Valid row) (hmass : hasMass (logSoftmax row) = true) :
    ∃ (i : Nat) (y : α), (logSoftmax row)[i]? = some y ∧ Mild y := by
  rcases logSoftmax_cases hvalid with ⟨-, heq⟩ | ⟨logZ, -, -, -, ⟨m, hm, hmild⟩, heq⟩
  · obtain ⟨i, x, hi, hx⟩ := hasMass_iff.mp hmass
    rw [heq] at hi
    obtain ⟨y, -, rfl⟩ := List.mem_map.mp (List.mem_of_getElem? hi)
    exact absurd hx lt_irrefl
  · obtain ⟨i, hi⟩ := List.mem_iff_getElem?.mp hm
    exact ⟨i, m - logZ, by rw [heq, List.getElem?_map, hi]; rfl, hmild⟩

theorem hasMass_logSoftmax (hvalid : Valid row) (hmass : hasMass row = true) :
    hasMass (logSoftmax row) = true := by
  rcases logSoftmax_cases hvalid with ⟨hnone, -⟩ | ⟨logZ, -, -, -, ⟨m, hm, hmild⟩, heq⟩
  · rw [hmass] at hnone
    cases hnone
  · obtain ⟨i, hi⟩ := List.mem_iff_getElem?.mp hm
    exact hasMass_iff.mpr ⟨i, m - logZ, by rw [heq, List.getElem?_map, hi]; rfl, hmild.unmasked⟩

/-- A masked entry has a masked log-probability. -/
theorem logSoftmax_of_masked (hvalid : Valid row) {i : Nat} (h : row[i]? = some negInf) :
    (logSoftmax row)[i]? = some negInf := by
  rcases logSoftmax_cases hvalid with ⟨-, heq⟩ | ⟨logZ, hlow, -, -, -, heq⟩
  · rw [heq, List.getElem?_map, h]
    rfl
  · rw [heq, List.getElem?_map, h, Option.map_some, negInf_sub hlow]

/-- A row has something to choose if its log-probabilities have. -/
theorem hasMass_logSoftmax_eq (hvalid : Valid row) : hasMass (logSoftmax row) = hasMass row := by
  refine Bool.eq_iff_iff.mpr ⟨fun h => ?_, hasMass_logSoftmax hvalid⟩
  obtain ⟨i, y, hy, hopen⟩ := hasMass_iff.mp h
  obtain ⟨x, hx⟩ := exists_getElem? (length_logSoftmax row) hy
  refine hasMass_iff.mpr ⟨i, x, hx, negInf_lt (self_le_of_lt_posInf (hvalid.get hx)) ?_⟩
  intro hmasked
  rw [eq_negInf hmasked] at hx
  rw [logSoftmax_of_masked hvalid hx, Option.some.injEq] at hy
  exact lt_irrefl (hy ▸ hopen)

theorem logProb_nonpos (hvalid : Valid row) (i : Nat) : logProb row i ≤ 0 := by
  unfold logProb
  cases hy : (logSoftmax row)[i]? with
  | none => exact le_of_lt negInf_lt_zero
  | some y => exact logSoftmax_nonpos hvalid (List.mem_of_getElem? hy)

end Row

end OrderDecoding
