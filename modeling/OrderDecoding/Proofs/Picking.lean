/-
# `Proofs.Picking` — no way of picking picks a masked entry

A pass of greedy decoding picks the best entry of a row (`argmax`), a
sample draws one (`draw`).  Either picks an entry of the row that is not at
`-∞`, and of the best entry it is said as well which one it is: the first
of the largest (`argmax_eq_some_iff`).

For a draw this has to get through four stages, and each keeps a masked
entry from coming back: dividing by a temperature and cutting to the best
leave `-∞` at `-∞`, the softmax makes its weight zero, and the draw passes
over entries without weight.
-/
import Mathlib.Data.List.Induction
import OrderDecoding.Proofs.Masking

namespace OrderDecoding

open Score LawfulScore

variable {α : Type} [Score α]

namespace Row

/-! ## The best entry -/

theorem foldl_better_eq_some {entries : List (α × Nat)} {b : Option (α × Nat)} {e : α × Nat}
    (h : entries.foldl better b = some e) : b = some e ∨ e ∈ entries ∧ ¬ e.1 ≤ negInf := by
  induction entries generalizing b with
  | nil => exact Or.inl h
  | cons entry rest ih =>
    rcases ih h with hstep | ⟨hmem, hopen⟩
    · unfold better at hstep
      split at hstep
      · exact Or.inl hstep
      · next hopen =>
        split at hstep
        · cases hstep
          exact Or.inr ⟨List.mem_cons_self, hopen⟩
        · split at hstep
          · exact Or.inl hstep
          · cases hstep
            exact Or.inr ⟨List.mem_cons_self, hopen⟩
    · exact Or.inr ⟨List.mem_cons_of_mem entry hmem, hopen⟩

theorem argmax_eq_some {row : List α} {i : Nat} (h : argmax row = some i) :
    ∃ x, row[i]? = some x ∧ ¬ x ≤ negInf := by
  obtain ⟨⟨x, j⟩, hbest, rfl⟩ := Option.map_eq_some_iff.mp h
  rcases foldl_better_eq_some hbest with hnone | ⟨hmem, hopen⟩
  · cases hnone
  · exact ⟨x, List.mem_zipIdx_iff_getElem?.mp hmem, hopen⟩

/-! ## The first of the largest entries -/

section

variable {row : List α}

/-- Entry `i` can be chosen, none is larger, and none before it is as
large. -/
structure First (row : List α) (x : α) (i : Nat) : Prop where
  entry : row[i]? = some x
  unmasked : ¬ x ≤ negInf
  le : ∀ (j : Nat) (y : α), row[j]? = some y → y ≤ x
  before : ∀ (j : Nat) (y : α), row[j]? = some y → x ≤ y → i ≤ j

omit [Score α] in
theorem getElem?_concat_cases {s y : α} {j : Nat} (h : (row ++ [s])[j]? = some y) :
    row[j]? = some y ∨ j = row.length ∧ y = s := by
  rcases Nat.lt_or_ge j row.length with hlt | hge
  · rw [List.getElem?_append_left hlt] at h
    exact Or.inl h
  · rw [List.getElem?_append_right hge] at h
    rw [List.getElem?_singleton] at h
    split at h
    · next hj =>
      cases h
      exact Or.inr ⟨by omega, rfl⟩
    · cases h

theorem First.ne_negInf [LawfulScore α] {x : α} {i : Nat} (h : First row x i) : x ≠ negInf :=
  fun hmasked => h.unmasked (le_of_eq_of_le hmasked negInf_le_negInf)

theorem First.hasMass [LawfulScore α] {x : α} {i : Nat} (h : First row x i) :
    Row.hasMass row = true :=
  hasMass_iff.mpr ⟨i, x, h.entry, negInf_lt (h.le i x h.entry) h.unmasked⟩

/-- An entry that is no larger than the first of the largest changes nothing. -/
theorem First.concat {s x : α} {i : Nat} (h : First row x i) (hle : s ≤ x) :
    First (row ++ [s]) x i where
  entry := by
    rw [List.getElem?_append_left (List.getElem?_eq_some_iff.mp h.entry).1]
    exact h.entry
  unmasked := h.unmasked
  le j y hy := by
    rcases getElem?_concat_cases hy with hy | ⟨-, rfl⟩
    · exact h.le j y hy
    · exact hle
  before j y hy hxy := by
    rcases getElem?_concat_cases hy with hy | ⟨rfl, -⟩
    · exact h.before j y hy hxy
    · exact Nat.le_of_lt (List.getElem?_eq_some_iff.mp h.entry).1

/-- An entry larger than all before it is the first of the largest. -/
theorem first_concat {s : α} (hs : s ≤ s) (hopen : ¬ s ≤ negInf)
    (hall : ∀ y ∈ row, y ≤ s ∧ ¬ s ≤ y) : First (row ++ [s]) s row.length where
  entry := List.getElem?_concat_length
  unmasked := hopen
  le j y hy := by
    rcases getElem?_concat_cases hy with hy | ⟨-, rfl⟩
    · exact (hall y (List.mem_of_getElem? hy)).1
    · exact hs
  before j y hy hle := by
    rcases getElem?_concat_cases hy with hy | ⟨rfl, -⟩
    · exact absurd hle (hall y (List.mem_of_getElem? hy)).2
    · exact Nat.le_refl _

variable [LawfulScore α]

/-- After masked entries, one more is taken unless it is masked as well. -/
theorem better_none_cases {s : α} (hs : s ≤ s) (hmasked : ∀ y ∈ row, y ≤ negInf) :
    (better none (s, row.length) = none ∧ ∀ y ∈ row ++ [s], y ≤ negInf) ∨
      ∃ x i, better none (s, row.length) = some (x, i) ∧ First (row ++ [s]) x i := by
  by_cases hopen : s ≤ negInf
  · refine Or.inl ⟨if_pos hopen, fun y hy => ?_⟩
    rcases List.mem_append.mp hy with hy | hy
    · exact hmasked y hy
    · exact List.mem_singleton.mp hy ▸ hopen
  · refine Or.inr ⟨s, row.length, if_neg hopen, first_concat hs hopen fun y hy => ?_⟩
    exact ⟨le_trans (hmasked y hy) (negInf_le hs),
      fun hle => hopen (le_trans hle (hmasked y hy))⟩

/-- After the first of the largest, one more is taken if it is larger. -/
theorem First.better {s x : α} {i : Nat} (hs : s ≤ s) (h : First row x i) :
    ∃ x' i', better (some (x, i)) (s, row.length) = some (x', i') ∧
      First (row ++ [s]) x' i' := by
  have hx : x ≤ x := h.le i x h.entry
  by_cases hle : s ≤ x
  · refine ⟨x, i, ?_, h.concat hle⟩
    simp only [Row.better, if_pos hle, ite_self]
  · have hlt : x ≤ s := (le_or_le hx hs).resolve_right hle
    have hopen : ¬ s ≤ negInf := fun hlow => hle (le_trans hlow (negInf_le hx))
    refine ⟨s, row.length, ?_, first_concat hs hopen fun y hy => ?_⟩
    · simp only [Row.better, if_neg hopen, if_neg hle]
    · obtain ⟨j, hj⟩ := List.mem_iff_getElem?.mp hy
      have hyx := h.le j y hj
      exact ⟨le_trans hyx hlt, fun hsy => hle (le_trans hsy hyx)⟩

theorem foldl_better_cases (hnum : Numbers row) :
    (row.zipIdx.foldl better none = none ∧ ∀ y ∈ row, y ≤ negInf) ∨
      ∃ x i, row.zipIdx.foldl better none = some (x, i) ∧ First row x i := by
  induction row using List.reverseRecOn with
  | nil => exact Or.inl ⟨rfl, fun y hy => absurd hy List.not_mem_nil⟩
  | append_singleton row s ih =>
    have hrow : Numbers row := fun y hy => hnum y (List.mem_append_left _ hy)
    have hs : s ≤ s := hnum s (List.mem_append_right row List.mem_cons_self)
    have hfold : (row ++ [s]).zipIdx.foldl better none
        = better (row.zipIdx.foldl better none) (s, row.length) := by
      rw [List.zipIdx_append, List.foldl_append, Nat.zero_add]
      rfl
    rw [hfold]
    rcases ih hrow with ⟨hnone, hmasked⟩ | ⟨x, i, hsome, hfirst⟩
    · rw [hnone]
      exact better_none_cases hs hmasked
    · rw [hsome]
      exact Or.inr (hfirst.better hs)

/-- The best entry of a row is the first of the largest; there is none only
if all are masked. -/
theorem argmax_cases (hnum : Numbers row) :
    (argmax row = none ∧ hasMass row = false) ∨ ∃ x i, argmax row = some i ∧ First row x i := by
  rcases foldl_better_cases hnum with ⟨hnone, hmasked⟩ | ⟨x, i, hsome, hfirst⟩
  · refine Or.inl ⟨by rw [argmax, hnone]; rfl, ?_⟩
    rw [← Bool.not_eq_true, hasMass_iff]
    rintro ⟨i, x, hx, hopen⟩
    exact not_le_of_lt hopen (hmasked x (List.mem_of_getElem? hx))
  · exact Or.inr ⟨x, i, by rw [argmax, hsome]; rfl, hfirst⟩

theorem argmax_eq_none_iff (hnum : Numbers row) : argmax row = none ↔ hasMass row = false := by
  rcases argmax_cases hnum with ⟨hnone, hmass⟩ | ⟨x, i, hsome, hfirst⟩
  · exact iff_of_true hnone hmass
  · rw [hsome, hfirst.hasMass]
    exact iff_of_false nofun nofun

theorem First.argmax_eq (hnum : Numbers row) {x : α} {i : Nat} (h : First row x i) :
    argmax row = some i := by
  rcases argmax_cases hnum with ⟨-, hnone⟩ | ⟨y, j, hargmax, hfirst⟩
  · rw [h.hasMass] at hnone
    cases hnone
  · have hij : i ≤ j := h.before j y hfirst.entry (hfirst.le i x h.entry)
    have hji : j ≤ i := hfirst.before i x h.entry (h.le j y hfirst.entry)
    rw [hargmax, Nat.le_antisymm hij hji]

theorem argmax_eq_some_iff (hnum : Numbers row) {i : Nat} :
    argmax row = some i ↔ ∃ x, First row x i := by
  refine ⟨fun h => ?_, fun ⟨x, hfirst⟩ => hfirst.argmax_eq hnum⟩
  rcases argmax_cases hnum with ⟨hnone, -⟩ | ⟨x, j, hsome, hfirst⟩
  · cases h.symm.trans hnone
  · obtain rfl : i = j := Option.some.inj (h.symm.trans hsome)
    exact ⟨x, hfirst⟩

end

/-! ## Drawing -/

section

variable {β : Type} [Zero β] [Add β] [LT β] [LE β] [DecidableLT β] [DecidableLE β]

theorem pickFrom_eq_some {r covered : β} {last : Option Nat} {weights : List (β × Nat)} {i : Nat}
    (h : pickFrom r covered last weights = some i) :
    last = some i ∨ ∃ w, (w, i) ∈ weights ∧ ¬ w ≤ 0 := by
  induction weights generalizing covered last with
  | nil => exact Or.inl h
  | cons entry rest ih =>
    obtain ⟨w, j⟩ := entry
    have hlater : (∃ v, (v, i) ∈ rest ∧ ¬ v ≤ 0) → ∃ v, (v, i) ∈ (w, j) :: rest ∧ ¬ v ≤ 0 :=
      fun ⟨v, hmem, hv⟩ => ⟨v, List.mem_cons_of_mem _ hmem, hv⟩
    rw [pickFrom] at h
    split at h
    · exact (ih h).imp_right hlater
    · next hw =>
      split at h
      · cases h
        exact Or.inr ⟨w, List.mem_cons_self, hw⟩
      · rcases ih h with hlast | hrest
        · cases hlast
          exact Or.inr ⟨w, List.mem_cons_self, hw⟩
        · exact Or.inr (hlater hrest)

theorem pick_eq_some {weights : List β} {r : β} {i : Nat} (h : pick weights r = some i) :
    ∃ w, weights[i]? = some w ∧ ¬ w ≤ 0 := by
  rcases pickFrom_eq_some h with hnone | ⟨w, hmem, hw⟩
  · cases hnone
  · exact ⟨w, List.mem_zipIdx_iff_getElem?.mp hmem, hw⟩

end

theorem weightedSample_eq_some {weights : List α} {g g' : Generator} {i : Nat}
    (h : weightedSample weights g = (some i, g')) :
    ∃ w, weights[i]? = some w ∧ isFinite w = true ∧ ¬ w ≤ 0 := by
  unfold weightedSample at h
  split at h
  · next hfinite =>
    have hpick := (Prod.mk.inj h).1
    obtain ⟨w, hw, hpos⟩ := pick_eq_some hpick
    exact ⟨w, hw, List.all_eq_true.mp hfinite w (List.mem_of_getElem? hw), hpos⟩
  · cases h

theorem isFinite_iff {x : α} : isFinite x = true ↔ negInf < x ∧ x < posInf := by
  simp [isFinite]

/-- An entry at `-∞`. -/
def Masked (row : List α) (i : Nat) : Prop := row[i]? = some negInf

theorem length_scale (row : List α) (t : α) : (scale row t).length = row.length := by
  unfold scale
  split <;> simp

theorem length_retainTopK (row : List α) (k : Nat) : (retainTopK row k).length = row.length := by
  unfold retainTopK
  split
  · rfl
  · split <;> simp

theorem masked_retainTopK {row : List α} {k i : Nat} (h : Masked row i) :
    Masked (retainTopK row k) i := by
  unfold retainTopK
  split
  · exact h
  · split
    · exact h
    · rw [Masked, List.getElem?_map, h, Option.map_some, ite_self]

theorem length_softmax {row weights : List α} (h : softmax row = some weights) :
    weights.length = row.length := by
  simp only [softmax] at h
  split at h
  · cases h
  · split at h <;> cases h <;> simp

variable [LawfulScore α]

theorem clampTemperature_lt_posInf {t : α} (h : t < posInf) : clampTemperature t < posInf := by
  unfold clampTemperature
  split
  · exact h
  · exact minTemperature_lt_posInf

theorem masked_scale {row : List α} {t : α} {i : Nat} (hlt : t < posInf) (h : Masked row i) :
    Masked (scale row t) i := by
  unfold scale
  split
  · next hpos => rw [Masked, List.getElem?_map, h, Option.map_some, negInf_div hpos hlt]
  · exact h

theorem maximum_self (row : List α) : maximum row ≤ maximum row := by
  suffices h : ∀ m : α, m ≤ m → row.foldl (fun m s => if m < s then s else m) m
      ≤ row.foldl (fun m s => if m < s then s else m) m from h negInf negInf_le_negInf
  induction row with
  | nil => exact fun m hm => hm
  | cons s rest ih =>
    intro m hm
    rw [List.foldl_cons]
    split
    · next hlt => exact ih s (le_self_right (le_of_lt hlt))
    · exact ih m hm

/-- The softmax has no weight for a masked entry. -/
theorem softmax_of_masked {row weights : List α} {i : Nat} (h : softmax row = some weights)
    (hmasked : Masked row i) {w : α} (hw : weights[i]? = some w) (hnum : w ≤ w) : w ≤ 0 := by
  simp only [softmax] at h
  split at h
  · cases h
  · next hmass =>
    split at h
    · cases h
      rw [List.getElem?_map, hmasked, Option.map_some,
        if_neg (not_le_of_lt negInf_lt_posInf)] at hw
      cases hw
      exact zero_le_zero
    · cases h
      have hlow := negInf_lt (maximum_self row) hmass
      rw [List.getElem?_map, List.getElem?_map, hmasked, Option.map_some, Option.map_some,
        negInf_sub hlow, exp_negInf] at hw
      cases hw
      exact zero_div_le hnum

/-- What is drawn is not masked after the first two stages either. -/
theorem not_masked_of_draw {row : List α} {temperature : α} {k i : Nat} {g g' : Generator}
    (h : draw row temperature k g = (some i, g')) :
    i < row.length ∧ ¬ Masked (retainTopK (scale row (clampTemperature temperature)) k) i := by
  unfold draw at h
  split at h
  · cases h
  · next weights hsoftmax =>
    obtain ⟨w, hw, hfinite, hpos⟩ := weightedSample_eq_some h
    have hlen : weights.length = row.length := by
      rw [length_softmax hsoftmax, length_retainTopK, length_scale]
    refine ⟨hlen ▸ (List.getElem?_eq_some_iff.mp hw).1, fun hmasked => hpos ?_⟩
    exact softmax_of_masked hsoftmax hmasked hw (self_le_of_lt_posInf (isFinite_iff.mp hfinite).2)

/-- A draw gives an entry of the row that is not masked. -/
theorem draw_eq_some {row : List α} {temperature : α} {k i : Nat} {g g' : Generator}
    (htemperature : temperature < posInf) (h : draw row temperature k g = (some i, g')) :
    ∃ x, row[i]? = some x ∧ ¬ x ≤ negInf := by
  obtain ⟨hi, hopen⟩ := not_masked_of_draw h
  refine ⟨row[i], List.getElem?_eq_getElem hi, fun hle => hopen ?_⟩
  have hmasked : Masked row i := by
    rw [Masked, List.getElem?_eq_getElem hi, eq_negInf hle]
  exact masked_retainTopK (masked_scale (clampTemperature_lt_posInf htemperature) hmasked)

end Row

end OrderDecoding
