/-
# `Proofs.Retaining` — what a cut to the best entries leaves

The cut looks up the last of the best `k` entries and masks what is
smaller.  Which entry that is depends on how ties are ranked, and what the
cut does with it does not: an entry stays exactly if fewer than `k` are
larger (`retainTopK_eq_map`).  So entries that tie stay or go together, and
the largest always stay.
-/
import OrderDecoding.Proofs.LogSoftmax
import OrderDecoding.Proofs.Ranking

namespace OrderDecoding
namespace Row

open Score LawfulScore

variable {α : Type} [Score α] {row : List α} {k : Nat}

/-! ## The cut -/

/-- The number of entries larger than a score. -/
def numLarger (row : List α) (x : α) : Nat := row.countP fun y => decide (x < y)

/-- A cut at `k` leaves a score: it cuts nothing, or fewer than `k` entries
are larger. -/
def Stays (row : List α) (k : Nat) (x : α) : Prop :=
  0 < k → k < row.length → numLarger row x < k

instance (row : List α) (k : Nat) (x : α) : Decidable (Stays row k x) := by
  unfold Stays
  infer_instance

section

variable [LawfulOrder α]

/-- The last of the best entries is larger than a score exactly if so many
entries are. -/
theorem lt_threshold_iff (hnum : Numbers row) (x : α) {n : Nat}
    (hn : n < (ranking row).length) : x < (ranking row)[n].1 ↔ n < numLarger row x := by
  have hfalls : (ranking row).Pairwise fun a b =>
      decide (x < b.1) = true → decide (x < a.1) = true := by
    refine (pairwise_ranking row).imp_of_mem fun {a b} ha hb hab hlt => ?_
    rw [decide_eq_true_eq] at hlt ⊢
    exact lt_of_lt_of_le hlt (LawfulOrder.le_of_ranks (hnum.get (mem_ranking.mp hb))
      (hnum.get (mem_ranking.mp ha)) (outranks_iff.mp hab).1)
  rw [numLarger, ← countP_ranking, lt_countP_iff hfalls hn, decide_eq_true_eq]

omit [LawfulOrder α] in
theorem retainTopK_of_unlimited (h : k = 0 ∨ row.length ≤ k) : retainTopK row k = row := by
  rw [retainTopK, if_pos h]

/-- A cut masks what is below entry `k` of the ranking. -/
theorem retainTopK_eq_cut (hk : 0 < k) (hlt : k < row.length) {e : α × Nat}
    (he : (ranking row)[k - 1]? = some e) :
    retainTopK row k = row.map fun x => if x < e.1 then negInf else x := by
  have hlast : (best row k).getLast? = some e := by
    rw [best_eq_take, List.getLast?_take, if_neg (by omega), he]
    rfl
  rw [retainTopK, if_neg (by omega), hlast]

theorem retainTopK_eq_map (hnum : Numbers row) :
    retainTopK row k = row.map fun x => if Stays row k x then x else negInf := by
  by_cases hall : k = 0 ∨ row.length ≤ k
  · have hstays (x : α) : Stays row k x := fun hk hlt => by omega
    rw [retainTopK_of_unlimited hall]
    simp only [hstays, if_true, List.map_id']
  · have hlen : (ranking row).length = row.length := by
      rw [(perm_ranking row).length_eq, List.length_zipIdx]
    have hn : k - 1 < (ranking row).length := by omega
    rw [retainTopK_eq_cut (by omega) (by omega) (List.getElem?_eq_getElem hn)]
    refine List.map_congr_left fun x _ => ?_
    have hcut := lt_threshold_iff hnum x hn
    by_cases hlt : x < (ranking row)[k - 1].1
    · have hmany := hcut.mp hlt
      have hgoes : ¬ Stays row k x := fun hstays => by
        have := hstays (by omega) (by omega)
        omega
      rw [if_pos hlt, if_neg hgoes]
    · have hfew : ¬ k - 1 < numLarger row x := fun hmany => hlt (hcut.mpr hmany)
      have hstays : Stays row k x := fun _ _ => by omega
      rw [if_neg hlt, if_pos hstays]

/-- An entry that the cut leaves. -/
theorem getElem?_retainTopK (hnum : Numbers row) {i : Nat} {x : α}
    (h : (retainTopK row k)[i]? = some x) (hopen : negInf < x) :
    row[i]? = some x ∧ Stays row k x := by
  rw [retainTopK_eq_map hnum, List.getElem?_map, Option.map_eq_some_iff] at h
  obtain ⟨y, hy, hyx⟩ := h
  split at hyx
  · next hstays => exact ⟨hyx ▸ hy, hyx ▸ hstays⟩
  · exact absurd (hyx ▸ hopen) lt_irrefl

/-- The largest entries stay. -/
theorem stays_of_le {x : α} (h : ∀ y ∈ row, y ≤ x) : Stays row k x := by
  intro hk _
  have hzero : numLarger row x = 0 := by
    refine List.countP_eq_zero.mpr fun y hy => ?_
    rw [decide_eq_true_eq]
    exact fun hlt => not_le_of_lt hlt (h y hy)
  rwa [hzero]

theorem numbers_retainTopK (hnum : Numbers row) : Numbers (retainTopK row k) := by
  intro x hx
  rw [retainTopK_eq_map hnum] at hx
  obtain ⟨y, hy, rfl⟩ := List.mem_map.mp hx
  split
  · exact hnum y hy
  · exact LawfulOrder.le_self_left (LawfulOrder.negInf_le (hnum y hy))

end

/-- So a cut does not take all that there is to choose. -/
theorem hasMass_retainTopK [LawfulScore α] (hnum : Numbers row) :
    hasMass (retainTopK row k) = hasMass row := by
  refine Bool.eq_iff_iff.mpr ⟨fun h => ?_, fun h => ?_⟩
  · obtain ⟨i, x, hx, hopen⟩ := hasMass_iff.mp h
    exact hasMass_iff.mpr ⟨i, x, (getElem?_retainTopK hnum hx hopen).1, hopen⟩
  · have hmass := (negInf_lt_maximum_iff hnum).mpr h
    obtain ⟨i, hi⟩ := List.mem_iff_getElem?.mp (maximum_mem hnum hmass)
    have hstays : Stays row k (maximum row) := stays_of_le fun y hy => le_maximum hnum hy
    refine hasMass_iff.mpr ⟨i, maximum row, ?_, hmass⟩
    rw [retainTopK_eq_map hnum, List.getElem?_map, hi, Option.map_some, if_pos hstays]

end Row

end OrderDecoding
