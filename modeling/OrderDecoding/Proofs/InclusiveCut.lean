/-
# `Proofs.InclusiveCut` — the best `k` entries, and what ties with the last

A cut compares scores as numbers and finds its threshold by place, and the
two do not tie the same scores: of two zeros that are equal as numbers one
may rank above the other.  What a cut keeps is said here without its
threshold, by counting the entries that are larger (`retainTopK_eq_map`), and
then held against the best `k` entries.

An entry comes after all entries that are larger than it
(`numLarger_le_place`), so each of the best `k` stays.  Another one that stays
is not ranked above the threshold and not below it as a number, so it equals
it (`eq_threshold`).  And a cut row has no entry with more larger ones than
before (`numLarger_retainTopK_le`): cutting it again changes nothing.
-/
import OrderDecoding.Proofs.BestScores
import OrderDecoding.Proofs.Binary64.Lawful
import OrderDecoding.Proofs.Retaining

namespace OrderDecoding
namespace Row

open Score LawfulScore

variable {α : Type} [Score α] [LawfulOrder α] {row : List α} {k : Nat}

/-! ## The best entries stay -/

theorem numLarger_le_place (hnum : Numbers row) {x : α} {i : Nat} (hx : row[i]? = some x) :
    numLarger row x ≤ place row (x, i) := by
  rw [numLarger, ← countP_ranking, place]
  refine List.countP_mono_left fun e he hlt => ?_
  rw [decide_eq_true_eq] at hlt
  rw [Bool.not_eq_true', ← Bool.not_eq_true]
  intro hout
  have hle : e.1 ≤ x := LawfulOrder.le_of_ranks (hnum.get (mem_ranking.mp he)) (hnum.get hx)
    (outranks_iff.mp hout).1
  exact not_le_of_lt hlt hle

theorem getElem?_retainTopK_of_mem_topK (hnum : Numbers row) {i : Nat} (h : i ∈ topK row k) :
    (retainTopK row k)[i]? = row[i]? := by
  obtain ⟨x, hx, -⟩ := mem_topK.mp h
  have hplace : numLarger row x < k :=
    Nat.lt_of_le_of_lt (numLarger_le_place hnum hx) ((mem_topK_iff hx).mp h)
  have hstays : Stays row k x := fun _ _ => hplace
  rw [retainTopK_eq_map hnum, List.getElem?_map, hx, Option.map_some, if_pos hstays]

/-! ## What stays beside them -/

/-- The last of the best `k` entries has the score that is `k`-th from the
top. -/
theorem getElem?_descending (row : List α) (n : Nat) :
    (descending row)[n]? = (ranking row)[n]?.map (·.1) := by
  rw [← scores_ranking, List.getElem?_map]

/-- A score that stays without being one of the best `k` is level with the
last of them. -/
theorem eq_threshold (hnum : Numbers row) {x t : α} {i j : Nat} (hk : 0 < k)
    (ht : (ranking row)[k - 1]? = some (t, j)) (hx : row[i]? = some x) (hstays : numLarger row x < k)
    (hout : i ∉ topK row k) : x ≤ t ∧ t ≤ x := by
  obtain ⟨hn, hentry⟩ := List.getElem?_eq_some_iff.mp ht
  have hxnum : x ≤ x := hnum.get hx
  have htnum : t ≤ t := hnum.get (mem_ranking.mp (List.mem_of_getElem? ht))
  rw [mem_topK_iff hx, Nat.not_lt] at hout
  constructor
  · have hplace : k - 1 < place row (x, i) := by omega
    rw [lt_place_iff _ hn, hentry] at hplace
    have hranks := (outranks_iff.mp (outranks_of_not hplace)).1
    exact LawfulOrder.le_of_ranks hxnum htnum hranks
  · by_contra hlow
    have hlt := lt_of_not_le hxnum htnum hlow
    have hcut := lt_threshold_iff hnum x hn
    rw [hentry] at hcut
    have hmany := hcut.mp hlt
    omega

/-! ## Cutting twice -/

/-- A cut adds no larger entry. -/
theorem numLarger_retainTopK_le (hnum : Numbers row) (x : α) :
    numLarger (retainTopK row k) x ≤ numLarger row x := by
  rw [retainTopK_eq_map hnum, numLarger, List.countP_map]
  refine List.countP_mono_left fun y hy hlt => ?_
  simp only [Function.comp_apply, decide_eq_true_eq] at hlt ⊢
  split at hlt
  · exact hlt
  · exact lt_of_lt_of_le hlt (LawfulOrder.negInf_le (hnum y hy))

theorem retainTopK_retainTopK (hnum : Numbers row) (k : Nat) :
    retainTopK (retainTopK row k) k = retainTopK row k := by
  rw [retainTopK_eq_map (numbers_retainTopK hnum)]
  refine (List.map_congr_left fun x hx => ?_).trans (List.map_id' _)
  rw [retainTopK_eq_map hnum, List.mem_map] at hx
  obtain ⟨y, -, rfl⟩ := hx
  by_cases hstays : Stays row k y
  · have hagain : Stays (retainTopK row k) k y := fun hk hlt => by
      rw [retainTopK_eq_map hnum, List.length_map] at hlt
      exact Nat.lt_of_le_of_lt (numLarger_retainTopK_le hnum y) (hstays hk hlt)
    rw [if_pos hstays, if_pos hagain]
  · rw [if_neg hstays, ite_self]

/-! ## The cut -/

/-- A cut to the best `k` leaves the entries that fewer than `k` are larger
than and masks the others, and where `k` is no limit it leaves all.  That is a
cut at the `k`-th score from the top: the best `k` entries stay, and so does
what equals the last of them and nothing else.  A second cut changes
nothing. -/
theorem retainTopK_keeps_inclusive_top (hnum : Numbers row) (k : Nat) :
    (k = 0 ∨ row.length ≤ k → retainTopK row k = row) ∧
    (0 < k → k < row.length →
      (∀ i : Nat, (retainTopK row k)[i]? =
        row[i]?.map fun x => if numLarger row x < k then x else negInf) ∧
      ∃ t, (descending row)[k - 1]? = some t ∧
        (retainTopK row k = row.map fun x => if x < t then negInf else x) ∧
        ∀ (i : Nat) (x : α), (retainTopK row k)[i]? = some x → negInf < x → i ∉ topK row k →
          x ≤ t ∧ t ≤ x) ∧
    (∀ i ∈ topK row k, (retainTopK row k)[i]? = row[i]?) ∧
    retainTopK (retainTopK row k) k = retainTopK row k := by
  refine ⟨retainTopK_of_unlimited, fun hk hlt => ⟨fun i => ?_, ?_⟩,
    fun i => getElem?_retainTopK_of_mem_topK hnum, retainTopK_retainTopK hnum k⟩
  · have hstays (x : α) : Stays row k x ↔ numLarger row x < k :=
      ⟨fun h => h hk hlt, fun h _ _ => h⟩
    simp only [retainTopK_eq_map hnum, List.getElem?_map, hstays]
  · have hn : k - 1 < (ranking row).length := by
      rw [(perm_ranking row).length_eq, List.length_zipIdx]
      omega
    obtain ⟨⟨t, j⟩, ht⟩ : ∃ e, (ranking row)[k - 1]? = some e := ⟨_, List.getElem?_eq_getElem hn⟩
    refine ⟨t, by rw [getElem?_descending, ht]; rfl, retainTopK_eq_cut hk hlt ht, ?_⟩
    intro i x hx hopen hout
    obtain ⟨hentry, hstays⟩ := getElem?_retainTopK hnum hx hopen
    exact eq_threshold hnum hk ht hentry (hstays hk hlt) hout

/-- Both zeros, a larger score, a smaller one and one that is masked. -/
def zerosRow : List Float := [-0.0, 1, 0, negInf, -1, 0]

/-- Of three zeros the best two entries hold one, and the cut leaves all. -/
theorem zerosRow_cut :
    Numbers zerosRow ∧ topK zerosRow 2 = [1, 2] ∧
    retainTopK zerosRow 2 = [-0.0, 1, 0, negInf, negInf, 0] ∧
    (∃ t, (descending zerosRow)[1]? = some t ∧ (-0.0 : Float) ≤ t ∧ t ≤ -0.0) ∧
    (retainTopK zerosRow 2)[1]? = zerosRow[1]? ∧
    retainTopK (retainTopK zerosRow 2) 2 = retainTopK zerosRow 2 ∧
    retainTopK zerosRow 6 = zerosRow := by
  have hnum : ∀ x ∈ zerosRow, x ≤ x := by decide +kernel
  have hbest : topK zerosRow 2 = [1, 2] := by decide +kernel
  have hcut : retainTopK zerosRow 2 = [-0.0, 1, 0, negInf, negInf, 0] := by decide +kernel
  obtain ⟨-, hlimited, hkept, htwice⟩ := retainTopK_keeps_inclusive_top hnum 2
  obtain ⟨hall, -⟩ := retainTopK_keeps_inclusive_top hnum 6
  obtain ⟨-, t, ht, -, hlevel⟩ := hlimited (by decide) (by decide)
  refine ⟨hnum, hbest, hcut, ⟨t, ht, hlevel 0 (-0.0) ?_ (by decide +kernel) ?_⟩,
    hkept 1 (by rw [hbest]; decide), htwice, hall (by decide)⟩
  · rw [hcut]
    rfl
  · rw [hbest]
    decide

end Row

end OrderDecoding
