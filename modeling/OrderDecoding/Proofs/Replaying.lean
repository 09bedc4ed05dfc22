/-
# `Proofs.Replaying` — replaying choices one at a time

A replay asks for the rows of all steps at once and then sums up.  For a
decode the useful form is the step: what a replay of some choices and one
more comes to, given what the replay of the first ones does
(`sequenceLogProb_concat`).  Step `i` of a replay sees the first `i` orders
and nothing else, so the rows of the first choices stay what they were.
-/
import OrderDecoding.Proofs.Masking

namespace OrderDecoding
namespace Position

open Score

variable {α : Type} [Score α] {p : Position α}

/-! ## Rows -/

variable [LawfulScore α] in
theorem noScore?_eq_none_iff {x : α} : noScore? x = none ↔ x < posInf := by
  unfold noScore? isNaN
  constructor
  · intro h
    split at h
    · cases h
    · next hnum =>
      split at h
      · cases h
      · next hfinite =>
        simp only [Bool.not_eq_true', decide_eq_false_iff_not, not_not] at hnum
        exact LawfulScore.lt_iff.mpr ⟨LawfulScore.le_posInf hnum, hfinite⟩
  · intro h
    have hnum := LawfulScore.self_le_of_lt_posInf h
    rw [if_neg (by simpa using hnum), if_neg (LawfulScore.not_le_of_lt h)]

theorem checkRow_eq_ok_iff {step : Nat} {row : List α} : p.checkRow step row = .ok () ↔
    row.length = p.vocab.size ∧ ∀ x ∈ row, noScore? x = none := by
  unfold checkRow
  split
  · next hlength => exact ⟨nofun, fun h => absurd h.1 hlength⟩
  · next hlength =>
    rw [ne_eq, not_not] at hlength
    split
    · next index value hbad =>
      refine ⟨nofun, fun h => ?_⟩
      obtain ⟨⟨x, i⟩, hmem, hx⟩ := List.exists_of_findSome?_eq_some hbad
      rw [h.2 x (List.mem_of_getElem? (List.mem_zipIdx_iff_getElem?.mp hmem))] at hx
      cases hx
    · next hgood =>
      refine ⟨fun _ => ⟨hlength, fun x hx => ?_⟩, fun _ => rfl⟩
      obtain ⟨i, hi⟩ := List.mem_iff_getElem?.mp hx
      have := List.findSome?_eq_none_iff.mp hgood (x, i) (List.mem_zipIdx_iff_getElem?.mpr hi)
      exact Option.map_eq_none_iff.mp this

theorem lt_of_rowAt {step : Nat} {prior : List Order} {raw : List α}
    (h : p.rowAt step prior = .ok raw) : step < p.numSteps := by
  unfold rowAt at h
  split at h
  · cases h
  · next hlt => exact Nat.lt_of_not_le hlt

theorem checkRow_of_rowAt {step : Nat} {prior : List Order} {raw : List α}
    (h : p.rowAt step prior = .ok raw) : p.checkRow step raw = .ok () := by
  unfold rowAt at h
  split at h
  · cases h
  · split at h
    · cases h
    · obtain ⟨⟨⟩, hcheck, h⟩ := bind_eq_ok_iff.mp h
      cases h
      exact hcheck

theorem length_of_scores {s : Sequence} {raw : List α} (h : p.scores s = .ok raw) :
    raw.length = p.vocab.size := (checkRow_eq_ok_iff.mp (checkRow_of_rowAt h)).1

/-- A row that passed its check is valid. -/
theorem valid_of_rowAt [LawfulScore α] {step : Nat} {prior : List Order} {raw : List α}
    (h : p.rowAt step prior = .ok raw) : Row.Valid raw := fun x hx =>
  noScore?_eq_none_iff.mp ((checkRow_eq_ok_iff.mp (checkRow_of_rowAt h)).2 x hx)

theorem valid_of_scores [LawfulScore α] {s : Sequence} {raw : List α} (h : p.scores s = .ok raw) :
    Row.Valid raw := valid_of_rowAt h

theorem lt_of_scores {s : Sequence} {raw : List α} (h : p.scores s = .ok raw) :
    s.length < p.numSteps := lt_of_rowAt h

/-! ## Tables -/

/-- With a table the row of a step does not depend on anything before. -/
theorem rowAt_table {rows : List (List α)} (hscorer : p.scorer = Scorer.table rows) {step : Nat}
    {raw : List α} (hlt : step < p.numSteps) (hraw : rows[step]? = some raw)
    (hcheck : p.checkRow step raw = .ok ()) (prior : List Order) :
    p.rowAt step prior = .ok raw := by
  have hlt : step < p.units.length := hlt
  have hareas : step < p.units.areas.length := hlt
  have hstep : Scorer.stepOf (p.units.upTo step) = step := by
    rw [Scorer.stepOf, UnitList.upTo, List.length_take]
    omega
  rw [rowAt, if_neg (Nat.not_le.mpr hlt), hscorer, Scorer.table, hstep, hraw]
  exact bind_eq_ok_iff.mpr ⟨(), hcheck, rfl⟩

/-! ## Replays -/

/-- What a replay gives are the rows of its steps. -/
theorem mapM_of_replay {orders : List Order} {rows : List (List α)}
    (h : p.replay orders = .ok rows) :
    (List.range orders.length).mapM (fun step => p.rowAt step (orders.take step)) = .ok rows := by
  unfold replay at h
  split at h
  · cases h
  · exact h

theorem length_of_replay {orders : List Order} {rows : List (List α)}
    (h : p.replay orders = .ok rows) : rows.length = orders.length := by
  rw [← (forall₂_of_mapM (mapM_of_replay h)).length_eq, List.length_range]

theorem valid_of_replay [LawfulScore α] {orders : List Order} {rows : List (List α)}
    (h : p.replay orders = .ok rows) {row : List α} (hrow : row ∈ rows) : Row.Valid row := by
  obtain ⟨step, -, hstep⟩ := exists_of_mem_mapM (mapM_of_replay h) hrow
  exact valid_of_rowAt hstep

theorem replay_concat {orders : List Order} {order : Order} {rows : List (List α)} {raw : List α}
    (h : p.replay orders = .ok rows) (hraw : p.rowAt orders.length orders = .ok raw) :
    p.replay (orders ++ [order]) = .ok (rows ++ [raw]) := by
  have hlt : orders.length < p.units.length := lt_of_rowAt hraw
  have hrows := forall₂_of_mapM (mapM_of_replay h)
  unfold replay
  rw [List.length_append, List.length_singleton, if_neg (Nat.not_lt.mpr hlt), List.range_succ]
  refine mapM_of_forall₂ (List.rel_append ?_ ?_)
  · -- the rows of the first steps see no order of the last
    refine List.forall₂_iff_get.mpr ⟨hrows.length_eq, fun i hi hi' => ?_⟩
    have hrow := (List.forall₂_iff_get.mp hrows).2 i hi hi'
    rw [List.length_range] at hi
    simp only [List.get_eq_getElem, List.getElem_range] at hrow ⊢
    rw [List.take_append_of_le_length (Nat.le_of_lt hi)]
    exact hrow
  · refine .cons ?_ .nil
    rw [List.take_left]
    exact hraw

/-- One more choice adds the log-probability of its entry. -/
theorem sequenceLogProb_concat {choices : List Choice} {choice : Choice} {score : α}
    {raw : List α} {index : Nat} (h : p.sequenceLogProb choices = .ok score)
    (hraw : p.scores (Sequence.ofChoices choices) = .ok raw)
    (hchoose : p.choose choices.length index = .ok choice) :
    p.sequenceLogProb (choices ++ [choice]) = .ok (score + Row.logProb raw index) := by
  have hlt := lt_of_scores hraw
  rw [Sequence.length_ofChoices] at hlt
  have hrow : p.rowAt (choices.map (·.order)).length (choices.map (·.order)) = .ok raw := by
    rw [List.length_map, ← Sequence.orders_ofChoices, ← Sequence.length_ofChoices choices]
    exact hraw
  have hlt : choices.length < p.units.length := hlt
  unfold sequenceLogProb at h ⊢
  rw [if_neg (Nat.not_lt.mpr (Nat.le_of_lt hlt))] at h
  obtain ⟨⟨⟩, hchecks, h⟩ := bind_eq_ok_iff.mp h
  obtain ⟨rows, hrows, h⟩ := bind_eq_ok_iff.mp h
  rw [List.length_append, List.length_singleton, if_neg (Nat.not_lt.mpr hlt)]
  refine bind_eq_ok_iff.mpr ⟨(), ?_, bind_eq_ok_iff.mpr ⟨rows ++ [raw], ?_, ?_⟩⟩
  · rw [List.forM_eq_forM] at hchecks ⊢
    rw [List.zipIdx_append, List.forM_append]
    refine bind_eq_ok_iff.mpr ⟨(), hchecks, ?_⟩
    rw [Nat.zero_add]
    have hread : p.choose choices.length choice.index = .ok choice := by
      rw [index_of_choose hchoose, hchoose]
    exact bind_eq_ok_iff.mpr ⟨(), checkChoice_eq_ok_iff.mpr hread, rfl⟩
  · rw [List.map_append]
    exact replay_concat hrows hrow
  · have hlen : rows.length = choices.length := by
      rw [length_of_replay hrows, List.length_map]
    cases h
    rw [List.zip_append hlen, List.map_append, total, List.foldl_append,
      ← index_of_choose hchoose]
    rfl

end Position

end OrderDecoding
