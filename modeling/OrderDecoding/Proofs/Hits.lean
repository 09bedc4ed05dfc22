/-
# `Proofs.Hits` — the best entry among the best entries

An evaluation counts at how many steps the target's entry is the best of its
row, and at how many it is among the best `k`.  One would think the first a
case of the second.  But `argmax` compares scores as numbers and `topK`
ranks them in the total order, and these do not tie the same scores: zero
and the zero with a sign are equal as numbers, and one is ranked above the
other.  So the first of the largest entries can be followed by an equal one
that is ranked above it.

It comes after exactly the entries that are ranked above it (`numAbove`).
Hence a best entry is among the best `k` where these are fewer than `k`
(`First.mem_topK_iff`), and where that is so at every step the accuracies
compare as one would think.
-/
import OrderDecoding.Evaluation
import OrderDecoding.Proofs.Picking
import OrderDecoding.Proofs.Ranking
import OrderDecoding.Proofs.Replaying
import OrderDecoding.Proofs.Stark

namespace OrderDecoding

open Score LawfulScore

variable {α : Type} [Score α]

namespace Row

/-! ## The place of the best entry -/

/-- The number of entries that are ranked above an entry for their scores,
wherever they stand. -/
def numAbove (row : List α) (i : Nat) : Nat :=
  row.countP fun y => row[i]?.any fun x => !ranks y x

variable [LawfulScore α] {row : List α} {x : α} {i k : Nat}

omit [LawfulScore α] in
theorem numAbove_of_entry (hx : row[i]? = some x) :
    numAbove row i = row.countP fun y => !ranks y x := by
  rw [numAbove, hx]
  rfl

/-- Before the first of the largest come the entries that are ranked above
it: what ties with it stands behind it. -/
theorem First.place_eq (h : First row x i) : place row (x, i) = numAbove row i := by
  rw [numAbove_of_entry h.entry, ← countP_ranking, place]
  refine List.countP_congr fun e hmem => ?_
  obtain ⟨y, j⟩ := e
  have hy : row[j]? = some y := mem_ranking.mp hmem
  rw [Bool.not_eq_true', Bool.not_eq_true', ← Bool.not_eq_true, ← Bool.not_eq_true, outranks_iff]
  refine not_congr (and_iff_left fun hranks => h.before j y hy ?_)
  exact le_of_ranks (h.le i x h.entry) (le_self_left (h.le j y hy)) hranks

theorem First.mem_topK_iff (h : First row x i) : i ∈ topK row k ↔ numAbove row i < k := by
  rw [Row.mem_topK_iff h.entry, h.place_eq]

theorem First.head?_topK_iff (h : First row x i) (hk : 0 < k) :
    (topK row k).head? = some i ↔ numAbove row i = 0 := by
  rw [Row.head?_topK_iff hk, h.mem_topK_iff, Nat.lt_one_iff]

/-- None is ranked above it if it has the last place among its equals, or
has no equals after it. -/
theorem First.numAbove_eq_zero (h : First row x i)
    (hclear : Topmost x ∨ ∀ (j : Nat) (y : α), i < j → row[j]? = some y → ¬ x ≤ y) :
    numAbove row i = 0 := by
  rw [numAbove_of_entry h.entry]
  refine List.countP_eq_zero.mpr fun y hmem => ?_
  obtain ⟨j, hy⟩ := List.mem_iff_getElem?.mp hmem
  have hyx : y ≤ x := h.le j y hy
  rw [Bool.not_eq_true', Bool.not_eq_false]
  rcases hclear with htop | hlast
  · exact htop y hyx
  · by_contra hnot
    have hranks : ranks x y = true := (ranks_total x y).resolve_right hnot
    have hxy : x ≤ y := le_of_ranks (h.le i x h.entry) (le_self_left hyx) hranks
    rcases Nat.eq_or_lt_of_le (h.before j y hy hxy) with rfl | hlt
    · obtain rfl : x = y := Option.some.inj (h.entry.symm.trans hy)
      exact hnot hranks
    · exact hlast j y hlt hy hxy

end Row

/-! ## Counting hits -/

namespace Evaluation

/-- A step whose best entry is the target's. -/
def IsTop1Hit (v : Vocabulary) (step : List α × Order) : Prop :=
  Row.argmax step.1 = some (v.targetIndex step.2)

/-- A step with the target's entry among the best `k`. -/
def IsTopKHit (v : Vocabulary) (k : Nat) (step : List α × Order) : Prop :=
  v.targetIndex step.2 ∈ Row.topK step.1 k

instance (v : Vocabulary) : DecidablePred (IsTop1Hit (α := α) v) := fun _ =>
  inferInstanceAs (Decidable (_ = _))

instance (v : Vocabulary) (k : Nat) : DecidablePred (IsTopKHit (α := α) v k) := fun _ =>
  inferInstanceAs (Decidable (_ ∈ _))

/-- A step whose best entry is the target's, while so many entries are
ranked above it that it is not among the best `k`. -/
def IsOutranked (v : Vocabulary) (k : Nat) (step : List α × Order) : Prop :=
  IsTop1Hit v step ∧ k ≤ Row.numAbove step.1 (v.targetIndex step.2)

instance (v : Vocabulary) (k : Nat) : DecidablePred (IsOutranked (α := α) v k) := fun _ =>
  inferInstanceAs (Decidable (_ ∧ _))

variable {v : Vocabulary} {k : Nat} {e e' : Evaluation α} {judged : List (List α × Order)}

/-- What an evaluation has counted after some steps, from what it had before
them. -/
structure Counts (v : Vocabulary) (k : Nat) (judged : List (List α × Order))
    (e e' : Evaluation α) : Prop where
  steps : e'.steps = e.steps + judged.length
  top1Hits : e'.top1Hits = e.top1Hits + judged.countP (IsTop1Hit v ·)
  topKHits : e'.topKHits = e.topKHits + judged.countP (IsTopKHit v k ·)

theorem Counts.cons {row : List α} {target : Order} {marks : List Nat}
    (h : Counts v k judged (e.addStep k (v.targetIndex target) marks row) e') :
    Counts v k ((row, target) :: judged) e e' where
  steps := by
    have hstep : (e.addStep k (v.targetIndex target) marks row).steps = e.steps + 1 := rfl
    rw [h.steps, hstep, List.length_cons]
    omega
  top1Hits := by
    have hstep : (e.addStep k (v.targetIndex target) marks row).top1Hits =
        e.top1Hits + if IsTop1Hit v (row, target) then 1 else 0 := rfl
    rw [h.top1Hits, hstep, List.countP_cons]
    simp only [decide_eq_true_eq]
    omega
  topKHits := by
    have hstep : (e.addStep k (v.targetIndex target) marks row).topKHits =
        e.topKHits + if IsTopKHit v k (row, target) then 1 else 0 := by
      simp only [addStep, List.contains_iff_mem]
      rfl
    rw [h.topKHits, hstep, List.countP_cons]
    simp only [decide_eq_true_eq]
    omega

theorem counts_ofRows (h : ofRows v k e judged = .ok e') : Counts v k judged e e' := by
  induction judged generalizing e with
  | nil =>
    cases h
    exact ⟨rfl, rfl, rfl⟩
  | cons step rest ih =>
    obtain ⟨row, target⟩ := step
    rw [ofRows] at h
    split at h
    · cases h
    · exact (ih h).cons

/-- What is counted over the rows of a replay. -/
theorem counts_ofTargets {p : Position α} {targets : List Order} (h : ofTargets p targets k = .ok e) :
    ∃ rows, p.replay targets = .ok rows ∧ (rows.zip targets).length = targets.length ∧
      Counts p.vocab k (rows.zip targets) empty e := by
  obtain ⟨rows, hrows, h⟩ := bind_eq_ok_iff.mp h
  refine ⟨rows, hrows, ?_, counts_ofRows h⟩
  rw [List.length_zip, Position.length_of_replay hrows, Nat.min_self]

section

variable [LawfulScore α]

/-- A target that is the best entry is among the best `k` unless it is
outranked. -/
theorem IsTop1Hit.isTopKHit_iff {step : List α × Order} (hnum : Row.Numbers step.1)
    (h : IsTop1Hit v step) : IsTopKHit v k step ↔ ¬ IsOutranked v k step := by
  have hplace : IsTopKHit v k step ↔ Row.numAbove step.1 (v.targetIndex step.2) < k := by
    obtain ⟨x, hfirst⟩ := (Row.argmax_eq_some_iff hnum).mp h
    exact hfirst.mem_topK_iff
  rw [hplace, IsOutranked, and_iff_right h, Nat.not_le]

/-- So every hit of the one kind is a hit of the other or outranked. -/
theorem countP_isTop1Hit_le (hnum : ∀ step ∈ judged, Row.Numbers step.1) :
    judged.countP (IsTop1Hit v ·) ≤
      judged.countP (IsTopKHit v k ·) + judged.countP (IsOutranked v k ·) := by
  rw [List.countP_eq_countP_filter_add judged (IsTop1Hit v ·) (IsTopKHit v k ·),
    List.countP_filter, List.countP_filter]
  refine Nat.add_le_add (List.countP_mono_left fun step _ hhit => ?_)
    (List.countP_mono_left fun step hmem hhit => ?_)
  · exact (Bool.and_eq_true_iff.mp hhit).2
  · simp only [Bool.and_eq_true, decide_eq_true_eq, Bool.not_eq_true',
      decide_eq_false_iff_not] at hhit ⊢
    by_contra hnot
    exact hhit.2 ((hhit.1.isTopKHit_iff (hnum step hmem)).mpr hnot)

variable [LawfulQuotient α]

open LawfulQuotient

/-- Of two counts over the steps the smaller has the smaller mean. -/
theorem mean_count_le {m n : Nat} (hmn : m ≤ n) (hn : n ≤ e.steps) (hsteps : e.steps < Word.bound) :
    e.mean (count m) ≤ e.mean (count n) := by
  have hfinite : (count e.steps : α) < posInf := count_lt_posInf hsteps
  unfold mean
  split
  · exact zero_le_zero
  · next hne =>
    have hone : (1 : α) ≤ count e.steps :=
      count_one (α := α) ▸ count_le_count (Nat.one_le_iff_ne_zero.mpr hne)
    exact div_le_div_right (count_le_count hmn) (lt_of_le_of_lt (count_le_count hn) hfinite)
      (lt_of_lt_of_le zero_lt_one hone) hfinite

end

end Evaluation

/-! ## The best entry in an evaluation -/

section

variable [LawfulScore α] [LawfulQuotient α]

open Evaluation

/-- The best entry of a row stands first among the best `k` exactly if no
entry is ranked above it, and is among them exactly if fewer than `k` are.
None is if the entry has the last place among its equals, as every float
but the zero with a sign has (`Binary64.topmost_iff`), or has no equals
after it.  So an evaluation counts a best entry among the best `k` unless it
is outranked, and where none is the second accuracy is at least the first. -/
theorem top1_hit_is_topK_hit_unless_outranked :
    (∀ (row : List α) (i : Nat), Row.Numbers row → Row.argmax row = some i →
      (∀ k, 0 < k → ((Row.topK row k).head? = some i ↔ Row.numAbove row i = 0)) ∧
      (∀ k, i ∈ Row.topK row k ↔ Row.numAbove row i < k) ∧
      ((∀ x, row[i]? = some x →
          Topmost x ∨ ∀ (j : Nat) (y : α), i < j → row[j]? = some y → ¬ x ≤ y) →
        Row.numAbove row i = 0)) ∧
    ∀ (p : Position α) (targets : List Order) (k : Nat) (e : Evaluation α),
      targets.length < Word.bound → ofTargets p targets k = .ok e →
      ∃ rows, p.replay targets = .ok rows ∧
        e.steps = targets.length ∧
        e.top1Hits = (rows.zip targets).countP (IsTop1Hit p.vocab ·) ∧
        e.topKHits = (rows.zip targets).countP (IsTopKHit p.vocab k ·) ∧
        (∀ step ∈ rows.zip targets, IsTop1Hit p.vocab step →
          (IsTopKHit p.vocab k step ↔ ¬ IsOutranked p.vocab k step)) ∧
        e.top1Hits ≤ e.topKHits + (rows.zip targets).countP (IsOutranked p.vocab k ·) ∧
        ((∀ step ∈ rows.zip targets, ¬ IsOutranked p.vocab k step) →
          e.top1Accuracy ≤ e.topKAccuracy) := by
  refine ⟨fun row i hnum hbest => ?_, fun p targets k e hbound h => ?_⟩
  · obtain ⟨x, hfirst⟩ := (Row.argmax_eq_some_iff hnum).mp hbest
    exact ⟨fun k hk => hfirst.head?_topK_iff hk, fun k => hfirst.mem_topK_iff,
      fun hclear => hfirst.numAbove_eq_zero (hclear x hfirst.entry)⟩
  · obtain ⟨rows, hrows, hlength, hcounts⟩ := counts_ofTargets h
    have hnum : ∀ step ∈ rows.zip targets, Row.Numbers step.1 := fun step hstep =>
      (Position.valid_of_replay hrows (List.of_mem_zip hstep).1).numbers
    have hsteps : e.steps = targets.length := by
      rw [hcounts.steps, hlength]
      exact Nat.zero_add _
    have htop1 := hcounts.top1Hits.trans (Nat.zero_add _)
    have htopK := hcounts.topKHits.trans (Nat.zero_add _)
    have hle : e.top1Hits ≤ e.topKHits + (rows.zip targets).countP (IsOutranked p.vocab k ·) := by
      rw [htop1, htopK]
      exact countP_isTop1Hit_le hnum
    refine ⟨rows, hrows, hsteps, htop1, htopK,
      fun step hstep hhit => hhit.isTopKHit_iff (hnum step hstep), hle, fun hclear => ?_⟩
    have hnone : (rows.zip targets).countP (IsOutranked p.vocab k ·) = 0 :=
      List.countP_eq_zero.mpr fun step hstep => by simpa using hclear step hstep
    have hall : e.topKHits ≤ e.steps := by
      rw [htopK, hsteps, ← hlength]
      exact List.countP_le_length
    exact mean_count_le (by omega) hall (hsteps ▸ hbound)

/-- Zeros for holding and for disbanding, that for holding with a sign. -/
def signedZeros : List Stark := Stark.row 9 [(0, -0.0), (6, 0)]

/-- One unit, and these scores for it. -/
def unsure : Position Stark := Stark.position 1 [signedZeros]

theorem replay_unsure : unsure.replay [Order.hold 0] = .ok [signedZeros] := by decide +kernel

theorem ofTargets_unsure (k : Nat) :
    ofTargets unsure [Order.hold 0] k = .ok (empty.addStep k 0 [0, 7] signedZeros) := by
  unfold ofTargets
  rw [replay_unsure]
  rfl

/-- Holding is the best entry, and disbanding is ranked above it: the best
one entry misses the hit, the best two do not. -/
theorem unsure_hits :
    (Row.Numbers signedZeros ∧ Row.argmax signedZeros = some 0 ∧
      (Row.topK signedZeros 1).head? ≠ some 0 ∧ 0 ∈ Row.topK signedZeros 2) ∧
    (∃ e, ofTargets unsure [Order.hold 0] 1 = .ok e ∧ e.top1Accuracy = 1 ∧ e.topKAccuracy = 0) ∧
    ∃ e, [Order.hold 0].length < Word.bound ∧ ofTargets unsure [Order.hold 0] 2 = .ok e ∧
      e.top1Accuracy = 1 ∧ e.top1Accuracy ≤ e.topKAccuracy := by
  obtain ⟨hrow, hrun⟩ := top1_hit_is_topK_hit_unless_outranked (α := Stark)
  have hnum : ∀ x ∈ signedZeros, x ≤ x := by decide +kernel
  have hbest : Row.argmax signedZeros = some 0 := by decide +kernel
  have habove : Row.numAbove signedZeros 0 = 1 := by decide +kernel
  obtain ⟨hhead, hplace, -⟩ := hrow signedZeros 0 hnum hbest
  have hfirst : (Row.topK signedZeros 1).head? ≠ some 0 := fun h => by
    have := (hhead 1 Nat.one_pos).mp h
    omega
  have hsecond : 0 ∈ Row.topK signedZeros 2 := (hplace 2).mpr (by omega)
  have hbound : [Order.hold 0].length < Word.bound := by decide +kernel
  obtain ⟨rows, hrows, -, -, -, -, -, haccuracy⟩ := hrun unsure _ 2 _ hbound (ofTargets_unsure 2)
  obtain rfl : [signedZeros] = rows := Except.ok.inj (replay_unsure.symm.trans hrows)
  have hclear : ∀ step ∈ [signedZeros].zip [Order.hold 0],
      ¬ IsOutranked unsure.vocab 2 step := by decide +kernel
  refine ⟨⟨hnum, hbest, hfirst, hsecond⟩, ⟨_, ofTargets_unsure 1, ?_, ?_⟩,
    ⟨_, hbound, ofTargets_unsure 2, ?_, haccuracy hclear⟩⟩ <;> decide +kernel

end

end OrderDecoding
