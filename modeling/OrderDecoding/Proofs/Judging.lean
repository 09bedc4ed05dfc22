/-
# `Proofs.Judging` — which targets can be judged, and what hits grow to

An evaluation goes over its targets twice.  First they are replayed: the
scorer is asked for all rows, and whatever is wrong with one of these is told
before any target has been looked at.  Only then are the targets encoded, in
their order, and the first that cannot be is told (`ofRows_eq_error_iff`).
So a target that is no order at all still goes to the scorer as history, and
a refusal at the last step comes before it.

What is told of a target beside this is whether it was HIT: whether its entry
is among the best `k` of its row.  The best `k` are the first `k` of one
ranking of the row, whatever `k` is, so the steps that are hit
(`hitSteps`) only get more as `k` grows.  This takes nothing of the row: with
ties, and with every entry at `-∞`, there is still a ranking.
-/
import OrderDecoding.Proofs.Asking
import OrderDecoding.Proofs.Encoding
import OrderDecoding.Proofs.Hits
import OrderDecoding.Proofs.Refusals

namespace OrderDecoding

open Score

variable {α : Type}

/-! ## Encoding -/

namespace Vocabulary

theorem encode_some_eq_error_iff {v : Vocabulary} {o : Order} {cause : VocabError} :
    v.encode (some o) = .error cause ↔ v.hotEntries o = .error cause := by
  unfold encode
  rw [bind_eq_error_iff, or_iff_left]
  rintro ⟨_, _, h⟩
  cases h

theorem exists_hotEntries_iff {v : Vocabulary} {o : Order} :
    (∃ marks, v.hotEntries o = .ok marks) ↔ ∃ x, v.encode (some o) = .ok x := by
  simp only [hotEntries_eq_ok_iff, encode_some_eq_ok_iff, exists_and_left, exists_eq, and_true]

end Vocabulary

namespace Evaluation

variable [Score α]

/-! ## Going over the targets -/

section

variable {v : Vocabulary} {k : Nat} {e : Evaluation α} {judged : List (List α × Order)}

/-- The rows do not matter for whether targets can be judged. -/
theorem exists_ofRows_iff : (∃ e', ofRows v k e judged = .ok e') ↔
    ∀ target ∈ judged.map (·.2), ∃ x, v.encode (some target) = .ok x := by
  induction judged generalizing e with
  | nil => exact ⟨fun _ target h => absurd h List.not_mem_nil, fun _ => ⟨e, rfl⟩⟩
  | cons step rest ih =>
    obtain ⟨row, target⟩ := step
    rw [ofRows, List.map_cons, List.forall_mem_cons, ← Vocabulary.exists_hotEntries_iff]
    cases v.hotEntries target with
    | error cause =>
      constructor
      · rintro ⟨_, h⟩
        cases h
      · rintro ⟨⟨_, h⟩, -⟩
        cases h
    | ok marks => exact ih.trans (and_iff_right ⟨marks, rfl⟩).symm

/-- The first target that cannot be encoded is told. -/
theorem ofRows_eq_error_iff {err : DecodeError} : ofRows v k e judged = .error err ↔
    ∃ cause, ((judged.map (·.2)).mapM fun target => v.encode (some target)) = .error cause ∧
      err = .vocabulary cause := by
  induction judged generalizing e with
  | nil =>
    constructor
    · intro h
      cases h
    · rintro ⟨_, h, -⟩
      cases h
  | cons step rest ih =>
    obtain ⟨row, target⟩ := step
    rw [ofRows, List.map_cons, List.mapM_cons]
    cases hmarks : v.hotEntries target with
    | error cause =>
      rw [Vocabulary.encode_some_eq_error_iff.mpr hmarks]
      constructor
      · intro h
        cases h
        exact ⟨cause, rfl, rfl⟩
      · rintro ⟨_, h, rfl⟩
        cases h
        rfl
    | ok marks =>
      obtain ⟨x, hx⟩ := Vocabulary.exists_hotEntries_iff.mp ⟨marks, hmarks⟩
      refine ih.trans (exists_congr fun cause => and_congr_left' ?_)
      rw [hx, bind_eq_error_iff]
      constructor
      · intro h
        exact Or.inr ⟨x, rfl, bind_eq_error_iff.mpr (Or.inl h)⟩
      · rintro (h | ⟨_, _, h⟩)
        · cases h
        · rcases bind_eq_error_iff.mp h with h | ⟨_, _, h⟩
          · exact h
          · cases h

end

/-! ## Hits -/

/-- The steps with the target's entry among the best `k`. -/
def hitSteps (v : Vocabulary) (k : Nat) (judged : List (List α × Order)) : List Nat :=
  (judged.zipIdx.filter fun step => IsTopKHit v k step.1).map (·.2)

section

variable {v : Vocabulary} {judged : List (List α × Order)}

theorem length_hitSteps {k : Nat} :
    (hitSteps v k judged).length = judged.countP (IsTopKHit v k ·) := by
  rw [hitSteps, List.length_map, ← List.countP_eq_length_filter]
  conv_rhs => rw [← List.zipIdx_map_fst 0 judged, List.countP_map]
  rfl

variable [LawfulScore α]

theorem IsTopKHit.mono {k k' : Nat} {step : List α × Order} (hle : k ≤ k')
    (h : IsTopKHit v k step) : IsTopKHit v k' step := by
  obtain ⟨x, hx, hbest⟩ := Row.mem_topK.mp h
  rw [Row.best_eq_take] at hbest
  refine Row.mem_topK.mpr ⟨x, hx, ?_⟩
  rw [Row.best_eq_take]
  exact (List.take_sublist_take_left hle).subset hbest

theorem not_isTopKHit_zero (step : List α × Order) : ¬ IsTopKHit v 0 step := by
  intro h
  obtain ⟨x, -, hbest⟩ := Row.mem_topK.mp h
  rw [Row.best_eq_take, List.take_zero] at hbest
  exact List.not_mem_nil hbest

/-- Among as many as there are entries is every entry, and the kind of an
order is an entry. -/
theorem isTopKHit_of_size_le {k : Nat} {step : List α × Order} (hrow : step.1.length = v.size)
    (hk : v.size ≤ k) : IsTopKHit v k step := by
  have hindex : v.targetIndex step.2 < step.1.length := by
    rw [hrow]
    exact Nat.lt_of_lt_of_le step.2.kind.index_lt (Nat.le_add_right _ _)
  have hx := List.getElem?_eq_getElem hindex
  refine Row.mem_topK.mpr ⟨_, hx, ?_⟩
  have hlength : (Row.ranking step.1).length ≤ k := by
    rwa [(Row.perm_ranking step.1).length_eq, List.length_zipIdx, hrow]
  rw [Row.best_eq_take, List.take_of_length_le hlength]
  exact Row.mem_ranking.mpr hx

/-- The more count as best, the more steps are hit. -/
theorem hitSteps_sublist {k k' : Nat} (hle : k ≤ k') :
    (hitSteps v k judged).Sublist (hitSteps v k' judged) := by
  refine List.Sublist.map _ (List.monotone_filter_right _ fun step hstep => ?_)
  exact decide_eq_true (IsTopKHit.mono hle (of_decide_eq_true hstep))

theorem hitSteps_zero : hitSteps v 0 judged = [] := by
  rw [hitSteps, List.map_eq_nil_iff, List.filter_eq_nil_iff]
  intro step _ hstep
  exact not_isTopKHit_zero step.1 (of_decide_eq_true hstep)

theorem hitSteps_of_size_le {k : Nat} (hrows : ∀ step ∈ judged, step.1.length = v.size)
    (hk : v.size ≤ k) : hitSteps v k judged = List.range judged.length := by
  have hall : judged.zipIdx.filter (fun step => IsTopKHit v k step.1) = judged.zipIdx := by
    refine List.filter_eq_self.mpr fun step hstep => decide_eq_true ?_
    have hmem : step.1 ∈ judged := List.mem_of_getElem? (List.mem_zipIdx_iff_getElem?.mp hstep)
    exact isTopKHit_of_size_le (hrows step.1 hmem) hk
  rw [hitSteps, hall, List.zipIdx_map_snd, List.range_eq_range']

end

/-! ## Evaluations -/

section

variable {p : Position α} {targets : List Order} {rows : List (List α)} {k : Nat}

theorem map_snd_zip_of_replays (h : p.Replays targets rows) :
    (rows.zip targets).map (·.2) = targets :=
  List.map_snd_zip (Nat.le_of_eq h.length.symm)

theorem exists_ofTargets_iff : (∃ e, ofTargets p targets k = .ok e) ↔
    targets.length ≤ p.numSteps ∧
      (∀ i < targets.length, ∃ row, p.Answers i (targets.take i) row) ∧
      ∀ target ∈ targets, ∃ x, p.vocab.encode (some target) = .ok x := by
  unfold ofTargets
  constructor
  · rintro ⟨e, h⟩
    obtain ⟨rows, hreplay, h⟩ := bind_eq_ok_iff.mp h
    obtain ⟨hlength, hrows⟩ := Position.replay_eq_ok_iff.mp hreplay
    have hencoded := exists_ofRows_iff.mp ⟨e, h⟩
    rw [map_snd_zip_of_replays hrows] at hencoded
    exact ⟨hlength, Position.exists_replays_iff.mp ⟨rows, hrows⟩, hencoded⟩
  · rintro ⟨hlength, hanswers, hencoded⟩
    obtain ⟨rows, hrows⟩ := Position.exists_replays_iff.mpr hanswers
    rw [← map_snd_zip_of_replays hrows] at hencoded
    obtain ⟨e, he⟩ := exists_ofRows_iff.mpr hencoded
    exact ⟨e, bind_eq_ok_iff.mpr ⟨rows, Position.replay_eq_ok_iff.mpr ⟨hlength, hrows⟩, he⟩⟩

/-- What goes wrong with a replay comes before what goes wrong with a
target. -/
theorem ofTargets_eq_error_iff {err : DecodeError} : ofTargets p targets k = .error err ↔
    p.replay targets = .error err ∨ (∃ rows, p.replay targets = .ok rows) ∧
      ∃ cause, (targets.mapM fun target => p.vocab.encode (some target)) = .error cause ∧
        err = .vocabulary cause := by
  unfold ofTargets
  rw [bind_eq_error_iff, ← exists_and_right]
  refine or_congr_right (exists_congr fun rows => and_congr_right fun hreplay => ?_)
  rw [ofRows_eq_error_iff, map_snd_zip_of_replays (Position.replay_eq_ok_iff.mp hreplay).2]

variable [LawfulScore α]

/-- What evaluating targets comes to.  They are judged exactly if they are no
more than the units, every step of their replay is answered, and each can be
encoded.  Otherwise they are too many; or the replay stops at a step, wherever
that is; or every step was answered, and the first target that cannot be
encoded is told.  The steps of what is judged are the targets, and its hits
are steps that only get more with `k`: there are none for zero, and from the
number of entries on there are all. -/
theorem ofTargets_outcomes (p : Position α) (targets : List Order) :
    (∀ k, (∃ e, ofTargets p targets k = .ok e) ↔
      targets.length ≤ p.numSteps ∧
        (∀ i < targets.length, ∃ row, p.Answers i (targets.take i) row) ∧
        ∀ target ∈ targets, ∃ x, p.vocab.encode (some target) = .ok x) ∧
    (∀ k err, ofTargets p targets k = .error err ↔
      (p.numSteps < targets.length ∧
          err = .argument (.tooManyOrders targets.length p.numSteps)) ∨
        (targets.length ≤ p.numSteps ∧ p.Stops targets err) ∨
        (targets.length ≤ p.numSteps ∧
          (∀ i < targets.length, ∃ row, p.Answers i (targets.take i) row) ∧
          ∃ (i : Nat) (target : Order) (cause : VocabError), targets[i]? = some target ∧
            p.vocab.encode (some target) = .error cause ∧ err = .vocabulary cause ∧
            ∀ (j : Nat) (earlier : Order), j < i → targets[j]? = some earlier →
              ∃ x, p.vocab.encode (some earlier) = .ok x)) ∧
    ∀ rows, p.replay targets = .ok rows →
      (∀ k e, ofTargets p targets k = .ok e →
        e.steps = targets.length ∧
          e.topKHits = (hitSteps p.vocab k (rows.zip targets)).length) ∧
      (∀ k k', k ≤ k' → (hitSteps p.vocab k (rows.zip targets)).Sublist
        (hitSteps p.vocab k' (rows.zip targets))) ∧
      hitSteps p.vocab 0 (rows.zip targets) = [] ∧
      ∀ k, p.vocab.size ≤ k →
        hitSteps p.vocab k (rows.zip targets) = List.range targets.length := by
  refine ⟨fun k => exists_ofTargets_iff, fun k err => ?failed, fun rows hreplay => ?judged⟩
  case failed =>
    simp only [ofTargets_eq_error_iff, Position.replay_eq_error_iff, Position.replay_eq_ok_iff,
      exists_and_left, Position.exists_replays_iff, mapM_eq_error_iff, or_assoc, and_assoc]
    refine or_congr_right (or_congr_right (and_congr_right fun _ => and_congr_right fun _ => ?_))
    constructor
    · rintro ⟨cause, ⟨i, target, htarget, hcause, hbefore⟩, herr⟩
      exact ⟨i, target, htarget, cause, hcause, herr, hbefore⟩
    · rintro ⟨i, target, htarget, cause, hcause, herr, hbefore⟩
      exact ⟨cause, ⟨i, target, htarget, hcause, hbefore⟩, herr⟩
  case judged =>
    have hlength : (rows.zip targets).length = targets.length := by
      rw [List.length_zip, Position.length_of_replay hreplay, Nat.min_self]
    have hsize : ∀ step ∈ rows.zip targets, step.1.length = p.vocab.size := fun step hstep => by
      obtain ⟨i, hi⟩ := List.mem_iff_getElem?.mp (List.of_mem_zip hstep).1
      exact ((Position.replay_eq_ok_iff.mp hreplay).2.answers i _ hi).length
    refine ⟨fun k e he => ?_, fun k k' hle => hitSteps_sublist hle, hitSteps_zero, fun k hk => ?_⟩
    · obtain ⟨rows', hreplay', -, hcounts⟩ := counts_ofTargets he
      obtain rfl : rows = rows' := Except.ok.inj (hreplay.symm.trans hreplay')
      rw [hcounts.steps, hcounts.topKHits, length_hitSteps, hlength]
      exact ⟨Nat.zero_add _, Nat.zero_add _⟩
    · rw [hitSteps_of_size_le hsize hk, hlength]

/-- What the scorer that is shy of the second unit says of a move and a hold. -/
theorem replay_reticent : Position.reticent.replay [.move 0 1, .hold 1] =
    .ok [Stark.row 11 [(0, -1), (10, 0)], Stark.row 11 [(0, 0), (9, -2)]] := by
  decide +kernel

/-- The hold is hit by the best entry alone and the move by the best three.  A
hold that names an area is told if all steps are answered, and not if the step
after it is refused. -/
theorem reticent_judged :
    (∃ e, ofTargets Position.reticent [.move 0 1, .hold 1] 1 = .ok e ∧
      e.steps = 2 ∧ e.topKHits = 1) ∧
    (∃ rows, Position.reticent.replay [.move 0 1, .hold 1] = .ok rows ∧
      hitSteps Position.reticent.vocab 2 (rows.zip [.move 0 1, .hold 1]) = [1] ∧
      hitSteps Position.reticent.vocab 3 (rows.zip [.move 0 1, .hold 1]) = [0, 1] ∧
      hitSteps Position.reticent.vocab 11 (rows.zip [.move 0 1, .hold 1]) = [0, 1]) ∧
    Position.reticent.Stops [⟨.hold, 0, some 1⟩, .hold 1] (.scorer (.missingStep 1)) ∧
    ofTargets Position.reticent [.move 0 1, ⟨.hold, 1, some 0⟩] 1 =
      .error (.vocabulary (.unexpectedDestination .hold)) := by
  obtain ⟨hok, -, hjudged⟩ := ofTargets_outcomes Position.reticent [.move 0 1, .hold 1]
  obtain ⟨hcounts, -, -, hall⟩ := hjudged _ replay_reticent
  obtain ⟨-, hfailed, -⟩ := ofTargets_outcomes Position.reticent [⟨.hold, 0, some 1⟩, .hold 1]
  have hreplays := (Position.replay_eq_ok_iff.mp replay_reticent).2
  obtain ⟨e, he⟩ := (hok 1).mpr ⟨by decide, Position.exists_replays_iff.mp ⟨_, hreplays⟩, by
    simp only [Vocabulary.exists_encode_iff]
    decide⟩
  have hshy : ofTargets Position.reticent [⟨.hold, 0, some 1⟩, .hold 1] 1 =
      .error (.scorer (.missingStep 1)) := by rfl
  refine ⟨⟨e, he, (hcounts 1 e he).1, (hcounts 1 e he).2.trans ?_⟩,
    ⟨_, replay_reticent, ?_, ?_, hall 11 (by decide)⟩, ?_, ?_⟩
  · decide +kernel
  · decide +kernel
  · decide +kernel
  · rcases (hfailed 1 _).mp hshy with ⟨-, h⟩ | ⟨-, hstops⟩ | ⟨-, -, _, _, _, -, -, h, -⟩
    · cases h
    · exact hstops
    · cases h
  · rfl

end

end Evaluation

end OrderDecoding
