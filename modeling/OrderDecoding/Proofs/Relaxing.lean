/-
# `Proofs.Relaxing` — giving up the constraint before and after normalization

A pass of greedy decoding and a sample put the constraint over the scores
as they are; a beam search puts it over their log-probabilities.  Whether a
row is relaxed is a matter of which entries are masked and of nothing else
(`relaxed_iff`), and log-softmax keeps a masked entry masked.  What it need
not keep is an entry that is NOT masked: taking the normalizer off can take
a score below the least float, and then the entry is LOST.

So the beam search relaxes wherever the others do, and besides on the rows
that are SWAMPED: nothing but claimed destinations and masked and lost
entries, with one lost entry at least (`relaxed_logSoftmax_iff`).  On such
a row it claims an area again although the scores had another entry to
offer.
-/
import OrderDecoding.Proofs.Uniqueness

namespace OrderDecoding

open Score LawfulScore

variable {α : Type} [Score α]

/-! ## Which rows are relaxed -/

namespace Constraint

variable {c : Constraint} {s : Sequence} {row : List α}

variable [LawfulScore α]

/-- A mask leaves nothing exactly if all that it does not cover is
masked already. -/
theorem hasMass_mask_eq_false_iff (hvalid : Row.Valid row) :
    Row.hasMass (c.mask s row) = false ↔
      ∀ (i : Nat) (x : α), row[i]? = some x → i ∉ c.targets s row.length → x = negInf := by
  rw [hasMass_mask_iff]
  exact forall₄_congr fun i x hx _ => not_negInf_lt_iff (hvalid.numbers.get hx)

/-- A row is relaxed exactly if something of it is claimed and all the rest
is masked. -/
theorem relaxed_iff (hvalid : Row.Valid row) : (c.constrain s row).relaxed = true ↔
    c.targets s row.length ≠ [] ∧
      ∀ (i : Nat) (x : α), row[i]? = some x → i ∉ c.targets s row.length → x = negInf := by
  rw [relaxed_eq_true_iff, hasMass_mask_eq_false_iff hvalid]

end Constraint

/-! ## What log-softmax loses -/

namespace Row

variable {raw : List α}

/-- An entry that can be chosen, but not by its log-probability. -/
def Lost (raw : List α) (i : Nat) : Prop :=
  (∃ x, raw[i]? = some x ∧ negInf < x) ∧ (logSoftmax raw)[i]? = some negInf

/-- An entry and its log-probability stand in the same place. -/
theorem exists_getElem?_logSoftmax {i : Nat} {x : α} (hx : raw[i]? = some x) :
    ∃ y, (logSoftmax raw)[i]? = some y :=
  exists_getElem? (length_logSoftmax raw).symm hx

variable [LawfulScore α]

/-- A log-probability is masked because the entry is, or because it is
lost. -/
theorem logSoftmax_masked_iff (hvalid : Valid raw) {i : Nat} {x y : α} (hx : raw[i]? = some x)
    (hy : (logSoftmax raw)[i]? = some y) : y = negInf ↔ x = negInf ∨ Lost raw i := by
  constructor
  · rintro rfl
    by_cases hmasked : x ≤ negInf
    · exact Or.inl (eq_negInf hmasked)
    · have hopen := negInf_lt (self_le_of_lt_posInf (hvalid.get hx)) hmasked
      exact Or.inr ⟨⟨x, hx, hopen⟩, hy⟩
  · rintro (rfl | ⟨-, hlost⟩)
    · exact Option.some.inj (hy.symm.trans (logSoftmax_of_masked hvalid hx))
    · exact Option.some.inj (hy.symm.trans hlost)

end Row

/-- Something of the row is claimed, the rest is masked or lost, and some
of it is lost. -/
structure Constraint.Swamped (c : Constraint) (s : Sequence) (raw : List α) : Prop where
  claimed : c.targets s raw.length ≠ []
  rest : ∀ (i : Nat) (x : α), raw[i]? = some x → i ∉ c.targets s raw.length →
    x = negInf ∨ Row.Lost raw i
  lost : ∃ i, i ∉ c.targets s raw.length ∧ Row.Lost raw i

variable [LawfulScore α]

namespace Constraint

variable {c : Constraint} {s : Sequence} {raw : List α}

/-- Log-probabilities are relaxed exactly if something is claimed and all
the rest is masked or lost. -/
theorem relaxed_logSoftmax (hvalid : Row.Valid raw) :
    (c.constrain s (Row.logSoftmax raw)).relaxed = true ↔
      c.targets s raw.length ≠ [] ∧ ∀ (i : Nat) (x : α), raw[i]? = some x →
        i ∉ c.targets s raw.length → x = negInf ∨ Row.Lost raw i := by
  rw [relaxed_iff (Row.valid_logSoftmax hvalid), Row.length_logSoftmax]
  refine and_congr_right fun _ => ⟨fun h i x hx hi => ?_, fun h i y hy hi => ?_⟩
  · obtain ⟨y, hy⟩ := Row.exists_getElem?_logSoftmax hx
    exact (Row.logSoftmax_masked_iff hvalid hx hy).mp (h i y hy hi)
  · obtain ⟨x, hx⟩ := exists_getElem? (Row.length_logSoftmax raw) hy
    exact (Row.logSoftmax_masked_iff hvalid hx hy).mpr (h i x hx hi)

/-- On the rows that are swamped the scores themselves are not relaxed. -/
theorem Swamped.not_relaxed (hvalid : Row.Valid raw) (h : c.Swamped s raw) :
    (c.constrain s raw).relaxed = false := by
  rw [← Bool.not_eq_true, relaxed_iff hvalid]
  rintro ⟨-, hmasked⟩
  obtain ⟨i, hi, ⟨x, hx, hopen⟩, -⟩ := h.lost
  rw [hmasked i x hx hi] at hopen
  exact lt_irrefl hopen

/-- Log-probabilities are relaxed where the scores are, and where they are
swamped. -/
theorem relaxed_logSoftmax_iff (hvalid : Row.Valid raw) :
    (c.constrain s (Row.logSoftmax raw)).relaxed = true ↔
      (c.constrain s raw).relaxed = true ∨ c.Swamped s raw := by
  rw [relaxed_logSoftmax hvalid, relaxed_iff hvalid]
  constructor
  · rintro ⟨hclaimed, hrest⟩
    by_cases hlost : ∃ i, i ∉ c.targets s raw.length ∧ Row.Lost raw i
    · exact Or.inr ⟨hclaimed, hrest, hlost⟩
    · refine Or.inl ⟨hclaimed, fun i x hx hi => ?_⟩
      exact (hrest i x hx hi).resolve_right fun h => hlost ⟨i, hi, h⟩
  · rintro (⟨hclaimed, hmasked⟩ | hswamped)
    · exact ⟨hclaimed, fun i x hx hi => Or.inl (hmasked i x hx hi)⟩
    · exact ⟨hswamped.claimed, hswamped.rest⟩

end Constraint

/-! ## Whole sequences -/

/-- The scores seen at step `i` are masked or lost wherever they are
unclaimed. -/
def ForcedOrLost (p : Position α) (choices : List Choice) (i : Nat) : Prop :=
  ∃ raw, p.scores (Sequence.ofChoices (choices.take i)) = .ok raw ∧
    ∀ (index : Nat) (x : α), raw[index]? = some x →
      Unclaimed p.vocab (choices.take i) index → x = negInf ∨ Row.Lost raw index

theorem Forced.forcedOrLost {p : Position α} {choices : List Choice} {i : Nat}
    (h : Forced p Row.logSoftmax choices i) : ForcedOrLost p choices i := by
  obtain ⟨raw, hraw, hforced⟩ := h
  refine ⟨raw, hraw, fun index x hx hunclaimed => ?_⟩
  obtain ⟨y, hy⟩ := Row.exists_getElem?_logSoftmax hx
  exact (Row.logSoftmax_masked_iff (Position.valid_of_scores hraw) hx hy).mp
    (hforced index y hy hunclaimed)

/-- The constraint over log-probabilities is given up where that over the
scores is, and on swamped rows besides.  So where a greedy or sampled
sequence claims an area again, every unclaimed score of the step is
masked; where a beam does, it is masked or lost. -/
theorem relaxed_alike_unless_swamped (p : Position α) :
    (∀ (c : Constraint) (s : Sequence) (raw : List α), Row.Valid raw →
      ((c.constrain s (Row.logSoftmax raw)).relaxed = true ↔
        (c.constrain s raw).relaxed = true ∨ c.Swamped s raw) ∧
      (c.Swamped s raw → (c.constrain s raw).relaxed = false)) ∧
    (∀ temperature candidate, Greedy.decode p temperature true = .ok candidate →
      ∀ i, ClaimsAgain candidate.choices i → Forced p id candidate.choices i) ∧
    (∀ params candidates, params.constrained = true → Sample.run p params = .ok candidates →
      ∀ candidate ∈ candidates, ∀ i, ClaimsAgain candidate.choices i →
        Forced p id candidate.choices i) ∧
    (∀ width found, Beam.search p width true = .ok found →
      ∀ candidate ∈ found.best :: found.candidates,
        ∀ i, ClaimsAgain candidate.choices i → ForcedOrLost p candidate.choices i) := by
  refine ⟨fun c s raw hvalid => ?_, ?_, ?_, ?_⟩
  · exact ⟨Constraint.relaxed_logSoftmax_iff hvalid, Constraint.Swamped.not_relaxed hvalid⟩
  · intro temperature candidate hdecode
    obtain ⟨path, hpath, rfl⟩ := Greedy.exists_path hdecode
    exact (hpath.reached.unrepeated rowView_id).forced
  · intro params candidates hconstrained hrun candidate hmem
    exact (Sample.unrepeated_of_run hconstrained hrun hmem).1.forced
  · intro width found hfound candidate hmem i hagain
    exact ((Beam.unrepeated_of_search hfound hmem).1.forced i hagain).forcedOrLost

/-- The second unit could stay where it is, but at a score so far below the
best that its log-probability is lost. -/
def outshoneRow : List Stark := Stark.row 11 [(10, 1e308), (0, -1e308)]

/-- Two units that would both go to one area. -/
def outshone : Position Stark := Stark.position 2 [Stark.row 11 [(10, 0)], outshoneRow]

/-- The second unit stays if the scores are asked, and follows the first if
the log-probabilities are: only these are relaxed. -/
theorem outshone_relaxed :
    (Row.Valid outshoneRow ∧
      (outshone.constraint true).Swamped (Sequence.ofChoices [⟨10, .move 0 1⟩]) outshoneRow ∧
      ((outshone.constraint true).constrain (Sequence.ofChoices [⟨10, .move 0 1⟩])
        outshoneRow).relaxed = false) ∧
    (Beam.search outshone 1 true = .ok ⟨crowdedCandidate .beam, [crowdedCandidate .beam]⟩ ∧
      ForcedOrLost outshone (crowdedCandidate .beam).choices 1 ∧
      Greedy.decode outshone 1 true =
        .ok { choices := [⟨10, .move 0 1⟩, ⟨0, .hold 1⟩], score := negInf, origin := .greedy }) ∧
    (Greedy.decode crowded 1 true = .ok (crowdedCandidate .greedy) ∧
      Forced crowded id (crowdedCandidate .greedy).choices 1) ∧
    Sample.run crowded crowdedSamples = .ok (List.replicate 2 (crowdedCandidate .sample)) ∧
      Forced crowded id (crowdedCandidate .sample).choices 1 := by
  have hagain (origin : Origin) : ClaimsAgain (crowdedCandidate origin).choices 1 :=
    ⟨⟨10, .move 1 1⟩, 1, rfl, rfl, List.mem_singleton_self 1⟩
  have hvalid : Row.Valid outshoneRow := by
    unfold Row.Valid
    decide +kernel
  have hgreedy : Greedy.decode crowded 1 true = .ok (crowdedCandidate .greedy) := by
    decide +kernel
  have hsample : Sample.run crowded crowdedSamples
      = .ok (List.replicate 2 (crowdedCandidate .sample)) := by
    decide +kernel
  have hbeam : Beam.search outshone 1 true =
      .ok ⟨crowdedCandidate .beam, [crowdedCandidate .beam]⟩ := by
    decide +kernel
  obtain ⟨relaxed, -, -, beam⟩ := relaxed_alike_unless_swamped outshone
  obtain ⟨-, greedy, sample, -⟩ := relaxed_alike_unless_swamped crowded
  obtain ⟨hrelaxed, hstays⟩ := relaxed (outshone.constraint true)
    (Sequence.ofChoices [⟨10, .move 0 1⟩]) outshoneRow hvalid
  have hkept : ((outshone.constraint true).constrain (Sequence.ofChoices [⟨10, .move 0 1⟩])
      outshoneRow).relaxed = false := by decide +kernel
  have hswamped : (outshone.constraint true).Swamped (Sequence.ofChoices [⟨10, .move 0 1⟩])
      outshoneRow := by
    refine (hrelaxed.mp (by decide +kernel)).resolve_left ?_
    rw [hkept]
    decide
  exact ⟨⟨hvalid, hswamped, hstays hswamped⟩,
    ⟨hbeam, beam _ _ hbeam _ List.mem_cons_self 1 (hagain _), by decide +kernel⟩,
    ⟨hgreedy, greedy _ _ hgreedy 1 (hagain _)⟩, hsample,
    sample _ _ rfl hsample _ List.mem_cons_self 1 (hagain _)⟩

end OrderDecoding
