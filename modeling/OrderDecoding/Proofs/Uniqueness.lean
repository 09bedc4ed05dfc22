/-
# `Proofs.Uniqueness` — an area is claimed twice only where nothing else is left

The constraint is given up for a row that it would leave without an entry,
so two claims of one area cannot be ruled out altogether.  What can be said
is that this is the ONLY way in which it happens: where a candidate claims
an area again, the row of that step had nothing but claimed destinations to
offer (`Unrepeated.forced`).  A candidate none of whose rows was like that
claims no area twice (`Unrepeated.nodup`).

The reason is the same for all strategies.  A sequence that is reached
knows its own claims, an entry that claims an area is the destination entry
of it, and a claimed destination is masked unless the row was relaxed.
-/
import OrderDecoding.Proofs.Pooling
import OrderDecoding.Proofs.Reached
import OrderDecoding.Proofs.Stark

namespace OrderDecoding

open Score LawfulScore

/-! ## Repeated claims -/

/-- Step `i` claims an area that a step before it has claimed. -/
def ClaimsAgain (choices : List Choice) (i : Nat) : Prop :=
  ∃ choice area, choices[i]? = some choice ∧ choice.order.claim? = some area ∧
    area ∈ claims (choices.take i)

theorem ClaimsAgain.lt {choices : List Choice} {i : Nat} (h : ClaimsAgain choices i) :
    i < choices.length := by
  obtain ⟨choice, -, hchoice, -⟩ := h
  exact (List.getElem?_eq_some_iff.mp hchoice).1

theorem ClaimsAgain.append {choices : List Choice} {i : Nat} (h : ClaimsAgain choices i)
    (more : List Choice) : ClaimsAgain (choices ++ more) i := by
  have hi := h.lt
  obtain ⟨choice, area, hchoice, hclaim, hmem⟩ := h
  refine ⟨choice, area, ?_, hclaim, ?_⟩
  · rw [List.getElem?_append_left hi, hchoice]
  · rwa [List.take_append_of_le_length (Nat.le_of_lt hi)]

/-- Without a repeated claim no area stands twice among the claims. -/
theorem nodup_claims {choices : List Choice} (h : ∀ i, ¬ ClaimsAgain choices i) :
    (claims choices).Nodup := by
  induction choices using List.reverseRecOn with
  | nil => exact List.nodup_nil
  | append_singleton choices c ih =>
    rw [claims_concat]
    have hearlier := ih fun i hi => h i (hi.append [c])
    cases hclaim : c.order.claim? with
    | none => simpa using hearlier
    | some area =>
      refine List.nodup_append.mpr ⟨hearlier, List.nodup_singleton area, fun a ha b hb hab => ?_⟩
      obtain rfl : b = area := List.mem_singleton.mp hb
      refine h choices.length ⟨c, b, ?_, hclaim, ?_⟩
      · simp
      · rwa [List.take_left, ← hab]

/-- The entry is not the destination of an area that the choices claim. -/
def Unclaimed (v : Vocabulary) (choices : List Choice) (index : Nat) : Prop :=
  ∀ area ∈ claims choices, v.slot? index ≠ some (.destination area)

/-- An unclaimed entry of the vocabulary is not masked. -/
theorem not_mem_targets {v : Vocabulary} {s : Sequence} {index : Nat}
    (hs : s = Sequence.ofChoices s.choices) (h : Unclaimed v s.choices index) :
    index ∉ Constraint.targets { vocab := v, enabled := true } s v.size := by
  intro htarget
  obtain ⟨-, hlt, area, harea, rfl⟩ := Constraint.mem_targets.mp htarget
  rw [hs, Sequence.mem_claimed_ofChoices] at harea
  exact h area harea (Vocabulary.slot?_eq_destination_iff.mpr
    ⟨rfl, Vocabulary.destinationIndex_lt_size.mp hlt⟩)

variable {α : Type} [Score α]

/-! ## Rows that leave nothing else -/

/-- The row seen at step `i` is masked wherever it is unclaimed. -/
def Forced (p : Position α) (view : List α → List α) (choices : List Choice) (i : Nat) : Prop :=
  ∃ raw, p.scores (Sequence.ofChoices (choices.take i)) = .ok raw ∧
    ∀ (index : Nat) (x : α), (view raw)[index]? = some x →
      Unclaimed p.vocab (choices.take i) index → x = negInf

/-- The row seen at step `i` has an unclaimed entry to choose. -/
def Free (p : Position α) (view : List α → List α) (choices : List Choice) (i : Nat) : Prop :=
  ∃ raw, p.scores (Sequence.ofChoices (choices.take i)) = .ok raw ∧
    ∃ (index : Nat) (x : α), (view raw)[index]? = some x ∧
      Unclaimed p.vocab (choices.take i) index ∧ x ≠ negInf

theorem Free.not_forced {p : Position α} {view : List α → List α} {choices : List Choice} {i : Nat}
    (h : Free p view choices i) : ¬ Forced p view choices i := by
  obtain ⟨raw, hraw, index, x, hx, hunclaimed, hne⟩ := h
  rintro ⟨raw', hraw', hforced⟩
  obtain rfl : raw = raw' := Except.ok.inj (hraw.symm.trans hraw')
  exact hne (hforced index x hx hunclaimed)

/-- Areas are claimed again only where the row left nothing else. -/
structure Unrepeated (p : Position α) (view : List α → List α) (choices : List Choice) : Prop where
  forced : ∀ i, ClaimsAgain choices i → Forced p view choices i
  nodup : (∀ i < choices.length, Free p view choices i) → (claims choices).Nodup

theorem unrepeated_of_forced {p : Position α} {view : List α → List α} {choices : List Choice}
    (h : ∀ i, ClaimsAgain choices i → Forced p view choices i) : Unrepeated p view choices where
  forced := h
  nodup hfree := nodup_claims fun i hagain => (hfree i hagain.lt).not_forced (h i hagain)

/-! ## What is reached under the constraint -/

/-- A way of looking at rows that keeps them rows. -/
structure RowView (view : List α → List α) : Prop where
  length : ∀ row, (view row).length = row.length
  valid : ∀ {row}, Row.Valid row → Row.Valid (view row)

theorem rowView_id : RowView (id : List α → List α) := ⟨fun _ => rfl, fun h => h⟩

variable [LawfulScore α]

theorem rowView_logSoftmax : RowView (Row.logSoftmax : List α → List α) :=
  ⟨Row.length_logSoftmax, Row.valid_logSoftmax⟩

/-- The step that matters: a choice that claims a claimed area was
forced. -/
theorem eq_negInf_of_claimed {p : Position α} {view : List α → List α} (hview : RowView view)
    {s : Sequence} (hs : s = Sequence.ofChoices s.choices) {raw : List α} {index : Nat} {x : α}
    {choice : Choice} {area : Area} (hraw : p.scores s = .ok raw)
    (hx : ((p.constraint true).constrain s (view raw)).row[index]? = some x)
    (hopen : ¬ x ≤ negInf) (hchoose : p.choose s.length index = .ok choice)
    (hclaim : choice.order.claim? = some area) (harea : area ∈ claims s.choices)
    {j : Nat} {y : α} (hy : (view raw)[j]? = some y) (hj : Unclaimed p.vocab s.choices j) :
    y = negInf := by
  have hlength : (view raw).length = p.vocab.size := by
    rw [hview.length, Position.length_of_scores hraw]
  obtain ⟨hslot, -⟩ := Position.slot?_of_choose hchoose hclaim
  obtain ⟨rfl, hlt⟩ := Vocabulary.slot?_eq_destination_iff.mp hslot
  have htarget :
      p.vocab.destinationIndex area ∈ (p.constraint true).targets s (view raw).length := by
    refine Constraint.mem_targets.mpr ⟨rfl, ?_, area, ?_, rfl⟩
    · rw [hlength]
      exact Vocabulary.destinationIndex_lt_size.mpr hlt
    · rw [hs]
      exact Sequence.mem_claimed_ofChoices.mpr harea
  refine Constraint.eq_negInf_of_target (hview.valid (Position.valid_of_scores hraw)) hx hopen
    htarget hy ?_
  rw [hlength]
  exact not_mem_targets hs hj

/-- What is reached under the constraint claims again only where forced. -/
theorem Reached.unrepeated {p : Position α} {view : List α → List α} (hview : RowView view)
    {s : Sequence} (h : Reached p (p.constraint true) view s) : Unrepeated p view s.choices := by
  refine unrepeated_of_forced ?_
  induction h with
  | start =>
    rintro i ⟨choice, -, hchoice, -⟩
    cases hchoice
  | @push s raw index x choice hreached hraw hx hopen hchoose ih =>
    have hs := hreached.eq_ofChoices
    rintro i ⟨again, area, hagain, hclaim, harea⟩
    rw [Sequence.choices_push] at hagain harea
    rcases Nat.lt_trichotomy i s.choices.length with hlt | rfl | hgt
    · have htake : (s.choices ++ [choice]).take i = s.choices.take i :=
        List.take_append_of_le_length (Nat.le_of_lt hlt)
      rw [List.getElem?_append_left hlt] at hagain
      rw [htake] at harea
      obtain ⟨raw', hraw', hforced⟩ := ih i ⟨again, area, hagain, hclaim, harea⟩
      refine ⟨raw', ?_, ?_⟩
      · rwa [Sequence.choices_push, htake]
      · rwa [Sequence.choices_push, htake]
    · rw [List.getElem?_concat_length, Option.some.injEq] at hagain
      subst hagain
      rw [List.take_left] at harea
      refine ⟨raw, ?_, fun j y hy hj => ?_⟩
      · rwa [Sequence.choices_push, List.take_left, ← hs]
      · rw [Sequence.choices_push, List.take_left] at hj
        exact eq_negInf_of_claimed hview hs hraw hx hopen hchoose hclaim harea hy hj
    · rw [List.getElem?_eq_none (by rw [List.length_append, List.length_singleton]; exact hgt)]
        at hagain
      cases hagain

/-! ## The strategies -/

/-- What the strategy of a candidate looks at. -/
def Origin.view : Origin → List α → List α
  | beam => Row.logSoftmax
  | sample => id
  | greedy => id

theorem Beam.unrepeated_of_search {p : Position α} {width : Nat} {found : Beam.Found α}
    (h : Beam.search p width true = .ok found) {candidate : Candidate α}
    (hmem : candidate ∈ found.best :: found.candidates) :
    Unrepeated p Row.logSoftmax candidate.choices ∧ candidate.origin = .beam := by
  obtain ⟨path, hpath, rfl⟩ := Beam.exists_path h hmem
  exact ⟨hpath.reached.unrepeated rowView_logSoftmax, rfl⟩

theorem Sample.unrepeated_of_run {p : Position α} {params : Sample.Params α}
    (hconstrained : params.constrained = true) {candidates : List (Candidate α)}
    (h : Sample.run p params = .ok candidates) {candidate : Candidate α}
    (hmem : candidate ∈ candidates) :
    Unrepeated p id candidate.choices ∧ candidate.origin = .sample := by
  obtain ⟨s, hs, hchoices, horigin⟩ := Sample.exists_reached h hmem
  rw [hconstrained] at hs
  exact ⟨hchoices ▸ hs.unrepeated rowView_id, horigin⟩

/-- Every strategy claims an area again only where it is forced to. -/
theorem claims_repeat_only_if_forced (p : Position α) :
    (∀ temperature candidate, Greedy.decode p temperature true = .ok candidate →
      Unrepeated p id candidate.choices) ∧
    (∀ width found, Beam.search p width true = .ok found →
      ∀ candidate ∈ found.best :: found.candidates,
        Unrepeated p Row.logSoftmax candidate.choices) ∧
    (∀ params candidates, params.constrained = true → Sample.run p params = .ok candidates →
      ∀ candidate ∈ candidates, Unrepeated p id candidate.choices) ∧
    (∀ params candidates, params.constrained = true → Pool.generate p params = .ok candidates →
      ∀ candidate ∈ candidates, Unrepeated p candidate.origin.view candidate.choices) := by
  refine ⟨?_, ?_, ?_, ?_⟩
  · intro temperature candidate hdecode
    obtain ⟨path, hpath, rfl⟩ := Greedy.exists_path hdecode
    exact hpath.reached.unrepeated rowView_id
  · intro width found hfound candidate hmem
    exact (Beam.unrepeated_of_search hfound hmem).1
  · intro params candidates hconstrained hrun candidate hmem
    exact (Sample.unrepeated_of_run hconstrained hrun hmem).1
  · intro params candidates hconstrained hgenerate candidate hmem
    obtain ⟨c, hchoices, horigin, hsource⟩ := Pool.exists_of_mem_generate hgenerate hmem
    rw [hconstrained] at hsource
    rw [hchoices, horigin]
    rcases hsource with ⟨width, found, hfound, hc⟩ | ⟨samples, sampled, hsamples, hrun, hc⟩
    · obtain ⟨hunrepeated, hview⟩ := Beam.unrepeated_of_search hfound (List.mem_cons_of_mem _ hc)
      rw [hview]
      exact hunrepeated
    · obtain ⟨hunrepeated, hview⟩ := Sample.unrepeated_of_run hsamples hrun hc
      rw [hview]
      exact hunrepeated

/-- Two units that can only go to one and the same area. -/
def crowded : Position Stark :=
  Stark.position 2 [Stark.row 11 [(10, 0)], Stark.row 11 [(10, 0)]]

def crowdedCandidate (origin : Origin) : Candidate Stark :=
  { choices := [⟨10, .move 0 1⟩, ⟨10, .move 1 1⟩], score := 0, origin }

def crowdedSamples : Sample.Params Stark :=
  { numSamples := 2, temperature := 1, topK := 2, constrained := true, seed := 7 }

def crowdedPool : Pool.Params Stark :=
  { numCandidates := 1, beamWidth := 1, temperature := 1, topK := 2, constrained := true,
    oversample := 1, seed := 7 }

/-- Both units go there, whatever the strategy, and are forced to. -/
theorem crowded_forced :
    (Greedy.decode crowded 1 true = .ok (crowdedCandidate .greedy) ∧
      Forced crowded id (crowdedCandidate .greedy).choices 1) ∧
    (Beam.search crowded 2 true = .ok ⟨crowdedCandidate .beam, [crowdedCandidate .beam]⟩ ∧
      Forced crowded Row.logSoftmax (crowdedCandidate .beam).choices 1) ∧
    (Sample.run crowded crowdedSamples = .ok (List.replicate 2 (crowdedCandidate .sample)) ∧
      Forced crowded id (crowdedCandidate .sample).choices 1) ∧
    (Pool.generate crowded crowdedPool = .ok [crowdedCandidate .beam] ∧
      Forced crowded Row.logSoftmax (crowdedCandidate .beam).choices 1) := by
  have hagain (origin : Origin) : ClaimsAgain (crowdedCandidate origin).choices 1 :=
    ⟨⟨10, .move 1 1⟩, 1, rfl, rfl, List.mem_singleton_self 1⟩
  have hgreedy : Greedy.decode crowded 1 true = .ok (crowdedCandidate .greedy) := by
    decide +kernel
  have hbeam : Beam.search crowded 2 true =
      .ok ⟨crowdedCandidate .beam, [crowdedCandidate .beam]⟩ := by
    decide +kernel
  have hsample : Sample.run crowded crowdedSamples
      = .ok (List.replicate 2 (crowdedCandidate .sample)) := by
    decide +kernel
  have hpool : Pool.generate crowded crowdedPool = .ok [crowdedCandidate .beam] := by
    decide +kernel
  obtain ⟨greedy, beam, sample, pool⟩ := claims_repeat_only_if_forced crowded
  exact ⟨⟨hgreedy, (greedy _ _ hgreedy).forced 1 (hagain _)⟩,
    ⟨hbeam, (beam _ _ hbeam _ List.mem_cons_self).forced 1 (hagain _)⟩,
    ⟨hsample, (sample _ _ rfl hsample _ List.mem_cons_self).forced 1 (hagain _)⟩,
    ⟨hpool, (pool _ _ rfl hpool _ List.mem_cons_self).forced 1 (hagain _)⟩⟩

end OrderDecoding
