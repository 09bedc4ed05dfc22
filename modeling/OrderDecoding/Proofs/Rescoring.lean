/-
# `Proofs.Rescoring` — decoded scores are replayed scores

Greedy decoding and the beam search each add up the scores of their choices
in their own way while they go, and a replay does it in a third way
afterwards.  The three agree exactly, not up to rounding: all of them add
the same log-probabilities, those of the rows before the mask, from the
left and from zero.  For the beam search this rests on the mask: an entry
whose masked score differs from its log-probability never survives.

So rescoring what was found this way changes nothing, and rescoring
anything that was decoded does not fail.
-/
import OrderDecoding.Proofs.Pooling
import OrderDecoding.Proofs.Reached
import OrderDecoding.Proofs.Stark

namespace OrderDecoding

open Score LawfulScore

variable {α : Type} [Score α]

/-- The score of a candidate is that of a replay of its choices. -/
def Candidate.Replayed (p : Position α) (c : Candidate α) : Prop :=
  p.sequenceLogProb c.choices = .ok c.score

/-- The choices of a candidate can be replayed. -/
def Candidate.Replayable (p : Position α) (c : Candidate α) : Prop :=
  ∃ score, p.sequenceLogProb c.choices = .ok score

theorem Candidate.Replayed.replayable {p : Position α} {c : Candidate α} (h : c.Replayed p) :
    c.Replayable p := ⟨c.score, h⟩

/-- Candidates found by a pass of greedy decoding or by a beam search. -/
inductive Searched (p : Position α) : Candidate α → Prop
  | greedy {temperature : α} {constrained : Bool} {c : Candidate α} :
      Greedy.decode p temperature constrained = .ok c → Searched p c
  | beam {width : Nat} {constrained : Bool} {found : Beam.Found α} {c : Candidate α} :
      Beam.search p width constrained = .ok found → c ∈ found.best :: found.candidates →
        Searched p c

/-- Candidates that decoding gives out, by whichever way, rescored or
not. -/
inductive Decoded (p : Position α) : Candidate α → Prop
  | searched {c : Candidate α} : Searched p c → Decoded p c
  | sampled {params : Sample.Params α} {candidates : List (Candidate α)} {c : Candidate α} :
      Sample.run p params = .ok candidates → c ∈ candidates → Decoded p c
  | pooled {params : Pool.Params α} {candidates : List (Candidate α)} {c : Candidate α} :
      Pool.generate p params = .ok candidates → c ∈ candidates → Decoded p c
  | rescored {candidates rescored : List (Candidate α)} {c : Candidate α} :
      Pool.rescore p candidates = .ok rescored → c ∈ rescored → Decoded p c

/-! ## Rescoring -/

/-- What was rescored is replayed. -/
theorem replayed_of_mem_rescore {p : Position α} {candidates rescored : List (Candidate α)}
    (h : Pool.rescore p candidates = .ok rescored) {c : Candidate α} (hc : c ∈ rescored) :
    c.Replayed p := by
  obtain ⟨d, -, hscored⟩ := exists_of_mem_mapM (Pool.rescore_eq_ok_iff.mp h) hc
  obtain ⟨score, hscore, rfl⟩ := Candidate.scored_eq_ok_iff.mp hscored
  exact hscore

theorem rescore_eq_self {p : Position α} {candidates : List (Candidate α)}
    (h : ∀ c ∈ candidates, c.Replayed p) : Pool.rescore p candidates = .ok candidates := by
  refine Pool.rescore_eq_ok_iff.mpr (mapM_of_forall₂ (List.forall₂_same.mpr fun c hc => ?_))
  exact Candidate.scored_eq_ok_iff.mpr ⟨c.score, h c hc, rfl⟩

theorem exists_rescore {p : Position α} {candidates : List (Candidate α)}
    (h : ∀ c ∈ candidates, c.Replayable p) :
    ∃ rescored, Pool.rescore p candidates = .ok rescored := by
  refine Workers.exists_forkJoin fun c hc => ?_
  obtain ⟨score, hscore⟩ := h c hc
  exact ⟨_, Candidate.scored_eq_ok_iff.mpr ⟨score, hscore, rfl⟩⟩

theorem replayed_of_mem_generate {p : Position α} {params : Pool.Params α}
    {candidates : List (Candidate α)} (h : Pool.generate p params = .ok candidates)
    {c : Candidate α} (hc : c ∈ candidates) : c.Replayed p := by
  unfold Pool.generate at h
  split at h
  · cases h
  · obtain ⟨found, -, h⟩ := bind_eq_ok_iff.mp h
    obtain ⟨sampled, -, h⟩ := bind_eq_ok_iff.mp h
    exact replayed_of_mem_rescore h hc

/-! ## What is decoded -/

variable [LawfulScore α]

theorem Searched.replayed {p : Position α} {c : Candidate α} (h : Searched p c) :
    c.Replayed p := by
  cases h with
  | greedy h =>
    obtain ⟨path, hpath, rfl⟩ := Greedy.exists_path h
    exact hpath.replayed
  | beam h hc =>
    obtain ⟨path, hpath, rfl⟩ := Beam.exists_path h hc
    exact hpath.replayed

theorem Decoded.replayable {p : Position α} {c : Candidate α} (h : Decoded p c) :
    c.Replayable p := by
  cases h with
  | searched h => exact h.replayed.replayable
  | sampled h hc =>
    obtain ⟨s, hs, hchoices, -⟩ := Sample.exists_reached h hc
    rw [Candidate.Replayable, hchoices]
    exact hs.exists_sequenceLogProb
  | pooled h hc => exact (replayed_of_mem_generate h hc).replayable
  | rescored h hc => exact (replayed_of_mem_rescore h hc).replayable

/-- The scores of greedy decoding and of the beam search are exactly those
of a replay; samples can be replayed; and so rescoring leaves the former as
they are and does not fail on anything decoded. -/
theorem decoded_scores_are_replayed (p : Position α) :
    (∀ temperature constrained candidate,
      Greedy.decode p temperature constrained = .ok candidate →
        p.sequenceLogProb candidate.choices = .ok candidate.score) ∧
    (∀ width constrained found, Beam.search p width constrained = .ok found →
      ∀ candidate ∈ found.best :: found.candidates,
        p.sequenceLogProb candidate.choices = .ok candidate.score) ∧
    (∀ params candidates, Sample.run p params = .ok candidates →
      ∀ candidate ∈ candidates, ∃ score, p.sequenceLogProb candidate.choices = .ok score) ∧
    (∀ candidates, (∀ c ∈ candidates, Searched p c) →
      Pool.rescore p candidates = .ok candidates) ∧
    (∀ candidates, (∀ c ∈ candidates, Decoded p c) →
      ∃ rescored, Pool.rescore p candidates = .ok rescored) :=
  ⟨fun _ _ _ h => (Searched.greedy h).replayed,
    fun _ _ _ h _ hc => (Searched.beam h hc).replayed,
    fun _ _ h _ hc => (Decoded.sampled h hc).replayable,
    fun _ h => rescore_eq_self fun c hc => (h c hc).replayed,
    fun _ h => exists_rescore fun c hc => (h c hc).replayable⟩

/-- Two units that would both go to one area; the second can also stay
where it is. -/
def contested : Position Stark :=
  Stark.position 2 [Stark.row 11 [(10, 0)], Stark.row 11 [(10, 0), (0, -200)]]

/-- The first unit goes, the second stays. -/
def contestedCandidate (origin : Origin) : Candidate Stark :=
  { choices := [⟨10, .move 0 1⟩, ⟨0, .hold 1⟩], score := (-200 : Float), origin }

def contestedSamples : Sample.Params Stark :=
  { numSamples := 1, temperature := 1, topK := 0, constrained := true, seed := 3 }

/-- The mask costs the second unit its best entry, and the score of that is
the same in the search and in the replay. -/
theorem contested_replayed :
    (Greedy.decode contested 1 true = .ok (contestedCandidate .greedy) ∧
      Beam.search contested 3 true = .ok ⟨contestedCandidate .beam, [contestedCandidate .beam]⟩ ∧
      Sample.run contested contestedSamples =
        .ok [{ contestedCandidate .sample with score := 0 }]) ∧
    (contested.sequenceLogProb (contestedCandidate .greedy).choices = .ok (-200 : Float) ∧
      contested.sequenceLogProb (contestedCandidate .beam).choices = .ok (-200 : Float) ∧
      (∃ score, contested.sequenceLogProb (contestedCandidate .sample).choices = .ok score) ∧
      Pool.rescore contested [contestedCandidate .greedy, contestedCandidate .beam] =
        .ok [contestedCandidate .greedy, contestedCandidate .beam] ∧
      ∃ rescored, Pool.rescore contested
        [contestedCandidate .beam, { contestedCandidate .sample with score := 0 }] =
          .ok rescored) := by
  have hgreedy : Greedy.decode contested 1 true = .ok (contestedCandidate .greedy) := by
    decide +kernel
  have hbeam : Beam.search contested 3 true =
      .ok ⟨contestedCandidate .beam, [contestedCandidate .beam]⟩ := by
    decide +kernel
  have hsample : Sample.run contested contestedSamples =
      .ok [{ contestedCandidate .sample with score := 0 }] := by
    decide +kernel
  obtain ⟨greedy, beam, sample, same, total⟩ := decoded_scores_are_replayed contested
  have hsearched : Searched contested (contestedCandidate .beam) :=
    .beam hbeam List.mem_cons_self
  refine ⟨⟨hgreedy, hbeam, hsample⟩, greedy _ _ _ hgreedy, beam _ _ _ hbeam _ List.mem_cons_self,
    sample _ _ hsample { contestedCandidate .sample with score := 0 } List.mem_cons_self,
    same _ ?_, total _ ?_⟩
  · intro c hc
    rcases List.mem_cons.mp hc with rfl | hc
    · exact .greedy hgreedy
    · obtain rfl := List.mem_singleton.mp hc
      exact hsearched
  · intro c hc
    rcases List.mem_cons.mp hc with rfl | hc
    · exact .searched hsearched
    · obtain rfl := List.mem_singleton.mp hc
      exact .sampled hsample List.mem_cons_self

end OrderDecoding
