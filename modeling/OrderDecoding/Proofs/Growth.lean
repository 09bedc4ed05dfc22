/-
# `Proofs.Growth` — asking for more

A pool for more candidates starts with the pool for fewer.  Nothing that
goes into it is disturbed: the beam search is the same as long as its width
is not capped, samples that were drawn are drawn again before the new ones
(`Sample.run_take`), a candidate is dropped only for one that stands before
it (`distinct_mono`), and each is rescored for itself (`rescore_mono`).

The cap is what the width must not exceed: a search for fewer candidates
than its width is a NARROWER search, and may find others.
-/
import OrderDecoding.Proofs.Composition

namespace OrderDecoding

variable {α : Type}

/-! ## Selecting -/

namespace Pool

theorem distinct_mono {first second : List (Candidate α)} (h : first <+: second) :
    distinct first <+: distinct second := by
  induction first generalizing second with
  | nil => exact List.nil_prefix
  | cons c first ih =>
    obtain ⟨rest, rfl⟩ := h
    rw [List.cons_append, distinct, distinct, List.cons_prefix_cons]
    exact ⟨rfl, (ih (List.prefix_append ..)).filter _⟩

/-- The very first candidate is kept anyway if there is room at all. -/
theorem select_eq_take {n : Nat} (hroom : 0 < n) (candidates : List (Candidate α)) :
    select n candidates = (distinct candidates).take n := by
  obtain ⟨n, rfl⟩ := Nat.exists_eq_succ_of_ne_zero hroom.ne'
  cases candidates <;> rfl

theorem select_mono {n m : Nat} (hroom : 0 < n) (hle : n ≤ m) {first second : List (Candidate α)}
    (h : first <+: second) : select n first <+: select m second := by
  rw [select_eq_take hroom, select_eq_take (Nat.lt_of_lt_of_le hroom hle)]
  exact ((distinct_mono h).take n).trans (List.take_prefix_take_left hle)

end Pool

variable [Score α]

/-! ## Searching and sampling -/

theorem Beam.width_pos_of_search {p : Position α} {width : Nat} {constrained : Bool}
    {found : Beam.Found α} (h : Beam.search p width constrained = .ok found) : 0 < width := by
  refine Nat.pos_of_ne_zero fun hzero => ?_
  rw [Beam.search, if_pos (Or.inl hzero)] at h
  cases h

/-- The first samples of a longer call are those of the shorter one. -/
theorem Sample.run_take {p : Position α} {params : Sample.Params α} {more : Nat}
    {candidates : List (Candidate α)} (hsome : 0 < params.numSamples)
    (hle : params.numSamples ≤ more)
    (h : Sample.run p { params with numSamples := more } = .ok candidates) :
    Sample.run p params = .ok (candidates.take params.numSamples) := by
  obtain ⟨htemperature, walkers, hwalkers, rfl⟩ :=
    (run_eq_ok_iff (Nat.lt_of_lt_of_le hsome hle)).mp h
  have hstart : (start { params with numSamples := more }).take params.numSamples
      = start params := by
    rw [start, ← List.map_take, List.take_range, Nat.min_eq_left hle]
    rfl
  have hfirst := List.forall₂_take params.numSamples (takeSteps_forkJoin_eq_ok_iff.mp hwalkers)
  rw [hstart] at hfirst
  exact (run_eq_ok_iff hsome).mpr
    ⟨htemperature, _, takeSteps_forkJoin_eq_ok_iff.mpr hfirst, List.map_take.symm⟩

namespace Pool

variable {p : Position α} {params : Params α}

theorem topUp_mono {n o missing more : Nat} (hmissing : missing ≤ more)
    (ho : params.oversample ≤ o) {sampled : List (Candidate α)}
    (h : topUp p { params with numCandidates := n, oversample := o } more = .ok sampled) :
    ∃ fewer, topUp p params missing = .ok fewer ∧ fewer <+: sampled := by
  have hle : missing * params.oversample ≤ more * o := Nat.mul_le_mul hmissing ho
  rcases Nat.eq_zero_or_pos (params.samples missing).numSamples with hnone | hsome
  · exact ⟨[], topUp_eq_ok_iff.mpr (Or.inl ⟨hnone, rfl⟩), List.nil_prefix⟩
  · rcases topUp_eq_ok_iff.mp h with ⟨hzero, -⟩ | ⟨-, hrun⟩
    · exact absurd hzero (Nat.lt_of_lt_of_le hsome hle).ne'
    · exact ⟨_, topUp_eq_ok_iff.mpr (Or.inr ⟨hsome, Sample.run_take hsome hle hrun⟩),
        List.take_prefix ..⟩

/-! ## Rescoring -/

theorem rescore_mono {first second rescored : List (Candidate α)} (h : first <+: second)
    (hrescored : rescore p second = .ok rescored) :
    ∃ rescored', rescore p first = .ok rescored' ∧ rescored' <+: rescored := by
  obtain ⟨rest, rfl⟩ := h
  obtain ⟨first', hfirst, rest', -, rfl⟩ := rescore_append_eq_ok_iff.mp hrescored
  exact ⟨first', hfirst, List.prefix_append ..⟩

theorem build_mono {n m : Nat} (hroom : 0 < n) (hle : n ≤ m)
    {found fewer sampled pool : List (Candidate α)} (h : fewer <+: sampled)
    (hpool : build p found sampled m = .ok pool) :
    ∃ pool', build p found fewer n = .ok pool' ∧ pool' <+: pool :=
  rescore_mono (select_mono hroom hle ((List.prefix_append_right_inj found).mpr h)) hpool

/-! ## Generating -/

/-- A pool for more candidates, with more samples for each that is missing,
starts with the pool for fewer: where there is the larger pool there is the
smaller one, and its candidates stand in front with the same orders, scores
and origins. -/
theorem generate_grows (p : Position α) (params : Params α) {n o : Nat}
    (hn : params.numCandidates ≤ n) (ho : params.oversample ≤ o)
    (hwidth : params.beamWidth ≤ params.numCandidates) {larger : List (Candidate α)}
    (h : generate p { params with numCandidates := n, oversample := o } = .ok larger) :
    ∃ pool, generate p params = .ok pool ∧ pool <+: larger := by
  obtain ⟨-, found, hfound, sampled, hsampled, hlarger⟩ := generate_eq_ok_iff.mp h
  have hsame : min params.beamWidth n = min params.beamWidth params.numCandidates := by
    rw [Nat.min_eq_left hwidth, Nat.min_eq_left (Nat.le_trans hwidth hn)]
  rw [hsame] at hfound
  have hroom : 0 < params.numCandidates :=
    Nat.lt_of_lt_of_le (Beam.width_pos_of_search hfound) (Nat.min_le_right ..)
  obtain ⟨fewer, hfewer, hfirst⟩ := topUp_mono (Nat.sub_le_sub_right hn _) ho hsampled
  obtain ⟨pool, hpool, hkept⟩ := build_mono hroom hn hfirst hlarger
  exact ⟨pool, generate_eq_ok_iff.mpr ⟨hroom, found, hfound, fewer, hfewer, hpool⟩, hkept⟩

end Pool

/-- Two units, and three things that the first can do as well. -/
def spreading : Position Stark :=
  Stark.position 2 [Stark.row 11 [(0, 0), (3, 0), (6, 0)], Stark.row 11 [(0, 0)]]

def spreadingPool : Pool.Params Stark :=
  { numCandidates := 2, beamWidth := 1, temperature := 1, topK := 0, constrained := true
    oversample := 1, seed := 1 }

def spreadingCandidate (kind : OrderKind) (origin : Origin) : Candidate Stark :=
  { choices := [⟨kind.index, ⟨kind, 0, none⟩⟩, ⟨0, .hold 1⟩], score := (0 : Float), origin }

/-- The one sample that tops up the smaller pool is the first of those that
top up the larger one. -/
theorem spreading_grows :
    (spreadingPool.numCandidates ≤ 3 ∧ spreadingPool.oversample ≤ 2 ∧
      spreadingPool.beamWidth ≤ spreadingPool.numCandidates) ∧
    Pool.generate spreading spreadingPool =
      .ok [spreadingCandidate .hold .beam, spreadingCandidate .disband .sample] ∧
    Pool.generate spreading { spreadingPool with numCandidates := 3, oversample := 2 } =
      .ok [spreadingCandidate .hold .beam, spreadingCandidate .disband .sample,
        spreadingCandidate .convoy .sample] ∧
    ∃ pool, Pool.generate spreading spreadingPool = .ok pool ∧
      pool <+: [spreadingCandidate .hold .beam, spreadingCandidate .disband .sample,
        spreadingCandidate .convoy .sample] := by
  have hsmaller : Pool.generate spreading spreadingPool =
      .ok [spreadingCandidate .hold .beam, spreadingCandidate .disband .sample] := by
    decide +kernel
  have hlarger : Pool.generate spreading { spreadingPool with numCandidates := 3, oversample := 2 } =
      .ok [spreadingCandidate .hold .beam, spreadingCandidate .disband .sample,
        spreadingCandidate .convoy .sample] := by
    decide +kernel
  have hle : spreadingPool.numCandidates ≤ 3 ∧ spreadingPool.oversample ≤ 2 ∧
      spreadingPool.beamWidth ≤ spreadingPool.numCandidates := by
    decide
  obtain ⟨hn, ho, hwidth⟩ := hle
  exact ⟨⟨hn, ho, hwidth⟩, hsmaller, hlarger,
    Pool.generate_grows spreading spreadingPool hn ho hwidth hlarger⟩

end OrderDecoding
