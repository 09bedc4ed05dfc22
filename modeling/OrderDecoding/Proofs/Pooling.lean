/-
# `Proofs.Pooling` — what a pool is made of

A pool makes no candidates of its own.  It takes those of a beam search and
of samples, drops some, and puts another score to the rest.
-/
import OrderDecoding.Pool
import OrderDecoding.Proofs.Forking

namespace OrderDecoding

variable {α : Type}

theorem Pool.distinct_sublist (candidates : List (Candidate α)) :
    (Pool.distinct candidates).Sublist candidates := by
  induction candidates with
  | nil => exact List.Sublist.refl []
  | cons c rest ih => exact (List.filter_sublist.trans ih).cons_cons c

theorem mem_of_mem_select {n : Nat} {candidates : List (Candidate α)} {c : Candidate α}
    (h : c ∈ Pool.select n candidates) : c ∈ candidates := by
  unfold Pool.select at h
  split at h
  · exact List.mem_of_mem_take h
  · exact (Pool.distinct_sublist candidates).subset (List.mem_of_mem_take h)

variable [Score α]

/-- A candidate with the score of its replay. -/
def Candidate.scored {β : Type} (p : Position α) (c : Candidate β) :
    Except DecodeError (Candidate α) := do
  let score ← p.sequenceLogProb c.choices
  .ok { choices := c.choices, score, origin := c.origin }

theorem Candidate.scored_eq_ok_iff {β : Type} {p : Position α} {c : Candidate β}
    {d : Candidate α} : c.scored p = .ok d ↔
      ∃ score, p.sequenceLogProb c.choices = .ok score ∧
        d = { choices := c.choices, score, origin := c.origin } :=
  bind_eq_ok_iff.trans (exists_congr fun _ => and_congr_right fun _ =>
    ⟨fun h => (Except.ok.inj h).symm, fun h => congrArg Except.ok h.symm⟩)

theorem Candidate.scored_eq_error_iff {β : Type} {p : Position α} {c : Candidate β}
    {e : DecodeError} : c.scored p = .error e ↔ p.sequenceLogProb c.choices = .error e :=
  bind_eq_error_iff.trans (or_iff_left fun ⟨_, _, h⟩ => nomatch h)

/-- Candidates are rescored by the position's workers. -/
theorem Pool.rescore_eq_forkJoin (p : Position α) (candidates : List (Candidate α)) :
    Pool.rescore p candidates = p.workers.forkJoin candidates (Candidate.scored p) := rfl

/-- Rescoring that goes well puts a score to each candidate. -/
theorem Pool.rescore_eq_ok_iff {p : Position α} {candidates rescored : List (Candidate α)} :
    Pool.rescore p candidates = .ok rescored ↔
      candidates.mapM (Candidate.scored p) = .ok rescored :=
  Workers.forkJoin_eq_ok_iff

/-- Rescoring puts another score to a candidate and leaves the rest. -/
theorem Pool.exists_of_mem_rescore {p : Position α} {candidates rescored : List (Candidate α)}
    (h : Pool.rescore p candidates = .ok rescored) {c : Candidate α} (hc : c ∈ rescored) :
    ∃ d ∈ candidates, c.choices = d.choices ∧ c.origin = d.origin := by
  obtain ⟨d, hd, hscored⟩ := exists_of_mem_mapM (Pool.rescore_eq_ok_iff.mp h) hc
  obtain ⟨score, -, rfl⟩ := Candidate.scored_eq_ok_iff.mp hscored
  exact ⟨d, hd, rfl, rfl⟩

/-- Candidates of a pool are those of the beam search and the samples, with
another score. -/
theorem Pool.exists_of_mem_build {p : Position α} {beam sampled candidates : List (Candidate α)}
    {n : Nat} (h : Pool.build p beam sampled n = .ok candidates) {candidate : Candidate α}
    (hmem : candidate ∈ candidates) :
    ∃ c, (c ∈ beam ∨ c ∈ sampled) ∧ candidate.choices = c.choices ∧
      candidate.origin = c.origin := by
  obtain ⟨c, hc, hchoices, horigin⟩ := Pool.exists_of_mem_rescore h hmem
  exact ⟨c, List.mem_append.mp (mem_of_mem_select hc), hchoices, horigin⟩

/-- A generated pool is made of what one beam search and one run of samples
found, both constrained as the pool is. -/
theorem Pool.exists_of_mem_generate {p : Position α} {params : Pool.Params α}
    {candidates : List (Candidate α)} (h : Pool.generate p params = .ok candidates)
    {candidate : Candidate α} (hmem : candidate ∈ candidates) :
    ∃ c : Candidate α, candidate.choices = c.choices ∧ candidate.origin = c.origin ∧
      ((∃ width found, Beam.search p width params.constrained = .ok found ∧
        c ∈ found.candidates) ∨
      ∃ samples sampled, samples.constrained = params.constrained ∧
        Sample.run p samples = .ok sampled ∧ c ∈ sampled) := by
  unfold Pool.generate at h
  split at h
  · cases h
  obtain ⟨found, hfound, h⟩ := bind_eq_ok_iff.mp h
  obtain ⟨sampled, hsampled, hbuild⟩ := bind_eq_ok_iff.mp h
  obtain ⟨c, hc, hchoices, horigin⟩ := Pool.exists_of_mem_build hbuild hmem
  refine ⟨c, hchoices, horigin, ?_⟩
  rcases hc with hc | hc
  · exact Or.inl ⟨_, found, hfound, hc⟩
  · unfold Pool.topUp at hsampled
    dsimp only at hsampled
    split at hsampled
    · cases hsampled
      cases hc
    · exact Or.inr ⟨_, sampled, rfl, hsampled, hc⟩

end OrderDecoding
