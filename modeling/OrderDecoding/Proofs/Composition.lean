/-
# `Proofs.Composition` — what stands where in a pool

A pool begins with everything that its beam search found.  That takes two
facts about the search: no two of its candidates are the same, so that none
is dropped as a duplicate (`nodup_signature_search`), and there are no more
of them than the pool has room for (`length_search_le`).  After them come
samples, each the first of its signature, in the order in which they were
drawn, as many as there is still room for (`select_append`).

Rescoring changes no choice and no origin, and it leaves the scores of the
beam search as they are.  So a pool fails only where its search fails or its
samples do (`exists_generate_iff`).
-/
import OrderDecoding.Proofs.Frontier
import OrderDecoding.Proofs.Pooling
import OrderDecoding.Proofs.Rescoring
import OrderDecoding.Proofs.Streams

namespace OrderDecoding

namespace Pool

variable {α : Type}

/-! ## Distinct candidates -/

theorem nodup_distinct (candidates : List (Candidate α)) :
    ((distinct candidates).map Candidate.signature).Nodup := by
  induction candidates with
  | nil => exact List.nodup_nil
  | cons c rest ih =>
    rw [distinct, List.map_cons]
    refine List.nodup_cons.mpr ⟨fun hc => ?_, (List.filter_sublist.map _).nodup ih⟩
    obtain ⟨d, hd, hsame⟩ := List.mem_map.mp hc
    exact of_decide_eq_true (List.mem_filter.mp hd).2 hsame

/-- What is dropped has the signature of something that stays. -/
theorem signature_mem_distinct {candidates : List (Candidate α)} {c : Candidate α}
    (h : c ∈ candidates) : c.signature ∈ (distinct candidates).map Candidate.signature := by
  induction candidates with
  | nil => cases h
  | cons d rest ih =>
    rw [distinct, List.map_cons]
    by_cases hsame : c.signature = d.signature
    · exact hsame ▸ List.mem_cons_self
    · rcases List.mem_cons.mp h with rfl | h
      · exact absurd rfl hsame
      · obtain ⟨c', hc', heq⟩ := List.mem_map.mp (ih h)
        refine List.mem_cons_of_mem _ (List.mem_map.mpr ⟨c', List.mem_filter.mpr ⟨hc', ?_⟩, heq⟩)
        exact decide_eq_true (heq ▸ hsame)

/-- Of the candidates those that have none of the signatures before them,
be it among some `earlier` ones or among themselves. -/
def fresh (earlier candidates : List (Candidate α)) : List (Candidate α) :=
  (distinct candidates).filter fun c => c.signature ∉ earlier.map Candidate.signature

theorem fresh_sublist (earlier candidates : List (Candidate α)) :
    (fresh earlier candidates).Sublist candidates :=
  List.filter_sublist.trans (distinct_sublist candidates)

theorem distinct_append {first rest : List (Candidate α)}
    (h : (first.map Candidate.signature).Nodup) :
    distinct (first ++ rest) = first ++ fresh first rest := by
  induction first with
  | nil =>
    rw [List.nil_append, List.nil_append, fresh, List.filter_eq_self.mpr]
    exact fun c _ => decide_eq_true List.not_mem_nil
  | cons c first ih =>
    obtain ⟨hnew, hfirst⟩ := List.nodup_cons.mp h
    have hkept : first.filter (fun d => d.signature ≠ c.signature) = first := by
      refine List.filter_eq_self.mpr fun d hd => decide_eq_true fun hsame => ?_
      exact hnew (List.mem_map.mpr ⟨d, hd, hsame⟩)
    rw [List.cons_append, distinct, ih hfirst, List.filter_append, hkept, fresh, fresh,
      List.filter_filter, List.cons_append]
    congr 2
    refine List.filter_congr fun d _ => ?_
    rw [List.map_cons, Bool.eq_iff_iff, Bool.and_eq_true, decide_eq_true_iff, decide_eq_true_iff,
      decide_eq_true_iff, List.mem_cons, not_or]

/-- What is fresh has other signatures than what came before. -/
theorem nodup_append_fresh {first : List (Candidate α)}
    (h : (first.map Candidate.signature).Nodup) (rest : List (Candidate α)) :
    ((first ++ fresh first rest).map Candidate.signature).Nodup :=
  distinct_append h ▸ nodup_distinct (first ++ rest)

/-- No signature is missing from what came before and what is fresh. -/
theorem signature_mem_append_fresh {first rest : List (Candidate α)}
    (h : (first.map Candidate.signature).Nodup) {c : Candidate α} (hc : c ∈ rest) :
    c.signature ∈ (first ++ fresh first rest).map Candidate.signature :=
  distinct_append h ▸ signature_mem_distinct (List.mem_append_right first hc)

/-- A selection keeps distinct candidates that come first, and fills up with
what is fresh. -/
theorem select_append {n : Nat} {first rest : List (Candidate α)} (hsome : first ≠ [])
    (hroom : first.length ≤ n) (h : (first.map Candidate.signature).Nodup) :
    select n (first ++ rest) = first ++ (fresh first rest).take (n - first.length) := by
  have htake : (distinct (first ++ rest)).take n =
      first ++ (fresh first rest).take (n - first.length) := by
    rw [distinct_append h, List.take_append, List.take_of_length_le hroom]
  cases first with
  | nil => exact absurd rfl hsome
  | cons c first => rw [select, htake, List.cons_append]

variable [Score α]

/-! ## Rescoring -/

/-- Rescoring puts other scores to the same candidates. -/
theorem rescore_keeps {γ : Type} {g : Candidate α → γ}
    (hscore : ∀ (c : Candidate α) (score : α), g { c with score } = g c) {p : Position α}
    {candidates rescored : List (Candidate α)} (h : rescore p candidates = .ok rescored) :
    rescored.map g = candidates.map g := by
  refine map_eq_of_mapM (fun c d hcd => ?_) (rescore_eq_ok_iff.mp h)
  obtain ⟨score, -, rfl⟩ := Candidate.scored_eq_ok_iff.mp hcd
  exact hscore c score

theorem rescore_append_eq_ok_iff {p : Position α} {first rest rescored : List (Candidate α)} :
    rescore p (first ++ rest) = .ok rescored ↔ ∃ first', rescore p first = .ok first' ∧
      ∃ rest', rescore p rest = .ok rest' ∧ rescored = first' ++ rest' := by
  simp only [rescore_eq_ok_iff]
  rw [List.mapM_append]
  refine bind_eq_ok_iff.trans (exists_congr fun first' => and_congr_right fun _ =>
    bind_eq_ok_iff.trans (exists_congr fun rest' => and_congr_right fun _ => ?_))
  exact ⟨fun h => (Except.ok.inj h).symm, fun h => congrArg Except.ok h.symm⟩

/-! ## Samples -/

theorem topUp_eq_ok_iff {p : Position α} {params : Params α} {missing : Nat}
    {sampled : List (Candidate α)} : topUp p params missing = .ok sampled ↔
      ((params.samples missing).numSamples = 0 ∧ sampled = []) ∨
      (0 < (params.samples missing).numSamples ∧
        Sample.run p (params.samples missing) = .ok sampled) := by
  rw [topUp]
  by_cases hnone : (params.samples missing).numSamples = 0
  · rw [if_pos hnone, Except.ok.injEq, eq_comm]
    exact ⟨fun h => Or.inl ⟨hnone, h⟩, fun h => h.elim And.right fun h => absurd hnone h.1.ne'⟩
  · rw [if_neg hnone]
    exact ⟨fun h => Or.inr ⟨Nat.pos_of_ne_zero hnone, h⟩,
      fun h => h.elim (fun h => absurd h.1 hnone) And.right⟩

theorem exists_topUp_iff {p : Position α} {params : Params α} {missing : Nat} :
    (∃ sampled, topUp p params missing = .ok sampled) ↔
      (0 < (params.samples missing).numSamples →
        ∃ sampled, Sample.run p (params.samples missing) = .ok sampled) := by
  constructor
  · rintro ⟨sampled, h⟩ hsome
    rcases topUp_eq_ok_iff.mp h with ⟨hnone, -⟩ | ⟨-, hrun⟩
    · exact absurd hnone hsome.ne'
    · exact ⟨sampled, hrun⟩
  · intro h
    rcases Nat.eq_zero_or_pos (params.samples missing).numSamples with hnone | hsome
    · exact ⟨[], topUp_eq_ok_iff.mpr (Or.inl ⟨hnone, rfl⟩)⟩
    · obtain ⟨sampled, hrun⟩ := h hsome
      exact ⟨sampled, topUp_eq_ok_iff.mpr (Or.inr ⟨hsome, hrun⟩)⟩

/-- A sample is complete and tells where it is from. -/
theorem complete_of_topUp {p : Position α} {params : Params α} {missing : Nat}
    {sampled : List (Candidate α)} (h : topUp p params missing = .ok sampled)
    {c : Candidate α} (hc : c ∈ sampled) : c.choices.length = p.numSteps ∧ c.origin = .sample := by
  rcases topUp_eq_ok_iff.mp h with ⟨-, rfl⟩ | ⟨hsome, hrun⟩
  · cases hc
  obtain ⟨-, walkers, hwalkers, rfl⟩ := (Sample.run_eq_ok_iff hsome).mp hrun
  obtain ⟨w, hw, rfl⟩ := List.mem_map.mp hc
  exact ⟨Sample.length_takeSteps hwalkers w hw, rfl⟩

/-! ## Pools -/

/-- A pool of at most `n` candidates: those that a beam search found, and
then the rest, which stems from samples. -/
structure Composed (p : Position α) (n : Nat) (found sampled rest : List (Candidate α)) :
    Prop where
  origin : ∀ c ∈ rest, c.origin = .sample
  /-- The rest comes in the order in which it was drawn. -/
  drawn : (rest.map (·.choices)).Sublist (sampled.map (·.choices))
  distinct : ((found ++ rest).map Candidate.signature).Nodup
  nonempty : 1 ≤ (found ++ rest).length
  length_le : (found ++ rest).length ≤ n
  /-- Where there is room left, no sample is missing. -/
  filled : (found ++ rest).length < n →
    ∀ c ∈ sampled, c.signature ∈ (found ++ rest).map Candidate.signature
  complete : ∀ c ∈ found ++ rest, c.choices.length = p.numSteps
  replayed : ∀ c ∈ found ++ rest, c.Replayed p

theorem generate_eq_ok_iff {p : Position α} {params : Params α} {pool : List (Candidate α)} :
    generate p params = .ok pool ↔ 0 < params.numCandidates ∧ ∃ found,
      Beam.search p (min params.beamWidth params.numCandidates) params.constrained = .ok found ∧
      ∃ sampled, topUp p params (params.numCandidates - found.candidates.length) = .ok sampled ∧
        build p found.candidates sampled params.numCandidates = .ok pool := by
  rw [generate]
  by_cases hnone : params.numCandidates = 0
  · rw [if_pos hnone]
    exact ⟨nofun, fun h => absurd hnone h.1.ne'⟩
  · rw [if_neg hnone]
    refine bind_eq_ok_iff.trans ?_
    refine ⟨fun ⟨found, hfound, h⟩ => ⟨Nat.pos_of_ne_zero hnone, found, hfound, ?_⟩,
      fun ⟨_, found, hfound, h⟩ => ⟨found, hfound, bind_eq_ok_iff.mpr h⟩⟩
    exact bind_eq_ok_iff.mp h

variable [LawfulScore α]

/-- What a search and samples found can be rescored. -/
theorem exists_build {p : Position α} {params : Params α} {width missing : Nat}
    {constrained : Bool} {found : Beam.Found α} {sampled : List (Candidate α)}
    (hfound : Beam.search p width constrained = .ok found)
    (hsampled : topUp p params missing = .ok sampled) (n : Nat) :
    ∃ pool, build p found.candidates sampled n = .ok pool := by
  refine exists_rescore fun c hc => ?_
  rcases List.mem_append.mp (mem_of_mem_select hc) with hc | hc
  · exact (Searched.beam hfound (List.mem_cons_of_mem _ hc)).replayed.replayable
  · rcases topUp_eq_ok_iff.mp hsampled with ⟨-, rfl⟩ | ⟨-, hrun⟩
    · cases hc
    · exact (Decoded.sampled hrun hc).replayable

/-- A pool fails only where its search or its samples do. -/
theorem exists_generate_iff {p : Position α} {params : Params α} :
    (∃ pool, generate p params = .ok pool) ↔ 0 < params.numCandidates ∧ ∃ found,
      Beam.search p (min params.beamWidth params.numCandidates) params.constrained = .ok found ∧
      ∃ sampled, topUp p params (params.numCandidates - found.candidates.length)
        = .ok sampled := by
  constructor
  · rintro ⟨pool, h⟩
    obtain ⟨hsome, found, hfound, sampled, hsampled, -⟩ := generate_eq_ok_iff.mp h
    exact ⟨hsome, found, hfound, sampled, hsampled⟩
  · rintro ⟨hsome, found, hfound, sampled, hsampled⟩
    obtain ⟨pool, hpool⟩ := exists_build hfound hsampled params.numCandidates
    exact ⟨pool, generate_eq_ok_iff.mpr ⟨hsome, found, hfound, sampled, hsampled, hpool⟩⟩

omit [LawfulScore α] in
/-- Distinct candidates that are replayed already stand in a pool as they
are, and after them what is fresh, rescored. -/
theorem exists_rest_of_build {p : Position α} {n : Nat} {first sampled pool : List (Candidate α)}
    (hsome : first ≠ []) (hroom : first.length ≤ n)
    (hnodup : (first.map Candidate.signature).Nodup) (hreplayed : ∀ c ∈ first, c.Replayed p)
    (h : build p first sampled n = .ok pool) : ∃ rest, pool = first ++ rest ∧
      rescore p ((fresh first sampled).take (n - first.length)) = .ok rest := by
  rw [build, select_append hsome hroom hnodup] at h
  obtain ⟨first', hsame, rest, hrest, rfl⟩ := rescore_append_eq_ok_iff.mp h
  rw [rescore_eq_self hreplayed, Except.ok.injEq] at hsame
  exact ⟨rest, hsame ▸ rfl, hrest⟩

/-- A pool is composed of all that its search found, then of samples. -/
theorem composed_of_build {p : Position α} (hunits : 0 < p.numSteps) {params : Params α}
    {width missing n : Nat} {constrained : Bool} {found : Beam.Found α}
    {sampled pool : List (Candidate α)} (hwidth : width ≤ n)
    (hfound : Beam.search p width constrained = .ok found)
    (hsampled : topUp p params missing = .ok sampled)
    (h : build p found.candidates sampled n = .ok pool) :
    ∃ rest, pool = found.candidates ++ rest ∧
      Composed p n found.candidates sampled rest := by
  have hnodup := Beam.nodup_signature_search hunits hfound
  have hsome : found.candidates ≠ [] :=
    List.ne_nil_of_mem (List.mem_of_mem_head? (Beam.head?_candidates hfound))
  have hroom : found.candidates.length ≤ n :=
    Nat.le_trans (Beam.length_search_le hunits hfound) hwidth
  have hreplayed : ∀ c ∈ found.candidates, c.Replayed p := fun c hc =>
    (Searched.beam hfound (List.mem_cons_of_mem _ hc)).replayed
  obtain ⟨rest, hpool, hrest⟩ :=
    exists_rest_of_build hsome hroom hnodup hreplayed h
  refine ⟨rest, hpool, ?_⟩
  set kept := (fresh found.candidates sampled).take (n - found.candidates.length) with hkept
  have hsublist : kept.Sublist sampled := (List.take_sublist _ _).trans (fresh_sublist _ _)
  have hsignatures : rest.map Candidate.signature = kept.map Candidate.signature :=
    rescore_keeps (fun _ _ => rfl) hrest
  have hlength : rest.length = kept.length := by
    rw [← List.length_map Candidate.signature, hsignatures, List.length_map]
  constructor
  case origin =>
    intro c hc
    obtain ⟨d, hd, -, horigin⟩ := exists_of_mem_rescore hrest hc
    exact horigin.trans (complete_of_topUp hsampled (hsublist.subset hd)).2
  case drawn =>
    have hchoices : rest.map (·.choices) = kept.map (·.choices) :=
      rescore_keeps (fun _ _ => rfl) hrest
    exact hchoices ▸ hsublist.map _
  case distinct =>
    have hdistinct := nodup_append_fresh hnodup sampled
    rw [List.map_append] at hdistinct
    rw [List.map_append, hsignatures]
    exact (((List.take_sublist _ _).map _).append_left _).nodup hdistinct
  case nonempty => exact List.length_pos_iff.mpr (List.append_ne_nil_of_left_ne_nil hsome rest)
  case length_le =>
    rw [List.length_append, hlength, hkept, List.length_take]
    omega
  case filled =>
    intro hlt c hc
    have hall : kept = fresh found.candidates sampled := by
      rw [List.length_append, hlength, hkept, List.length_take] at hlt
      exact List.take_of_length_le (by omega)
    have hmem := signature_mem_append_fresh hnodup hc
    rwa [List.map_append, ← hall, ← hsignatures, ← List.map_append] at hmem
  case complete =>
    intro c hc
    rcases List.mem_append.mp hc with hc | hc
    · obtain ⟨path, hpath, rfl⟩ := Beam.exists_path hfound (List.mem_cons_of_mem _ hc)
      exact hpath.length
    · obtain ⟨d, hd, hchoices, -⟩ := exists_of_mem_rescore hrest hc
      exact hchoices ▸ (complete_of_topUp hsampled (hsublist.subset hd)).1
  case replayed =>
    intro c hc
    rcases List.mem_append.mp hc with hc | hc
    · exact hreplayed c hc
    · exact replayed_of_mem_rescore hrest hc

/-- Without units there is one candidate, the empty one. -/
theorem eq_singleton_of_no_units {p : Position α} (hunits : p.numSteps = 0) {params : Params α}
    {pool : List (Candidate α)} (h : generate p params = .ok pool) :
    pool = [{ choices := [], score := 0, origin := .beam }] := by
  obtain ⟨hsome, found, hfound, sampled, hsampled, hbuild⟩ := generate_eq_ok_iff.mp h
  obtain ⟨rest, hfirst⟩ := List.head?_eq_some_iff.mp (Beam.head?_candidates hfound)
  rw [hfirst] at hbuild
  have hempty : ∀ c ∈ found.best :: found.candidates, c.choices = [] ∧ c.origin = .beam := by
    intro c hc
    obtain ⟨path, hpath, rfl⟩ := Beam.exists_path hfound hc
    exact ⟨List.eq_nil_of_length_eq_zero (hpath.length.trans hunits), rfl⟩
  have hsame : ∀ c ∈ rest ++ sampled, c.signature = [] := by
    intro c hc
    rw [Candidate.signature, List.map_eq_nil_iff]
    rcases List.mem_append.mp hc with hc | hc
    · exact (hempty c (hfirst ▸ List.mem_cons_of_mem _ (List.mem_cons_of_mem _ hc))).1
    · exact List.eq_nil_of_length_eq_zero ((complete_of_topUp hsampled hc).1.trans hunits)
  obtain ⟨hchoices, horigin⟩ := hempty found.best List.mem_cons_self
  have hbest : found.best.signature = [] := by rw [Candidate.signature, hchoices, List.map_nil]
  have hnone : fresh [found.best] (rest ++ sampled) = [] := by
    refine List.filter_eq_nil_iff.mpr fun c hc => ?_
    have hc := hsame c ((distinct_sublist _).subset hc)
    rw [hc, List.map_singleton, hbest, decide_eq_true_iff, not_not]
    exact List.mem_singleton_self _
  have hselect : select params.numCandidates ([found.best] ++ (rest ++ sampled))
      = [found.best] := by
    have hnodup : ([found.best].map Candidate.signature).Nodup := List.nodup_singleton _
    have hroom : [found.best].length ≤ params.numCandidates := hsome
    rw [select_append (List.cons_ne_nil _ _) hroom hnodup, hnone, List.take_nil, List.append_nil]
  have hscore : rescore p [found.best] = .ok [⟨found.best.choices, 0, found.best.origin⟩] := by
    refine rescore_eq_ok_iff.mpr
      (mapM_of_forall₂ (.cons (Candidate.scored_eq_ok_iff.mpr ⟨0, ?_, rfl⟩) .nil))
    rw [hchoices]
    rfl
  have hpool : rescore p (select params.numCandidates ([found.best] ++ (rest ++ sampled)))
      = .ok pool := hbuild
  rw [hselect, hscore, hchoices, horigin, Except.ok.injEq] at hpool
  exact hpool.symm

/-- A pool begins with the whole beam search, with its scores; what follows
are samples, none of them twice; each candidate is complete and scored by a
replay.  It fails only where the search or the samples do.  Without units
it holds the empty candidate and nothing else. -/
theorem generate_composed (p : Position α) (params : Params α) :
    (∀ pool, 0 < p.numSteps → generate p params = .ok pool → ∃ found sampled rest,
      Beam.search p (min params.beamWidth params.numCandidates) params.constrained = .ok found ∧
      topUp p params (params.numCandidates - found.candidates.length) = .ok sampled ∧
      pool = found.candidates ++ rest ∧
      Composed p params.numCandidates found.candidates sampled rest) ∧
    ((∃ pool, generate p params = .ok pool) ↔ 0 < params.numCandidates ∧ ∃ found,
      Beam.search p (min params.beamWidth params.numCandidates) params.constrained = .ok found ∧
      (0 < (params.samples (params.numCandidates - found.candidates.length)).numSamples →
        ∃ sampled, Sample.run p
          (params.samples (params.numCandidates - found.candidates.length)) = .ok sampled)) ∧
    (∀ pool, p.numSteps = 0 → generate p params = .ok pool →
      pool = [{ choices := [], score := 0, origin := .beam }]) := by
  refine ⟨fun pool hunits h => ?_, ?_, fun pool hunits h => eq_singleton_of_no_units hunits h⟩
  · obtain ⟨-, found, hfound, sampled, hsampled, hbuild⟩ := generate_eq_ok_iff.mp h
    obtain ⟨rest, hpool, hcomposed⟩ :=
      composed_of_build hunits (Nat.min_le_right _ _) hfound hsampled hbuild
    exact ⟨found, sampled, rest, hfound, hsampled, hpool, hcomposed⟩
  · refine exists_generate_iff.trans (and_congr_right fun _ => exists_congr fun found => ?_)
    exact and_congr_right fun _ => exists_topUp_iff

end Pool

/-- Two units.  Whether the first stays or disbands is all the same. -/
def tied : Position Stark :=
  Stark.position 2 [Stark.row 11 [(0, 0), (6, 0)], Stark.row 11 [(0, 0)]]

def tiedPool (seed : UInt64) : Pool.Params Stark :=
  { numCandidates := 3, beamWidth := 1, temperature := 1, topK := 0, constrained := true
    oversample := 2, seed }

/-- The search finds the first unit staying, and samples find it disbanding.
Without units all of them find the same. -/
theorem tied_composed :
    (Pool.generate tied (tiedPool 0) = .ok
        [⟨[⟨0, .hold 0⟩, ⟨0, .hold 1⟩], (0 : Float), .beam⟩,
          ⟨[⟨6, ⟨.disband, 0, none⟩⟩, ⟨0, .hold 1⟩], (0 : Float), .sample⟩] ∧
      0 < tied.numSteps) ∧
    (∃ found sampled rest, Beam.search tied 1 true = .ok found ∧
      Pool.topUp tied (tiedPool 0) (3 - found.candidates.length) = .ok sampled ∧
      Pool.Composed tied 3 found.candidates sampled rest) ∧
    (Stark.position 0 []).numSteps = 0 ∧
    Pool.generate (Stark.position 0 []) (tiedPool 0) = .ok [⟨[], (0 : Float), .beam⟩] := by
  have hpool : Pool.generate tied (tiedPool 0) = .ok
      [⟨[⟨0, .hold 0⟩, ⟨0, .hold 1⟩], (0 : Float), .beam⟩,
        ⟨[⟨6, ⟨.disband, 0, none⟩⟩, ⟨0, .hold 1⟩], (0 : Float), .sample⟩] := by decide +kernel
  have hsearch : Beam.search (Stark.position 0 []) 1 true =
      .ok ⟨⟨[], (0 : Float), .beam⟩, [⟨[], (0 : Float), .beam⟩]⟩ := by decide +kernel
  have hrun : Sample.run (Stark.position 0 []) ((tiedPool 0).samples 2) =
      .ok (List.replicate 4 ⟨[], (0 : Float), .sample⟩) := by decide +kernel
  obtain ⟨hcomposed, -, -⟩ := Pool.generate_composed tied (tiedPool 0)
  obtain ⟨found, sampled, rest, hfound, hsampled, -, hcomposed⟩ := hcomposed _ (by decide) hpool
  obtain ⟨-, hsome, hempty⟩ := Pool.generate_composed (Stark.position 0 []) (tiedPool 0)
  obtain ⟨pool, hgenerate⟩ := hsome.mpr ⟨by decide, _, hsearch, fun _ => ⟨_, hrun⟩⟩
  rw [hempty pool rfl hgenerate] at hgenerate
  exact ⟨⟨hpool, by decide⟩, ⟨found, sampled, rest, hfound, hsampled, hcomposed⟩, rfl, hgenerate⟩

end OrderDecoding
